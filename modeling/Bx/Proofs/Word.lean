import Bx.Word
import Mathlib.Algebra.Order.Field.Power
import Mathlib.Algebra.Order.Field.Rat
import Mathlib.Data.Nat.Cast.Order.Field
import Mathlib.Tactic.Linarith
import Mathlib.Tactic.Positivity
import Mathlib.Tactic.Ring

namespace Bx.Word

section Rounding

variable {a b n : Nat}

def nearest (a b : Nat) : Nat :=
  if 2 * (a % b) < b ∨ (2 * (a % b) = b ∧ a / b % 2 = 0) then a / b else a / b + 1

theorem nearest_mul_le (hb : b ≠ 0) (h : b ≤ a) : nearest a b * b ≤ 2 * a := by
  have hq : 1 ≤ a / b := Nat.div_pos h (Nat.pos_of_ne_zero hb)
  calc
    nearest a b * b ≤ (2 * (a / b)) * b := by
      refine Nat.mul_le_mul_right b ?_
      rw [nearest]
      split <;> omega
    _ ≤ 2 * a := by
      rw [Nat.mul_assoc]
      exact Nat.mul_le_mul_left 2 (Nat.div_mul_le_self a b)

theorem nearest_of_dvd (hb : b ≠ 0) (h : b ∣ a) : nearest a b = a / b := by
  rw [nearest, Nat.mod_eq_zero_of_dvd h, if_pos (by omega)]

def exponent (a b : Nat) : Int :=
  let k : Int := (a.log2 : Int) - b.log2
  if (if 0 ≤ k then b * Nat.pow 2 k.toNat ≤ a else b ≤ a * Nat.pow 2 (-k).toNat) then k else k - 1

theorem mul_zpow_exponent_le (ha : a ≠ 0) (b : Nat) : (b : ℚ) * 2 ^ exponent a b ≤ a := by
  have hlow : ((2 : ℚ) ^ (a.log2 : Int)) ≤ a := by exact_mod_cast Nat.log2_self_le ha
  have hhigh : (b : ℚ) ≤ 2 ^ ((b.log2 : Int) + 1) := by exact_mod_cast (Nat.lt_log2_self (n := b)).le
  by_cases hfits : if 0 ≤ (a.log2 : Int) - b.log2 then b * Nat.pow 2 ((a.log2 : Int) - b.log2).toNat ≤ a
      else b ≤ a * Nat.pow 2 (-((a.log2 : Int) - b.log2)).toNat
  · rw [show exponent a b = (a.log2 : Int) - b.log2 from if_pos hfits]
    split at hfits
    next hk =>
      obtain ⟨k, hk⟩ := Int.eq_ofNat_of_zero_le hk
      rw [hk] at hfits ⊢
      exact_mod_cast hfits
    next hk =>
      obtain ⟨k, hk⟩ := Int.eq_ofNat_of_zero_le (show 0 ≤ -((a.log2 : Int) - b.log2) by omega)
      rw [hk] at hfits
      rw [show (a.log2 : Int) - b.log2 = -k by omega, zpow_neg, ← div_eq_mul_inv, div_le_iff₀ (by positivity)]
      exact_mod_cast hfits
  · rw [show exponent a b = (a.log2 : Int) - b.log2 - 1 from if_neg hfits]
    calc
      (b : ℚ) * 2 ^ ((a.log2 : Int) - b.log2 - 1) ≤ 2 ^ ((b.log2 : Int) + 1) * 2 ^ ((a.log2 : Int) - b.log2 - 1) := by gcongr
      _ = 2 ^ (a.log2 : Int) := by
        rw [← zpow_add₀ two_ne_zero]
        congr 1
        ring
      _ ≤ a := hlow

def roundedTo (a b : Nat) (e : Int) : Nat :=
  if 0 ≤ e then nearest a (b * 2 ^ e.toNat) * 2 ^ e.toNat else nearest (a * 2 ^ (-e).toNat) b / 2 ^ (-e).toNat

theorem roundedQuotient_eq (ha : a ≠ 0) (hb : b ≠ 0) : roundedQuotient a b = roundedTo a b (exponent a b - 52) := by
  have hfold : ∀ e : Int, roundedTo a b e =
      let num := if 0 ≤ e then a else a * Nat.pow 2 (-e).toNat
      let den := if 0 ≤ e then b * Nat.pow 2 e.toNat else b
      if 0 ≤ e then nearest num den * Nat.pow 2 e.toNat else nearest num den / Nat.pow 2 (-e).toNat := by
    intro e
    by_cases he : 0 ≤ e <;> simp only [roundedTo, he, if_true, if_false] <;> rfl
  rw [roundedQuotient, if_neg (by omega), hfold]
  rfl

theorem roundedQuotient_cases (ha : a ≠ 0) (hb : b ≠ 0) :
    (∃ n ≠ 0, b * n * 2 ^ 52 ≤ a ∧ roundedQuotient a b = nearest a (b * n) * n) ∨
      ∃ n ≠ 0, b * 2 ^ 52 ≤ a * n ∧ roundedQuotient a b = nearest (a * n) b / n := by
  have hle := mul_zpow_exponent_le ha b
  rw [roundedQuotient_eq ha hb, roundedTo]
  split
  next he =>
    obtain ⟨k, hk⟩ := Int.eq_ofNat_of_zero_le he
    refine .inl ⟨2 ^ k, by positivity, ?_, by rw [hk]; rfl⟩
    rw [show exponent a b = ((k + 52 : Nat) : Int) by omega, zpow_natCast, pow_add, ← mul_assoc] at hle
    exact_mod_cast hle
  next he =>
    obtain ⟨k, hk⟩ := Int.eq_ofNat_of_zero_le (show 0 ≤ -(exponent a b - 52) by omega)
    refine .inr ⟨2 ^ k, by positivity, ?_, by rw [hk]; rfl⟩
    rw [show exponent a b = ((52 : Nat) : Int) - (k : Nat) by omega, zpow_sub₀ two_ne_zero, zpow_natCast, zpow_natCast, ← mul_div_assoc,
      div_le_iff₀ (by positivity)] at hle
    exact_mod_cast hle

theorem roundedQuotient_mul_le (hb : b ≠ 0) : roundedQuotient a b * b ≤ 2 * a := by
  by_cases ha : a = 0
  · simp [roundedQuotient, ha]
  obtain ⟨n, hn, hle, heq⟩ | ⟨n, hn, hle, heq⟩ := roundedQuotient_cases ha hb
  · rw [heq, Nat.mul_right_comm, Nat.mul_assoc]
    exact nearest_mul_le (Nat.mul_ne_zero hb hn) (by omega)
  · have hdiv : nearest (a * n) b / n * n ≤ nearest (a * n) b := Nat.div_mul_le_self _ _
    rw [heq]
    refine Nat.le_of_mul_le_mul_right ?_ (Nat.pos_of_ne_zero hn)
    calc
      nearest (a * n) b / n * b * n = nearest (a * n) b / n * n * b := Nat.mul_right_comm _ _ _
      _ ≤ nearest (a * n) b * b := Nat.mul_le_mul_right b hdiv
      _ ≤ 2 * (a * n) := nearest_mul_le hb (by omega)
      _ = 2 * a * n := (Nat.mul_assoc _ _ _).symm

theorem nearest_div (hb : b ≠ 0) (hn : n ≠ 0) (ha : a ≤ 2 ^ 53) (hle : b * 2 ^ 52 ≤ a * n) : nearest (a * n) b / n = a / b := by
  have hfloor : a * n / b / n = a / b := by
    rw [Nat.div_div_eq_div_mul, Nat.mul_div_mul_right _ _ (Nat.pos_of_ne_zero hn)]
  rw [nearest]
  split
  next => exact hfloor
  next hup =>
    rw [Nat.succ_div, hfloor, if_neg, Nat.add_zero]
    rintro ⟨t, ht⟩
    have hmod := Nat.div_add_mod (a * n) b
    have hlt := Nat.mod_lt (a * n) (Nat.pos_of_ne_zero hb)
    -- The next integer `t` is at least `1 / b` away, which is more than half of `1 / n` unless `b` is `2 * n`.
    have hsum : b * (n * t) + a * n % b = a * n + b := by
      rw [← ht, Nat.mul_succ]
      omega
    have hnext : a + 1 ≤ b * t := by
      by_contra hge
      have := Nat.mul_le_mul_left n (show b * t ≤ a by omega)
      nlinarith
    have hfar : n + a * n % b ≤ b := by
      have := Nat.mul_le_mul_left n hnext
      nlinarith
    have hle' : a * n ≤ 2 ^ 53 * n := Nat.mul_le_mul_right n ha
    obtain rfl : b = 2 * n := by omega
    have hexact : a = 2 ^ 53 := Nat.le_antisymm ha (Nat.le_of_mul_le_mul_right (by omega) (Nat.pos_of_ne_zero hn))
    have hzero : a * n % (2 * n) = 0 := by
      rw [hexact, show 2 ^ 53 * n = 2 ^ 52 * (2 * n) by ring, Nat.mul_mod_left]
    omega

theorem roundedQuotient_eq_div (ha : a ≤ 2 ^ 53) : roundedQuotient a b = a / b := by
  by_cases hzero : a = 0 ∨ b = 0
  · rw [roundedQuotient, if_pos hzero]
    rcases hzero with rfl | rfl <;> simp
  obtain ⟨ha0, hb0⟩ : a ≠ 0 ∧ b ≠ 0 := not_or.1 hzero
  obtain ⟨n, hn, hle, heq⟩ | ⟨n, hn, hle, heq⟩ := roundedQuotient_cases ha0 hb0
  · have hbn : b * n ≠ 0 := Nat.mul_ne_zero hb0 hn
    have hdvd : b * n ∣ a := by
      obtain h | ⟨h, rfl⟩ : b * n = 1 ∨ b * n = 2 ∧ a = 2 ^ 53 := by omega
      · exact h ▸ one_dvd a
      · rw [h]
        exact ⟨2 ^ 52, rfl⟩
    rw [heq, nearest_of_dvd hbn hdvd, ← Nat.div_div_eq_div_mul, Nat.div_mul_cancel (Nat.dvd_div_of_mul_dvd hdvd)]
  · rw [heq, nearest_div hb0 hn ha hle]

end Rounding

section Quotient

variable {a b : Int}

def quotientSign (a b : Int) : Int := if (a < 0) = (b < 0) then 1 else -1

theorem quotientSign_eq (a b : Int) : quotientSign a b = 1 ∨ quotientSign a b = -1 := by
  rw [quotientSign]
  split <;> simp

theorem quotient_eq (a b : Int) : quotient a b = quotientSign a b * roundedQuotient a.natAbs b.natAbs := by
  rw [quotient, quotientSign]
  split <;> simp

theorem tdiv_eq (a b : Int) : a.tdiv b = quotientSign a b * (a.natAbs / b.natAbs : Nat) := by
  have hpos : ∀ n : Nat, ¬(n : Int) < 0 := by omega
  have hneg : ∀ n, Int.negSucc n < 0 := Int.negSucc_lt_zero
  cases a with
  | ofNat m =>
    cases b with
    | ofNat n => simp [Int.tdiv, quotientSign, hpos]
    | negSucc n => simp [Int.tdiv, quotientSign, hpos, hneg]
  | negSucc m =>
    cases b with
    | ofNat n => simp [Int.tdiv, quotientSign, hpos, hneg]
    | negSucc n => simp [Int.tdiv, quotientSign, hneg]

theorem quotient_eq_tdiv (h : a.natAbs ≤ 2 ^ 53) : quotient a b = a.tdiv b := by
  rw [quotient_eq, tdiv_eq, roundedQuotient_eq_div h]

theorem natAbs_quotient_le (hb : b ≠ 0) : (quotient a b).natAbs ≤ 2 * a.natAbs := by
  have hle : roundedQuotient a.natAbs b.natAbs * b.natAbs ≤ 2 * a.natAbs := roundedQuotient_mul_le (Int.natAbs_ne_zero.2 hb)
  have hpos : 0 < b.natAbs := Int.natAbs_pos.2 hb
  rw [quotient_eq]
  rcases quotientSign_eq a b with h | h <;> rw [h] <;> simp <;> nlinarith

theorem mul_quotient_near (hb : b ≠ 0) : (b * quotient a b - b * a.tdiv b).natAbs < a.natAbs + b.natAbs := by
  have hle : roundedQuotient a.natAbs b.natAbs * b.natAbs ≤ 2 * a.natAbs := roundedQuotient_mul_le (Int.natAbs_ne_zero.2 hb)
  have hfloor := Nat.div_add_mod a.natAbs b.natAbs
  have hmod := Nat.mod_lt a.natAbs (Int.natAbs_pos.2 hb)
  have hsign : (quotientSign a b).natAbs = 1 := by
    rcases quotientSign_eq a b with h | h <;> rw [h] <;> rfl
  rw [quotient_eq, tdiv_eq, ← Int.mul_sub, ← Int.mul_sub, Int.natAbs_mul, Int.natAbs_mul, hsign, Nat.one_mul]
  generalize roundedQuotient a.natAbs b.natAbs = q at hle ⊢
  generalize a.natAbs / b.natAbs = t at hfloor ⊢
  rcases Nat.le_total t q with h | h
  · obtain ⟨k, rfl⟩ := Nat.exists_eq_add_of_le h
    rw [show (((t + k : Nat) : Int) - t).natAbs = k by omega]
    rw [Nat.mul_comm, Nat.mul_add] at hle
    omega
  · obtain ⟨k, rfl⟩ := Nat.exists_eq_add_of_le h
    rw [show ((q : Int) - ((q + k : Nat) : Int)).natAbs = k by omega]
    rw [Nat.mul_add] at hfloor
    omega

end Quotient

section Operators

theorem toSigned_toNat (u : BitVec 64) : toSigned u.toNat = u.toInt := by
  have hu := u.isLt
  rw [BitVec.toInt_eq_toNat_cond, toSigned]
  simp only [half, size]
  omega

theorem ofInt_eq_toNat (z : Int) : ofInt z = (BitVec.ofInt 64 z).toNat := by
  rw [BitVec.toNat_ofInt, ofInt]
  simp only [size]
  omega

theorem eq_of_ofInt_eq {x y : Int} (h : BitVec.ofInt 64 x = BitVec.ofInt 64 y) (hnear : (x - y).natAbs < 2 ^ 64) : x = y := by
  have hmod := congrArg (fun w : BitVec 64 => (w.toNat : Int)) h
  simp only [← ofInt_eq_toNat, ofInt, size] at hmod
  omega

def Binop.fault? (op : Binop) (v : BitVec 64) : Option Fault :=
  match op with
  | .div | .mod => if v = 0 then some .divisionByZero else none
  | .shl | .shr => if v.toInt < 0 then some .negativeShift else none
  | _ => none

def Binop.value (op : Binop) (u v : BitVec 64) : BitVec 64 :=
  match op with
  | .add => u + v
  | .sub => u - v
  | .mul => u * v
  | .div => BitVec.ofInt 64 (quotient u.toInt v.toInt)
  | .mod => BitVec.ofInt 64 (u.toInt - v.toInt * quotient u.toInt v.toInt)
  | .and => u &&& v
  | .or => u ||| v
  | .xor => u ^^^ v
  | .shl => u <<< v.toNat
  | .shr => u.sshiftRight v.toNat

def Unop.value (op : Unop) (u : BitVec 64) : BitVec 64 :=
  match op with
  | .neg => -u
  | .not => ~~~u

theorem Unop.eval_toNat (op : Unop) (u : BitVec 64) : op.eval u.toNat = (op.value u).toNat := by
  cases op with
  | neg => rw [Unop.eval, toSigned_toNat, ofInt_eq_toNat, BitVec.ofInt_neg, BitVec.ofInt_toInt, Unop.value]
  | not =>
    rw [Unop.eval, toSigned_toNat, ofInt_eq_toNat, Int.sub_eq_add_neg, BitVec.ofInt_add, BitVec.ofInt_neg, BitVec.ofInt_toInt,
      Unop.value, BitVec.not_eq_neg_add, BitVec.sub_eq_add_neg]
    rfl

theorem bitwise_toNat (f : Nat → Nat → Nat) (u v : BitVec 64) : bitwise f u.toNat v.toNat = f u.toNat v.toNat := by
  have hword : ∀ w : BitVec 64, ofInt w.toNat = w.toNat := by
    intro w
    have hw := w.isLt
    rw [ofInt]
    simp only [size]
    omega
  rw [bitwise, hword, hword, Int.toNat_natCast, Int.toNat_natCast]

theorem divide_toInt (u v : BitVec 64) : divide u.toInt v.toInt =
    if v = 0 then .error .divisionByZero else .ok (quotient u.toInt v.toInt) := by
  have hzero : v.toInt = 0 ↔ v = 0 := by rw [← BitVec.toInt_inj]; rfl
  rw [divide]
  simp only [hzero]
  split
  next => rfl
  next hv =>
    have hle : (quotient u.toInt v.toInt).natAbs ≤ 2 * u.toInt.natAbs := natAbs_quotient_le (mt hzero.1 hv)
    have hu := BitVec.toInt_lt (x := u)
    have hu' := BitVec.le_toInt (x := u)
    rw [if_pos]
    by_cases hq : (quotient u.toInt v.toInt).natAbs = 0
    · simp [hq]
    · exact ((Nat.log2_lt hq).2 (show _ < 2 ^ 65 by omega)).trans (by decide)

theorem Binop.eval_toNat (op : Binop) (u v : BitVec 64) : op.eval u.toNat v.toNat =
    match op.fault? v with
    | some f => .error f
    | none => .ok (op.value u v).toNat := by
  have hsub : ∀ x y : Int, BitVec.ofInt 64 (x - y) = BitVec.ofInt 64 x - BitVec.ofInt 64 y := by
    intro x y
    rw [Int.sub_eq_add_neg, BitVec.ofInt_add, BitVec.ofInt_neg, BitVec.sub_eq_add_neg]
  have hcount : ¬v.toInt < 0 → v.toInt = v.toNat := fun h => BitVec.toInt_eq_toNat_of_msb (by rw [BitVec.msb_eq_toInt]; simpa using h)
  cases op with
  | add => simp [Binop.eval, Binop.fault?, Binop.value, toSigned_toNat, ofInt_eq_toNat, BitVec.ofInt_add]
  | sub => simp [Binop.eval, Binop.fault?, Binop.value, toSigned_toNat, ofInt_eq_toNat, hsub]
  | mul => simp [Binop.eval, Binop.fault?, Binop.value, toSigned_toNat, ofInt_eq_toNat, BitVec.ofInt_mul]
  | and | or | xor => simp [Binop.eval, Binop.fault?, Binop.value, bitwise_toNat]
  | div | mod =>
    simp only [Binop.eval, Binop.fault?, Binop.value, toSigned_toNat, divide_toInt]
    split <;> simp [Except.map, ofInt_eq_toNat]
  | shl =>
    simp only [Binop.eval, Binop.fault?, Binop.value, toSigned_toNat]
    split
    next => rfl
    next h =>
      simp only [hcount h, Int.toNat_natCast, ofInt_eq_toNat, Except.ok.injEq]
      split
      next =>
        have hpow : BitVec.ofInt 64 (2 ^ v.toNat) = BitVec.twoPow 64 v.toNat := by
          apply BitVec.eq_of_toNat_eq
          rw [BitVec.toNat_ofInt, BitVec.toNat_twoPow]
          exact_mod_cast rfl
        rw [Int.shiftLeft_eq, BitVec.ofInt_mul, BitVec.ofInt_toInt, hpow, BitVec.shiftLeft_eq_mul_twoPow]
      next hlarge =>
        rw [BitVec.shiftLeft_eq_zero (by omega)]
        rfl
  | shr =>
    simp only [Binop.eval, Binop.fault?, Binop.value, toSigned_toNat]
    split
    next => rfl
    next h =>
      simp only [hcount h, Int.toNat_natCast, ofInt_eq_toNat]
      rfl

end Operators

end Bx.Word
