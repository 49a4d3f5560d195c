import Bx.Proofs.Word
import Mathlib.Data.Int.Bitwise

namespace Bx.Word

variable {u v w : BitVec 64}

theorem getLsbD_ofInt (z : Int) (i : Nat) : (BitVec.ofInt 64 z).getLsbD i = (decide (i < 64) && z.testBit i) := by
  cases z with
  | ofNat m => rw [Int.ofNat_eq_natCast, BitVec.ofInt_natCast, BitVec.getLsbD_ofNat]; rfl
  | negSucc m =>
    rw [BitVec.ofInt_negSucc_eq_not_ofNat, BitVec.getLsbD_not, BitVec.getLsbD_ofNat, Int.testBit]
    by_cases hi : i < 64 <;> simp [hi]

theorem ofInt_bitwise {f : Bool → Bool → Bool} {g : Int → Int → Int} (hg : ∀ a b k, (g a b).testBit k = f (a.testBit k) (b.testBit k))
    (hw : ∀ i, i < 64 → w.getLsbD i = f (u.getLsbD i) (v.getLsbD i)) : ofInt (g (toSigned u.toNat) (toSigned v.toNat)) = w.toNat := by
  have hbit : ∀ (x : BitVec 64) i, i < 64 → x.toInt.testBit i = x.getLsbD i := by
    intro x i hi
    have := getLsbD_ofInt x.toInt i
    rwa [BitVec.ofInt_toInt, decide_eq_true hi, Bool.true_and, eq_comm] at this
  rw [toSigned_toNat, toSigned_toNat, ofInt_eq_toNat]
  congr 2
  apply BitVec.eq_of_getLsbD_eq
  intro i hi
  rw [getLsbD_ofInt, decide_eq_true hi, Bool.true_and, hg, hbit u i hi, hbit v i hi, hw i hi]

theorem sshiftRight_of_le {n : Nat} (h : 64 ≤ n) : u.sshiftRight n = if u.toInt < 0 then BitVec.allOnes 64 else 0#64 := by
  apply BitVec.eq_of_getLsbD_eq
  intro i hi
  rw [BitVec.getLsbD_sshiftRight, if_neg (by omega), BitVec.msb_eq_toInt, decide_eq_false (by omega)]
  split <;> simp_all only [decide_true, decide_false, BitVec.getLsbD_allOnes, BitVec.getLsbD_zero, Bool.and_false, Bool.not_false,
    Bool.and_self]

/-- Bitwise operations may as well be made on unbounded signed numbers and cut afterwards; shifts do not reduce their count.
-/
theorem operators_twosComplement (u v : BitVec 64) :
    (toSigned u.toNat = u.toInt ∧ ofInt (toSigned u.toNat) = u.toNat ∧ ∀ x, ofInt x = x % 2 ^ 64) ∧
    (Binop.add.eval u.toNat v.toNat = .ok (u + v).toNat ∧ Binop.sub.eval u.toNat v.toNat = .ok (u - v).toNat ∧
      Binop.mul.eval u.toNat v.toNat = .ok (u * v).toNat ∧ Unop.neg.eval u.toNat = (-u).toNat ∧
      Unop.not.eval u.toNat = (~~~u).toNat) ∧
    (Binop.and.eval u.toNat v.toNat = .ok (u &&& v).toNat ∧ Binop.or.eval u.toNat v.toNat = .ok (u ||| v).toNat ∧
      Binop.xor.eval u.toNat v.toNat = .ok (u ^^^ v).toNat ∧
      ofInt (Int.land (toSigned u.toNat) (toSigned v.toNat)) = (u &&& v).toNat ∧
      ofInt (Int.lor (toSigned u.toNat) (toSigned v.toNat)) = (u ||| v).toNat ∧
      ofInt (Int.xor (toSigned u.toNat) (toSigned v.toNat)) = (u ^^^ v).toNat) ∧
    (0 ≤ toSigned v.toNat →
      Binop.shl.eval u.toNat v.toNat = .ok (u.toNat * 2 ^ v.toNat % 2 ^ 64 : Nat) ∧
      Binop.shr.eval u.toNat v.toNat = .ok (u.sshiftRight v.toNat).toNat ∧
      (64 ≤ v.toNat → Binop.shl.eval u.toNat v.toNat = .ok 0 ∧
        Binop.shr.eval u.toNat v.toNat = .ok (if toSigned u.toNat < 0 then 2 ^ 64 - 1 else 0))) ∧
    (toSigned v.toNat < 0 → Binop.shl.eval u.toNat v.toNat = .error .negativeShift ∧
      Binop.shr.eval u.toNat v.toNat = .error .negativeShift) ∧
    (Cond.z.holds u.toNat = decide (u.toInt = 0) ∧ Cond.nz.holds u.toNat = decide (u.toInt ≠ 0) ∧
      Cond.l.holds u.toNat = decide (u.toInt < 0) ∧ Cond.le.holds u.toNat = decide (u.toInt ≤ 0) ∧
      Cond.nl.holds u.toNat = decide (0 ≤ u.toInt) ∧ Cond.nle.holds u.toNat = decide (0 < u.toInt)) := by
  have hzero : (u.toNat : Int) = 0 ↔ u.toInt = 0 := by
    rw [← toSigned_toNat, toSigned]
    simp only [half, size]
    have := u.isLt
    omega
  refine ⟨⟨toSigned_toNat u, ?_, fun _ => rfl⟩, ⟨Binop.eval_toNat .add u v, Binop.eval_toNat .sub u v, Binop.eval_toNat .mul u v,
    Unop.eval_toNat .neg u, Unop.eval_toNat .not u⟩, ⟨Binop.eval_toNat .and u v, Binop.eval_toNat .or u v,
    Binop.eval_toNat .xor u v, ofInt_bitwise Int.testBit_land ?_, ofInt_bitwise Int.testBit_lor ?_,
    ofInt_bitwise Int.testBit_lxor ?_⟩, ?_, ?_, ?_⟩
  · rw [toSigned_toNat, ofInt_eq_toNat, BitVec.ofInt_toInt]
  · exact fun i _ => BitVec.getLsbD_and
  · exact fun i _ => BitVec.getLsbD_or
  · exact fun i _ => BitVec.getLsbD_xor
  · intro hv
    rw [toSigned_toNat] at hv ⊢
    have hfault : ¬ v.toInt < 0 := by omega
    have hshl : Binop.shl.eval u.toNat v.toNat = .ok (u <<< v.toNat).toNat := by
      simp [Binop.eval_toNat, Binop.fault?, hfault, Binop.value]
    have hshr : Binop.shr.eval u.toNat v.toNat = .ok (u.sshiftRight v.toNat).toNat := by
      simp [Binop.eval_toNat, Binop.fault?, hfault, Binop.value]
    refine ⟨by rw [hshl, BitVec.toNat_shiftLeft, Nat.shiftLeft_eq], hshr, fun hlarge => ?_⟩
    rw [hshl, hshr, BitVec.shiftLeft_eq_zero hlarge, sshiftRight_of_le hlarge]
    refine ⟨rfl, ?_⟩
    split <;> rfl
  · intro hv
    rw [toSigned_toNat] at hv
    simp [Binop.eval_toNat, Binop.fault?, hv]
  · simp only [Cond.holds, toSigned_toNat, beq_eq_decide, bne, hzero]
    simp

/-- The quotient is rounded to double precision. Up to 2^53 it is cut toward zero, and the remainder goes with it; one
further the quotient by one is another number. -/
theorem division_exact (u v : BitVec 64) (hv : v ≠ 0) (hu : (toSigned u.toNat).natAbs ≤ 2 ^ 53) :
    Binop.div.eval u.toNat v.toNat = .ok (ofInt ((toSigned u.toNat).tdiv (toSigned v.toNat))) ∧
    Binop.mod.eval u.toNat v.toNat = .ok (ofInt ((toSigned u.toNat).tmod (toSigned v.toNat))) ∧
    (0 ≤ toSigned u.toNat → 0 ≤ (toSigned u.toNat).tmod (toSigned v.toNat)) ∧
    (toSigned u.toNat ≤ 0 → (toSigned u.toNat).tmod (toSigned v.toNat) ≤ 0) ∧
    ((toSigned u.toNat).tmod (toSigned v.toNat)).natAbs < (toSigned v.toNat).natAbs ∧
    Binop.div.eval (2 ^ 53 + 1) 1 ≠ .ok (2 ^ 53 + 1) := by
  have hb : toSigned v.toNat ≠ 0 := by
    rw [toSigned_toNat, Ne, ← BitVec.toInt_zero, BitVec.toInt_inj]
    exact hv
  have hdivide : divide (toSigned u.toNat) (toSigned v.toNat) = .ok ((toSigned u.toNat).tdiv (toSigned v.toNat)) := by
    rw [← quotient_eq_tdiv hu, toSigned_toNat, toSigned_toNat, divide_toInt, if_neg hv]
  refine ⟨by rw [Binop.eval, hdivide]; rfl, ?_, fun h => Int.tmod_nonneg _ h, ?_, ?_, ?_⟩
  · rw [Binop.eval, hdivide, Int.tmod_def]
    rfl
  · intro h
    have := Int.tmod_nonneg (toSigned v.toNat) (show 0 ≤ -toSigned u.toNat by omega)
    rw [Int.neg_tmod] at this
    omega
  · rw [Int.natAbs_tmod]
    exact Nat.mod_lt _ (Int.natAbs_pos.2 hb)
  · intro h
    exact absurd (congrArg Except.toOption h) (by decide +kernel)

theorem division_exact_seventh : (7 : BitVec 64) ≠ 0 ∧ (toSigned (BitVec.ofInt 64 (-2 ^ 53)).toNat).natAbs ≤ 2 ^ 53 ∧
    Binop.div.eval (BitVec.ofInt 64 (-2 ^ 53)).toNat (7 : BitVec 64).toNat = .ok (ofInt (-1286742750677284)) ∧
    Binop.mod.eval (BitVec.ofInt 64 (-2 ^ 53)).toNat (7 : BitVec 64).toNat = .ok (ofInt (-4)) := by
  obtain ⟨hdiv, hmod, -⟩ := division_exact (BitVec.ofInt 64 (-2 ^ 53)) 7 (by decide) (by decide)
  exact ⟨by decide, by decide, hdiv, hmod⟩

end Bx.Word
