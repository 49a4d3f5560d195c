import Bx.Text.Decimal
import Mathlib.Data.Nat.Digits.Defs

namespace Bx.Text

open List

theorem toNat_of_isDigit {c : Char} (h : c.isDigit) : 48 ≤ c.toNat ∧ c.toNat ≤ 57 := by
  simp only [Char.isDigit, Bool.and_eq_true, decide_eq_true_eq] at h
  exact ⟨UInt32.le_iff_toNat_le.1 h.1, UInt32.le_iff_toNat_le.1 h.2⟩

theorem digit?_of_isDigit {c : Char} (h : c.isDigit) : digit? c = some (c.toNat - 48) := by
  have hc : c.toNat < 128 := by have := toNat_of_isDigit h; omega
  simp [digit?, hc, h]

theorem toDigits_cons (n : Nat) : ∃ c cs, Nat.toDigits 10 n = c :: cs ∧ 48 ≤ c.toNat ∧ c.toNat ≤ 57 := by
  obtain ⟨c, cs, h⟩ := exists_cons_of_ne_nil (Nat.toDigits_ne_nil (b := 10) (n := n))
  exact ⟨c, cs, h, toNat_of_isDigit (Nat.isDigit_of_mem_toDigits (b := 10) (n := n) (by decide) (by decide) (by simp [h]))⟩

theorem length_toDigits_pow (k : Nat) : (Nat.toDigits 10 (10 ^ k)).length = k + 1 := by
  induction k with
  | zero => rfl
  | succ k ih =>
    have hk : 0 < 10 ^ k := Nat.pow_pos (by decide)
    rw [Nat.toDigits_eq_if (by decide), if_neg (by omega), length_append, Nat.pow_succ, Nat.mul_div_cancel _ (by decide), ih]
    rfl

theorem toList_toString (n : Nat) : (toString n).toList = Nat.toDigits 10 n := by
  rw [Nat.toString_eq_ofList_toDigits, String.toList_ofList]

namespace Numeral

theorem digits?_of_isDigit {acc : List Nat} {cs : List Char} (h : ∀ c ∈ cs, c.isDigit) :
    digits? acc cs = some (acc.reverse ++ cs.map fun c => c.toNat - 48, []) := by
  induction cs generalizing acc with
  | nil => simp [digits?]
  | cons c cs ih =>
    have hc : c.isDigit := h c (by simp)
    have hne : c ≠ '_' := by
      rintro rfl
      cases hc
    rw [digits?, digit?_of_isDigit hc]
    · simp [ih fun d hd => h d (by simp [hd])]
    · exact fun _ _ hu _ => hne hu

theorem ofDigits_map (cs : List Char) : ofDigits (cs.map fun c => c.toNat - 48) = Nat.ofDigitChars 10 cs 0 := by
  rw [ofDigits, foldl_map, Nat.ofDigitChars_eq_foldl]
  rfl

theorem natural_toDigits (n : Nat) : natural (Nat.toDigits 10 n) =
    if maxDigits < (Nat.toDigits 10 n).length then .error (.tooLong (Nat.toDigits 10 n).length) else .ok n := by
  have hd : ∀ c ∈ Nat.toDigits 10 n, c.isDigit := fun c hc => Nat.isDigit_of_mem_toDigits (by decide) (by decide) hc
  rw [natural, digits?_of_isDigit hd, reverse_nil, nil_append]
  cases hds : (Nat.toDigits 10 n).map fun c => c.toNat - 48 with
  | nil => exact absurd (map_eq_nil_iff.1 hds) Nat.toDigits_ne_nil
  | cons d ds =>
    simp only
    rw [← hds, length_map, ofDigits_map, Nat.ofDigitChars_ten_toDigits]
    simp

theorem read_digits {cs : List Char} (hne : cs ≠ []) (h : ∀ c ∈ cs, c.isDigit) :
    read (String.ofList cs) = (natural cs).map fun n => (n : Int) := by
  cases cs with
  | nil => exact absurd rfl hne
  | cons c cs =>
    have hc : c.isDigit := h c (by simp)
    have hm : isMargin c = false := by
      have := toNat_of_isDigit hc
      rw [Bool.eq_false_iff]
      intro hm
      simp only [isMargin, isBlank, Bool.and_eq_true, Bool.or_eq_true, decide_eq_true_eq, beq_iff_eq] at hm
      omega
    rw [read, String.toList_ofList, dropWhile_cons_of_neg (by simp [hm])]
    split
    · next heq =>
        cases heq
        cases hc
    · next heq =>
        cases heq
        cases hc
    · rfl

theorem read_toString (n : Nat) : read (toString n) =
    if maxDigits < (toString n).length then .error (.tooLong (toString n).length) else .ok n := by
  rw [Nat.toString_eq_ofList_toDigits, read_digits Nat.toDigits_ne_nil fun c hc => Nat.isDigit_of_mem_toDigits (by decide) (by decide) hc,
    natural_toDigits, String.length_ofList]
  split <;> rfl

end Numeral

theorem toDigits_head {n : Nat} (h : 0 < n) : ∃ c cs, Nat.toDigits 10 n = c :: cs ∧ '1' ≤ c ∧ c ≤ '9' := by
  induction n using Nat.strongRecOn with
  | _ n ih =>
    rw [Nat.toDigits_eq_if (by decide)]
    split
    · next hn =>
        have hd : ∀ k < 10, 0 < k → '1' ≤ Nat.digitChar k ∧ Nat.digitChar k ≤ '9' := by decide
        exact ⟨_, [], rfl, hd n hn h⟩
    · next hn =>
        obtain ⟨c, cs, hc, hr⟩ := ih (n / 10) (Nat.div_lt_self h (by decide)) (Nat.div_pos (by omega) (by decide))
        exact ⟨c, cs ++ [(n % 10).digitChar], by rw [hc]; rfl, hr⟩

end Bx.Text
