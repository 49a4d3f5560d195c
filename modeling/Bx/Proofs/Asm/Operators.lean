import Bx.Proofs.Asm.Refinement
import Bx.Proofs.Word

namespace Bx.Asm

open Tac
open Tac.Body (Operators operands quotient?)

variable {op : Word.Binop} {d globals args : Datum} {p : Place}

section Agreement

variable {op : Word.Binop} {u v : BitVec 64}

def Agrees (op : Word.Binop) (u v : BitVec 64) : Prop :=
  match op with
  | .div | .mod => Word.quotient u.toInt v.toInt = u.toInt.tdiv v.toInt ∧ ¬(u.toInt = -Word.half ∧ v.toInt = -1)
  | .shl => v.toNat < 64 ∨ u <<< (v.toNat % 64) = 0
  | .shr => v.toNat < 64 ∨ u.sshiftRight (v.toNat % 64) = u.sshiftRight 63
  | _ => True

instance : Decidable (Agrees op u v) := by
  cases op <;> dsimp only [Agrees] <;> infer_instance

theorem quotient?_eq (hv : v ≠ 0) :
    quotient? u v = if u.toInt = -Word.half ∧ v.toInt = -1 then none else some (u.toInt.tdiv v.toInt) := by
  have hlt := BitVec.toInt_lt (x := u)
  have hle := BitVec.le_toInt u
  have hzero : v.toInt ≠ 0 := fun h => hv (BitVec.toInt_inj.1 h)
  have habs : (u.toInt.tdiv v.toInt).natAbs = u.toInt.natAbs / v.toInt.natAbs := Int.natAbs_tdiv _ _
  simp only [quotient?, hv, false_or, Word.half]
  by_cases hone : v.toInt = 1 ∨ v.toInt = -1
  · rcases hone with h | h
    · rw [h, Int.tdiv_one, if_neg (by omega), if_neg (by omega)]
    · rw [h, Int.tdiv_neg, Int.tdiv_one]
      by_cases hmin : u.toInt = -9223372036854775808
      · rw [if_pos (by omega), if_pos ⟨hmin, rfl⟩]
      · rw [if_neg (by omega), if_neg (by omega)]
  · have hhalf : u.toInt.natAbs / v.toInt.natAbs ≤ u.toInt.natAbs / 2 := Nat.div_le_div_left (by omega) (by omega)
    rw [if_neg (by omega), if_neg (by omega)]

theorem sshiftRight_of_le {n : Nat} (h : 64 ≤ n) (u : BitVec 64) : u.sshiftRight n = u.sshiftRight 63 := by
  ext i hi
  rw [BitVec.getElem_sshiftRight, BitVec.getElem_sshiftRight, dif_neg (by omega)]
  split
  next hlast =>
    obtain rfl : i = 0 := by omega
    exact BitVec.msb_eq_getLsbD_last u
  next => rfl

theorem toInt_ne_zero (hv : v ≠ 0) : v.toInt ≠ 0 := fun h => hv (BitVec.toInt_inj.1 h)

theorem mul_quotient_near (hv : v ≠ 0) :
    (v.toInt * Word.quotient u.toInt v.toInt - v.toInt * u.toInt.tdiv v.toInt).natAbs < 2 ^ 64 := by
  have hnear := Word.mul_quotient_near (a := u.toInt) (toInt_ne_zero hv)
  have hu := BitVec.toInt_lt (x := u)
  have hu' := BitVec.le_toInt u
  have hv := BitVec.toInt_lt (x := v)
  have hv' := BitVec.le_toInt v
  omega

theorem exact_of_quotient_eq (hv : v ≠ 0)
    (h : BitVec.ofInt 64 (u.toInt.tdiv v.toInt) = BitVec.ofInt 64 (Word.quotient u.toInt v.toInt)) :
    Word.quotient u.toInt v.toInt = u.toInt.tdiv v.toInt := by
  have hnear := mul_quotient_near (u := u) hv
  rw [← Int.mul_sub, Int.natAbs_mul] at hnear
  have hle := Nat.le_mul_of_pos_left (Word.quotient u.toInt v.toInt - u.toInt.tdiv v.toInt).natAbs
    (Int.natAbs_pos.2 (toInt_ne_zero hv))
  exact (Word.eq_of_ofInt_eq h (by omega)).symm

theorem exact_of_remainder_eq (hv : v ≠ 0) (h : BitVec.ofInt 64 (u.toInt - v.toInt * u.toInt.tdiv v.toInt) =
      BitVec.ofInt 64 (u.toInt - v.toInt * Word.quotient u.toInt v.toInt)) :
    Word.quotient u.toInt v.toInt = u.toInt.tdiv v.toInt := by
  have hnear := mul_quotient_near (u := u) hv
  have heq := Word.eq_of_ofInt_eq h (by omega)
  exact Int.eq_of_mul_eq_mul_left (toInt_ne_zero hv) (by omega)

theorem words_binop_iff (hv : op.fault? v = none) : Operators.words.binop op u v = some (op.value u v) ↔ Agrees op u v := by
  cases op with
  | add | sub | mul | and | or | xor => exact iff_of_true rfl trivial
  | shl =>
    simp only [Operators.words, Word.Binop.value, Agrees, Option.some.injEq]
    by_cases hsmall : v.toNat < 64
    · simp [hsmall, Nat.mod_eq_of_lt]
    · rw [BitVec.shiftLeft_eq_zero (Nat.le_of_not_lt hsmall), or_iff_right hsmall]
      rfl
  | shr =>
    simp only [Operators.words, Word.Binop.value, Agrees, Option.some.injEq]
    by_cases hsmall : v.toNat < 64
    · simp [hsmall, Nat.mod_eq_of_lt]
    · rw [sshiftRight_of_le (Nat.le_of_not_lt hsmall), or_iff_right hsmall]
  | div =>
    have hv : v ≠ 0 := by simpa [Word.Binop.fault?] using hv
    simp only [Operators.words, Word.Binop.value, Agrees, quotient?_eq hv]
    split
    next hmin => simp [hmin]
    next hmin =>
      simp only [Option.map_some, Option.some.injEq, hmin, not_false_eq_true, and_true]
      exact ⟨exact_of_quotient_eq hv, fun h => by rw [h]⟩
  | mod =>
    have hv : v ≠ 0 := by simpa [Word.Binop.fault?] using hv
    simp only [Operators.words, Word.Binop.value, Agrees, quotient?_eq hv]
    split
    next hmin => simp [hmin]
    next hmin =>
      simp only [Option.map_some, Option.some.injEq, hmin, not_false_eq_true, and_true]
      exact ⟨exact_of_remainder_eq hv, fun h => by rw [h]⟩

theorem agrees_of_small (hu : op = .div ∨ op = .mod → u.toInt.natAbs ≤ 2 ^ 53) (hv : op = .shl ∨ op = .shr → v.toNat < 64) :
    Agrees op u v := by
  cases op with
  | add | sub | mul | and | or | xor => trivial
  | div =>
    have hu := hu (.inl rfl)
    exact ⟨Word.quotient_eq_tdiv hu, by simp only [Word.half]; omega⟩
  | mod =>
    have hu := hu (.inr rfl)
    exact ⟨Word.quotient_eq_tdiv hu, by simp only [Word.half]; omega⟩
  | shl => exact .inl (hv (.inl rfl))
  | shr => exact .inl (hv (.inr rfl))

end Agreement

section Lines

variable {env : X64.Env} {lines : List Line} {s : X64.State} {x y d : Place}

def Leaves (env : X64.Env) (lines : List Line) (n : Nat) (s : X64.State) (d : Place) (w : Int) : Prop :=
  ∃ s', (X64.machine env lines).Slides n s s' ∧ s'.pc = s.pc + n ∧ ((X64.load s'.mem (X64.address env s' d)).toNat : Int) = w

theorem stores_load {n : Nat} {v : BitVec 64} {s' : X64.State} (h : X64.Stores env n s d v s') :
    X64.load s'.mem (X64.address env s' d) = v := by
  rw [h.mem, X64.address_congr env h.rbp, X64.load_store_self]

theorem binop_leaves_iff {w : Int} (hat : StandsAt lines s.pc (binop op x y d))
    (hw : op.eval (X64.load s.mem (X64.address env s x)).toNat (X64.load s.mem (X64.address env s y)).toNat = .ok w) :
    Leaves env lines (binop op x y d).length s d w ↔
      Agrees op (X64.load s.mem (X64.address env s x)) (X64.load s.mem (X64.address env s y)) := by
  generalize hu : X64.load s.mem (X64.address env s x) = u at hw ⊢
  generalize hv : X64.load s.mem (X64.address env s y) = v at hw ⊢
  obtain ⟨hvalue, htrap⟩ := X64.runs_binop hat hu hv
  rw [Word.Binop.eval_toNat] at hw
  split at hw
  next => cases hw
  next hfault =>
    cases hw
    rw [← words_binop_iff hfault]
    constructor
    · rintro ⟨s', hs', -, hload⟩
      cases hop : Operators.words.binop op u v with
      | none =>
        obtain ⟨k, hk, t, ht, hstop⟩ := htrap hop
        exact absurd (ht.reaches.le_of_stop hstop hs'.reaches) (Nat.not_le_of_lt hk)
      | some w =>
        obtain ⟨t, ht, hstores⟩ := hvalue w hop
        obtain rfl := hs'.reaches.det ht.reaches
        rw [stores_load hstores] at hload
        rw [BitVec.eq_of_toNat_eq (Int.ofNat_inj.1 hload)]
    · intro hop
      obtain ⟨t, ht, hstores⟩ := hvalue _ hop
      exact ⟨t, ht, hstores.pc, by rw [stores_load hstores]⟩

theorem unop_leaves {op : Word.Unop} (hat : StandsAt lines s.pc (unop op x d)) :
    Leaves env lines (unop op x d).length s d (op.eval (X64.load s.mem (X64.address env s x)).toNat) := by
  obtain ⟨t, ht, hstores⟩ := X64.runs_unop hat rfl
  refine ⟨t, ht, hstores.pc, ?_⟩
  rw [stores_load hstores, Word.Unop.eval_toNat]
  cases op <;> rfl

end Lines

section Emission

theorem ofOpcode_binop (op : Word.Binop) : Form.ofOpcode (.str op.name) = .ok (.binop op) := by
  cases op <;> rfl

theorem ofOpcode_unop (op : Word.Unop) : Form.ofOpcode (.str op.name) = .ok (.unop op) := by
  cases op <;> rfl

theorem Body.place_again {temps temps' temps₁ : Body.Temps} (h : Body.place d temps = .ok (p, temps'))
    (hm : Body.Meets temps' temps₁) : Body.place d temps₁ = .ok (p, temps₁) := by
  obtain ⟨x, rfl, -, hx, rfl⟩ := Body.place_spec h
  rw [Body.place] at h ⊢
  obtain ⟨known, hknown, h⟩ := bind_eq_ok.1 h
  cases known with
  | false => cases h
  | true =>
    have hidx := List.idxOf_eq_getD_idxOf? x temps₁
    rw [hknown, ok_bind, ← hm.slotOf_eq hx, Body.slotOf]
    simp only [if_true, Datum.string?, Option.getD_some]
    cases hk : temps₁.idxOf? x with
    | none => exact absurd (hm.mem hx) (List.idxOf?_eq_none_iff.1 hk)
    | some k =>
      rw [hk, Option.getD_some] at hidx
      rw [hidx]
      rfl

theorem Procedure.slot_again {f f' f₁ : Procedure.Frame} (h : Procedure.slot d f = .ok (p, f')) (hg : f'.Grows f₁) :
    Procedure.slot d f₁ = .ok (p, f₁) := by
  obtain ⟨ds, hds, -⟩ := hg
  rw [Procedure.slot] at h ⊢
  split at h
  next => cases h
  next hkey =>
    rw [if_neg hkey]
    split at h
    next e he =>
      cases h
      rw [hds, List.find?_append, he]
      rfl
    next he =>
      cases h
      have hself : d.same d := d.same_self (by simpa using hkey)
      rw [hds, List.find?_append, List.find?_append, he]
      simp [hself]

theorem Procedure.place_again {f f' f₁ : Procedure.Frame} (h : Procedure.place globals args d f = .ok (p, f'))
    (hg : f'.Grows f₁) : Procedure.place globals args d f₁ = .ok (p, f₁) := by
  rw [Procedure.place] at h ⊢
  obtain ⟨isGlobal, hglobal, h⟩ := bind_eq_ok.1 h
  rw [hglobal, ok_bind]
  split at h
  next =>
    obtain ⟨x, hx, h⟩ := bind_eq_ok.1 h
    cases h
    rw [if_pos ‹_›, hx]
    rfl
  next =>
    obtain ⟨isArg, harg, h⟩ := bind_eq_ok.1 h
    rw [if_neg ‹_›, harg, ok_bind]
    dsimp only at h ⊢
    split at h
    next =>
      obtain ⟨k, hk, h⟩ := bind_eq_ok.1 h
      rw [if_pos ‹_›, hk, ok_bind]
      split at h
      next =>
        cases h
        rw [if_pos ‹_›]
        rfl
      next =>
        rw [if_neg ‹_›]
        exact Procedure.slot_again h hg
    next =>
      rw [if_neg ‹_›]
      exact Procedure.slot_again h hg

theorem Procedure.run_locate_eq_ok {s s' : Procedure.State} : (Procedure.locate globals d args).run s = .ok (p, s') ↔
    ∃ f, Procedure.place globals args d s.frame = .ok (p, f) ∧ s' = { s with frame := f } := by
  rw [Procedure.run_locate, bind_eq_ok]
  constructor
  · rintro ⟨⟨q, f⟩, h, ⟨⟩⟩
    exact ⟨f, h, rfl⟩
  · rintro ⟨f, h, rfl⟩
    exact ⟨(p, f), h, rfl⟩

inductive Emitted (r : Record) : List Line → (Datum → Place → Prop) → Prop
  | body {target temps ls temps'} (h : Body.instr target r temps = .ok (ls, temps')) :
      Emitted r ls fun d p => Body.place d temps' = .ok (p, temps')
  | procedure {globals name st ls st' : _} (h : (Procedure.instr globals name r).run st = .ok (ls, st')) :
      Emitted r ls fun d p => Procedure.place globals r.args d st'.frame = .ok (p, st'.frame)

variable {r : Record} {ls : List Line} {located : Datum → Place → Prop}

theorem Emitted.binop (h : Emitted r ls located) (hop : r.opcode = .str op.name) :
    ∃ a b x y d, operands r.args = [a, b] ∧ located a x ∧ located b y ∧ located r.result d ∧ ls = Asm.binop op x y d := by
  cases h with
  | body h =>
    simp only [Body.instr, hop, ofOpcode_binop, ok_bind, bind_eq_ok, Prod.exists] at h
    obtain ⟨_, hcount, a, ha, x, temps₁, hx, b, hb, y, temps₂, hy, d, temps₃, hd, h⟩ := h
    cases h
    obtain ⟨-, -, hm₁, -⟩ := Body.place_spec hx
    obtain ⟨-, -, hm₂, -⟩ := Body.place_spec hy
    obtain ⟨-, -, hm₃, -⟩ := Body.place_spec hd
    exact ⟨a, b, x, y, d, Body.operands_of_two hcount ha hb, Body.place_again hx (hm₂.trans hm₃), Body.place_again hy hm₃,
      Body.place_again hd (.refl _), rfl⟩
  | procedure h =>
    obtain ⟨form, st₁, hform, h⟩ := run_bind_eq_ok.1 h
    obtain ⟨hform, rfl⟩ := run_lift_eq_ok.1 hform
    rw [hop, ofOpcode_binop] at hform
    cases hform
    simp only [Procedure.wrote, run_bind_eq_ok, run_lift_eq_ok, Procedure.run_locate_eq_ok,
      run_modify_eq_ok, run_pure_eq_ok] at h
    obtain ⟨_, _, ⟨hcount, rfl⟩, a, _, ⟨ha, rfl⟩, x, _, ⟨f₁, hx, rfl⟩, _, _, rfl, b, _, ⟨hb, rfl⟩, y, _, ⟨f₂, hy, rfl⟩, d, _,
      ⟨f₃, hd, rfl⟩, _, _, rfl, rfl, rfl⟩ := h
    have hg₂ := (Procedure.place_grows hy).1
    have hg₃ := (Procedure.place_grows hd).1
    exact ⟨a, b, x, y, d, Body.operands_of_two hcount ha hb, Procedure.place_again hx (hg₂.trans hg₃),
      Procedure.place_again hy hg₃, Procedure.place_again hd (.refl _), rfl⟩

theorem Emitted.unop {op : Word.Unop} (h : Emitted r ls located) (hop : r.opcode = .str op.name) :
    ∃ a x d, operands r.args = [a] ∧ located a x ∧ located r.result d ∧ ls = Asm.unop op x d := by
  cases h with
  | body h =>
    simp only [Body.instr, hop, ofOpcode_unop, ok_bind, bind_eq_ok, Prod.exists] at h
    obtain ⟨a, ha, x, temps₁, hx, d, temps₂, hd, h⟩ := h
    cases h
    obtain ⟨-, -, hm, -⟩ := Body.place_spec hd
    exact ⟨a, x, d, Body.operands_of_oneArg ha, Body.place_again hx hm, Body.place_again hd (.refl _), rfl⟩
  | procedure h =>
    obtain ⟨form, st₁, hform, h⟩ := run_bind_eq_ok.1 h
    obtain ⟨hform, rfl⟩ := run_lift_eq_ok.1 hform
    rw [hop, ofOpcode_unop] at hform
    cases hform
    simp only [Procedure.wrote, run_bind_eq_ok, run_lift_eq_ok, Procedure.run_locate_eq_ok,
      run_modify_eq_ok, run_pure_eq_ok] at h
    obtain ⟨a, _, ⟨ha, rfl⟩, x, _, ⟨f₁, hx, rfl⟩, d, _, ⟨f₂, hd, rfl⟩, _, _, rfl, rfl, rfl⟩ := h
    have hg := (Procedure.place_grows hd).1
    exact ⟨a, x, d, Body.operands_of_oneArg ha, Procedure.place_again hx hg, Procedure.place_again hd (.refl _), rfl⟩

/-- The lines of an operator leave the interpreter's value: of a unary one always, of a binary one if and only if interpreter
and processor agree on its operands, as they do for dividends of 53 bits and counts below 64. -/
theorem emitted_leaves_iff {env : X64.Env} {lines : List Line} {s : X64.State} (he : Emitted r ls located)
    (hat : StandsAt lines s.pc ls) :
    (∀ op : Word.Binop, r.opcode = .str op.name → ∃ a b x y d, operands r.args = [a, b] ∧ located a x ∧ located b y ∧
      located r.result d ∧
      ∀ w, op.eval (X64.load s.mem (X64.address env s x)).toNat (X64.load s.mem (X64.address env s y)).toNat = .ok w →
        (Leaves env lines ls.length s d w ↔
          Agrees op (X64.load s.mem (X64.address env s x)) (X64.load s.mem (X64.address env s y)))) ∧
    (∀ op : Word.Unop, r.opcode = .str op.name → ∃ a x d, operands r.args = [a] ∧ located a x ∧ located r.result d ∧
      Leaves env lines ls.length s d (op.eval (X64.load s.mem (X64.address env s x)).toNat)) ∧
    ∀ (op : Word.Binop) (u v : BitVec 64), (op = .div ∨ op = .mod → u.toInt.natAbs ≤ 2 ^ 53) →
      (op = .shl ∨ op = .shr → v.toNat < 64) → Agrees op u v := by
  refine ⟨fun op hop => ?_, fun op hop => ?_, fun op u v => agrees_of_small⟩
  · obtain ⟨a, b, x, y, d, hargs, hx, hy, hd, rfl⟩ := he.binop hop
    exact ⟨a, b, x, y, d, hargs, hx, hy, hd, fun w hw => binop_leaves_iff hat hw⟩
  · obtain ⟨a, x, d, hargs, hx, hd, rfl⟩ := he.unop hop
    exact ⟨a, x, d, hargs, hx, hd, unop_leaves hat⟩

end Emission

section Examples

def holding (u v : BitVec 64) : X64.State where
  pc := 0
  regs r := if r = .rbp then 64 else 0
  mem := X64.store (X64.store (fun _ => 0) 56 u) 48 v
  flags := none
  printed := []

theorem load_holding (env : X64.Env) (u v : BitVec 64) :
    X64.load (holding u v).mem (X64.address env (holding u v) (.slot 1)) = u ∧
      X64.load (holding u v).mem (X64.address env (holding u v) (.slot 2)) = v := by
  have hfirst : X64.address env (holding u v) (.slot 1) = 56 := by simp [X64.address, holding]
  have hsecond : X64.address env (holding u v) (.slot 2) = 48 := by simp [X64.address, holding]
  rw [hfirst, hsecond, holding]
  refine ⟨?_, X64.load_store_self _ _ _⟩
  rw [X64.load_store_of_disjoint (by decide) (by decide) (by decide), X64.load_store_self]

def onFrame (op : Word.Binop) : List Line := binop op (.slot 1) (.slot 2) (.slot 3)

def InFrame (d : Datum) (p : Place) : Prop := Body.place d ["%0", "%1", "%2"] = .ok (p, ["%0", "%1", "%2"])

theorem emitted_onFrame (op : Word.Binop) : Emitted (Tac.Body.Op.binop op "%0" "%1" "%2").record (onFrame op) InFrame :=
  @Emitted.body _ .structured [] _ _ (by cases op <;> rfl)

theorem standsAt_onFrame (op : Word.Binop) (u v : BitVec 64) : StandsAt (onFrame op) (holding u v).pc (onFrame op) := List.prefix_refl _

theorem emitted_leaves_iff_remainder :
    Emitted (Tac.Body.Op.binop .mod "%0" "%1" "%2").record (onFrame .mod) InFrame ∧
      StandsAt (onFrame .mod) (holding (-7) 3).pc (onFrame .mod) ∧
      Word.Binop.mod.eval 18446744073709551609 3 = .ok 18446744073709551615 ∧
      Leaves Body.idle (onFrame .mod) 4 (holding (-7) 3) (.slot 3) 18446744073709551615 := by
  have hvalue : Word.Binop.mod.eval 18446744073709551609 3 = .ok 18446744073709551615 := rfl
  obtain ⟨a, b, x, y, d, hargs, hx, hy, hd, h⟩ :=
    (@emitted_leaves_iff _ _ _ Body.idle _ _ (emitted_onFrame .mod) (standsAt_onFrame .mod (-7) 3)).1 .mod rfl
  cases hargs
  cases hx
  cases hy
  cases hd
  obtain ⟨hu, hv⟩ := load_holding Body.idle (-7) 3
  rw [hu, hv] at h
  exact ⟨emitted_onFrame .mod, standsAt_onFrame .mod (-7) 3, hvalue, (h _ hvalue).2 (by decide)⟩

theorem onFrame_not_leaves {u v : BitVec 64} {w : Int} (hw : op.eval u.toNat v.toNat = .ok w) (h : ¬Agrees op u v)
    (env : X64.Env) : ¬Leaves env (onFrame op) (onFrame op).length (holding u v) (.slot 3) w := by
  obtain ⟨hu, hv⟩ := load_holding env u v
  have hiff : Leaves env (onFrame op) _ _ _ w ↔ _ := binop_leaves_iff (standsAt_onFrame op u v) (by rw [hu, hv, hw])
  rw [hu, hv] at hiff
  exact mt hiff.1 h

/-- 2^53 + 1 by 1 is rounded, the least number by -1 overflows, and a shift by 64 does nothing on the processor. -/
theorem not_emitted_leaves :
    (∀ op, Emitted (Tac.Body.Op.binop op "%0" "%1" "%2").record (onFrame op) InFrame) ∧
    (Word.Binop.div.eval 9007199254740993 1 = .ok 9007199254740992 ∧
      ∀ env, ¬Leaves env (onFrame .div) 4 (holding 9007199254740993 1) (.slot 3) 9007199254740992) ∧
    (Word.Binop.div.eval 9223372036854775808 18446744073709551615 = .ok 9223372036854775808 ∧
      ∀ env, ¬Leaves env (onFrame .div) 4 (holding 9223372036854775808 (-1)) (.slot 3) 9223372036854775808) ∧
    Word.Binop.shl.eval 1 64 = .ok 0 ∧ ∀ env, ¬Leaves env (onFrame .shl) 4 (holding 1 64) (.slot 3) 0 := by
  have hrounded : Word.Binop.div.eval 9007199254740993 1 = .ok 9007199254740992 := rfl
  have hleast : Word.Binop.div.eval 9223372036854775808 18446744073709551615 = .ok 9223372036854775808 := rfl
  have hshift : Word.Binop.shl.eval 1 64 = .ok 0 := rfl
  exact ⟨emitted_onFrame, ⟨hrounded, onFrame_not_leaves hrounded (by decide)⟩, ⟨hleast, onFrame_not_leaves hleast (by decide)⟩,
    hshift, onFrame_not_leaves hshift (by decide)⟩

end Examples

end Bx.Asm
