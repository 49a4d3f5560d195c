import Bx.Proofs.Source.Lowerable
import Bx.Proofs.Structured.Running
import Mathlib

namespace Bx.Structured

open List Tac Tac.Body

theorem marks_records (c : List Instruction) : Source.marks (c.map Op.record) = (c.filterMap Op.label?).map .str := by
  induction c with
  | nil => rfl
  | cons op c ih =>
    have hop : Source.marks [op.record] = op.label?.toList.map .str := by
      cases op with
      | binop b x y d => cases b <;> rfl
      | unop u x d => cases u <;> rfl
      | jcc k x l => cases k <;> rfl
      | _ => rfl
    rw [map_cons, ← singleton_append, Source.marks_append, hop, ih]
    cases h : op.label? <;> simp [h]

theorem resolved_of_nodup {c : List Instruction} (h : (Source.marks (c.map Op.record)).Nodup) : Resolved (c.map some) := by
  intro k l hk
  refine labelAt_eq_some ?_ hk
  rw [marks_records] at h
  rw [labels, filterMap_map]
  exact h.of_map _

section Program

variable {ops : Operators} {p : Code} {program : List Stmt} {body : List Record}

def start : State := ⟨0, fun _ => some 0, []⟩

def Outcome.Tells (M : Machine State) (bound : Nat) : Outcome → Prop
  | .normal m => M.Ends start .returned m.printed
  | .trapped m => M.Ends start .trapped m.printed
  | .cut m => ∃ j s, bound ≤ j ∧ M.Reaches j start s ∧ s.printed = m.printed
  | .break _ | .continue _ => False

theorem tells_of_lower (hsub : ∀ a b, ops.binop .sub a b = some (a - b)) (hf : AllExprs Expr.Formed program)
    (hc : AllExprs Expr.ConjunctionFree program) (ht : check program = .ok ()) (h : lower program = .ok body) (bound : Nat) :
    (runAll ops bound program .start).Tells (machine ops (code body)) bound := by
  obtain ⟨Γ, hi, c, rfl, -, hΓ, hcode⟩ := exists_stmtCode hf ht h
  have hresolved := resolved_of_nodup (lower_wellLabelled ht h).nodup
  rw [code_records]
  have hat : CodeAt (c.map some) 0 c := prefix_refl _
  have hσ : Holds Γ Memory.start.vars start.temps := fun _ _ _ => rfl
  have hrun := hcode.runs hsub hresolved hΓ bound hc nofun hat hσ
  cases ho : runAll ops bound program .start with
  | normal m =>
    rw [ho] at hrun
    obtain ⟨j, σ, hj, -⟩ := hrun
    exact ⟨j, _, hj, by simp [machine], rfl⟩
  | trapped m =>
    rw [ho] at hrun
    exact hrun
  | cut m =>
    rw [ho] at hrun
    exact hrun
  | «break» m | «continue» m =>
    rw [ho] at hrun
    obtain ⟨_, _, _, _, hl, -⟩ := hrun
    cases hl

variable (h : ∀ bound, (runAll ops bound program .start).Tells (machine ops p) bound)
include h

theorem prints_iff_of_tells (ws : List (BitVec 64)) :
    (machine ops p).Prints start ws ↔ Prints ops program ws := by
  constructor
  · rintro ⟨n, t, ht, rfl⟩
    refine ⟨n, ?_⟩
    have hn := h n
    cases ho : runAll ops n program .start with
    | normal m | trapped m =>
      rw [ho] at hn
      obtain ⟨j, u, hu, hstop, hm⟩ := hn
      exact hm ▸ printed_le (hu.le_of_stop hstop ht) ht hu
    | cut m =>
      rw [ho] at hn
      obtain ⟨j, u, hj, hu, hm⟩ := hn
      exact hm ▸ printed_le hj ht hu
    | «break» | «continue» =>
      rw [ho] at hn
      exact hn.elim
  · rintro ⟨bound, hws⟩
    have hb := h bound
    cases ho : runAll ops bound program .start with
    | normal m | trapped m =>
      rw [ho] at hb hws
      obtain ⟨j, u, hu, -, hm⟩ := hb
      exact prints_of_between hu nil_prefix ((show u.printed = m.printed from hm) ▸ hws)
    | cut m =>
      rw [ho] at hb hws
      obtain ⟨j, u, -, hu, hm⟩ := hb
      exact prints_of_between hu nil_prefix (hm ▸ hws)
    | «break» | «continue» =>
      rw [ho] at hb
      exact hb.elim

theorem ends_iff_of_tells (e : Stop)
    (ws : List (BitVec 64)) : (machine ops p).Ends start e ws ↔ Ends ops program e ws := by
  constructor
  · intro hend
    obtain ⟨n, t, ht, hstop, -⟩ := id hend
    refine ⟨n + 1, ?_⟩
    have hn := h (n + 1)
    cases ho : runAll ops (n + 1) program .start with
    | normal m | trapped m =>
      rw [ho] at hn
      obtain ⟨rfl, rfl⟩ := hend.det hn
      exact ⟨rfl, rfl⟩
    | cut m =>
      rw [ho] at hn
      obtain ⟨j, u, hj, hu, -⟩ := hn
      have := ht.le_of_stop hstop hu
      omega
    | «break» | «continue» =>
      rw [ho] at hn
      exact hn
  · rintro ⟨bound, hend⟩
    have hb := h bound
    cases ho : runAll ops bound program .start with
    | normal m | trapped m =>
      rw [ho] at hb hend
      obtain ⟨rfl, rfl⟩ := hend
      exact hb
    | cut | «break» | «continue» =>
      rw [ho] at hend
      exact hend.elim

omit h

/-- A checked program without conjunctions prints the same words when its code is run as when its statements are evaluated,
and ends just if the evaluation ends, in the same way: a comparison holds if the wrapped-around difference of its operands,
read as a signed number, compares with zero as it says. -/
theorem lower_prints_and_ends (hsub : ∀ a b, ops.binop .sub a b = some (a - b)) (hf : AllExprs Expr.Formed program)
    (hc : AllExprs Expr.ConjunctionFree program) (ht : check program = .ok ()) (h : lower program = .ok body) :
    (∀ ws, (machine ops (code body)).Prints start ws ↔ Prints ops program ws) ∧
      ∀ e ws, (machine ops (code body)).Ends start e ws ↔ Ends ops program e ws :=
  have htells := tells_of_lower hsub hf hc ht h
  ⟨prints_iff_of_tells htells, ends_iff_of_tells htells⟩

end Program

def leavingOut : List Stmt := [
  .vardecl 1 "x" (.num 1 3),
  .while 2 (.binary 2 .boolor (.binary 2 .greater (.var 2 "x") (.num 2 0)) (.unary 2 .boolnot (.bool 2 true))) [
    .ifelse 3 (.binary 3 .booleq (.var 3 "x") (.num 3 2)) [
      .assign 4 4 "x" (.binary 4 .minus (.var 4 "x") (.num 4 1)),
      .continue 5] (.block 6 []),
    .print 7 (.binary 7 .times (.var 7 "x") (.var 7 "x")),
    .assign 8 8 "x" (.binary 8 .minus (.var 8 "x") (.num 8 1))],
  .print 9 (.unary 9 .uminus (.var 9 "x"))]

theorem lower_prints_and_ends_leavingOut : ∃ body, check leavingOut = .ok () ∧ lower leavingOut = .ok body ∧
    (machine .words (code body)).Ends start .returned [9, 1, 0] := by
  have hf : AllExprs Expr.Formed leavingOut := by simp [leavingOut, AllExprs, Stmt.Exprs, Expr.Formed]
  have hc : AllExprs Expr.ConjunctionFree leavingOut := by simp [leavingOut, AllExprs, Stmt.Exprs, Expr.ConjunctionFree]
  have ht : check leavingOut = .ok () := by cbv
  obtain ⟨body, h⟩ : ∃ body, lower leavingOut = .ok body := ⟨_, by cbv⟩
  refine ⟨body, ht, h, ((lower_prints_and_ends (fun _ _ => rfl) hf hc ht h).2 .returned [9, 1, 0]).2 ⟨5, ?_⟩⟩
  exact ⟨rfl, rfl⟩

end Bx.Structured
