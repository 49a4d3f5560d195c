import Bx.Proofs.Source.Lowerable
import Mathlib

namespace Bx

namespace Source

open Tac

variable {α β : Type}

section Stacks

/-- By which the loops around a statement are left and begun anew, the innermost on top. -/
structure Stacks where
  breaks : List String
  continues : List String

variable {m : Type → Type} [Monad m]

def within (head exit : String) (x : StateT Stacks m Unit) : StateT Stacks m Unit := do
  modify fun k => ⟨exit :: k.breaks, head :: k.continues⟩
  x
  modify fun k => ⟨k.breaks.tail, k.continues.tail⟩

def Balanced (k : Stacks) (x : StateT Stacks m α) (y : m α) : Prop := x.run k = (·, k) <$> y

variable [LawfulMonad m] {k : Stacks} {x : StateT Stacks m α} {y : m α}

theorem Balanced.lift (y : m α) : Balanced k (liftM y) y := by
  rw [Balanced, map_eq_pure_bind]
  rfl

theorem Balanced.bind {f : α → StateT Stacks m β} {g : α → m β} (hx : Balanced k x y) (hf : ∀ a, Balanced k (f a) (g a)) :
    Balanced k (x >>= f) (y >>= g) := by
  simp only [Balanced] at hx hf
  simp [Balanced, StateT.run_bind, hx, hf]

theorem Balanced.step {f : α → StateT Stacks m β} {g : α → m β} (hf : ∀ a, Balanced k (f a) (g a)) :
    Balanced k (liftM y >>= f) (y >>= g) :=
  .bind (.lift y) hf

theorem Balanced.within {x : StateT Stacks m Unit} {y : m Unit} {head exit : String}
    (h : Balanced ⟨exit :: k.breaks, head :: k.continues⟩ x y) : Balanced k (within head exit x) y := by
  simp only [Balanced] at h
  simp [Balanced, Source.within, StateT.run_bind, h]

end Stacks

end Source

namespace Structured

open Source Tac

theorem lower_ne_outsideLoop {program : List Stmt} (h : check program = .ok ()) : lower program ≠ .error .outsideLoop := by
  intro he
  rw [lower] at he
  cases hrun : (stmts none program).run .start with
  | error e =>
    rw [hrun] at he
    exact (check_marks h).allowed _ (Except.error.inj he ▸ hrun)
  | ok r =>
    rw [hrun] at he
    cases he

section Stacks

def jumpToTop (stack : Stacks → List String) : StateT Stacks Lower Unit := do
  match stack (← get) with
  | [] => throw LowerError.outsideLoop
  | l :: _ => emitJump l

mutual

def stackedStmt : Stmt → StateT Stacks Lower Unit
  | .block _ body => stackedStmts body
  | .ifelse _ c yes no => do
    let onYes ← freshLabel
    let onNo ← freshLabel
    let done ← freshLabel
    boolExpr onYes onNo c
    emitLabel onYes
    stackedStmts yes
    emitJump done
    emitLabel onNo
    stackedStmt no
    emitLabel done
  | .while _ c body => do
    let head ← freshLabel
    let inside ← freshLabel
    let exit ← freshLabel
    within head exit do
      emitLabel head
      boolExpr inside exit c
      emitLabel inside
      stackedStmts body
      emitJump head
      emitLabel exit
  | .break _ => jumpToTop (·.breaks)
  | .continue _ => jumpToTop (·.continues)
  | s => stmt none s

def stackedStmts : List Stmt → StateT Stacks Lower Unit
  | [] => pure ()
  | s :: rest => do
    stackedStmt s
    stackedStmts rest

end

def stacksOf (loops : List Loop) : Stacks := ⟨loops.map (·.exit), loops.map (·.head)⟩

mutual

theorem stackedStmt_balanced (loops : List Loop) (a : Stmt) : Balanced (stacksOf loops) (stackedStmt a) (stmt loops.head? a) := by
  cases a with
  | vardecl | assign | print => exact .lift _
  | block line body => exact stackedStmts_balanced loops body
  | ifelse line c yes no =>
    refine .step fun _ => .step fun _ => .step fun _ => .step fun _ => .step fun _ => ?_
    refine .bind (stackedStmts_balanced loops yes) fun _ => .step fun _ => .step fun _ => ?_
    exact .bind (stackedStmt_balanced loops no) fun _ => .lift _
  | «while» line c body =>
    refine .step fun head => .step fun _ => .step fun exit => .within ?_
    refine .step fun _ => .step fun _ => .step fun _ => ?_
    exact .bind (stackedStmts_balanced (⟨head, exit⟩ :: loops) body) fun _ => .step fun _ => .lift _
  | «break» | «continue» => cases loops <;> rfl

theorem stackedStmts_balanced (loops : List Loop) (body : List Stmt) :
    Balanced (stacksOf loops) (stackedStmts body) (stmts loops.head? body) := by
  cases body with
  | nil => rfl
  | cons a rest => exact .bind (stackedStmt_balanced loops a) fun _ => stackedStmts_balanced loops rest

end

def lowerStacked (program : List Stmt) : Except LowerError (List Record × Stacks) := do
  let ((_, k), g) ← ((stackedStmts program).run ⟨[], []⟩).run .start
  return (g.code, k)

theorem lowerStacked_eq (program : List Stmt) : lowerStacked program = (·, ⟨[], []⟩) <$> lower program := by
  have h : (stackedStmts program).run ⟨[], []⟩ = (·, ⟨[], []⟩) <$> stmts none program := stackedStmts_balanced [] program
  simp [lowerStacked, lower, h]

end Stacks

end Structured

namespace Procedural

open Source Tac

theorem lowerProc_marks {s s' : Scopes} {q q' : Procedure} (h : q.check s = .ok (s', q')) (globals : List Gvar) :
    lowerProc globals q' ≠ .error .outsideLoop ∧ ∀ p, lowerProc globals q' = .ok p → WellLabelled p.body := by
  simp only [Procedure.check, bind_eq_ok, Prod.exists] at h
  obtain ⟨_, body, hbody, _, -, h⟩ := h
  cases h
  have hmarks : Marks (allLowerable body) [] [] (stmts none body) := stmts_marks (checkAll_checked hbody) rfl (List.Subset.refl [])
  cases hrun : (stmts none body).run ⟨0, 0, startScopes globals { q with body }, []⟩ with
  | error e =>
    rw [lowerProc, hrun]
    exact ⟨fun he => hmarks.allowed _ (Except.error.inj he ▸ hrun), fun _ hp => by cases hp⟩
  | ok r =>
    rw [lowerProc, hrun]
    exact ⟨fun he => (by cases he), fun _ hp => Except.ok.inj hp ▸ hmarks.wellLabelled rfl hrun⟩

section Stacks

def jumpToTop (stack : Stacks → List String) : StateT Stacks Lower Unit := do
  match stack (← get) with
  | [] => throw LowerError.outsideLoop
  | l :: _ => emitJump l

mutual

def stackedStmt : Stmt → StateT Stacks Lower Unit
  | .block _ body => do
    enterScope
    stackedStmts body
    leaveScope
  | .ifelse _ c yes no => do
    let onYes ← freshLabel
    let onNo ← freshLabel
    let done ← freshLabel
    boolExpr onYes onNo c
    emitLabel onYes
    enterScope
    stackedStmts yes
    leaveScope
    emitJump done
    emitLabel onNo
    stackedStmt no
    emitLabel done
  | .while _ c body => do
    let head ← freshLabel
    let inside ← freshLabel
    let exit ← freshLabel
    within head exit do
      emitLabel head
      boolExpr inside exit c
      emitLabel inside
      enterScope
      stackedStmts body
      leaveScope
      emitJump head
      emitLabel exit
  | .break _ => jumpToTop (·.breaks)
  | .continue _ => jumpToTop (·.continues)
  | s => stmt none s

def stackedStmts : List Stmt → StateT Stacks Lower Unit
  | [] => pure ()
  | s :: rest => do
    stackedStmt s
    stackedStmts rest

end

def stacksOf (loops : List Loop) : Stacks := ⟨loops.map (·.exit), loops.map (·.head)⟩

mutual

theorem stackedStmt_balanced (loops : List Loop) (a : Stmt) : Balanced (stacksOf loops) (stackedStmt a) (stmt loops.head? a) := by
  cases a with
  | vardecl | assign | eval => exact .lift _
  | «return» line e => cases e <;> exact .lift _
  | block line body => exact .step fun _ => .bind (stackedStmts_balanced loops body) fun _ => .lift _
  | ifelse line c yes no =>
    refine .step fun _ => .step fun _ => .step fun _ => .step fun _ => .step fun _ => ?_
    refine .step fun _ => .bind (stackedStmts_balanced loops yes) fun _ => .step fun _ => .step fun _ => ?_
    exact .step fun _ => .bind (stackedStmt_balanced loops no) fun _ => .lift _
  | «while» line c body =>
    refine .step fun head => .step fun _ => .step fun exit => .within ?_
    refine .step fun _ => .step fun _ => .step fun _ => .step fun _ => ?_
    refine .bind (stackedStmts_balanced (⟨head, exit⟩ :: loops) body) fun _ => ?_
    exact .step fun _ => .step fun _ => .lift _
  | «break» | «continue» => cases loops <;> rfl

theorem stackedStmts_balanced (loops : List Loop) (body : List Stmt) :
    Balanced (stacksOf loops) (stackedStmts body) (stmts loops.head? body) := by
  cases body with
  | nil => rfl
  | cons a rest => exact .bind (stackedStmt_balanced loops a) fun _ => stackedStmts_balanced loops rest

end

def lowerProcStacked (globals : List Gvar) (p : Procedure) : Except LowerError (Proc Record × Stacks) := do
  let ((_, k), g) ← ((stackedStmts p.body).run ⟨[], []⟩).run ⟨0, 0, startScopes globals p, []⟩
  return (⟨"@" ++ p.name, p.params.map fun (x, _) => .str ("%" ++ x), g.code⟩, k)

theorem lowerProcStacked_eq (globals : List Gvar) (p : Procedure) :
    lowerProcStacked globals p = (·, ⟨[], []⟩) <$> lowerProc globals p := by
  have h : (stackedStmts p.body).run ⟨[], []⟩ = (·, ⟨[], []⟩) <$> stmts none p.body := stackedStmts_balanced [] p.body
  simp [lowerProcStacked, lowerProc, h]

end Stacks

end Procedural

namespace Source

/-- Checked code has no label twice, and its jumps go to its own labels. That a jump is outside of all loops is never found
out so late: with stacks for the loops the lowering answers the same, and the stacks are empty in the end. -/
theorem checked_lowers_wellLabelled {program : List Structured.Stmt} {s s' : Procedural.Scopes} {q q' : Procedural.Procedure}
    (h : Structured.check program = .ok ()) (hq : q.check s = .ok (s', q')) (globals : List Tac.Gvar) :
    (Structured.lower program ≠ .error .outsideLoop ∧ Structured.lowerStacked program = (·, ⟨[], []⟩) <$> Structured.lower program ∧
      ∀ code, Structured.lower program = .ok code → WellLabelled code) ∧
    Procedural.lowerProc globals q' ≠ .error .outsideLoop ∧
      Procedural.lowerProcStacked globals q' = (·, ⟨[], []⟩) <$> Procedural.lowerProc globals q' ∧
      ∀ p, Procedural.lowerProc globals q' = .ok p → WellLabelled p.body := by
  obtain ⟨hloop, hbody⟩ := Procedural.lowerProc_marks hq globals
  exact ⟨⟨Structured.lower_ne_outsideLoop h, Structured.lowerStacked_eq program, fun _ => Structured.lower_wellLabelled h⟩,
    hloop, Procedural.lowerProcStacked_eq globals q', hbody⟩

def skipping : Procedural.Procedure := ⟨8, "main", [], .void, [
  .vardecl 2 "x" (.num 2 0) .int,
  .while 7 (.binary 3 .less (.var 3 "x") (.num 3 9)) [
    .while 6 (.binary 4 .booland (.binary 4 .booleq (.var 4 "x") (.num 4 1)) (.binary 4 .less (.num 4 0) (.var 4 "x"))) [.break 5],
    .ifelse 6 (.binary 6 .greater (.var 6 "x") (.num 6 4)) [.continue 6] (.block 6 []),
    .break 7]]⟩

theorem checked_lowers_wellLabelled_skipping : ∃ code p, Structured.lowerStacked bounded = .ok (code, ⟨[], []⟩) ∧ WellLabelled code ∧
    marks code = [.str ".L0", .str ".L3", .str ".L1", .str ".L2"] ∧
    Procedural.lowerProcStacked [] skipping = .ok (p, ⟨[], []⟩) ∧ WellLabelled p.body ∧ (marks p.body).length = 10 := by
  have hcheck : Structured.check bounded = .ok () := rfl
  obtain ⟨s', hcheck'⟩ : ∃ s', skipping.check ⟨[], []⟩ = .ok (s', skipping) := ⟨_, by cbv⟩
  obtain ⟨⟨-, hstacked, hcode⟩, -, hstacked', hbody⟩ := checked_lowers_wellLabelled hcheck hcheck' []
  obtain ⟨code, hlower, hmarks⟩ : ∃ code, Structured.lower bounded = .ok code ∧
      marks code = [.str ".L0", .str ".L3", .str ".L1", .str ".L2"] := ⟨_, by cbv, rfl⟩
  obtain ⟨p, hlower', hlength⟩ : ∃ p, Procedural.lowerProc [] skipping = .ok p ∧ (marks p.body).length = 10 := ⟨_, by cbv, rfl⟩
  exact ⟨code, p, by rw [hstacked, hlower]; rfl, hcode code hlower, hmarks, by rw [hstacked', hlower']; rfl, hbody p hlower', hlength⟩

end Source

end Bx
