import Bx.Proofs.Scoping.Basic
import Bx.Structured.Check

namespace Bx.Structured

open List Scoping

def Expr.events : Expr → List Event
  | .var line x => [.use line x]
  | .num _ _ | .bool _ _ => []
  | .unary _ _ e => e.events
  | .binary _ _ l r => l.events ++ r.events

mutual

def Stmt.events : Stmt → List Event
  | .vardecl line x e => e.events ++ [.declare line x]
  | .assign _ varLine x e => .use varLine x :: e.events
  | .print _ e => e.events
  | .block _ body => .enter [] :: eventsOf body ++ [.leave]
  | .ifelse _ c yes no => c.events ++ .enter [] :: eventsOf yes ++ .leave :: no.events
  | .while _ c body => c.events ++ .enter [] :: eventsOf body ++ [.leave]
  | .break _ | .continue _ => []

def eventsOf : List Stmt → List Event
  | [] => []
  | s :: rest => s.events ++ eventsOf rest

end

def CheckError.fault? : CheckError → Option Fault
  | .undeclared line x => some (.undeclared line x)
  | .declaredTwice line x => some (.declaredTwice line x)
  | _ => none

variable {s : Scopes} {st : State}

theorem variableType_reports (h : Covers s st) (line : Int) (x : String) :
    Reports CheckError.fault? (fun _ st' => st' = st) (variableType s line x) (run st [.use line x]) := by
  have hx := h.find x
  simp only [variableType, Scopes.find?, run_cons, run_nil, step, ← hx]
  cases s.findSome? fun scope => scope.lookup x with
  | some t => exact .passed rfl
  | none => exact .found rfl

theorem Expr.check_reports (h : Covers s st) (e : Expr) :
    Reports CheckError.fault? (fun _ st' => st' = st) (e.check s) (run st (lasting e.events)) := by
  induction e with
  | var line x => exact variableType_reports h line x
  | num line n => exact .guard rfl (.passed rfl)
  | bool line b => exact .passed rfl
  | unary line op e ih =>
    rw [Expr.check, Expr.events]
    refine ih.andThen ?_
    rintro t _ rfl
    cases op.wantsBoolean with
    | true => exact .guard rfl (.passed rfl)
    | false => exact .guard rfl (.passed rfl)
  | binary line op l r ihl ihr =>
    rw [Expr.check, Expr.events, lasting_append, run_append]
    refine ihl.bind ?_
    rintro t _ rfl
    refine ihr.andThen ?_
    rintro u _ rfl
    refine .guard rfl ?_
    cases op.wantsBoolean with
    | true => exact .guard rfl (.passed rfl)
    | false => exact .passed rfl

theorem declare_reports (h : Covers s st) (line : Int) (x : String) (t : Ty) :
    Reports CheckError.fault? Covers (declare s line x t) (run st [.declare line x]) := by
  obtain ⟨scopes, n⟩ := st
  cases h with
  | nil => exact .passed (.cons (fun y => by rw [lookup_cons, lookup_cons]; cases y == x <;> rfl) .nil)
  | @cons scope _ rest _ hx hr =>
    have h : Covers (scope :: rest) ⟨_ :: _, n⟩ := .cons hx hr
    rw [declare]
    exact .declare (CheckError.declaredTwice line x) h rfl (.passed (h.add x t))

mutual

theorem Stmt.check_reports {s : Scopes} {st : State} (h : Covers s st) (loop : Bool) (a : Stmt) :
    Reports CheckError.fault? Covers (a.check loop s) (run st (lasting a.events)) := by
  cases a with
  | vardecl line x e =>
    rw [Stmt.check, Stmt.events, lasting_append, run_append]
    refine (e.check_reports h).bind ?_
    rintro t _ rfl
    exact declare_reports h line x t
  | assign line varLine x e =>
    rw [Stmt.check, Stmt.events, lasting_use, ← singleton_append, run_append]
    refine (variableType_reports h varLine x).bind ?_
    rintro t _ rfl
    refine (e.check_reports h).andThen ?_
    rintro u _ rfl
    exact .guard rfl (.passed h)
  | print line e =>
    rw [Stmt.check, Stmt.events]
    refine (e.check_reports h).andThen ?_
    rintro t _ rfl
    exact .guard rfl (.passed h)
  | block line body =>
    rw [Stmt.check, Stmt.events]
    simpa using checkAll_reports h.enter_nil loop body
  | ifelse line c yes no =>
    rw [Stmt.check, Stmt.events]
    simp only [lasting_append, lasting_enter, lasting_leave, append_assoc, cons_append, run_append, run_cons]
    refine (c.check_reports h).bind ?_
    rintro t _ rfl
    refine (checkAll_reports h.enter_nil loop yes).bind fun s₁ st₁ h₁ => ?_
    refine (no.check_reports h₁ loop).andThen fun s₂ st₂ h₂ => ?_
    exact .guard rfl (.passed h₂)
  | «while» line c body =>
    rw [Stmt.check, Stmt.events]
    simp only [lasting_append, lasting_enter, lasting_leave, append_assoc, cons_append, run_append, run_cons]
    refine (c.check_reports h).bind ?_
    rintro t _ rfl
    refine (checkAll_reports h.enter_nil true body).bind fun s₁ st₁ h₁ => ?_
    exact .guard rfl (.passed h₁)
  | «break» line => exact .guard rfl (.passed h)
  | «continue» line => exact .guard rfl (.passed h)

theorem checkAll_reports {s : Scopes} {st : State} (h : Covers s st) (loop : Bool) (body : List Stmt) :
    Reports CheckError.fault? Covers (checkAll loop s body) (run st (lasting (eventsOf body))) := by
  cases body with
  | nil => exact .passed h
  | cons a rest =>
    rw [checkAll, eventsOf, lasting_append, run_append]
    exact (a.check_reports h loop).bind fun _ _ h => checkAll_reports h loop rest

end

theorem check_reports (program : List Stmt) :
    Reports CheckError.fault? (fun _ _ => True) (check program) (run ⟨[[]], 0⟩ (lasting (eventsOf program))) := by
  rw [check]
  have h : Covers ([[]] : Scopes) ⟨[[]], 0⟩ := .cons (fun _ => rfl) .nil
  exact (checkAll_reports h false program).andThen fun _ _ _ => .passed trivial

end Bx.Structured
