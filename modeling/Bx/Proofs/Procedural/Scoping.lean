import Bx.Procedural.Check
import Bx.Proofs.Scoping.Basic

namespace Bx.Procedural

open List Scoping

variable {s : Scopes} {st : State}

mutual

def Expr.events : Expr → List Event
  | .var line x => [.use line x]
  | .num _ _ | .bool _ _ => []
  | .unary _ _ e => e.events
  | .binary _ _ l r => l.events ++ r.events
  | .call _ _ args => argEvents args

def argEvents : List Expr → List Event
  | [] => []
  | e :: rest => e.events ++ argEvents rest

end

mutual

def Stmt.events : Stmt → List Event
  | .vardecl line x e _ => e.events ++ [.declare line x]
  | .assign _ varLine x e => .use varLine x :: e.events
  | .eval _ e => e.events
  | .block _ body => .enter [] :: eventsOf body ++ [.leave]
  | .ifelse _ c yes no => c.events ++ .enter [] :: eventsOf yes ++ .leave :: no.events
  | .while _ c body => c.events ++ .enter [] :: eventsOf body ++ [.leave]
  | .break _ | .continue _ | .return _ none => []
  | .return _ (some e) => e.events

def eventsOf : List Stmt → List Event
  | [] => []
  | s :: rest => s.events ++ eventsOf rest

end

def Procedure.events (p : Procedure) : List Event :=
  .enter (p.params.map Prod.fst) :: .enter [] :: eventsOf p.body ++ [.leave, .leave]

def Decl.name : Decl → String
  | .var _ x _ _ => x
  | .proc p => p.name

def Decl.events : Decl → List Event
  | .var _ _ _ _ => []
  | .proc p => p.events

def Program.events (p : Program) : List Event :=
  (p.decls.map fun d => .declare p.line d.name) ++ p.decls.flatMap Decl.events

def CheckError.fault? : CheckError → Option Fault
  | .undeclared line x => some (.undeclared line x)
  | .declaredTwice line x => some (.declaredTwice line x)
  | _ => none

def Scopes.all (s : Scopes) : List Scope := s.inner ++ [s.globals]

theorem variableType_reports (h : Covers s.all st) (line : Int) (x : String) :
    Reports CheckError.fault? (fun _ st' => st' = st) (variableType s line x) (run st [.use line x]) := by
  have hx := h.find x
  simp only [variableType, Scopes.find?, run_cons, run_nil, step, ← hx, Scopes.all]
  cases (s.inner ++ [s.globals]).findSome? fun scope => scope.lookup x with
  | some t => exact .passed rfl
  | none => exact .found rfl

theorem Scopes.covers_enter (h : Covers s.all st) : Covers (s.enter []).all { st with scopes := [] :: st.scopes } := h.enter_nil

theorem printer_eq_error {t : Ty} {e : CheckError} (h : printer t = .error e) : e.fault? = none := by
  unfold printer at h
  split at h <;> cases h
  rfl

mutual

theorem Expr.check_reports {s : Scopes} {st : State} (h : Covers s.all st) (e : Expr) :
    Reports CheckError.fault? (fun _ st' => st' = st) (e.check s) (run st (lasting e.events)) := by
  cases e with
  | var line x =>
    rw [Expr.check]
    refine (variableType_reports h line x).andThen ?_
    rintro t _ rfl
    exact .passed rfl
  | num line n => exact .guard rfl (.passed rfl)
  | bool line b => exact .passed rfl
  | unary line op e =>
    rw [Expr.check, Expr.events]
    refine (e.check_reports h).andThen ?_
    rintro t _ rfl
    cases op.wantsBoolean with
    | true => exact .guard rfl (.passed rfl)
    | false => exact .guard rfl (.passed rfl)
  | binary line op l r =>
    rw [Expr.check, Expr.events, lasting_append, run_append]
    refine (l.check_reports h).bind ?_
    rintro t _ rfl
    refine (r.check_reports h).andThen ?_
    rintro u _ rfl
    refine .guard rfl ?_
    cases op.wantsBoolean with
    | true => exact .guard rfl (.passed rfl)
    | false => exact .passed rfl
  | call line f args =>
    rw [Expr.check.eq_def, Expr.events]
    dsimp only
    split
    · split
      · next e =>
          rw [argEvents, argEvents, append_nil]
          refine (e.check_reports h).andThen ?_
          rintro t _ rfl
          cases hp : printer t.1 with
          | ok g => exact .passed rfl
          | error e => exact .stopped (printer_eq_error hp)
      · exact .stopped rfl
    · split
      · exact .stopped rfl
      · exact .stopped rfl
      · next params ret _ =>
          by_cases hl : args.length = params.length
          · simp only [require, hl, beq_self_eq_true, if_true, ok_bind]
            refine (checkArgs_reports h line 0 params args hl).andThen ?_
            rintro args _ rfl
            exact .passed rfl
          · simp only [require, beq_eq_false_iff_ne.2 hl, Bool.false_eq_true, if_false, error_bind]
            exact .stopped rfl

theorem checkArgs_reports {s : Scopes} {st : State} (h : Covers s.all st) (line : Int) (k : Nat) (params : List Base)
    (args : List Expr) (hl : args.length = params.length) :
    Reports CheckError.fault? (fun _ st' => st' = st) (checkArgs s line k params args) (run st (lasting (argEvents args))) := by
  cases args with
  | nil =>
    rw [eq_nil_of_length_eq_zero hl.symm]
    exact .passed rfl
  | cons e rest =>
    cases params with
    | nil => cases hl
    | cons p params =>
      rw [checkArgs, argEvents, lasting_append, run_append]
      refine (e.check_reports h).bind ?_
      rintro t _ rfl
      refine .guard rfl ?_
      refine (checkArgs_reports h line (k + 1) params rest (Nat.succ.inj hl)).andThen ?_
      rintro args _ rfl
      exact .passed rfl

end

theorem declare_reports (h : Covers s.all st) (line : Int) (x : String) (t : Ty) (ty : Base) :
    Reports CheckError.fault? (fun s' => Covers s'.all) (declare s line x t ty) (run st [.declare line x]) := by
  obtain ⟨inner, globals⟩ := s
  cases inner with
  | nil => exact .declare (CheckError.declaredTwice line x) h rfl (.guard rfl (.passed (h.add x t)))
  | cons scope rest => exact .declare (CheckError.declaredTwice line x) h rfl (.guard rfl (.passed (h.add x t)))

mutual

theorem Stmt.check_reports {s : Scopes} {st : State} (h : Covers s.all st) (w : Within) (loop : Bool) (a : Stmt) :
    Reports CheckError.fault? (fun r => Covers r.1.all) (a.check w loop s) (run st (lasting a.events)) := by
  cases a with
  | vardecl line x e ty =>
    rw [Stmt.check, Stmt.events, lasting_append, run_append]
    refine (e.check_reports h).bind ?_
    rintro t _ rfl
    exact (declare_reports h line x t.1 ty).andThen fun _ _ h => .passed h
  | assign line varLine x e =>
    rw [Stmt.check, Stmt.events, lasting_use, ← singleton_append, run_append]
    refine (variableType_reports h varLine x).bind ?_
    rintro t _ rfl
    refine (e.check_reports h).andThen ?_
    rintro u _ rfl
    exact .guard rfl (.passed h)
  | eval line e =>
    rw [Stmt.check, Stmt.events]
    refine (e.check_reports h).andThen ?_
    rintro t _ rfl
    exact .passed h
  | block line body =>
    rw [Stmt.check, Stmt.events]
    simp only [lasting_append, lasting_enter, lasting_leave, lasting_nil, append_nil, cons_append, run_cons]
    exact (checkAll_reports (Scopes.covers_enter h) w loop body).andThen fun _ _ h => .passed h
  | ifelse line c yes no =>
    rw [Stmt.check, Stmt.events]
    simp only [lasting_append, lasting_enter, lasting_leave, append_assoc, cons_append, run_append, run_cons]
    refine (c.check_reports h).bind ?_
    rintro t _ rfl
    refine (checkAll_reports (Scopes.covers_enter h) w loop yes).bind fun s₁ st₁ h₁ => ?_
    refine (no.check_reports h₁ w loop).andThen fun s₂ st₂ h₂ => ?_
    exact .guard rfl (.passed h₂)
  | «while» line c body =>
    rw [Stmt.check, Stmt.events]
    simp only [lasting_append, lasting_enter, lasting_leave, lasting_nil, append_nil, run_append, run_cons]
    refine (c.check_reports h).bind ?_
    rintro t _ rfl
    refine (checkAll_reports (Scopes.covers_enter h) w true body).andThen fun s₁ st₁ h₁ => ?_
    exact .guard rfl (.passed h₁)
  | «break» line => exact .guard rfl (.passed h)
  | «continue» line => exact .guard rfl (.passed h)
  | «return» line e =>
    cases e with
    | none => exact .guard rfl (.passed h)
    | some e =>
      rw [Stmt.check, Stmt.events]
      refine (e.check_reports h).andThen ?_
      rintro t _ rfl
      exact .guard rfl (.passed h)

theorem checkAll_reports {s : Scopes} {st : State} (h : Covers s.all st) (w : Within) (loop : Bool) (body : List Stmt) :
    Reports CheckError.fault? (fun r => Covers r.1.all) (checkAll w loop s body) (run st (lasting (eventsOf body))) := by
  cases body with
  | nil => exact .passed h
  | cons a rest =>
    rw [checkAll, eventsOf, lasting_append, run_append]
    refine (a.check_reports h w loop).bind fun _ _ h₁ => ?_
    exact (checkAll_reports h₁ w loop rest).andThen fun _ _ h₂ => .passed h₂

end

theorem Procedure.check_reports (h : Covers s.all st) (p : Procedure) :
    Reports CheckError.fault? (fun r => Covers r.1.all) (p.check s) (run st (lasting p.events)) := by
  have hp : Covers (s.enter (p.params.foldl (fun (acc : Scope) e => Datum.put e.1 (.base e.2) acc) [])).all
      { st with scopes := ((p.params.map Prod.fst).map fun x => (x, .param x)) :: st.scopes } := by
    refine h.enter fun x => ?_
    exact lookup_foldl_put_isSome.trans (by simp)
  rw [Procedure.check, Procedure.events]
  simp only [lasting_append, lasting_enter, lasting_leave, lasting_nil, append_nil, cons_append, run_cons]
  refine (checkAll_reports (Scopes.covers_enter hp) _ false p.body).andThen fun r st₁ h₁ => ?_
  exact .guard rfl (.passed h₁)

theorem checkDecls_reports (h : Covers s.all st) (ds : List Decl) :
    Reports CheckError.fault? (fun _ _ => True) (checkDecls s ds) (run st (lasting (ds.flatMap Decl.events))) := by
  induction ds generalizing s st with
  | nil => exact .passed trivial
  | cons d ds ih =>
    rw [flatMap_cons, lasting_append, run_append]
    cases d with
    | var line x e ty => exact (ih h).andThen fun _ _ _ => .passed trivial
    | proc p =>
      rw [checkDecls]
      refine (p.check_reports h).bind fun r st₁ h₁ => ?_
      exact (ih h₁).andThen fun _ _ _ => .passed trivial

theorem declareGlobal_reports {globals : Scope} (h : Covers [globals] st) (line : Int) (d : Decl) :
    Reports CheckError.fault? (fun globals => Covers [globals]) (declareGlobal line globals d) (run st [.declare line d.name]) := by
  cases d with
  | var l x e ty =>
    exact .declare (CheckError.declaredTwice line x) h rfl (.guard rfl (.passed (h.add x (.base ty))))
  | proc p =>
    have hx := h.inner p.name
    simp only [declareGlobal, Decl.name, run_cons, run_nil, step, ← hx]
    cases globals.lookup p.name with
    | some t => exact .stopped rfl
    | none =>
      refine .guard rfl (.guard rfl ?_)
      have hadd := h.add p.name (.proc (p.params.map (·.2)) p.ret)
      split
      · exact .guard rfl (.guard rfl (.passed hadd))
      · exact .passed hadd

theorem foldlM_declareGlobal_reports {globals : Scope} (h : Covers [globals] st) (line : Int) (ds : List Decl) :
    Reports CheckError.fault? (fun globals => Covers [globals]) (ds.foldlM (declareGlobal line) globals)
      (run st (lasting (ds.map fun d => .declare line d.name))) := by
  induction ds generalizing globals st with
  | nil => exact .passed h
  | cons d ds ih =>
    rw [foldlM_cons, map_cons, lasting_declare, ← singleton_append, run_append]
    exact (declareGlobal_reports h line d).bind fun _ _ h => ih h

theorem check_reports (p : Program) :
    Reports CheckError.fault? (fun _ _ => True) (check p) (run ⟨[[]], 0⟩ (lasting p.events)) := by
  have h : Covers ([[]] : List Scope) ⟨[[]], 0⟩ := .cons (fun _ => rfl) .nil
  rw [check, Program.events, lasting_append, run_append]
  refine (foldlM_declareGlobal_reports h p.line p.decls).bind fun globals st h => .guard rfl ?_
  exact (checkDecls_reports (s := ⟨[], globals⟩) h p.decls).andThen fun _ _ _ => .passed trivial

end Bx.Procedural
