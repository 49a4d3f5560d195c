import Bx.Proofs.Procedural.Scoping
import Bx.Proofs.Structured.Scoping

namespace Bx.Scoping

section Strays

def stay (t : State) (e : Event) : Except Fault State := if e = .leave then .ok t else step t e

def parts (s t : State) : Event → Bool
  | .use _ x => (s.find? x).isNone && (t.find? x).isSome
  | .declare _ x => (s.inner? x).isSome != (t.inner? x).isSome
  | .enter _ | .leave => false

def straysFrom (s t : State) : List Event → Bool
  | [] => false
  | e :: es => parts s t e || match step s e, stay t e with
    | .ok s, .ok t => straysFrom s t es
    | _, _ => false

def strays (es : List Event) : Bool := straysFrom ⟨[[]], 0⟩ ⟨[[]], 0⟩ es

def Within (s t : State) : Prop := ∀ x, (s.find? x).isSome = true → (t.find? x).isSome = true

variable {s t s' t' : State} {e : Event} {es : List Event}

theorem run_lasting_cons (t : State) (e : Event) (es : List Event) :
    run t (lasting (e :: es)) = stay t e >>= fun t => run t (lasting es) := by
  cases e <;> rfl

theorem find?_enter (s : State) (xs : List String) (y : String) :
    (State.mk ((xs.map fun x => (x, .param x)) :: s.scopes) s.next).find? y =
      ((xs.map fun x => (x, Declaration.param x)).lookup y).or (s.find? y) := by
  rw [State.find?, State.find?, List.findSome?_cons]
  cases (xs.map fun x => (x, Declaration.param x)).lookup y <;> rfl

theorem Within.enter (h : Within s t) (xs : List String) :
    Within { s with scopes := (xs.map fun x => (x, .param x)) :: s.scopes }
      { t with scopes := (xs.map fun x => (x, .param x)) :: t.scopes } := by
  intro y hy
  rw [find?_enter, Option.isSome_or, Bool.or_eq_true] at hy ⊢
  exact hy.imp_right (h y)

theorem Within.leave (h : Within s t) : Within { s with scopes := s.scopes.tail } t := by
  intro y hy
  refine h y ?_
  obtain ⟨scopes, n⟩ := s
  cases scopes with
  | nil => cases hy
  | cons scope rest =>
    simp only [State.find?, List.tail_cons, List.findSome?_cons] at hy ⊢
    cases scope.lookup y with
    | none => exact hy
    | some d => rfl

theorem Within.add (h : Within s t) (x : String) : Within (s.add x) (t.add x) := by
  intro y hy
  rw [find?_add] at hy ⊢
  by_cases hyx : y = x
  · rw [if_pos hyx]
    rfl
  · rw [if_neg hyx] at hy ⊢
    exact h y hy

theorem step_of_not_parts (h : Within s t) (hp : parts s t e = false) :
    (∃ s' t', step s e = .ok s' ∧ stay t e = .ok t' ∧ Within s' t') ∨ ∃ f, step s e = .error f ∧ stay t e = .error f := by
  cases e with
  | enter xs => exact .inl ⟨_, _, rfl, rfl, h.enter xs⟩
  | leave => exact .inl ⟨_, _, rfl, rfl, h.leave⟩
  | use line x =>
    cases hs : (s.find? x).isSome with
    | true => exact .inl ⟨s, t, by simp [step, hs], by simp [stay, step, h x hs], h⟩
    | false =>
      have ht : (t.find? x).isSome = false := by simpa [parts, Option.isSome_eq_false_iff.1 hs] using hp
      exact .inr ⟨.undeclared line x, by simp [step, hs], by simp [stay, step, ht]⟩
  | declare line x =>
    have hst : (s.inner? x).isSome = (t.inner? x).isSome := by simpa [parts] using hp
    cases hs : (s.inner? x).isSome with
    | true => exact .inr ⟨.declaredTwice line x, by simp [step, hs], by simp [stay, step, ← hst, hs]⟩
    | false => exact .inl ⟨s.add x, t.add x, by simp [step, hs], by simp [stay, step, ← hst, hs], h.add x⟩

theorem not_parts_of_steps (hs : step s e = .ok s') (ht : stay t e = .ok t') : parts s t e = false := by
  cases e with
  | enter | leave => rfl
  | use line x =>
    cases hx : s.find? x with
    | none => simp [step, hx] at hs
    | some d => simp [parts, hx]
  | declare line x =>
    cases hx : s.inner? x with
    | some d => simp [step, hx] at hs
    | none =>
      cases hy : t.inner? x with
      | some d => simp [stay, step, hy] at ht
      | none => simp [parts, hx, hy]

theorem runs_of_not_strays (h : Within s t) (hn : straysFrom s t es = false) :
    (∃ s' t', run s es = .ok s' ∧ run t (lasting es) = .ok t') ∨ ∃ f, run s es = .error f ∧ run t (lasting es) = .error f := by
  induction es generalizing s t with
  | nil => exact .inl ⟨s, t, rfl, rfl⟩
  | cons e es ih =>
    rw [straysFrom, Bool.or_eq_false_iff] at hn
    rw [run_cons, run_lasting_cons]
    obtain ⟨s', t', hs, ht, h'⟩ | ⟨f, hs, ht⟩ := step_of_not_parts h hn.1
    · rw [hs, ht] at hn ⊢
      exact ih h' hn.2
    · rw [hs, ht]
      exact .inr ⟨f, rfl, rfl⟩

theorem not_strays_of_runs (hs : run s es = .ok s') (ht : run t (lasting es) = .ok t') : straysFrom s t es = false := by
  induction es generalizing s t with
  | nil => rfl
  | cons e es ih =>
    rw [run_cons, bind_eq_ok] at hs
    rw [run_lasting_cons, bind_eq_ok] at ht
    obtain ⟨s₁, hs₁, hs⟩ := hs
    obtain ⟨t₁, ht₁, ht⟩ := ht
    rw [straysFrom, not_parts_of_steps hs₁ ht₁, hs₁, ht₁]
    exact ih hs ht

theorem scoped_iff_of_not_strays (h : strays es = false) : Scoped (lasting es) ↔ Scoped es := by
  obtain ⟨s, t, hs, ht⟩ | ⟨f, hs, ht⟩ := runs_of_not_strays (fun _ h => h) h
  · rw [Scoped, Scoped, hs, ht]
    exact iff_of_true rfl rfl
  · rw [Scoped, Scoped, hs, ht]

theorem not_strays_of_scoped (h : Scoped es) (hl : Scoped (lasting es)) : strays es = false := by
  obtain ⟨s, hs⟩ := exists_of_isOk h
  obtain ⟨t, ht⟩ := exists_of_isOk hl
  exact not_strays_of_runs hs ht

theorem scoped_lasting_iff (es : List Event) :
    (Scoped (lasting es) ↔ Scoped es) ↔ strays es = false ∨ ¬ Scoped (lasting es) ∧ ¬ Scoped es := by
  constructor
  · intro h
    by_cases hes : Scoped es
    · exact .inl (not_strays_of_scoped hes (h.2 hes))
    · exact .inr ⟨fun hl => hes (h.1 hl), hes⟩
  · rintro (h | ⟨hl, hes⟩)
    · exact scoped_iff_of_not_strays h
    · exact iff_of_false hl hes

end Strays

section Reports

variable {ε α : Type} {fault? : ε → Option Fault} {R : α → State → Prop} {c : Except ε α} {r : Except Fault State}

theorem Reports.passed_iff (h : Reports fault? R c r) (hc : ∀ e, c = .error e → (fault? e).isSome) :
    (∃ a, c = .ok a) ↔ r.isOk := by
  cases h with
  | @passed a s h => exact ⟨fun _ => rfl, fun _ => ⟨a, rfl⟩⟩
  | found h => exact ⟨nofun, nofun⟩
  | @stopped e r h =>
    have he := hc e rfl
    simp [h] at he

theorem Reports.fault (h : Reports fault? R c r) {e : ε} {f : Fault} (hc : c = .error e) (hf : fault? e = some f) :
    r = .error f := by
  subst hc
  cases h with
  | found h =>
    rw [hf] at h
    cases h
    rfl
  | stopped h => simp [h] at hf

end Reports

section Programs

open Structured (Stmt)

def nested : List Stmt := [.block 4 [.vardecl 1 "x" (.num 1 1),
  .block 3 [.vardecl 2 "x" (.num 2 2), .print 3 (.var 3 "x")], .print 4 (.var 4 "x")]]

def discarded : List Stmt := [.block 1 [.vardecl 1 "y" (.num 1 20)], .print 2 (.var 2 "y")]

def redeclared : List Stmt := [.block 3 [.block 1 [.vardecl 1 "x" (.num 1 1)], .vardecl 2 "x" (.num 2 2)]]

def borrowed : Procedural.Program :=
  ⟨7, [.proc ⟨3, "f", [], .void, [.vardecl 2 "y" (.num 2 20) .int]⟩,
    .proc ⟨6, "main", [], .void, [.eval 5 (.call 5 "print" [.var 5 "y"])]⟩]⟩

end Programs

/-- Where nothing else is wrong, a program is accepted just if its names are in scope as if blocks and procedures never
ended, and the first name that is not is reported. So the checks enforce lexical scope just if no name strays, or the program
is wrong either way. -/
theorem checks_exact_iff (program : List Structured.Stmt) (p : Procedural.Program) :
    ((∀ e f, Structured.check program = .error e → e.fault? = some f →
        run ⟨[[]], 0⟩ (lasting (Structured.eventsOf program)) = .error f) ∧
      ((∀ e, Structured.check program = .error e → e.fault?.isSome = true) →
        ((∃ u, Structured.check program = .ok u) ↔ Scoped (lasting (Structured.eventsOf program))) ∧
        (((∃ u, Structured.check program = .ok u) ↔ Scoped (Structured.eventsOf program)) ↔
          strays (Structured.eventsOf program) = false ∨
            (¬ ∃ u, Structured.check program = .ok u) ∧ ¬ Scoped (Structured.eventsOf program)))) ∧
    (∀ e f, Procedural.check p = .error e → e.fault? = some f → run ⟨[[]], 0⟩ (lasting p.events) = .error f) ∧
      ((∀ e, Procedural.check p = .error e → e.fault?.isSome = true) →
        ((∃ q, Procedural.check p = .ok q) ↔ Scoped (lasting p.events)) ∧
        (((∃ q, Procedural.check p = .ok q) ↔ Scoped p.events) ↔
          strays p.events = false ∨ (¬ ∃ q, Procedural.check p = .ok q) ∧ ¬ Scoped p.events)) := by
  have hprogram := Structured.check_reports program
  have hp := Procedural.check_reports p
  refine ⟨⟨fun e f => hprogram.fault, fun hc => ?_⟩, fun e f => hp.fault, fun hc => ?_⟩
  · have hpassed := hprogram.passed_iff hc
    exact ⟨hpassed, by rw [hpassed]; exact scoped_lasting_iff _⟩
  · have hpassed := hp.passed_iff hc
    exact ⟨hpassed, by rw [hpassed]; exact scoped_lasting_iff _⟩

theorem checks_exact_nested :
    ((∃ u, Structured.check nested = .ok u) ↔ Scoped (Structured.eventsOf nested)) ∧
    ¬ ((∃ q, Procedural.check borrowed = .ok q) ↔ Scoped borrowed.events) := by
  obtain ⟨⟨-, hnested⟩, -, hborrowed⟩ := checks_exact_iff nested borrowed
  refine ⟨(hnested nofun).2.2 (.inl (by decide)), fun h => ?_⟩
  obtain hstrays | ⟨hcheck, -⟩ := (hborrowed nofun).2.1 h
  · exact absurd hstrays (by decide)
  · exact hcheck ⟨_, rfl⟩

/-- A program may be accepted in which a name is out of scope, or refused in which every name is in scope. -/
theorem checks_against_scopes :
    (Structured.check discarded = .ok () ∧ ¬ Scoped (Structured.eventsOf discarded)) ∧
    (Structured.check redeclared = .error (.declaredTwice 2 "x") ∧ Scoped (Structured.eventsOf redeclared)) ∧
    (∃ q, Procedural.check borrowed = .ok q) ∧ ¬ Scoped borrowed.events :=
  ⟨⟨rfl, by decide⟩, ⟨rfl, by decide⟩, ⟨_, rfl⟩, by decide⟩

end Bx.Scoping
