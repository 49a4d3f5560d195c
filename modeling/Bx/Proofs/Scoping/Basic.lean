import Bx.Proofs.Basic

namespace Bx.Scoping

open List

/-- A block may come with names of its own. -/
inductive Event
  | enter (params : List String)
  | leave
  | use (line : Int) (x : String)
  | declare (line : Int) (x : String)
  deriving DecidableEq

/-- Where a name comes from. Declarations in a text are numbered. -/
inductive Declaration
  | global (x : String)
  | param (x : String)
  | var (k : Nat)
  deriving DecidableEq

inductive Fault
  | undeclared (line : Int) (x : String)
  | declaredTwice (line : Int) (x : String)
  deriving DecidableEq

structure State where
  scopes : List (List (String × Declaration))
  next : Nat
  deriving DecidableEq

namespace State

def find? (s : State) (x : String) : Option Declaration := s.scopes.findSome? fun scope => scope.lookup x

def add (s : State) (x : String) : State where
  scopes := ((x, .var s.next) :: s.scopes.headD []) :: s.scopes.tail
  next := s.next + 1

def inner? (s : State) (x : String) : Option Declaration := (s.scopes.headD []).lookup x

end State

def step (s : State) : Event → Except Fault State
  | .enter params => .ok { s with scopes := (params.map fun x => (x, .param x)) :: s.scopes }
  | .leave => .ok { s with scopes := s.scopes.tail }
  | .use line x => if (s.find? x).isSome then .ok s else .error (.undeclared line x)
  | .declare line x => if (s.inner? x).isSome then .error (.declaredTwice line x) else .ok (s.add x)

def run (s : State) (es : List Event) : Except Fault State := es.foldlM step s

def Scoped (es : List Event) : Prop := (run ⟨[[]], 0⟩ es).isOk = true

instance (es : List Event) : Decidable (Scoped es) := inferInstanceAs (Decidable (_ = true))

def lasting (es : List Event) : List Event := es.filter fun e => e != .leave

@[simp]
theorem step_enter (s : State) (xs : List String) :
    step s (.enter xs) = .ok { s with scopes := (xs.map fun x => (x, .param x)) :: s.scopes } := rfl

@[simp]
theorem step_leave (s : State) : step s .leave = .ok { s with scopes := s.scopes.tail } := rfl

@[simp]
theorem run_nil (s : State) : run s [] = .ok s := rfl

@[simp]
theorem run_cons (s : State) (e : Event) (es : List Event) : run s (e :: es) = step s e >>= fun s => run s es := rfl

@[simp]
theorem run_append (s : State) (es es' : List Event) : run s (es ++ es') = run s es >>= fun s => run s es' := by
  rw [run, foldlM_append]
  rfl

@[simp]
theorem lasting_nil : lasting [] = [] := rfl

@[simp]
theorem lasting_append (es es' : List Event) : lasting (es ++ es') = lasting es ++ lasting es' := filter_append es es'

@[simp]
theorem lasting_leave (es : List Event) : lasting (.leave :: es) = lasting es := rfl

@[simp]
theorem lasting_enter (xs : List String) (es : List Event) : lasting (.enter xs :: es) = .enter xs :: lasting es := rfl

@[simp]
theorem lasting_use (line : Int) (x : String) (es : List Event) : lasting (.use line x :: es) = .use line x :: lasting es := rfl

@[simp]
theorem lasting_declare (line : Int) (x : String) (es : List Event) :
    lasting (.declare line x :: es) = .declare line x :: lasting es := rfl

theorem find?_add (s : State) (x y : String) : (s.add x).find? y = if y = x then some (.var s.next) else s.find? y := by
  obtain ⟨scopes, n⟩ := s
  by_cases h : y = x
  · subst h
    simp [State.find?, State.add]
  · cases scopes with
    | nil => simp [State.find?, State.add, lookup_cons, beq_eq_false_iff_ne.2 h, h]
    | cons scope rest =>
      rw [if_neg h, State.find?, State.find?, State.add, headD_cons, tail_cons, List.findSome?_cons, List.findSome?_cons,
        lookup_cons, beq_eq_false_iff_ne.2 h]

section Covers

variable {τ : Type} {scopes : List (List (String × τ))} {s : State}
variable {scope : List (String × τ)} {rest : List (List (String × τ))}

def Covers (scopes : List (List (String × τ))) (s : State) : Prop :=
  List.Forall₂ (fun a b => ∀ x, (a.lookup x).isSome = (b.lookup x).isSome) scopes s.scopes

theorem Covers.find (h : Covers scopes s) (x : String) :
    (scopes.findSome? fun scope => scope.lookup x).isSome = (s.find? x).isSome := by
  rw [State.find?]
  rw [Covers] at h
  generalize s.scopes = blocks at h ⊢
  induction h with
  | nil => rfl
  | @cons a b as bs hab _ ih =>
    have hx := hab x
    rw [List.findSome?_cons, List.findSome?_cons]
    cases ha : a.lookup x with
    | none =>
      cases hb : b.lookup x with
      | none => exact ih
      | some d => simp [ha, hb] at hx
    | some t =>
      cases hb : b.lookup x with
      | none => simp [ha, hb] at hx
      | some d => rfl

theorem Covers.inner (h : Covers (scope :: rest) s) (x : String) : (scope.lookup x).isSome = (s.inner? x).isSome := by
  obtain ⟨scopes, n⟩ := s
  cases h with
  | cons hx _ => exact hx x

theorem Covers.enter (h : Covers scopes s) {params : List String} (hp : ∀ x, (scope.lookup x).isSome ↔ x ∈ params) :
    Covers (scope :: scopes) { s with scopes := (params.map fun x => (x, Declaration.param x)) :: s.scopes } := by
  refine .cons (fun x => ?_) h
  rw [Bool.eq_iff_iff, hp x, lookup_isSome]
  simp

theorem Covers.enter_nil (h : Covers scopes s) : Covers ([] :: scopes) { s with scopes := [] :: s.scopes } := .cons (fun _ => rfl) h

theorem Covers.add (h : Covers (scope :: rest) s) (x : String) (t : τ) : Covers ((scope ++ [(x, t)]) :: rest) (s.add x) := by
  obtain ⟨scopes, n⟩ := s
  cases h with
  | @cons _ b _ bs hab hrest =>
    refine .cons (fun y => ?_) hrest
    rw [Bool.eq_iff_iff, lookup_isSome, lookup_isSome]
    have hy := hab y
    rw [Bool.eq_iff_iff, lookup_isSome, lookup_isSome] at hy
    simp only [headD_cons, map_append, map_cons, map_nil, mem_append, mem_cons, not_mem_nil,
      or_false, hy]
    exact or_comm

end Covers

section Reports

variable {ε α β : Type} {fault? : ε → Option Fault} {R : α → State → Prop} {Q : β → State → Prop}
variable {r : Except Fault State} {k : α → Except ε β}

/-- Where the check passes there is no fault, and a fault that it reports is the one in the text. It may stop for other
reasons. -/
inductive Reports (fault? : ε → Option Fault) (R : α → State → Prop) : Except ε α → Except Fault State → Prop
  | passed {a s} (h : R a s) : Reports fault? R (.ok a) (.ok s)
  | found {e f} (h : fault? e = some f) : Reports fault? R (.error e) (.error f)
  | stopped {e r : _} (h : fault? e = none) : Reports fault? R (.error e) r

theorem Reports.bind {c : Except ε α} {k' : State → Except Fault State} (h : Reports fault? R c r)
    (hk : ∀ a s, R a s → Reports fault? Q (k a) (k' s)) : Reports fault? Q (c >>= k) (r >>= k') := by
  cases h with
  | passed h => exact hk _ _ h
  | found h => exact .found h
  | stopped h => exact .stopped h

theorem Reports.andThen {c : Except ε α} (h : Reports fault? R c r) (hk : ∀ a s, R a s → Reports fault? Q (k a) (.ok s)) :
    Reports fault? Q (c >>= k) r := by
  cases h with
  | passed h => exact hk _ _ h
  | found h => exact .found h
  | stopped h => exact .stopped h

theorem Reports.guard {b : Bool} {e : ε} {k : Unit → Except ε β} (he : fault? e = none) (hk : Reports fault? Q (k ()) r) :
    Reports fault? Q ((if b then .ok () else .error e) >>= k) r := by
  cases b with
  | true => exact hk
  | false => exact .stopped he

theorem Reports.declare {τ : Type} {scope : List (String × τ)} {rest : List (List (String × τ))} {s : State} {line : Int}
    {x : String} (e : ε) (h : Covers (scope :: rest) s) (he : fault? e = some (.declaredTwice line x)) {k : Unit → Except ε β}
    (hk : Reports fault? Q (k ()) (.ok (s.add x))) :
    Reports fault? Q ((if (scope.lookup x).isNone then .ok () else .error e) >>= k) (run s [.declare line x]) := by
  have hx := h.inner x
  simp only [run_cons, run_nil, step, ← hx]
  cases scope.lookup x with
  | none => exact hk
  | some t => exact .found he

end Reports

end Bx.Scoping
