import Bx.Proofs.Scoping.Basic
import Mathlib.Logic.Function.Basic

namespace Bx.Scoping

open List

/-- What a name refers to there, and what a declaration hides from there on. -/
structure Occurrence where
  refersTo : Declaration
  hides : Option Declaration
  deriving DecidableEq

def occurrence? (s : State) : Event → Option Occurrence
  | .use _ x => (s.find? x).map fun d => ⟨d, none⟩
  | .declare _ x => some ⟨.var s.next, s.find? x⟩
  | .enter _ | .leave => none

def occurrences (s : State) : List Event → List Occurrence
  | [] => []
  | e :: es => (occurrence? s e).toList ++ match step s e with
    | .ok s => occurrences s es
    | .error _ => []

section Steps

variable {s s' : State} {line : Int} {x : String} {es : List Event}

theorem run_use (h : run s (.use line x :: es) = .ok s') : ∃ d, s.find? x = some d ∧ run s es = .ok s' := by
  rw [run_cons, step] at h
  cases hx : s.find? x with
  | none =>
    rw [hx] at h
    cases h
  | some d =>
    rw [hx] at h
    exact ⟨d, rfl, h⟩

theorem run_declare (h : run s (.declare line x :: es) = .ok s') : s.inner? x = none ∧ run (s.add x) es = .ok s' := by
  rw [run_cons, step] at h
  cases hx : s.inner? x with
  | some d =>
    rw [hx] at h
    cases h
  | none =>
    rw [hx] at h
    exact ⟨rfl, h⟩

theorem run_uses (he : ∀ e ∈ es, ∃ line x, e = .use line x) (h : run s es = .ok s') :
    s' = s ∧ ∀ line x, .use line x ∈ es → (s.find? x).isSome := by
  induction es with
  | nil =>
    cases h
    exact ⟨rfl, nofun⟩
  | cons e es ih =>
    obtain ⟨line, x, rfl⟩ := he e (.head _)
    obtain ⟨d, hd, h⟩ := run_use h
    obtain ⟨rfl, hes⟩ := ih (fun e he' => he e (.tail _ he')) h
    refine ⟨rfl, fun line' y hy => ?_⟩
    obtain _ | ⟨_, hy⟩ := hy
    · simp [hd]
    · exact hes line' y hy

theorem occurrences_use {d : Declaration} (h : s.find? x = some d) :
    occurrences s (.use line x :: es) = ⟨d, none⟩ :: occurrences s es := by
  simp [occurrences, occurrence?, step, h]

theorem occurrences_declare (h : s.inner? x = none) :
    occurrences s (.declare line x :: es) = ⟨.var s.next, s.find? x⟩ :: occurrences (s.add x) es := by
  simp [occurrences, occurrence?, step, h]

end Steps

abbrev View := String → Option String

/-- A known name keeps its operand, even where it is declared; another gets a temporary that has not been taken. A block
knows what the block around it knows, which is as before when it ends. -/
inductive Operands (temp : Nat → String) : Nat → List View → List Event → List String → Nat → List View → Prop
  | nil {n n' vs} (h : n ≤ n') : Operands temp n vs [] [] n' vs
  | use {n n' v vs vs' line x o es os} (hx : v x = some o) (h : Operands temp n (v :: vs) es os n' vs') :
      Operands temp n (v :: vs) (.use line x :: es) (o :: os) n' vs'
  | known {n n' v vs vs' line x o es os} (hx : v x = some o) (h : Operands temp n (v :: vs) es os n' vs') :
      Operands temp n (v :: vs) (.declare line x :: es) (o :: os) n' vs'
  | new {n n' v vs vs' line x k es os} (hx : v x = none) (hk : n ≤ k)
      (h : Operands temp (k + 1) (Function.update v x (some (temp k)) :: vs) es os n' vs') :
      Operands temp n (v :: vs) (.declare line x :: es) (temp k :: os) n' vs'
  | enter {n n' v vs vs' es os} (h : Operands temp n (v :: v :: vs) es os n' vs') :
      Operands temp n (v :: vs) (.enter [] :: es) os n' vs'
  | leave {n n' v vs vs' es os} (h : Operands temp n vs es os n' vs') : Operands temp n (v :: vs) (.leave :: es) os n' vs'

def Reads (v : View) (es : List Event) (os : List String) : Prop :=
  List.Forall₂ (fun e o => ∃ line x, e = .use line x ∧ v x = some o) es os

section Operands

variable {temp : Nat → String} {n n' n'' : Nat} {v : View} {vs vs' vs'' : List View} {es es' : List Event} {os os' : List String}

theorem Operands.of_le (h : Operands temp n vs es os n' vs') {m : Nat} (hm : m ≤ n) : Operands temp m vs es os n' vs' := by
  induction h with
  | nil h => exact .nil (Nat.le_trans hm h)
  | use hx _ ih => exact .use hx (ih hm)
  | known hx _ ih => exact .known hx (ih hm)
  | new hx hk h => exact .new hx (Nat.le_trans hm hk) h
  | enter _ ih => exact .enter (ih hm)
  | leave _ ih => exact .leave (ih hm)

theorem Operands.append (h : Operands temp n vs es os n' vs') (h' : Operands temp n' vs' es' os' n'' vs'') :
    Operands temp n vs (es ++ es') (os ++ os') n'' vs'' := by
  induction h with
  | nil hn => exact h'.of_le hn
  | use hx _ ih => exact .use hx (ih h')
  | known hx _ ih => exact .known hx (ih h')
  | new hx hk _ ih => exact .new hx hk (ih h')
  | enter _ ih => exact .enter (ih h')
  | leave _ ih => exact .leave (ih h')

theorem Reads.append (h : Reads v es os) (h' : Reads v es' os') : Reads v (es ++ es') (os ++ os') := rel_append h h'

theorem Reads.operands (h : Reads v es os) (hn : n ≤ n') : Operands temp n (v :: vs) es os n' (v :: vs) := by
  induction h with
  | nil => exact .nil hn
  | cons he _ ih =>
    obtain ⟨line, x, rfl, hx⟩ := he
    exact .use hx ih

end Operands

def Faithful (pairs : List (String × Declaration)) : Prop := ∀ a ∈ pairs, ∀ b ∈ pairs, a.1 = b.1 ↔ a.2 = b.2

instance (pairs : List (String × Declaration)) : Decidable (Faithful pairs) :=
  inferInstanceAs (Decidable (∀ a ∈ pairs, ∀ b ∈ pairs, a.1 = b.1 ↔ a.2 = b.2))

section Faithful

variable {temp : Nat → String} {pairs : List (String × Declaration)} {n n' : Nat} {v : View} {vs vs' : List View} {es : List Event}
  {os : List String} {s s' : State} {x : String}

/-- A view knows the names that are in scope, by operands of what they refer to. -/
structure Agrees (pairs : List (String × Declaration)) (v : View) (scopes : List (List (String × Declaration))) : Prop where
  known : ∀ x o, v x = some o → ∃ d, (scopes.findSome? fun scope => scope.lookup x) = some d ∧ (o, d) ∈ pairs
  unknown : ∀ x, v x = none → (scopes.findSome? fun scope => scope.lookup x) = none

def Linked (pairs : List (String × Declaration)) : List View → List (List (String × Declaration)) → Prop
  | [], _ => True
  | v :: vs, scopes => Agrees pairs v scopes ∧ Linked pairs vs scopes.tail

def Below (temp : Nat → String) (pairs : List (String × Declaration)) (n m : Nat) : Prop :=
  ∀ a ∈ pairs, (∀ k, a.1 = temp k → k < n) ∧ ∀ k, a.2 = .var k → k < m

theorem Linked.mono {pairs' : List (String × Declaration)} {scopes : List (List (String × Declaration))} (h : Linked pairs vs scopes)
    (hp : pairs ⊆ pairs') : Linked pairs' vs scopes := by
  induction vs generalizing scopes with
  | nil => trivial
  | cons v vs ih =>
    refine ⟨⟨fun x o hx => ?_, h.1.unknown⟩, ih h.2⟩
    obtain ⟨d, hd, ho⟩ := h.1.known x o hx
    exact ⟨d, hd, hp ho⟩

theorem Linked.add {t : String} (h : Linked pairs (v :: vs) s.scopes) (x : String) (ht : (t, .var s.next) ∈ pairs) :
    Linked pairs (Function.update v x (some t) :: vs) (s.add x).scopes := by
  refine ⟨⟨fun y o hy => ?_, fun y hy => ?_⟩, h.2⟩
  · change ∃ d, (s.add x).find? y = some d ∧ _
    rw [find?_add]
    by_cases hyx : y = x
    · subst hyx
      rw [Function.update_self] at hy
      cases hy
      exact ⟨_, if_pos rfl, ht⟩
    · rw [Function.update_of_ne hyx] at hy
      rw [if_neg hyx]
      exact h.1.known y o hy
  · change (s.add x).find? y = none
    rw [find?_add]
    by_cases hyx : y = x
    · subst hyx
      rw [Function.update_self] at hy
      cases hy
    · rw [Function.update_of_ne hyx] at hy
      rw [if_neg hyx]
      exact h.1.unknown y hy

theorem Faithful.snoc {o : String} {d : Declaration} (h : Faithful pairs) (ho : ∀ a ∈ pairs, a.1 ≠ o) (hd : ∀ a ∈ pairs, a.2 ≠ d) :
    Faithful (pairs ++ [(o, d)]) := by
  intro a ha b hb
  rw [mem_append, mem_singleton] at ha hb
  obtain ha | rfl := ha
  · obtain hb | rfl := hb
    · exact h a ha b hb
    · exact iff_of_false (ho a ha) (hd a ha)
  · obtain hb | rfl := hb
    · exact iff_of_false (ho b hb).symm (hd b hb).symm
    · simp

theorem Below.snoc {k m : Nat} (h : Below temp pairs n m) (htemp : Function.Injective temp) (hk : n ≤ k) :
    Below temp (pairs ++ [(temp k, .var m)]) (k + 1) (m + 1) := by
  intro a ha
  rw [mem_append, mem_singleton] at ha
  obtain ha | rfl := ha
  · refine ⟨fun j hj => ?_, fun j hj => Nat.lt_succ_of_lt ((h a ha).2 j hj)⟩
    have hj' := (h a ha).1 j hj
    omega
  · refine ⟨fun j hj => ?_, fun j hj => ?_⟩
    · rw [htemp hj]
      exact Nat.lt_succ_self j
    · cases hj
      exact Nat.lt_succ_self m

theorem faithful_cons_of_mem {a : String × Declaration} {more : List (String × Declaration)} (ha : a ∈ pairs) :
    Faithful (pairs ++ a :: more) ↔ Faithful (pairs ++ more) := by
  have hmem : ∀ b, b ∈ pairs ++ a :: more ↔ b ∈ pairs ++ more := by
    intro b
    simp only [mem_append, mem_cons]
    constructor
    · rintro (hb | rfl | hb)
      · exact .inl hb
      · exact .inl ha
      · exact .inr hb
    · rintro (hb | hb)
      · exact .inl hb
      · exact .inr (.inr hb)
  simp only [Faithful, hmem]

theorem Operands.length_eq (h : Operands temp n vs es os n' vs') (hs : run s es = .ok s') :
    os.length = (occurrences s es).length := by
  induction h generalizing s with
  | nil => rfl
  | use _ _ ih =>
    obtain ⟨d, hd, hs⟩ := run_use hs
    rw [occurrences_use hd, length_cons, length_cons, ih hs]
  | known _ _ ih | new _ _ _ ih =>
    obtain ⟨hx, hs⟩ := run_declare hs
    rw [occurrences_declare hx, length_cons, length_cons, ih hs]
  | enter _ ih | leave _ ih => exact ih hs

theorem Operands.faithful_iff (h : Operands temp n vs es os n' vs') (htemp : Function.Injective temp)
    (hs : run s es = .ok s') (hv : Linked pairs vs s.scopes) (hb : Below temp pairs n s.next) (hp : Faithful pairs) :
    Faithful (pairs ++ os.zip ((occurrences s es).map Occurrence.refersTo)) ↔ ∀ o ∈ occurrences s es, o.hides = none := by
  -- the induction is over the text; what has been met of it is among the pairs
  induction h generalizing s pairs with
  | nil => simpa [occurrences] using hp
  | use hx _ ih =>
    obtain ⟨d, hd, hs⟩ := run_use hs
    obtain ⟨d', hd', ho⟩ := hv.1.known _ _ hx
    obtain rfl : d = d' := Option.some.inj (hd.symm.trans hd')
    rw [occurrences_use hd, map_cons, zip_cons_cons, faithful_cons_of_mem ho, forall_mem_cons]
    rw [ih hs hv hb hp]
    exact (and_iff_right rfl).symm
  | @known _ _ _ _ _ _ _ o _ _ hx _ ih =>
    obtain ⟨hin, hs⟩ := run_declare hs
    obtain ⟨d, hd, ho⟩ := hv.1.known _ _ hx
    rw [occurrences_declare hin, map_cons, zip_cons_cons, forall_mem_cons]
    -- one operand stands for two declarations from here on
    refine iff_of_false (fun hf => ?_) (fun hn => ?_)
    · have heq : d = .var s.next := (hf (o, d) (by simp [ho]) (o, .var s.next) (by simp)).1 rfl
      exact Nat.lt_irrefl _ ((hb _ ho).2 s.next heq)
    · exact Option.some_ne_none d (hd.symm.trans hn.1)
  | @new _ _ v vs _ _ x k _ _ hx hk _ ih =>
    obtain ⟨hin, hs⟩ := run_declare hs
    have hnone : s.find? x = none := hv.1.unknown x hx
    have hadd : Linked (pairs ++ [(temp k, .var s.next)]) (Function.update v x (some (temp k)) :: vs) (s.add x).scopes :=
      (hv.mono (subset_append_left _ _)).add x (by simp)
    have hsnoc : Faithful (pairs ++ [(temp k, .var s.next)]) := by
      refine hp.snoc (fun a ha he => ?_) (fun a ha he => ?_)
      · have hlt := (hb a ha).1 k he
        omega
      · exact Nat.lt_irrefl _ ((hb a ha).2 s.next he)
    rw [occurrences_declare hin, map_cons, zip_cons_cons, forall_mem_cons, append_cons]
    rw [ih hs hadd (hb.snoc htemp hk) hsnoc]
    exact (and_iff_right hnone).symm
  | enter _ ih =>
    refine ih hs ⟨⟨fun x o hx => ?_, fun x hx => ?_⟩, hv⟩ hb hp
    · exact hv.1.known x o hx
    · exact hv.1.unknown x hx
  | leave _ ih => exact ih hs hv.2 hb hp

end Faithful

end Bx.Scoping
