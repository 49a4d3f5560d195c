import Bx.Proofs.Run.Action
import Mathlib.Data.List.Forall2

namespace Bx.Tac.Run

variable {α β φ ψ : Type}
variable {S : Semantics φ} {fs : List φ} {w w' w₁ w₂ : World} {r r₁ r₂ : Except Fault Datum} {name : String}
variable {args : Datum} {depth : Int} {f : φ} {R : α → β → Prop} {x : Except Fault α × World}
variable {y : Except Fault β × World} {gs : List ψ} {e : Effect φ} {e' : Effect ψ}

/-- How a run from a stack of procedures ends: with a value or a fault, and in which world. -/
inductive Ends (S : Semantics φ) : List φ → World → Except Fault Datum → World → Prop
  | fault {fs w e w' : _} (h : result (step S fs) w = (.error e, w')) : Ends S fs w (.error e) w'
  | value {fs w v w' : _} (h : result (step S fs) w = (.ok (.inr v), w')) : Ends S fs w (.ok v) w'
  | more {fs w fs' w₁ r w' : _} (h : result (step S fs) w = (.ok (.inl fs'), w₁)) (hr : Ends S fs' w₁ r w') : Ends S fs w r w'

def Yields (S : Semantics φ) (name : String) (args : Datum) (depth : Int) (w : World) (r : Except Fault Datum)
    (w' : World) : Prop :=
  ∃ n, result (call S n name args depth) w = (r.map some, w')

def SameRuns (S₁ : Semantics φ) (S₂ : Semantics ψ) : Prop :=
  ∀ name args depth w r w', Yields S₁ name args depth w r w' ↔ Yields S₂ name args depth w r w'

theorem SameRuns.trans {χ : Type} {S₁ : Semantics φ} {S₂ : Semantics ψ} {S₃ : Semantics χ}
    (h : SameRuns S₁ S₂) (h' : SameRuns S₂ S₃) : SameRuns S₁ S₃ :=
  fun name args depth w r w' => (h name args depth w r w').trans (h' name args depth w r w')

theorem ends_of_steps {n : Nat} (h : result (steps S n fs) w = (r.map some, w')) : Ends S fs w r w' := by
  induction n generalizing fs w with
  | zero => cases r <;> simp [steps, Except.map] at h
  | succ n ih =>
    simp only [steps, result_bind] at h
    rcases hs : result (step S fs) w with ⟨e | fs' | v, w₁⟩
    · cases r with
      | error e' =>
        simp only [hs, andThen_error, Except.map, Prod.mk.injEq, Except.error.injEq] at h
        obtain ⟨rfl, rfl⟩ := h
        exact .fault hs
      | ok v => simp [hs, Except.map] at h
    · exact .more hs (ih (by simpa [hs] using h))
    · cases r with
      | error e => simp [hs, Except.map] at h
      | ok v' =>
        simp only [hs, andThen_ok, result_pure, Except.map, Prod.mk.injEq, Except.ok.injEq, Option.some.injEq] at h
        obtain ⟨rfl, rfl⟩ := h
        exact .value hs

theorem steps_of_ends (h : Ends S fs w r w') : ∃ n, result (steps S n fs) w = (r.map some, w') := by
  induction h with
  | fault h => exact ⟨1, by simp [steps, h, Except.map]⟩
  | value h => exact ⟨1, by simp [steps, h, Except.map]⟩
  | more h _ ih =>
    obtain ⟨n, hn⟩ := ih
    exact ⟨n + 1, by simpa [steps, h] using hn⟩

theorem ends_iff_steps : Ends S fs w r w' ↔ ∃ n, result (steps S n fs) w = (r.map some, w') :=
  ⟨steps_of_ends, fun ⟨_, h⟩ => ends_of_steps h⟩

theorem yields_of_enter (h : result (S.enter name args depth) w = (.ok f, w₁)) :
    Yields S name args depth w r w' ↔ Ends S [f] w₁ r w' := by
  simp [Yields, call, h, ends_iff_steps]

theorem yields_of_refused {e : Fault} (h : result (S.enter name args depth) w = (.error e, w₁)) :
    Yields S name args depth w r w' ↔ r = .error e ∧ w' = w₁ := by
  cases r <;> simp [Yields, call, h, Except.map, eq_comm]

theorem Ends.det (h₁ : Ends S fs w r₁ w₁) (h₂ : Ends S fs w r₂ w₂) : r₁ = r₂ ∧ w₁ = w₂ := by
  induction h₁ with
  | fault h | value h => cases h₂ <;> simp_all
  | more h _ ih =>
    cases h₂ with
    | fault h' | value h' => simp_all
    | more h' hr =>
      rw [h] at h'
      cases h'
      exact ih hr

theorem Yields.det (h₁ : Yields S name args depth w r₁ w₁) (h₂ : Yields S name args depth w r₂ w₂) : r₁ = r₂ ∧ w₁ = w₂ := by
  rcases he : result (S.enter name args depth) w with ⟨e | f, w₀⟩
  · rw [yields_of_refused he] at h₁ h₂
    exact ⟨h₁.1.trans h₂.1.symm, h₁.2.trans h₂.2.symm⟩
  · exact ((yields_of_enter he).1 h₁).det ((yields_of_enter he).1 h₂)

inductive Effect.Matches (rel wait : φ → ψ → Prop) : Effect φ → Effect ψ → Prop
  | go {f g : _} (h : rel f g) : Matches rel wait (.go f) (.go g)
  | call {f g name args depth : _} (h : wait f g) : Matches rel wait (.call f name args depth) (.call g name args depth)
  | ret {v} : Matches rel wait (.ret v) (.ret v)

def Follows (keeps : Fault → Prop) (inv : World → Prop) (R : α → β → Prop) (x : Except Fault α × World)
    (y : Except Fault β × World) : Prop :=
  match x with
  | (.ok a, w) => ∃ b, y = (.ok b, w) ∧ R a b ∧ inv w
  | (.error e, w) => keeps e → y = (.error e, w)

theorem Follows.andThen {γ δ : Type} {keeps : Fault → Prop} {inv : World → Prop} {Q : γ → δ → Prop}
    {k : α → World → Except Fault γ × World} {k' : β → World → Except Fault δ × World} (h : Follows keeps inv R x y)
    (hk : ∀ a b w, R a b → inv w → Follows keeps inv Q (k a w) (k' b w)) : Follows keeps inv Q (andThen x k) (andThen y k') := by
  rcases x with ⟨e | a, w⟩
  · intro he
    rw [h he, andThen_error]
  · obtain ⟨b, rfl, hR, hw⟩ := h
    exact hk a b w hR hw

/-- Steps of the first machine are matched in the second, which may take some of its own in between; a number bounds how
many. Faults that are not kept need not be matched. -/
structure Simulation (S₁ : Semantics φ) (S₂ : Semantics ψ) (keeps : Fault → Prop) where
  inv : World → Prop
  rel : Nat → φ → ψ → Prop
  /-- Frames that wait for the result of a call. -/
  wait : φ → ψ → Prop
  enter : ∀ {w}, inv w → ∀ name args depth,
    Follows keeps inv (fun f g => ∃ n, rel n f g) (result (S₁.enter name args depth) w) (result (S₂.enter name args depth) w)
  resume : ∀ {w f g}, inv w → wait f g → ∀ v,
    Follows keeps inv (fun f g => ∃ n, rel n f g) (result (S₁.resume f v) w) (result (S₂.resume g v) w)
  advance : ∀ {w n f g}, inv w → rel n f g →
    (∃ f' k, result (S₁.advance f) w = (.ok (.go f'), w) ∧ rel k f' g) ∨
    (∃ g', ∃ k < n, result (S₂.advance g) w = (.ok (.go g'), w) ∧ rel k f g') ∨
    Follows keeps inv (Effect.Matches (fun f g => ∃ n, rel n f g) wait) (result (S₁.advance f) w) (result (S₂.advance g) w)

namespace Simulation

variable {S₁ : Semantics φ} {S₂ : Semantics ψ} {keeps : Fault → Prop} (M : Simulation S₁ S₂ keeps)

inductive Stacks : List φ → List ψ → Prop
  | nil : Stacks [] []
  | cons {n f g fs gs : _} (h : M.rel n f g) (hs : List.Forall₂ M.wait fs gs) : Stacks (f :: fs) (g :: gs)

inductive Outcomes : Sum (List φ) Datum → Sum (List ψ) Datum → Prop
  | goes {fs gs : _} (h : M.Stacks fs gs) : Outcomes (.inl fs) (.inl gs)
  | ended {v} : Outcomes (.inr v) (.inr v)

end Simulation

def proceed (S : Semantics φ) (rest : List φ) : Effect φ → Action (Sum (List φ) Datum)
  | .go f => return .inl (f :: rest)
  | .call f name args depth => do
    if rest.length ≥ maxDepth then throw .tooDeep
    return .inl ((← S.enter name (.list args) depth) :: f :: rest)
  | .ret v => match rest with
    | [] => return .inr v
    | g :: rest => do return .inl ((← S.resume g v) :: rest)

theorem result_step (S : Semantics φ) (f : φ) (rest : List φ) (w : World) :
    result (step S (f :: rest)) w = andThen (result (S.advance f) w) fun e w => result (proceed S rest e) w := by
  rw [step, result_bind]
  rfl

theorem ends_of_quiet {f' : φ} {rest : List φ} (h : result (S.advance f) w = (.ok (.go f'), w))
    (he : Ends S (f' :: rest) w r w') : Ends S (f :: rest) w r w' :=
  .more (by rw [result_step, h]; rfl) he

namespace Simulation

variable {S₁ : Semantics φ} {S₂ : Semantics ψ} {keeps : Fault → Prop} (M : Simulation S₁ S₂ keeps)

theorem proceed_follows (hs : List.Forall₂ M.wait fs gs) (he : Effect.Matches (fun f g => ∃ n, M.rel n f g) M.wait e e')
    (hw : M.inv w) : Follows keeps M.inv M.Outcomes (result (proceed S₁ fs e) w) (result (proceed S₂ gs e') w) := by
  cases he with
  | go h =>
    obtain ⟨n, h⟩ := h
    exact ⟨_, rfl, .goes (.cons h hs), hw⟩
  | @call f g name args depth h =>
    simp only [proceed, ← hs.length_eq]
    by_cases hd : fs.length ≥ maxDepth
    · simp only [if_pos hd, result_bind, result_throw, andThen_error]
      exact fun _ => rfl
    · simp only [if_neg hd, result_bind]
      exact (M.enter hw name (.list args) depth).andThen fun f' g' w ⟨_, hr⟩ hw =>
        ⟨_, rfl, .goes (.cons hr (.cons h hs)), hw⟩
  | @ret v =>
    cases hs with
    | nil => exact ⟨_, rfl, .ended, hw⟩
    | cons h hs =>
      simp only [proceed, result_bind]
      exact (M.resume hw h v).andThen fun f' g' w ⟨_, hr⟩ hw => ⟨_, rfl, .goes (.cons hr hs), hw⟩

theorem step_follows (hs : List.Forall₂ M.wait fs gs) {g : ψ}
    (h : Follows keeps M.inv (Effect.Matches (fun f g => ∃ n, M.rel n f g) M.wait) (result (S₁.advance f) w)
      (result (S₂.advance g) w)) :
    Follows keeps M.inv M.Outcomes (result (step S₁ (f :: fs)) w) (result (step S₂ (g :: gs)) w) := by
  rw [result_step, result_step]
  exact h.andThen fun _ _ _ he hw => M.proceed_follows hs he hw

theorem settle (hw : M.inv w) {n : Nat} {g : ψ} (h : M.rel n f g) :
    ∃ g', (∀ {gs r w'}, Ends S₂ (g' :: gs) w r w' → Ends S₂ (g :: gs) w r w') ∧
      ((∃ f' k, result (S₁.advance f) w = (.ok (.go f'), w) ∧ M.rel k f' g') ∨
        Follows keeps M.inv (Effect.Matches (fun f g => ∃ n, M.rel n f g) M.wait) (result (S₁.advance f) w)
          (result (S₂.advance g') w)) := by
  induction n using Nat.strongRecOn generalizing g with
  | ind n ih =>
    rcases M.advance hw h with hl | ⟨g₁, k, hk, hq, h₁⟩ | hb
    · exact ⟨g, id, .inl hl⟩
    · obtain ⟨g', hg', hc⟩ := ih k hk h₁
      exact ⟨g', fun he => ends_of_quiet hq (hg' he), hc⟩
    · exact ⟨g, id, .inr hb⟩

theorem ends (h : Ends S₁ fs w r w') (hs : M.Stacks fs gs) (hw : M.inv w) (hr : ∀ e, r = .error e → keeps e) :
    Ends S₂ gs w r w' := by
  induction h generalizing gs with
  | @fault fs w e w' h =>
    cases hs with
    | nil => simp [step] at h
    | cons hrel hs =>
      obtain ⟨g', hg', ⟨f', _, hq, -⟩ | hf⟩ := M.settle hw hrel
      · simp [result_step, hq, proceed] at h
      · have hstep := M.step_follows hs hf
        rw [h] at hstep
        exact hg' (.fault (hstep (hr e rfl)))
  | @value fs w v w' h =>
    cases hs with
    | nil =>
      simp only [step, result_pure, Prod.mk.injEq, Except.ok.injEq, Sum.inr.injEq] at h
      obtain ⟨rfl, rfl⟩ := h
      exact .value rfl
    | cons hrel hs =>
      obtain ⟨g', hg', ⟨f', _, hq, -⟩ | hf⟩ := M.settle hw hrel
      · simp [result_step, hq, proceed] at h
      · have hstep := M.step_follows hs hf
        rw [h] at hstep
        obtain ⟨_, hg, ho, -⟩ := hstep
        cases ho
        exact hg' (.value hg)
  | @more fs w fs' w₁ r w' h _ ih =>
    cases hs with
    | nil => simp [step] at h
    | cons hrel hs =>
      obtain ⟨g', hg', ⟨f', _, hq, hrel'⟩ | hf⟩ := M.settle hw hrel
      · simp only [result_step, hq, andThen_ok, proceed, result_pure, Prod.mk.injEq, Except.ok.injEq,
          Sum.inl.injEq] at h
        obtain ⟨rfl, rfl⟩ := h
        exact hg' (ih (.cons hrel' hs) hw hr)
      · have hstep := M.step_follows hs hf
        rw [h] at hstep
        obtain ⟨_, hg, ho, hw₁⟩ := hstep
        cases ho with
        | goes hs' => exact hg' (.more hg (ih hs' hw₁ hr))

theorem yields (h : Yields S₁ name args depth w r w') (hw : M.inv w) (hr : ∀ e, r = .error e → keeps e) :
    Yields S₂ name args depth w r w' := by
  have henter := M.enter hw name args depth
  rcases hf : result (S₁.enter name args depth) w with ⟨e | f, w₁⟩
  · obtain ⟨rfl, rfl⟩ := (yields_of_refused hf).1 h
    rw [hf] at henter
    exact (yields_of_refused (henter (hr e rfl))).2 ⟨rfl, rfl⟩
  · rw [hf] at henter
    obtain ⟨g, hg, ⟨_, hrel⟩, hw₁⟩ := henter
    exact (yields_of_enter hg).2 (M.ends ((yields_of_enter hf).1 h) (.cons hrel .nil) hw₁ hr)

end Simulation

inductive Agrees (R : α → β → Prop) : Except Fault α × World → Except Fault β × World → Prop
  | ok {a b w : _} (h : R a b) : Agrees R (.ok a, w) (.ok b, w)
  | error {e w : _} : Agrees R (.error e, w) (.error e, w)

theorem Agrees.same : Agrees Eq x x := by
  rcases x with ⟨e | a, w⟩
  · exact .error
  · exact .ok (Eq.refl a)

theorem Agrees.andThen {γ δ : Type} {Q : γ → δ → Prop} {k : α → World → Except Fault γ × World}
    {k' : β → World → Except Fault δ × World} (h : Agrees R x y) (hk : ∀ a b w, R a b → Agrees Q (k a w) (k' b w)) :
    Agrees Q (andThen x k) (andThen y k') := by
  cases h with
  | ok h => exact hk _ _ _ h
  | error => exact .error

theorem Agrees.symm (h : Agrees R x y) : Agrees (fun b a => R a b) y x := by
  cases h with
  | ok h => exact .ok h
  | error => exact .error

theorem Agrees.mono {Q : α → β → Prop} (h : Agrees R x y) (hRQ : ∀ a b, R a b → Q a b) : Agrees Q x y := by
  cases h with
  | ok h => exact .ok (hRQ _ _ h)
  | error => exact .error

theorem Agrees.follows {keeps : Fault → Prop} {inv : World → Prop} (h : Agrees R x y) (hw : inv x.2) :
    Follows keeps inv R x y := by
  cases h with
  | ok h => exact ⟨_, rfl, h, hw⟩
  | error => exact fun _ => rfl

theorem Effect.Matches.mono {rel rel' wait wait' : φ → ψ → Prop} (h : Effect.Matches rel wait e e')
    (hr : ∀ f g, rel f g → rel' f g) (hw : ∀ f g, wait f g → wait' f g) : Effect.Matches rel' wait' e e' := by
  cases h with
  | go h => exact .go (hr _ _ h)
  | call h => exact .call (hw _ _ h)
  | ret => exact .ret

theorem Effect.Matches.symm {rel wait : φ → ψ → Prop} (h : Effect.Matches rel wait e e') :
    Effect.Matches (fun g f => rel f g) (fun g f => wait f g) e' e := by
  cases h with
  | go h => exact .go h
  | call h => exact .call h
  | ret => exact .ret

theorem Effect.Matches.refl {rel wait : φ → φ → Prop} (hr : ∀ f, rel f f) (hw : ∀ f, wait f f) (e : Effect φ) :
    Effect.Matches rel wait e e := by
  cases e with
  | go f => exact .go (hr f)
  | call f name args depth => exact .call (hw f)
  | ret v => exact .ret

def Quiet (S : Semantics φ) (f f' : φ) : Prop := ∀ w, result (S.advance f) w = (.ok (.go f'), w)

/-- Each may take quiet steps of its own in between; a number in the relation bounds how many. -/
structure Bisimulation (S₁ : Semantics φ) (S₂ : Semantics ψ) where
  rel : Nat → φ → ψ → Prop
  wait : φ → ψ → Prop
  enter : ∀ name args depth w,
    Agrees (fun f g => ∃ n, rel n f g) (result (S₁.enter name args depth) w) (result (S₂.enter name args depth) w)
  resume : ∀ {f g}, wait f g → ∀ v w, Agrees (fun f g => ∃ n, rel n f g) (result (S₁.resume f v) w) (result (S₂.resume g v) w)
  advance : ∀ {n f g}, rel n f g →
    (∃ f', ∃ k < n, Quiet S₁ f f' ∧ rel k f' g) ∨
    (∃ g', ∃ k < n, Quiet S₂ g g' ∧ rel k f g') ∨
    ∀ w, Agrees (Effect.Matches (fun f g => ∃ n, rel n f g) wait) (result (S₁.advance f) w) (result (S₂.advance g) w)

namespace Bisimulation

variable {S₁ : Semantics φ} {S₂ : Semantics ψ}

def symm (M : Bisimulation S₁ S₂) : Bisimulation S₂ S₁ where
  rel n g f := M.rel n f g
  wait g f := M.wait f g
  enter name args depth w := (M.enter name args depth w).symm
  resume h v w := (M.resume h v w).symm
  advance h := by
    rcases M.advance h with hl | hr | hb
    · exact .inr (.inl hl)
    · exact .inl hr
    · exact .inr (.inr fun w => (hb w).symm.mono fun _ _ => Effect.Matches.symm)

def simulation (M : Bisimulation S₁ S₂) : Simulation S₁ S₂ fun _ => True where
  inv _ := True
  rel := M.rel
  wait := M.wait
  enter _ name args depth := (M.enter name args depth _).follows trivial
  resume _ h v := (M.resume h v _).follows trivial
  advance {w} _ _ _ _ h := by
    rcases M.advance h with ⟨f', k, -, hq, hrel⟩ | ⟨g', k, hk, hq, hrel⟩ | hb
    · exact .inl ⟨f', k, hq w, hrel⟩
    · exact .inr (.inl ⟨g', k, hk, hq w, hrel⟩)
    · exact .inr (.inr ((hb w).follows trivial))

theorem sameRuns (M : Bisimulation S₁ S₂) : SameRuns S₁ S₂ := fun _ _ _ _ _ _ =>
  ⟨fun h => M.simulation.yields h trivial fun _ _ => trivial, fun h => M.symm.simulation.yields h trivial fun _ _ => trivial⟩

end Bisimulation

end Bx.Tac.Run
