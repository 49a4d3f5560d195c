import Bx.Proofs.Parser.Runs
import Mathlib.Data.List.Forall2

namespace Bx.Parser

open List

variable {T : Tables} {n k : Nat}

def Tables.Edge (T : Tables) (k : Nat) (x : String) (j : Nat) : Prop := T.action? k x = some (.shift j) ∨ T.goto? k x = some j

/-- Stacks of states and of types, the topmost first, that a table can lead to. -/
inductive Tables.Path (T : Tables) : List Nat → List String → Prop
  | start : Path T [0] []
  | step {j k : Nat} {ks : List Nat} {x : String} {xs : List String} (h : T.Edge k x j) (hp : Path T (k :: ks) xs) :
      Path T (j :: k :: ks) (x :: xs)

def Tables.Spells (T : Tables) (k : Nat) (symbols : List String) : Prop :=
  ∀ ks xs, T.Path (k :: ks) xs → symbols.reverse <+: xs

def Tables.Reduces (T : Tables) (k n : Nat) : Prop := (∃ t, T.action? k t = some (.reduce n)) ∨ T.defaulted.lookup k = some n

theorem Tables.Path.drop {ks : List Nat} {xs : List String} (h : T.Path ks xs) (hn : n ≤ xs.length) :
    T.Path (ks.drop n) (xs.drop n) := by
  induction n generalizing ks xs with
  | zero => exact h
  | succ n ih =>
    cases h with
    | start => simp at hn
    | step _ hp => exact ih hp (by simpa using hn)

theorem Tables.Path.exists_cons {ks : List Nat} {xs : List String} (h : T.Path ks xs) : ∃ k ks', ks = k :: ks' := by
  cases h <;> exact ⟨_, _, rfl⟩

def spelled (edges : List (Nat × String × Nat)) : List String → Nat → Bool
  | [], _ => true
  | x :: xs, k => k != 0 && edges.all fun e => e.2.2 != k || (e.2.1 == x && spelled edges xs e.1)

theorem spells_of_spelled {edges : List (Nat × String × Nat)} (he : ∀ k x j, T.Edge k x j → (k, x, j) ∈ edges)
    {symbols : List String} (h : spelled edges symbols.reverse k) : T.Spells k symbols := by
  intro ks xs hp
  generalize symbols.reverse = rest at h
  induction rest generalizing k ks xs with
  | nil => exact nil_prefix
  | cons x rest ih =>
    simp only [spelled, Bool.and_eq_true, bne_iff_ne, all_eq_true, Bool.or_eq_true, beq_iff_eq] at h
    cases hp with
    | start => exact absurd rfl h.1
    | @step _ i _ y ys hedge hp =>
      obtain hne | ⟨rfl, hrest⟩ := h.2 _ (he _ _ _ hedge)
      · exact absurd rfl hne
      · exact cons_prefix_cons.2 ⟨rfl, ih _ _ hp hrest⟩

def Symbol.Good {α : Type} (G : String → α → Prop) (x : Symbol α) : Prop := ∃ v, x.value = some v ∧ G x.type v

namespace Language

variable {α η σ ε : Type}

/-- Tokens are good for their types, and so is what rules make of good parts. Errors are final. -/
structure Checked (L : Language η σ α ε) (J : Lexer.State σ → Prop) (G : String → α → Prop) (start : String) : Prop where
  token : ∀ s t s', J s → L.lexer.token L.handling s = (.ok t, s') → J s' ∧ ∀ t', t = some t' → G t'.type (L.ofToken t')
  fails : ∀ t s, ∃ e s', L.onError t s = (.error e, s')
  reduces : ∀ k n, L.tables.Reduces k n → ∃ p, L.tables.rules[n]? = some p ∧ L.tables.Spells k p.symbols ∧
    ∀ vs s r s', List.Forall₂ G p.symbols vs → J s → L.reduce n vs s = (.ok r, s') → J s' ∧ ∃ v, r = some v ∧ G p.name v
  accepts : ∀ k t, L.tables.action? k t = some .accept → L.tables.Spells k [start]
  ends : ∀ k j, L.tables.action? k "$end" ≠ some (.shift j)

structure Kept (L : Language η σ α ε) (J : Lexer.State σ → Prop) (G : String → α → Prop) (c : Config α (Lexer.State σ)) : Prop where
  memory : J c.memory
  state : c.states.head? = some c.state
  stack : ∃ xs, c.stack = xs ++ [.endmark] ∧ (∀ x ∈ xs, x.Good G) ∧ L.tables.Path c.states (xs.map Symbol.type)
  lookahead : ∀ x, c.lookahead = some x → x = .endmark ∨ x.Good G
  pushed : c.pushed = []
  errorCount : c.errorCount = 0

variable {L : Language η σ α ε} {J : Lexer.State σ → Prop} {G : String → α → Prop} {start : String} {c : Config α (Lexer.State σ)}

def Kept.Outcome (L : Language η σ α ε) (J : Lexer.State σ → Prop) (G : String → α → Prop) (start : String) :
    Parser.Outcome α (Lexer.State σ) (Lexer.Fault ε) → Prop
  | .next c => L.Kept J G c
  | .done v _ => ∀ w, v = some w → G start w
  | .failed _ _ => True

variable (hL : L.Checked J G start)

include hL
variable (h : L.Kept J G c)
include h

theorem Checked.fetch {t : Symbol α} {c' : Config α (Lexer.State σ)} (hf : fetch L.client c = .ok (t, c')) :
    L.Kept J G c' ∧ c'.lookahead = some t := by
  obtain ⟨state, states, stack, lookahead, pushed, errorCount, ok, memory⟩ := c
  obtain ⟨hJ, hstate, hstack, hahead, rfl, hcount⟩ := h
  cases lookahead with
  | some x =>
    cases hf
    exact ⟨⟨hJ, hstate, hstack, hahead, rfl, hcount⟩, rfl⟩
  | none =>
    rw [Parser.fetch.eq_def] at hf
    rcases ht : L.lexer.token L.handling memory with ⟨e | t?, s⟩
    · simp only [client, ht] at hf
      cases hf
    · obtain ⟨hJ', htok⟩ := hL.token memory t? s hJ ht
      simp only [client, ht] at hf
      cases hf
      refine ⟨⟨hJ', hstate, hstack, fun x hx => ?_, rfl, hcount⟩, rfl⟩
      cases hx
      cases t? with
      | none => exact .inl rfl
      | some t => exact .inr ⟨_, rfl, htok t rfl⟩

theorem Checked.handleError (t : Symbol α) : Kept.Outcome L J G start (Parser.handleError L.client t c) := by
  obtain ⟨e, s', he⟩ := hL.fails (if t.type == "$end" then none else some t) c.memory
  rw [Parser.handleError.eq_def]
  simp only [record_client]
  have hcount : (c.errorCount == 0 || c.errorOk) := by simp [h.errorCount]
  rw [if_pos hcount]
  simp only [client, he]
  trivial

theorem Checked.shift {x : Symbol α} (hx : c.lookahead = some x)
    (ha : L.tables.action? c.state x.type = some (.shift k)) : Kept.Outcome L J G start (Parser.shift L.client k c) := by
  cases c
  obtain ⟨hJ, hstate, ⟨xs, hstack, hG, hpath⟩, hahead, hpushed, hcount⟩ := h
  dsimp only at hJ hstate hstack hpath hahead hpushed hcount hx ha
  subst hx hcount
  rcases hahead x rfl with rfl | hx
  · exact absurd ha (hL.ends _ _)
  · refine ⟨hJ, rfl, ⟨x :: xs, congrArg (x :: ·) hstack, forall_mem_cons.2 ⟨hx, hG⟩, ?_⟩, by simp, hpushed, rfl⟩
    obtain ⟨j, js, rfl⟩ := hpath.exists_cons
    cases hstate
    exact .step (.inl ha) hpath

theorem Checked.reduce (hn : L.tables.Reduces c.state n) :
    Kept.Outcome L J G start (Parser.reduce L.client n c) := by
  obtain ⟨state, states, stack, lookahead, pushed, errorCount, ok, memory⟩ := c
  obtain ⟨hJ, hstate, ⟨xs, hstack, hG, hpath⟩, hahead, hpushed, hcount⟩ := h
  dsimp only at hJ hstate hstack hpath hahead hpushed hcount hn
  obtain ⟨p, hp, hspells, hreduce⟩ := hL.reduces _ _ hn
  obtain ⟨k, ks, rfl⟩ := hpath.exists_cons
  cases hstate
  -- the topmost symbols are those of the rule
  obtain ⟨types, htypes⟩ := hspells ks _ hpath
  obtain ⟨xp, xb, rfl, hxp, rfl⟩ := map_eq_append_iff.1 htypes.symm
  have hlen : xp.length = p.symbols.length := by simpa using congrArg List.length hxp
  have htake : stack.take p.symbols.length = xp := by simp [hstack, ← hlen]
  have hdrop : stack.drop p.symbols.length = xb ++ [.endmark] := by simp [hstack, ← hlen]
  have hsymbols : p.symbols = xp.reverse.map Symbol.type := by rw [map_reverse, hxp, reverse_reverse]
  have hgood : List.Forall₂ G p.symbols (xp.reverse.map fun x => x.value.getD L.blank) := by
    rw [hsymbols, forall₂_map_left_iff, forall₂_map_right_iff, forall₂_same]
    intro x hx
    obtain ⟨v, hv, hGv⟩ := hG x (mem_append_left _ (mem_reverse.1 hx))
    rwa [hv]
  have hbelow : L.tables.Path ((state :: ks).drop p.symbols.length) (xb.map Symbol.type) := by
    have := hpath.drop (n := p.symbols.length) (by simp [hlen])
    simpa [← hlen] using this
  obtain ⟨j, js, hjs⟩ := hbelow.exists_cons
  rw [hjs] at hbelow
  rw [Parser.reduce.eq_def]
  simp only [record_client]
  simp only [client, hp, htake, hdrop, hjs]
  split
  · trivial
  · next whole hwhole =>
      have htype : whole.type = p.name := by
        split at hwhole
        · rw [span?] at hwhole
          simp only [Option.bind_eq_bind, Option.bind_eq_some_iff, Option.some.injEq] at hwhole
          obtain ⟨_, -, _, -, _, -, _, -, rfl⟩ := hwhole
          rfl
        · cases hwhole
          rfl
        · cases hwhole
          rfl
      rcases hr : L.reduce n (xp.reverse.map fun x => x.value.getD L.blank) memory with ⟨e | r, s'⟩
      · simp only [hr]
        trivial
      · simp only [hr]
        obtain ⟨hJ', v, rfl, hv⟩ := hreduce _ _ _ _ hgood hJ hr
        simp only [Option.map_some]
        rcases hk : L.tables.goto? j p.name with _ | k
        · trivial
        · refine ⟨hJ', rfl, ⟨_ :: xb, rfl, forall_mem_cons.2 ⟨⟨v, rfl, ?_⟩, ?_⟩, .step (.inr ?_) hbelow⟩, hahead, hpushed, hcount⟩
          · exact htype ▸ hv
          · exact fun x hx => hG x (mem_append_right _ hx)
          · exact htype ▸ hk

theorem Checked.act {x : Symbol α} (hx : c.lookahead = some x) :
    Kept.Outcome L J G start (Parser.act L.client (L.tables.action? c.state x.type) x c) := by
  rcases ha : L.tables.action? c.state x.type with _ | (k | n | _ | _)
  · exact hL.handleError h x
  · exact hL.shift h hx ha
  · exact hL.reduce h (.inl ⟨_, ha⟩)
  · -- on the way to acceptance the start symbol comes last
    intro v hv
    obtain ⟨xs, hstack, hG, hpath⟩ := h.stack
    obtain ⟨k, ks, hks⟩ := hpath.exists_cons
    have hk : k = c.state := by simpa [hks] using h.state
    rw [hks, hk] at hpath
    obtain ⟨types, htypes⟩ := hL.accepts _ _ ha ks _ hpath
    cases xs with
    | nil => cases htypes
    | cons y ys =>
      have hy : y.type = start := (List.cons.inj htypes).1.symm
      obtain ⟨w, hw, hGw⟩ := hG y mem_cons_self
      rw [record_client, hstack] at hv
      cases hv.symm.trans hw
      exact hy ▸ hGw
  · exact hL.handleError h x

theorem Checked.step : Kept.Outcome L J G start (Parser.step L.client c) := by
  rcases hd : L.tables.defaulted.lookup c.state with _ | n
  · rw [Parser.step.eq_def]
    simp only [record_client]
    rw [show L.client.tables.defaulted.lookup c.state = none from hd]
    rcases hf : Parser.fetch L.client c with ⟨e, c'⟩ | ⟨t, c'⟩
    · trivial
    · obtain ⟨h', hx⟩ := hL.fetch h hf
      exact hL.act h' hx
  · rw [step_defaulted hd]
    exact hL.reduce h (.inr hd)

theorem Checked.run {v : α} {c' : Config α (Lexer.State σ)}
    (hr : Parser.run L.client n c = some (.ok (some v), c')) : G start v := by
  induction n generalizing c with
  | zero => cases hr
  | succ n ih =>
    have hs := hL.step h
    rw [Parser.run] at hr
    split at hr
    · next hstep =>
        rw [hstep] at hs
        exact ih hs hr
    · next hstep =>
        rw [hstep] at hs
        cases hr
        exact hs v rfl
    · cases hr

omit h

theorem Checked.parse {fuel : Nat} {errorOk ok : Bool} {s s' : Lexer.State σ} {v : α} (hs : J s)
    (h : L.parse fuel errorOk s = some (.ok (some v), ok, s')) : G start v := by
  rw [Language.parse, Option.map_eq_some_iff] at h
  obtain ⟨⟨r, c⟩, hrun, hr⟩ := h
  cases hr
  exact hL.run ⟨hs, rfl, ⟨[], rfl, by simp, .start⟩, by simp [Config.initial], rfl, rfl⟩ hrun

end Language

end Bx.Parser
