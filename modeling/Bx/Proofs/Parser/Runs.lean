import Bx.Parser.Language
import Bx.Proofs.Lexer.Scanning

namespace Bx.Parser

open List

variable {α : Type}

/-- A value on the stack with its type and the state above it. -/
structure Entry (α : Type) where
  state : Nat
  type : String
  value : α

def topState : List (Entry α) → Nat
  | [] => 0
  | e :: _ => e.state

def aheadType : List (String × α) → String
  | [] => "$end"
  | t :: _ => t.1

/-- A shift or a reduction, where `f` says what rules make of the values of their parts. -/
inductive Move (T : Tables) (f : Nat → List α → Option α) :
    List (Entry α) → List (String × α) → List (Entry α) → List (String × α) → Prop
  | shift {st : List (Entry α)} {t : String × α} {ts : List (String × α)} {k : Nat}
      (h : T.action? (topState st) t.1 = some (.shift k)) : Move T f st (t :: ts) (⟨k, t.1, t.2⟩ :: st) ts
  | reduce {parts below : List (Entry α)} {ts : List (String × α)} {n k : Nat} {p : Grammar.Production} {v : α}
      (h : T.action? (topState (parts ++ below)) (aheadType ts) = some (.reduce n)) (hp : T.rules[n]? = some p)
      (hlen : parts.length = p.symbols.length) (hv : f n (parts.reverse.map Entry.value) = some v)
      (hk : T.goto? (topState below) p.name = some k) : Move T f (parts ++ below) ts (⟨k, p.name, v⟩ :: below) ts

inductive Moves (T : Tables) (f : Nat → List α → Option α) :
    Nat → List (Entry α) → List (String × α) → List (Entry α) → List (String × α) → Prop
  | refl (st : List (Entry α)) (ts : List (String × α)) : Moves T f 0 st ts st ts
  | step {n : Nat} {st st₁ st' : List (Entry α)} {ts ts₁ ts' : List (String × α)} (h : Move T f st ts st₁ ts₁)
      (hs : Moves T f n st₁ ts₁ st' ts') : Moves T f (n + 1) st ts st' ts'

variable {f : Nat → List α → Option α} {n k fuel : Nat} {e : Entry α} {st st' : List (Entry α)} {ts ts' : List (String × α)}

theorem Moves.trans {T : Tables} {m : Nat} {st₁ : List (Entry α)} {ts₁ : List (String × α)} (h : Moves T f m st ts st₁ ts₁)
    (h' : Moves T f n st₁ ts₁ st' ts') : Moves T f (m + n) st ts st' ts' := by
  induction h with
  | refl => rwa [Nat.zero_add]
  | step hm _ ih =>
    rw [Nat.add_right_comm]
    exact .step hm (ih h')

def Tables.Has (T : Tables) (n : Nat) (name : String) (symbols : List String) : Prop :=
  ∃ p, T.rules[n]? = some p ∧ p.name = name ∧ p.symbols = symbols

theorem Tables.has_of_rows {T : Tables} {rows : List (String × List String)} {name : String} {symbols : List String}
    (hT : (T.rules.toList.map fun p => (p.name, p.symbols)) = rows) (h : rows[n]? = some (name, symbols)) : T.Has n name symbols := by
  rw [← hT, List.getElem?_map, Option.map_eq_some_iff] at h
  obtain ⟨p, hp, heq⟩ := h
  cases heq
  exact ⟨p, by rwa [← Array.getElem?_toList], rfl, rfl⟩

def Leads (T : Tables) (f : Nat → List α → Option α) (m : Nat) (st : List (Entry α)) (ts : List (String × α))
    (st' : List (Entry α)) (ts' : List (String × α)) : Prop := ∃ n ≤ m, Moves T f n st ts st' ts'

namespace Leads

variable {T : Tables} {m : Nat} {st₁ : List (Entry α)} {t : String × α} {ts₁ : List (String × α)} {v : α}
  {name : String} {symbols : List String}

theorem refl (st : List (Entry α)) (ts : List (String × α)) : Leads T f 0 st ts st ts := ⟨0, Nat.le_refl 0, .refl st ts⟩

theorem mono (h : Leads T f m st ts st' ts') (hmn : m ≤ n) : Leads T f n st ts st' ts' := by
  obtain ⟨k, hk, h⟩ := h
  exact ⟨k, Nat.le_trans hk hmn, h⟩

theorem trans (h : Leads T f m st ts st₁ ts₁) (h' : Leads T f n st₁ ts₁ st' ts') : Leads T f (m + n) st ts st' ts' := by
  obtain ⟨k, hk, h⟩ := h
  obtain ⟨k', hk', h'⟩ := h'
  exact ⟨k + k', Nat.add_le_add hk hk', h.trans h'⟩

theorem shift (h : T.action? (topState st) t.1 = some (.shift k)) (h' : Leads T f m (⟨k, t.1, t.2⟩ :: st) ts st' ts') :
    Leads T f (m + 1) st (t :: ts) st' ts' := by
  obtain ⟨n, hn, h'⟩ := h'
  exact ⟨n + 1, Nat.succ_le_succ hn, .step (.shift h) h'⟩

theorem reduce (h : T.action? (topState st) (aheadType ts) = some (.reduce n)) (hrule : T.Has n name symbols)
    (hlen : symbols.length ≤ st.length) (hv : f n ((st.take symbols.length).reverse.map Entry.value) = some v)
    (hk : T.goto? (topState (st.drop symbols.length)) name = some k)
    (h' : Leads T f m (⟨k, name, v⟩ :: st.drop symbols.length) ts st' ts') : Leads T f (m + 1) st ts st' ts' := by
  obtain ⟨j, hj, h'⟩ := h'
  obtain ⟨p, hp, rfl, rfl⟩ := hrule
  refine ⟨j + 1, Nat.succ_le_succ hj, .step ?_ h'⟩
  have move : Move T f (st.take p.symbols.length ++ st.drop p.symbols.length) ts
      (⟨k, p.name, v⟩ :: st.drop p.symbols.length) ts :=
    .reduce (by rw [take_append_drop, h]) hp (by rw [length_take]; omega) hv hk
  rwa [take_append_drop] at move

end Leads

def Tables.Consistent (T : Tables) : Prop :=
  ∀ k n, T.defaulted.lookup k = some n → ∀ t a, T.action? k t = some a → a = .reduce n

theorem Tables.Consistent.lookup_eq_none {T : Tables} (hT : T.Consistent) {t : String} {a : Lalr.Action}
    (h : T.action? k t = some a) (ha : ∀ n, a ≠ .reduce n) : T.defaulted.lookup k = Option.none := by
  rw [Option.eq_none_iff_forall_ne_some]
  exact fun n hn => ha n (hT k n hn t a h)

namespace Language

variable {η σ ε : Type} (L : Language η σ α ε) (I : Lexer.State σ → Prop)

def typed (t : Token) : String × α := (t.type, L.ofToken t)

/-- Tokens still in the text, or the first of them, or the end, already read. -/
inductive Ahead (last : Lexer.State σ) : Option (Symbol α) → Lexer.State σ → List (String × α) → Prop
  | unread {s : Lexer.State σ} {ts : List Token} (h : L.lexer.Reads L.handling I none s ts last) : Ahead last none s (ts.map L.typed)
  | read {s : Lexer.State σ} {t : Token} {ts : List Token} (hs : I s) (h : L.lexer.Reads L.handling I none s ts last) :
      Ahead last (some (.ofToken t.type (L.ofToken t) (some t.line) t.pos)) s (L.typed t :: ts.map L.typed)
  | ended (hs : I last) : Ahead last (some .endmark) last []

structure Shows (last : Lexer.State σ) (errorOk : Bool) (st : List (Entry α)) (ts : List (String × α))
    (c : Config α (Lexer.State σ)) : Prop where
  state : c.state = topState st
  states : c.states = st.map Entry.state ++ [0]
  stack : ∃ xs, c.stack = xs ++ [.endmark] ∧ (xs.map fun x => (x.type, x.value)) = (st.map fun e => (e.type, some e.value)) ∧
    (∀ x ∈ xs, L.tracking = true → x.line.isSome = true ∧ x.pos.isSome = true)
  ahead : L.Ahead I last c.lookahead c.memory ts
  pushed : c.pushed = []
  errorOk : c.errorOk = errorOk

variable {L I} {last : Lexer.State σ} {errorOk : Bool} {c : Config α (Lexer.State σ)}

theorem record_client (c : Config α (Lexer.State σ)) (e : Event α) : c.record L.client e = c := if_neg (by simp [client])

theorem Shows.fetch (h : L.Shows I last errorOk st ts c) :
    ∃ t c', fetch L.client c = .ok (t, c') ∧ t.type = aheadType ts ∧ c'.lookahead = some t ∧ L.Shows I last errorOk st ts c' := by
  obtain ⟨state, states, stack, lookahead, pushed, errorCount, ok, memory⟩ := c
  obtain ⟨hstate, hstates, hstack, hahead, hpushed, hok⟩ := h
  cases hpushed
  cases hahead with
  | read hs hr => exact ⟨_, _, rfl, rfl, rfl, hstate, hstates, hstack, .read hs hr, rfl, hok⟩
  | ended hs => exact ⟨_, _, rfl, rfl, rfl, hstate, hstates, hstack, .ended hs, rfl, hok⟩
  | unread hr =>
    cases hr with
    | done hs ht hs' =>
      exact ⟨.endmark, ⟨state, states, stack, some .endmark, [], errorCount, ok, last⟩, by simp [Parser.fetch, client, ht, Lexer.ending],
        rfl, rfl, hstate, hstates, hstack, .ended hs', rfl, hok⟩
    | @next _ s₁ _ t ts hs ht hr =>
      have hI : I s₁ := by cases hr <;> assumption
      exact ⟨.ofToken t.type (L.ofToken t) (some t.line) t.pos, ⟨state, states, stack, some _, [], errorCount, ok, s₁⟩,
        by simp [Parser.fetch, client, ht], rfl, rfl, hstate, hstates, hstack, .read hI hr, rfl, hok⟩

theorem Shows.shift {t : String × α} {x : Symbol α} (h : L.Shows I last errorOk st (t :: ts) c) (hx : c.lookahead = some x) :
    ∃ c', Parser.shift L.client k c = .next c' ∧ L.Shows I last errorOk (⟨k, t.1, t.2⟩ :: st) ts c' := by
  cases c
  obtain ⟨hstate, hstates, ⟨xs, hstack, htypes, htrack⟩, hahead, hpushed, hok⟩ := h
  cases hx
  cases hahead with
  | @read _ t ts hs hr =>
    refine ⟨_, rfl, rfl, congrArg (k :: ·) hstates, ⟨.ofToken t.type (L.ofToken t) (some t.line) t.pos :: xs,
      congrArg (_ :: ·) hstack, ?_, ?_⟩, .unread hr, hpushed, hok⟩
    · simp [htypes, Symbol.ofToken, typed]
    · simpa [Symbol.ofToken] using htrack

theorem span?_of_isSome (whole : Symbol α) {first last : Symbol α} (hf : first.line.isSome ∧ first.pos.isSome)
    (hl : last.line.isSome ∧ last.pos.isSome) :
    ∃ whole', span? whole first last = some whole' ∧ whole'.type = whole.type ∧ whole'.line.isSome ∧ whole'.pos.isSome := by
  obtain ⟨⟨l, hl₁⟩, p, hp₁⟩ := hf.imp Option.isSome_iff_exists.1 Option.isSome_iff_exists.1
  obtain ⟨⟨l', hl₂⟩, p', hp₂⟩ := hl.imp Option.isSome_iff_exists.1 Option.isSome_iff_exists.1
  refine ⟨{ whole with line := some l, pos := some p, endLine := some (last.endLine.getD l'), endPos := some (last.endPos.getD p') },
    ?_, rfl, rfl, rfl⟩
  rw [span?, hl₁, hp₁, hl₂, hp₂]
  rfl

variable (hf : ∀ n vs v s, f n vs = some v → I s → L.reduce n vs s = (.ok (some v), s))
include hf

theorem Shows.reduce
    {parts below : List (Entry α)} {p : Grammar.Production} {v : α} (h : L.Shows I last errorOk (parts ++ below) ts c)
    (hp : L.tables.rules[n]? = some p) (hlen : parts.length = p.symbols.length)
    (hv : f n (parts.reverse.map Entry.value) = some v) (hk : L.tables.goto? (topState below) p.name = some k) :
    ∃ c', Parser.reduce L.client n c = .next c' ∧ L.Shows I last errorOk (⟨k, p.name, v⟩ :: below) ts c' := by
  obtain ⟨state, states, stack, lookahead, pushed, errorCount, ok, memory⟩ := c
  obtain ⟨hstate, hstates, ⟨xs, hstack, htypes, htrack⟩, hahead, hpushed, hok⟩ := h
  dsimp only at hstate hstates hstack hahead hpushed hok
  rw [map_append, map_eq_append_iff] at htypes
  obtain ⟨xp, xb, rfl, htp, htb⟩ := htypes
  have hxp : xp.length = p.symbols.length := by
    rw [← hlen]
    simpa using congrArg List.length htp
  have htake : stack.take p.symbols.length = xp := by simp [hstack, ← hxp]
  have hdrop : stack.drop p.symbols.length = xb ++ [.endmark] := by simp [hstack, ← hxp]
  have hstates' : states.drop p.symbols.length = below.map Entry.state ++ [0] := by simp [hstates, ← hlen]
  have hvalues : (xp.reverse.map fun x => x.value.getD L.blank) = parts.reverse.map Entry.value := by
    have := congrArg (List.map fun y : String × Option α => y.2.getD L.blank) htp
    rw [map_map, map_map] at this
    rw [map_reverse, map_reverse]
    exact congrArg List.reverse this
  have hI : I memory := by
    cases hahead with
    | unread h => cases h <;> assumption
    | read hs => exact hs
    | ended hs => exact hs
  obtain ⟨ks, hks⟩ : ∃ ks, below.map Entry.state ++ [0] = topState below :: ks := by cases below <;> exact ⟨_, rfl⟩
  have shows' : ∀ whole : Symbol α, whole.type = p.name → (L.tracking → whole.line.isSome ∧ whole.pos.isSome) →
      L.Shows I last errorOk (⟨k, p.name, v⟩ :: below) ts
        ⟨k, k :: topState below :: ks, { whole with value := some v } :: (xb ++ [.endmark]), lookahead, pushed, errorCount, ok, memory⟩ := by
    intro whole htype hpos
    refine ⟨rfl, congrArg (k :: ·) hks.symm, ⟨_ :: xb, rfl, by simp [htb, htype], fun x hx ht => ?_⟩, hahead, hpushed, hok⟩
    rcases mem_cons.1 hx with rfl | hx
    · exact hpos ht
    · exact htrack x (mem_append_right _ hx) ht
  have hplace : ∀ x ∈ xp.reverse, L.tracking → x.line.isSome ∧ x.pos.isSome :=
    fun x hx => htrack x (mem_append_left _ (mem_reverse.1 hx))
  rw [Parser.reduce.eq_def]
  simp only [record_client]
  simp only [client, hp, htake, hdrop, hstates', hks, hk, hvalues, hf n _ v memory hv hI, Option.map_some]
  cases htr : L.tracking with
  | false => exact ⟨_, rfl, shows' _ rfl (by simp [htr])⟩
  | true =>
    cases hh : xp.reverse.head? with
    | none => exact ⟨_, rfl, shows' _ rfl fun _ => ⟨rfl, rfl⟩⟩
    | some first =>
      cases hl : xp.reverse.getLast? with
      | none => exact ⟨_, rfl, shows' _ rfl fun _ => ⟨rfl, rfl⟩⟩
      | some final =>
        obtain ⟨whole, hw, htype, hpos⟩ := span?_of_isSome (Symbol.plain p.name none)
          (hplace first (mem_of_mem_head? hh) htr) (hplace final (mem_of_getLast? hl) htr)
        simp only [hw]
        exact ⟨_, rfl, shows' whole htype fun _ => hpos⟩

omit hf in
theorem step_defaulted (h : L.tables.defaulted.lookup c.state = some n) : step L.client c = Parser.reduce L.client n c := by
  rw [step.eq_def]
  simp only [record_client]
  rw [show L.client.tables.defaulted.lookup c.state = some n from h]
  rfl

omit hf in
theorem step_fetched {c' : Config α (Lexer.State σ)} {t : Symbol α} {a : Lalr.Action}
    (h : L.tables.defaulted.lookup c.state = none) (hf : fetch L.client c = .ok (t, c'))
    (ha : L.tables.action? c'.state t.type = some a) : step L.client c = act L.client (some a) t c' := by
  rw [step.eq_def]
  simp only [record_client]
  rw [show L.client.tables.defaulted.lookup c.state = none from h]
  simp only [hf]
  rw [show L.client.tables.action? c'.state t.type = some a from ha]

theorem Shows.step (hT : L.tables.Consistent)
    (h : L.Shows I last errorOk st ts c) (hm : Move L.tables f st ts st' ts') :
    ∃ c', step L.client c = .next c' ∧ L.Shows I last errorOk st' ts' c' := by
  obtain ⟨x, c₁, hfetch, htype, hx, h₁⟩ := h.fetch
  cases hm with
  | shift ha =>
    have hd : L.tables.defaulted.lookup c.state = none := h.state ▸ hT.lookup_eq_none ha nofun
    rw [step_fetched hd hfetch (by rw [h₁.state, htype]; exact ha)]
    exact h₁.shift hx
  | @reduce parts below ts n k p v ha hp hlen hv hk =>
    rcases hd : L.tables.defaulted.lookup c.state with _ | m
    · rw [step_fetched hd hfetch (by rw [h₁.state, htype]; exact ha)]
      exact h₁.reduce hf hp hlen hv hk
    · cases hT _ m (h.state ▸ hd) _ _ ha
      rw [step_defaulted hd]
      exact h.reduce hf hp hlen hv hk

omit hf in
theorem Shows.accept (hT : L.tables.Consistent) (h : L.Shows I last errorOk (e :: st) [] c)
    (ha : L.tables.action? e.state "$end" = some .accept) :
    ∃ c', Parser.step L.client c = .done (some e.value) c' ∧ c'.errorOk = errorOk ∧ c'.memory = last := by
  obtain ⟨x, c₁, hfetch, htype, hx, h₁⟩ := h.fetch
  have hd : L.tables.defaulted.lookup c.state = none := by
    rw [h.state]
    exact hT.lookup_eq_none ha nofun
  rw [step_fetched hd hfetch (by rw [h₁.state, htype]; exact ha)]
  obtain ⟨state, states, stack, lookahead, pushed, errorCount, ok, memory⟩ := c₁
  obtain ⟨-, -, ⟨xs, hstack, htypes, -⟩, hahead, -, hok⟩ := h₁
  cases xs with
  | nil => cases htypes
  | cons y ys =>
    have hv : y.value = some e.value := (Prod.mk.inj (List.cons.inj htypes).1).2
    cases hx
    cases hahead with
    | ended =>
      refine ⟨_, ?_, hok, rfl⟩
      show Outcome.done (stack.head?.bind (·.value)) _ = _
      rw [show stack = (y :: ys) ++ [.endmark] from hstack]
      exact congrArg (Outcome.done · _) hv

theorem Shows.run (hT : L.tables.Consistent)
    (h : L.Shows I last errorOk st ts c) (hm : Moves L.tables f n st ts (e :: st') [])
    (ha : L.tables.action? e.state "$end" = some .accept) (hfuel : n < fuel) :
    ∃ c', Parser.run L.client fuel c = some (.ok (some e.value), c') ∧ c'.errorOk = errorOk ∧ c'.memory = last := by
  obtain ⟨fuel, rfl⟩ := Nat.exists_eq_add_of_lt (Nat.zero_lt_of_lt hfuel)
  rw [Nat.zero_add, Parser.run]
  generalize hst : e :: st' = st₁ at hm
  generalize hts : ([] : List (String × α)) = ts₁ at hm
  induction hm generalizing c fuel with
  | refl =>
    subst hst hts
    obtain ⟨c', hstep, hc'⟩ := h.accept hT ha
    exact ⟨c', by rw [hstep], hc'⟩
  | step hmove _ ih =>
    obtain ⟨c₁, hstep, h₁⟩ := h.step hf hT hmove
    obtain ⟨fuel, rfl⟩ : ∃ k, fuel = k + 1 := ⟨fuel - 1, by omega⟩
    rw [hstep]
    exact ih h₁ fuel (by omega) hst hts

theorem parse_of_moves (hT : L.tables.Consistent)
    {toks : List Token} {s : Lexer.State σ} (hr : L.lexer.Reads L.handling I none s toks last)
    (hm : Moves L.tables f n [] (toks.map L.typed) (e :: st) []) (ha : L.tables.action? e.state "$end" = some .accept)
    (hfuel : n < fuel) : L.parse fuel errorOk s = some (.ok (some e.value), errorOk, last) := by
  have h : L.Shows I last errorOk [] (toks.map L.typed) (.initial errorOk s) :=
    ⟨rfl, rfl, ⟨[], rfl, rfl, nofun⟩, .unread hr, rfl, rfl⟩
  obtain ⟨c', hrun, hok, hmem⟩ := h.run hf hT hm ha hfuel
  rw [parse, hrun, ← hok, ← hmem]
  rfl

/-! ### Texts with a fault -/

omit hf

/-- Reading on from here comes to a fault before the end. -/
structure Doomed (L : Language η σ α ε) (I : Lexer.State σ → Prop) (e : Lexer.Fault ε) (c : Config α (Lexer.State σ)) : Prop where
  ahead : ∀ t ∈ c.lookahead, t.type ≠ "$end"
  reads : ∃ toks last, L.lexer.Reads L.handling I (some e) c.memory toks last ∧ ∀ t ∈ toks, t.type ≠ "$end"
  pushed : c.pushed = []
  errorCount : c.errorCount = 0

def Doomed.Steps (L : Language η σ α ε) (I : Lexer.State σ → Prop) (e : Lexer.Fault ε) :
    Outcome α (Lexer.State σ) (Lexer.Fault ε) → Prop
  | .next c => L.Doomed I e c
  | .done _ _ => False
  | .failed _ _ => True

variable {f : Lexer.Fault ε}

theorem Doomed.fetch (h : L.Doomed I f c) : match Parser.fetch L.client c with
    | .ok (t, c') => t.type ≠ "$end" ∧ L.Doomed I f c'
    | .error _ => True := by
  obtain ⟨state, states, stack, lookahead, pushed, errorCount, ok, memory⟩ := c
  obtain ⟨hahead, ⟨toks, last, hr, htoks⟩, hpushed, hcount⟩ := h
  cases hpushed
  cases lookahead with
  | some t => exact ⟨hahead t rfl, hahead, ⟨toks, last, hr, htoks⟩, rfl, hcount⟩
  | none =>
    cases hr with
    | done hs ht hs' => simp [Parser.fetch, client, ht, Lexer.ending]
    | @next _ s₁ _ t ts hs ht hr =>
      have ht' : t.type ≠ "$end" := htoks t mem_cons_self
      rw [Parser.fetch]
      simp only [client, ht, Option.map_some, Option.getD_some]
      exact ⟨ht', fun x hx => Option.some.inj hx ▸ ht', ⟨ts, last, hr, fun t h => htoks t (mem_cons_of_mem _ h)⟩, rfl, hcount⟩

variable (hred : ∀ n vs s, ∃ v, L.reduce n vs s = (.ok (some v), s))
include hred

theorem Doomed.reduce (h : L.Doomed I f c) (n : Nat) : Doomed.Steps L I f (Parser.reduce L.client n c) := by
  obtain ⟨state, states, stack, lookahead, pushed, errorCount, ok, memory⟩ := c
  have next (k : Nat) (ks : List Nat) (xs : List (Symbol α)) : L.Doomed I f ⟨k, ks, xs, lookahead, pushed, errorCount, ok, memory⟩ :=
    ⟨h.ahead, h.reads, h.pushed, h.errorCount⟩
  rw [Parser.reduce.eq_def]
  simp only [record_client]
  simp only [client]
  split
  · trivial
  · next p hp =>
      obtain ⟨v, hv⟩ := hred n (((stack.take p.symbols.length).reverse).map fun x => x.value.getD L.blank) memory
      split
      · trivial
      · simp only [hv, Option.map_some]
        split
        · trivial
        · trivial
        · exact next _ _ _

variable (herr : ∀ t s, ∃ e s', L.onError t s = (.error e, s'))
  (hacc : ∀ k t, L.tables.action? k t = some .accept → t = "$end")
include herr hacc

theorem Doomed.step (h : L.Doomed I f c) : Doomed.Steps L I f (Parser.step L.client c) := by
  rw [Parser.step.eq_def]
  simp only [record_client]
  split
  · exact h.reduce hred _
  · have hfetch := h.fetch
    split
    · trivial
    · next t c' heq =>
        rw [heq] at hfetch
        obtain ⟨ht, h'⟩ := hfetch
        rw [act.eq_def]
        simp only [record_client]
        rw [if_neg (by simp [client])]
        split
        · exact ⟨nofun, h'.reads, h'.pushed, by simp [record_client, h'.errorCount]⟩
        · exact h'.reduce hred _
        · next ha => exact ht (hacc _ _ ha)
        all_goals
          obtain ⟨e, s', he⟩ := herr (some t) c'.memory
          simp only [handleError, record_client, h'.errorCount]
          simp [client, ht, he, Doomed.Steps]

theorem Doomed.run (h : L.Doomed I f c) (fuel : Nat) (v : Option α) (c' : Config α (Lexer.State σ)) :
    Parser.run L.client fuel c ≠ some (.ok v, c') := by
  induction fuel generalizing c with
  | zero => nofun
  | succ fuel ih =>
    have hstep := h.step hred herr hacc
    rw [Parser.run]
    split
    · next heq => exact ih (by rwa [heq] at hstep)
    · next heq => simp [heq, Doomed.Steps] at hstep
    · nofun

theorem parse_ne_ok {toks : List Token} {s : Lexer.State σ} (hr : L.lexer.Reads L.handling I (some f) s toks last)
    (htoks : ∀ t ∈ toks, t.type ≠ "$end") (v : Option α) (ok : Bool) (s' : Lexer.State σ) :
    L.parse fuel errorOk s ≠ some (.ok v, ok, s') := by
  have h : L.Doomed I f (.initial errorOk s) := ⟨nofun, ⟨toks, last, hr, htoks⟩, rfl, rfl⟩
  intro hp
  obtain ⟨⟨r, c'⟩, hrun, heq⟩ := Option.map_eq_some_iff.1 hp
  cases heq
  exact h.run hred herr hacc fuel v c' hrun

end Language

end Bx.Parser
