import Bx.Lexer.Basic
import Bx.Proofs.Regex.Matching

namespace Bx.Lexer

open List

variable {η σ ε : Type} {L : Lexer η} {run : Handling η σ ε}
variable {cs w rest : List Char} {rules : List (Rule η)} {r : Rule η} {s s' : State σ} {m : Mode η} {I : Int → Prop}
variable {ts : List (String × Datum)} {memory : σ} {e : Option (Fault ε)}

theorem firstMatch_mem {before : Option Char} {lexeme : List Char} (h : firstMatch before cs rules = some (r, lexeme)) :
    r ∈ rules ∧ r.pattern.Matches lexeme := by
  induction rules with
  | nil => cases h
  | cons r' rules ih =>
    rw [firstMatch] at h
    split at h
    · next hs =>
        cases h
        exact ⟨mem_cons_self, (Regex.split?_sound hs).2⟩
    · exact (ih h).imp_left (mem_cons_of_mem _)

theorem firstMatch_of_shuns (h : r.pattern.Shuns cs) (before : Option Char) :
    firstMatch before cs (r :: rules) = firstMatch before cs rules := by
  rw [firstMatch, h.split?]

theorem firstMatch_of_takes (h : r.pattern.Takes w rest) (before : Option Char) :
    firstMatch before (w ++ rest) (r :: rules) = some (r, w) := by
  rw [firstMatch, h.split?]

theorem firstMatch_skip {front : List (Rule η)} (h : ∀ r ∈ front, r.pattern.Shuns cs) (before : Option Char) :
    firstMatch before cs (front ++ rules) = firstMatch before cs rules := by
  induction front with
  | nil => rfl
  | cons r front ih =>
    rw [cons_append, firstMatch_of_shuns (h r mem_cons_self)]
    exact ih fun r' hr => h r' (mem_cons_of_mem _ hr)

theorem firstMatch_append {front back : List (Rule η)} (hfront : ∀ r' ∈ front, r'.pattern.Shuns (w ++ rest))
    (h : r.pattern.Takes w rest) (before : Option Char) : firstMatch before (w ++ rest) (front ++ r :: back) = some (r, w) :=
  (firstMatch_skip hfront before).trans (firstMatch_of_takes h before)

/-- By a lexer with rules only: what holds of the tokens they make is `P`, and handlers keep `J`. -/
structure Makes (L : Lexer η) (run : Handling η σ ε) (J : State σ → Prop) (P : Token → Prop) : Prop where
  literals : L.literals = []
  onEnd : ∀ s, J s → (L.mode s).onEnd = none
  moved : ∀ s pos, J s → J { s with pos := pos }
  plain : ∀ s, J s → ∀ r ∈ (L.mode s).rules, r.handler = none → ∀ type, r.type = some type →
    ∀ w, r.pattern.Matches w → ∀ line pos, P ⟨type, .str (String.ofList w), line, pos⟩
  handled : ∀ s, J s → ∀ r ∈ (L.mode s).rules, ∀ h, r.handler = some h → ∀ w, r.pattern.Matches w → ∀ line pos reply s',
    run h ⟨r.type.getD "", .str (String.ofList w), line, pos⟩ s = (.ok reply, s') →
      J s' ∧ (reply = .nothing ∨ ∃ t, reply = .token t ∧ P t)
  junk : ∀ s, J s → ∀ h, (L.mode s).onError = some h → ∀ t reply s', run h t s = (.ok reply, s') → J s' ∧ reply = .nothing

variable {J : State σ → Prop} {P : Token → Prop}

theorem Makes.scan (hL : L.Makes run J P) {fuel : Nat} {text ignore : List Char} {pos : Int} {t? : Option Token} (hs : J s)
    (h : scan L run fuel text ignore pos s = (.ok t?, s')) : J s' ∧ ∀ t, t? = some t → P t := by
  induction fuel generalizing text ignore pos s with
  | zero =>
    cases h
    exact ⟨hs, nofun⟩
  | succ fuel ih =>
    rw [Lexer.scan] at h
    dsimp only at h
    split at h
    · cases h
    · -- at the end of the text
      rw [hL.onEnd s hs] at h
      dsimp only at h
      split at h
      · cases h
      · cases h
        exact ⟨hL.moved s _ hs, nofun⟩
    · split at h
      · exact ih hs h
      split at h
      · next r lexeme hm =>
          obtain ⟨hr, hw⟩ := firstMatch_mem hm
          split at h
          · next hh =>
              split at h
              · next type ht =>
                  cases h
                  exact ⟨hL.moved s _ hs, fun t ht' => Option.some.inj ht' ▸ hL.plain s hs r hr hh type ht lexeme hw _ _⟩
              · exact ih hs h
          · next handler hh =>
              have handled := fun p => hL.handled _ (hL.moved s p hs) r hr handler hh lexeme hw
              split at h
              · cases h
              · next hrun =>
                  obtain ⟨hs', hreply⟩ := handled _ _ _ _ _ hrun
                  cases h
                  refine ⟨hs', fun t ht => ?_⟩
                  cases ht
                  rcases hreply with hreply | ⟨t', ht', hP⟩
                  · cases hreply
                  · cases ht'
                    exact hP
              · next hrun => exact ih (handled _ _ _ _ _ hrun).1 h
              · next hrun => rcases (handled _ _ _ _ _ hrun).2 with hreply | ⟨t', ht', -⟩ <;> contradiction
      · rw [hL.literals] at h
        rw [if_neg (by simp)] at h
        split at h
        · cases h
        · next handler hh =>
            have junk := hL.junk _ (hL.moved s pos hs) handler hh
            split at h
            · cases h
            · next hrun => cases (junk _ _ _ hrun).2
            · next hrun =>
                split at h
                · cases h
                · exact ih (junk _ _ _ hrun).1 h
            · next hrun => cases (junk _ _ _ hrun).2

theorem Makes.token (hL : L.Makes run J P) {t? : Option Token} (hs : J s) (h : L.token run s = (.ok t?, s')) :
    J s' ∧ ∀ t, t? = some t → P t := hL.scan hs h

/-! ### Texts put together from lexemes -/

def Rule.Yields (run : Handling η σ ε) (r : Rule η) (w : List Char) (type : String) (v : Datum) : Prop :=
  match r.handler with
  | none => r.type = some type ∧ v = .str (String.ofList w)
  | some h => ∀ line pos s, run h ⟨r.type.getD "", .str (String.ofList w), line, pos⟩ s = (.ok (.token ⟨type, v, line, pos⟩), s)

def Rule.CountsLine (run : Handling η σ ε) (r : Rule η) (w : List Char) : Prop :=
  ∃ h, r.handler = some h ∧ ∀ line pos s, run h ⟨r.type.getD "", .str (String.ofList w), line, pos⟩ s =
    (.ok .nothing, { s with line := s.line + 1 })

/-- Texts that yield tokens of certain types and values up to their end or to a fault, with lines counted among those in `I`. -/
inductive Lexes (run : Handling η σ ε) (m : Mode η) (I : Int → Prop) :
    Option (Fault ε) → List Char → List (String × Datum) → Prop
  | nil : Lexes run m I none [] []
  | fault {c : Char} {w cs : List Char} {r : Rule η} {h : η} {f : Fault ε} (hc : m.ignore.contains c = false)
      (hm : ∀ before, firstMatch before (c :: (w ++ cs)) m.rules = some (r, c :: w)) (hh : r.handler = some h)
      (hf : ∀ line pos s, run h ⟨r.type.getD "", .str (String.ofList (c :: w)), line, pos⟩ s = (.error f, s)) :
      Lexes run m I (some f) (c :: (w ++ cs)) []
  | ignore {e : Option (Fault ε)} {c : Char} {cs : List Char} {ts : List (String × Datum)} (hc : m.ignore.contains c = true)
      (h : Lexes run m I e cs ts) : Lexes run m I e (c :: cs) ts
  | line {e : Option (Fault ε)} {c : Char} {w cs : List Char} {ts : List (String × Datum)} {r : Rule η} (hc : m.ignore.contains c = false)
      (hm : ∀ before, firstMatch before (c :: (w ++ cs)) m.rules = some (r, c :: w)) (hr : r.CountsLine run (c :: w))
      (hI : ∀ l, I l → I (l + 1)) (h : Lexes run m I e cs ts) : Lexes run m I e (c :: (w ++ cs)) ts
  | token {e : Option (Fault ε)} {c : Char} {w cs : List Char} {ts : List (String × Datum)} {r : Rule η} {type : String} {v : Datum}
      (hc : m.ignore.contains c = false) (hm : ∀ before, firstMatch before (c :: (w ++ cs)) m.rules = some (r, c :: w))
      (hr : r.Yields run (c :: w) type v) (h : Lexes run m I e cs ts) : Lexes run m I e (c :: (w ++ cs)) ((type, v) :: ts)

theorem Rule.yields_plain (p : Regex) (type s : String) : (⟨p, some type, none⟩ : Rule η).Yields run s.toList type (.str s) :=
  ⟨rfl, by rw [String.ofList_toList]⟩

theorem Lexes.lexeme {type : String} {v : Datum} (hw : ∃ c u, w = c :: u ∧ m.ignore.contains c = false)
    (hm : ∀ before, firstMatch before (w ++ cs) m.rules = some (r, w)) (hr : r.Yields run w type v) (h : Lexes run m I e cs ts) :
    Lexes run m I e (w ++ cs) ((type, v) :: ts) := by
  obtain ⟨c, u, rfl, hc⟩ := hw
  exact .token hc hm hr h

theorem Lexes.unread {h : η} {f : Fault ε} (hw : ∃ c u, w = c :: u ∧ m.ignore.contains c = false)
    (hm : ∀ before, firstMatch before (w ++ cs) m.rules = some (r, w)) (hh : r.handler = some h)
    (hf : ∀ line pos s, run h ⟨r.type.getD "", .str (String.ofList w), line, pos⟩ s = (.error f, s)) :
    Lexes run m I (some f) (w ++ cs) [] := by
  obtain ⟨c, u, rfl, hc⟩ := hw
  exact .fault hc hm hh hf

theorem Lexes.length_le (h : Lexes run m I e cs ts) : ts.length ≤ cs.length := by
  induction h with
  | nil | fault => exact Nat.zero_le _
  | ignore _ _ ih => exact Nat.le_succ_of_le ih
  | line | token =>
    simp only [length_cons, length_append]
    omega

structure State.At (L : Lexer η) (m : Mode η) (I : Int → Prop) (memory : σ) (cs : List Char) (s : State σ) : Prop where
  text : ∃ done, s.text = some (done ++ cs) ∧ s.pos = done.length
  mode : L.mode s = m
  line : I s.line
  memory : s.memory = memory

def ending (e : Option (Fault ε)) : Except (Fault ε) (Option Token) := e.elim (.ok none) .error

def Finds (L : Lexer η) (run : Handling η σ ε) (m : Mode η) (I : Int → Prop) (memory : σ) (e : Option (Fault ε)) :
    List (String × Datum) → Except (Fault ε) (Option Token) × State σ → Prop
  | [], r => r.1 = ending e ∧ I r.2.line ∧ r.2.memory = memory
  | (type, v) :: ts, r => ∃ line pos cs, r.1 = .ok (some ⟨type, v, line, pos⟩) ∧ Lexes run m I e cs ts ∧ r.2.At L m I memory cs

theorem spot_append_cons (done cs : List Char) (c : Char) :
    spot (done ++ c :: cs) done.length = .at c (charBefore (done ++ c :: cs) done.length) (c :: cs) done.length := by
  show spot _ (Int.ofNat done.length) = _
  simp [spot]

theorem spot_length (done : List Char) : spot done done.length = .finished := by
  show spot _ (Int.ofNat done.length) = _
  simp [spot]

section Lexeme

variable {ignore done : List Char} {c : Char} {fuel : Nat} (hc : ignore.contains c = false)
  (hm : ∀ before, firstMatch before (c :: (w ++ cs)) (L.mode s).rules = some (r, c :: w))
include hc hm

theorem scan_yields {type : String} {v : Datum} (hr : r.Yields run (c :: w) type v) :
    scan L run (fuel + 1) (done ++ c :: (w ++ cs)) ignore done.length s =
      (.ok (some ⟨type, v, s.line, done.length⟩), { s with pos := done.length + (c :: w).length }) := by
  simp only [scan, spot_append_cons, hc, hm, Bool.false_eq_true, if_false]
  rw [Rule.Yields] at hr
  split at hr
  · next hn =>
      obtain ⟨htype, rfl⟩ := hr
      simp only [hn, htype]
  · next hn => simp only [hn, hr]

theorem scan_faults {h : η} {e : Fault ε} (hh : r.handler = some h)
    (he : ∀ line pos s, run h ⟨r.type.getD "", .str (String.ofList (c :: w)), line, pos⟩ s = (.error e, s)) :
    scan L run (fuel + 1) (done ++ c :: (w ++ cs)) ignore done.length s =
      (.error e, { s with pos := done.length + (c :: w).length }) := by
  simp only [scan, spot_append_cons, hc, hm, hh, he, Bool.false_eq_true, if_false]

end Lexeme

theorem scan_finds (hm : m.onEnd = none) (h : Lexes run m I e cs ts) {done : List Char} {fuel : Nat}
    (ht : s.text = some (done ++ cs)) (hmode : L.mode s = m) (hl : I s.line) (hs : s.memory = memory) (hf : cs.length < fuel) :
    Finds L run m I memory e ts (scan L run fuel (done ++ cs) m.ignore done.length s) := by
  induction h generalizing done fuel s with
  | nil =>
    obtain ⟨fuel, rfl⟩ := Nat.exists_eq_add_of_lt hf
    rw [append_nil] at ht ⊢
    simp only [scan, spot_length, hmode, hm, ht]
    exact ⟨by simp [ending], hl, hs⟩
  | fault hc hr hh hf =>
    obtain ⟨fuel, rfl⟩ := Nat.exists_eq_add_of_lt (Nat.zero_lt_of_lt hf)
    rw [Nat.zero_add, scan_faults hc (hmode ▸ hr) hh ‹_›]
    exact ⟨rfl, hl, hs⟩
  | @ignore e c cs ts hc h ih =>
    obtain ⟨fuel, rfl⟩ := Nat.exists_eq_add_of_lt (Nat.zero_lt_of_lt hf)
    simp only [Nat.zero_add, scan, spot_append_cons, hc, if_true]
    have := @ih s (done ++ [c]) fuel (by simpa using ht) hmode hl hs (by simp at hf; omega)
    simpa using this
  | @line e c w cs ts r hc hr hh hI h ih =>
    obtain ⟨fuel, rfl⟩ := Nat.exists_eq_add_of_lt (Nat.zero_lt_of_lt hf)
    obtain ⟨handler, hh, hrun⟩ := hh
    simp only [Nat.zero_add, scan, spot_append_cons, hc, hmode, hr, hh, hrun, Bool.false_eq_true, if_false]
    have := @ih { s with pos := done.length + (c :: w).length, line := s.line + 1 } (done ++ c :: w) fuel
      (by simpa using ht) hmode (hI _ hl) hs (by simp at hf; omega)
    rw [mode] at hmode
    simpa [mode, hmode] using this
  | @token e c w cs ts r type v hc hr hh h ih =>
    obtain ⟨fuel, rfl⟩ := Nat.exists_eq_add_of_lt (Nat.zero_lt_of_lt hf)
    rw [Nat.zero_add, scan_yields hc (hmode ▸ hr) hh]
    exact ⟨s.line, done.length, cs, rfl, h, ⟨done ++ c :: w, by simpa using ht, by simp⟩, hmode, hl, hs⟩

theorem token_finds (hm : m.onEnd = none) (h : Lexes run m I e cs ts) (hs : s.At L m I memory cs) :
    Finds L run m I memory e ts (L.token run s) := by
  obtain ⟨⟨done, ht, hp⟩, hmode, hl, hmem⟩ := hs
  rw [token, ht, Option.getD_some, hmode, hp]
  exact scan_finds hm h ht hmode hl hmem (by simp only [length_append]; omega)

/-- A lexer that yields tokens up to the end of its text or to a fault, with states in `I`. -/
inductive Reads (L : Lexer η) (run : Handling η σ ε) (I : State σ → Prop) (e : Option (Fault ε)) :
    State σ → List Token → State σ → Prop
  | done {s s' : State σ} (hs : I s) (h : L.token run s = (ending e, s')) (hs' : I s') : Reads L run I e s [] s'
  | next {s s₁ s' : State σ} {t : Token} {ts : List Token} (hs : I s) (h : L.token run s = (.ok (some t), s₁))
      (hr : Reads L run I e s₁ ts s') : Reads L run I e s (t :: ts) s'

theorem Lexes.reads (hm : m.onEnd = none) (h : Lexes run m I e cs ts) (hs : s.At L m I memory cs) :
    ∃ toks s', Reads L run (fun s => I s.line) e s toks s' ∧ (toks.map fun t => (t.type, t.value)) = ts ∧ s'.memory = memory := by
  induction ts generalizing cs s with
  | nil =>
    obtain ⟨hr, hl, hmem⟩ := token_finds hm h hs
    exact ⟨[], _, .done hs.line (Prod.ext hr rfl) hl, rfl, hmem⟩
  | cons tv ts ih =>
    obtain ⟨line, pos, cs', hr, h', hs'⟩ := token_finds hm h hs
    obtain ⟨toks, s', hreads, hmap, hmem⟩ := ih h' hs'
    exact ⟨_ :: toks, s', .next hs.line (Prod.ext hr rfl) hreads, by simp [hmap], hmem⟩

end Bx.Lexer
