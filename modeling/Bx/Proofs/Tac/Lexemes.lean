import Bx.Proofs.Lexer.Scanning
import Bx.Proofs.Text.Decimal
import Bx.Tac.Reader

namespace Bx.Tac.Reader

open List Lexer Regex

variable {c : Char} {cs w : List Char} {type s : String} {n : Nat} {ts : List (String × Datum)}

def nameChars : CharSet := .union (.range 'A' 'Z') (.union (.range 'a' 'z') (.union (.range '0' '9') (.char '_')))

def word : Regex := .seq letter (.star alphanumeric)

def temp : Regex := .seq (text "%") (any [text "0", digits,
  .seq (.set (.union (.range 'A' 'Z') (.range 'a' 'z'))) (.star alphanumeric)])

def global : Regex := all [text "@", letter, .star alphanumeric]

def label : Regex := .seq (text "%.L") (.star alphanumeric)

inductive IsOperand : String → Datum → Prop
  | temp {s : String} (h : temp.Matches s.toList) : IsOperand "TEMP" (.str s)
  | number {n : Nat} (h : (n : Int) < Word.size) : IsOperand "NUM64" (.int n)
  | label {s : String} (h : label.Matches s.toList) : IsOperand "LABEL" (.str s)
  | global {s : String} (h : global.Matches s.toList) : IsOperand "GSYM" (.str s)

def IsOpcode (s : String) : Prop := word.Matches s.toList ∧ s ≠ "var" ∧ s ≠ "proc"

theorem matches_word (hc : (CharSet.union (.range 'A' 'Z') (.union (.range 'a' 'z') (.char '_'))).mem c)
    (hcs : cs.all nameChars.mem) : word.Matches (c :: cs) :=
  matches_set_seq.2 ⟨c, cs, rfl, hc, matches_star_set.2 (all_eq_true.1 hcs)⟩

def markTypes : List String := ["VAR", "PROC", "LPAREN", "RPAREN", "COLON", "COMMA", "EQ", "SEMICOLON"]

inductive IsToken : String → Datum → Prop
  | operand {type : String} {d : Datum} (h : IsOperand type d) : IsToken type d
  | opcode {s : String} (h : IsOpcode s) : IsToken "OPCODE" (.str s)
  | mark {type : String} {d : Datum} (h : type ∈ markTypes) : IsToken type d

def mode : Mode Handler := ⟨[rules], [' ', '\t', '\x0c', '\x0b', '\r'], some .junk, none⟩

theorem mode_eq {s : State Memory} (h : s.mode = "INITIAL") : lexer.mode s = mode := by
  rw [Lexer.mode, h]
  rfl

theorem mode_rules : mode.rules = rules := append_nil _

theorem handle_word (type : String) (s : String) (line pos : Int) (st : State Memory) :
    handle .word ⟨type, .str s, line, pos⟩ st =
      (.ok (.token ⟨if s = "var" then "VAR" else if s = "proc" then "PROC" else type, .str s, line, pos⟩), st) := by
  simp [handle, Datum.is]

theorem handle_numeral {line pos : Int} {st s' : State Memory} {reply : Reply}
    (h : handle .numeral ⟨type, .str s, line, pos⟩ st = (.ok reply, s')) :
    ∃ n : Nat, (n : Int) < Word.size ∧ reply = .token ⟨type, .int n, line, pos⟩ ∧ s' = st := by
  rw [handle.eq_def] at h
  dsimp only at h
  split at h
  · cases h
  · next n _ =>
      split at h
      · next hn =>
          cases h
          obtain ⟨n, rfl⟩ := Int.eq_ofNat_of_zero_le hn.1
          exact ⟨n, hn.2, rfl, rfl⟩
      · cases h

theorem lexer_makes : lexer.Makes handle (fun s => s.mode = "INITIAL") fun t => IsToken t.type t.value := by
  refine ⟨rfl, fun s hs => ?_, fun s pos hs => hs, fun s hs r hr hh type ht w hw line pos => ?_,
    fun s hs r hr h hh w hw line pos reply s' hrun => ?_, fun s hs h hh t reply s' hrun => ?_⟩
  · rw [mode_eq hs]
    rfl
  · rw [mode_eq hs, mode_rules] at hr
    simp only [rules, mem_cons, not_mem_nil, or_false] at hr
    rcases hr with rfl | rfl | rfl | rfl | rfl | rfl | rfl | rfl | rfl | rfl | rfl | rfl <;> cases hh <;> cases ht
    · exact .operand (.temp (String.toList_ofList.symm ▸ hw))
    · exact .operand (.global (String.toList_ofList.symm ▸ hw))
    · exact .operand (.label (String.toList_ofList.symm ▸ hw))
    all_goals exact .mark (by dsimp only; decide)
  · rw [mode_eq hs, mode_rules] at hr
    simp only [rules, mem_cons, not_mem_nil, or_false] at hr
    rcases hr with rfl | rfl | rfl | rfl | rfl | rfl | rfl | rfl | rfl | rfl | rfl | rfl <;> cases hh
    · cases hrun
      exact ⟨hs, .inl rfl⟩
    · rw [handle_word] at hrun
      cases hrun
      refine ⟨hs, .inr ⟨_, rfl, ?_⟩⟩
      dsimp only [Option.getD_some]
      split
      · exact .mark (by decide)
      · split
        · exact .mark (by decide)
        · next hv hp => exact .opcode ⟨String.toList_ofList.symm ▸ hw, hv, hp⟩
    · obtain ⟨n, hn, rfl, rfl⟩ := handle_numeral hrun
      exact ⟨hs, .inr ⟨_, rfl, .operand (.number hn)⟩⟩
  · rw [mode_eq hs] at hh
    cases hh
    cases hrun
    exact ⟨hs, rfl⟩

/-! ### Finding lexemes again -/

def Delimited (cs : List Char) : Prop := ∀ c ∈ cs.head?, nameChars.mem c = false

theorem Delimited.digits (h : Delimited cs) : ∀ c ∈ cs.head?, (CharSet.range '0' '9').mem c = false := by
  intro c hc
  have := h c hc
  simp only [nameChars, CharSet.mem, Bool.or_eq_false_iff] at this
  exact this.2.2.1

theorem takes_names (hw : ∀ c ∈ w, nameChars.mem c) (hc : Delimited cs) :
    (Regex.star alphanumeric).Takes w cs := takes_star_set hw hc

section

variable (hcs : Delimited cs)
include hcs

theorem digits_takes {ds : List Char} (hc : (CharSet.range '1' '9').mem c)
    (hds : ∀ d ∈ ds, (CharSet.range '0' '9').mem d) : digits.Takes (c :: ds) cs :=
  .set_seq hc (takes_star_set hds hcs.digits)

theorem temp_takes (hw : temp.Matches w) : temp.Takes w cs := by
  obtain ⟨v, rfl, hv⟩ := matches_text_seq.1 hw
  refine Takes.seq (takes_text _ _) ?_
  rcases matches_alt.1 hv with hv | hv
  · rw [matches_text.1 hv]
    exact .left (takes_text "0" cs)
  rcases matches_alt.1 hv with hv | hv
  · obtain ⟨c, ds, rfl, hc, hds⟩ := matches_set_seq.1 hv
    have hc' := CharSet.mem_range.1 hc
    exact .right (shuns_text_cons '0' rfl (by simp at hc' ⊢; omega)) (.left (digits_takes hcs hc (matches_star_set.1 hds)))
  · obtain ⟨c, ns, rfl, hc, hns⟩ := matches_set_seq.1 hv
    have hc' := hc
    simp only [CharSet.mem_union, CharSet.mem_range] at hc'
    refine .right (shuns_text_cons '0' rfl (by simp at hc' ⊢; omega)) (.right (shuns_set_seq ?_) (.set_seq hc (takes_names (matches_star_set.1 hns) hcs)))
    rw [Bool.eq_false_iff, Ne, CharSet.mem_range]
    simp at hc' ⊢
    omega

theorem global_takes (hw : global.Matches w) : global.Takes w cs := by
  obtain ⟨v, rfl, hv⟩ := matches_text_seq.1 hw
  obtain ⟨c, ns, rfl, hc, hns⟩ := matches_set_seq.1 hv
  exact Takes.seq (takes_text _ _) (.set_seq hc (takes_names (matches_star_set.1 hns) hcs))

theorem label_takes (hw : label.Matches w) : label.Takes w cs := by
  obtain ⟨ns, rfl, hns⟩ := matches_text_seq.1 hw
  exact Takes.seq (takes_text _ _) (takes_names (matches_star_set.1 hns) hcs)

theorem word_takes (hw : word.Matches w) : word.Takes w cs := by
  obtain ⟨c, ns, rfl, hc, hns⟩ := matches_set_seq.1 hw
  exact .set_seq hc (takes_names (matches_star_set.1 hns) hcs)

abbrev LexesTo : List Char → List (String × Datum) → Prop := Lexes (ε := Error) handle mode (fun _ => True) none

theorem firstMatch_temp (hw : temp.Matches w) (before : Option Char) :
    firstMatch before (w ++ cs) rules = some (⟨temp, some "TEMP", none⟩, w) := by
  obtain ⟨v, rfl, -⟩ := matches_text_seq.1 hw
  rw [rules, firstMatch_of_shuns, firstMatch_of_shuns, firstMatch_of_shuns]
  · exact firstMatch_of_takes (temp_takes hcs hw) before
  all_goals exact shuns_of_starts rfl rfl

theorem firstMatch_global (hw : global.Matches w) (before : Option Char) :
    firstMatch before (w ++ cs) rules = some (⟨global, some "GSYM", none⟩, w) := by
  obtain ⟨v, rfl, -⟩ := matches_text_seq.1 hw
  rw [rules, firstMatch_of_shuns, firstMatch_of_shuns, firstMatch_of_shuns, firstMatch_of_shuns]
  · exact firstMatch_of_takes (global_takes hcs hw) before
  all_goals exact shuns_of_starts rfl rfl

theorem firstMatch_label (hw : label.Matches w) (before : Option Char) :
    firstMatch before (w ++ cs) rules = some (⟨label, some "LABEL", none⟩, w) := by
  obtain ⟨v, rfl, -⟩ := matches_text_seq.1 hw
  rw [rules, firstMatch_of_shuns, firstMatch_of_shuns, firstMatch_of_shuns, firstMatch_of_shuns, firstMatch_of_shuns]
  · exact firstMatch_of_takes (label_takes hcs hw) before
  · exact shuns_of_starts rfl rfl
  · -- the dot tells labels from temporaries
    exact Shuns.text_seq (m := "%") (shuns_of_starts rfl rfl)
  all_goals exact shuns_of_starts rfl rfl

def breaks : Regex := .alt newline (Regex.all [text "//", .star notNewline, opt newline])

omit hcs in
theorem breaks_shuns (hn : c.toNat ≠ 10) (hs : c.toNat ≠ 47) : breaks.Shuns (c :: cs) := by
  have h₁ : c ≠ '\n' := by
    rintro rfl
    exact hn rfl
  have h₂ : c ≠ '/' := by
    rintro rfl
    exact hs rfl
  refine shuns_of_starts rfl ?_
  simp [breaks, starts, newline, Regex.all, text, opt, mayBeEmpty, CharSet.mem, h₁, h₂]

theorem firstMatch_word (hw : word.Matches w) (before : Option Char) :
    firstMatch before (w ++ cs) rules = some (⟨word, some "OPCODE", some .word⟩, w) := by
  obtain ⟨c, v, rfl, hc, -⟩ := matches_set_seq.1 hw
  simp only [CharSet.mem_union, CharSet.mem_range, CharSet.mem_char] at hc
  rw [rules, firstMatch_of_shuns]
  · exact firstMatch_of_takes (word_takes hcs hw) before
  · simp at hc
    exact breaks_shuns (by omega) (by omega)

def numeral : Regex := .alt (text "0") (.seq (opt (text "-")) digits)

theorem toDigits_takes (hn : 0 < n) : digits.Takes (Nat.toDigits 10 n) cs := by
  obtain ⟨c, ds, hds, hc⟩ := Text.toDigits_head hn
  rw [hds]
  exact digits_takes hcs (CharSet.mem_range.2 hc) fun d hd =>
    Nat.isDigit_of_mem_toDigits (b := 10) (n := n) (by decide) (by decide) (by rw [hds]; simp [hd])

theorem numeral_takes : numeral.Takes (Nat.toDigits 10 n) cs := by
  cases n with
  | zero => exact .left (takes_text "0" cs)
  | succ n =>
    have ht := toDigits_takes hcs (Nat.succ_pos n)
    obtain ⟨c, ds, hds, hc, -⟩ := Text.toDigits_head (Nat.succ_pos n)
    have hc : 49 ≤ c.toNat := hc
    rw [hds] at ht ⊢
    refine .right (shuns_text_cons '0' rfl ?_) (Takes.seq (v := []) (.right (shuns_text_cons '-' rfl ?_) (takes_empty _)) ht)
    · simp
      omega
    · simp
      omega

omit hcs in
theorem word_shuns (hc : c.toNat ≤ 57) : word.Shuns (c :: cs) := by
  refine shuns_set_seq ?_
  rw [Bool.eq_false_iff]
  intro h
  simp only [CharSet.mem_union, CharSet.mem_range, CharSet.mem_char] at h
  simp at h
  omega

theorem firstMatch_numeral (before : Option Char) :
    firstMatch before (Nat.toDigits 10 n ++ cs) rules = some (⟨numeral, some "NUM64", some .numeral⟩, Nat.toDigits 10 n) := by
  obtain ⟨c, ds, hds, hc⟩ := Text.toDigits_cons n
  rw [rules, firstMatch_of_shuns, firstMatch_of_shuns]
  · exact firstMatch_of_takes (numeral_takes hcs) before
  · rw [hds]
    exact word_shuns hc.2
  · rw [hds]
    exact breaks_shuns (by omega) (by omega)

end

theorem ignore_eq_false (h : 33 ≤ c.toNat) : mode.ignore.contains c = false := by
  rw [Bool.eq_false_iff]
  intro hc
  simp only [mode, contains_eq_mem, decide_eq_true_eq, mem_cons, not_mem_nil, or_false] at hc
  rcases hc with rfl | rfl | rfl | rfl | rfl <;> simp at h

theorem numeral_yields (hn : (n : Int) < Word.size) :
    (⟨numeral, some "NUM64", some .numeral⟩ : Rule Handler).Yields (ε := Error) handle (Nat.toDigits 10 n) "NUM64" (.int n) := by
  intro line pos s
  have hlen : (toString n).length ≤ Text.Numeral.maxDigits := by
    rw [Nat.toString_eq_ofList_toDigits, String.length_ofList]
    exact (Nat.toDigits_length 10 n 20 (by decide) (by simp only [Word.size] at hn; omega)).trans (by decide)
  have hread : number (ε := Error) (String.ofList (Nat.toDigits 10 n)) = .ok (n : Int) := by
    rw [number, ← Nat.toString_eq_ofList_toDigits, Text.Numeral.read_toString, if_neg (Nat.not_lt.2 hlen)]
    rfl
  simp [handle, Datum.string?, hread, hn]

theorem lexes_operand {d : Datum} (hd : IsOperand type d) (hcs : Delimited cs) (h : LexesTo cs ts) :
    LexesTo (d.text.toList ++ cs) ((type, d) :: ts) := by
  cases hd with
  | @temp s hs =>
    obtain ⟨v, hv, -⟩ := matches_text_seq.1 hs
    exact .lexeme ⟨'%', v, hv, rfl⟩ (mode_rules ▸ firstMatch_temp hcs hs) (Rule.yields_plain _ _ s) h
  | @number n hn =>
    obtain ⟨c, ds, hds, hc⟩ := Text.toDigits_cons n
    rw [show (Datum.int n).text.toList = _ from Text.toList_toString n]
    exact .lexeme ⟨c, ds, hds, ignore_eq_false (by omega)⟩ (mode_rules ▸ firstMatch_numeral hcs) (numeral_yields hn) h
  | @label s hs =>
    obtain ⟨v, hv, -⟩ := matches_text_seq.1 hs
    exact .lexeme ⟨'%', _, hv, rfl⟩ (mode_rules ▸ firstMatch_label hcs hs) (Rule.yields_plain _ _ s) h
  | @global s hs =>
    obtain ⟨v, hv, -⟩ := matches_text_seq.1 hs
    exact .lexeme ⟨'@', v, hv, rfl⟩ (mode_rules ▸ firstMatch_global hcs hs) (Rule.yields_plain _ _ s) h

theorem lexes_word (hs : word.Matches s.toList)
    (htype : (if s = "var" then "VAR" else if s = "proc" then "PROC" else "OPCODE") = type) (hcs : Delimited cs)
    (h : LexesTo cs ts) : LexesTo (s.toList ++ cs) ((type, .str s) :: ts) := by
  obtain ⟨c, v, hv, hc, -⟩ := matches_set_seq.1 hs
  simp only [CharSet.mem_union, CharSet.mem_range, CharSet.mem_char] at hc
  simp at hc
  have yields : (⟨word, some "OPCODE", some .word⟩ : Rule Handler).Yields (ε := Error) handle s.toList type (.str s) := by
    intro line pos st
    rw [String.ofList_toList, handle_word, Option.getD_some, htype]
  exact .lexeme ⟨c, v, hv, ignore_eq_false (by omega)⟩ (mode_rules ▸ firstMatch_word hcs hs) yields h

theorem lexes_opcode (hs : IsOpcode s) (hcs : Delimited cs) (h : LexesTo cs ts) :
    LexesTo (s.toList ++ cs) (("OPCODE", .str s) :: ts) :=
  lexes_word hs.1 (by rw [if_neg hs.2.1, if_neg hs.2.2]) hcs h

def marks : List (Nat × Char × String) :=
  [(6, '(', "LPAREN"), (7, ')', "RPAREN"), (8, ':', "COLON"), (9, ',', "COMMA"), (10, '=', "EQ"), (11, ';', "SEMICOLON")]

theorem lexes_mark {k : Nat} (hm : (k, c, type) ∈ marks) (h : LexesTo cs ts) :
    LexesTo (c :: cs) ((type, .str (String.ofList [c])) :: ts) := by
  have hrules : rules[k]? = some ⟨text (String.ofList [c]), some type, none⟩ := by
    simp only [marks, mem_cons, not_mem_nil, or_false, Prod.mk.injEq] at hm
    rcases hm with ⟨rfl, rfl, rfl⟩ | ⟨rfl, rfl, rfl⟩ | ⟨rfl, rfl, rfl⟩ | ⟨rfl, rfl, rfl⟩ | ⟨rfl, rfl, rfl⟩ | ⟨rfl, rfl, rfl⟩ <;> rfl
  have hfront : ∀ e ∈ marks, (∀ r ∈ rules.take e.1, r.pattern.mayBeEmpty = false ∧ r.pattern.starts e.2.1 = false) ∧
      mode.ignore.contains e.2.1 = false := by
    decide
  obtain ⟨hk, hr⟩ := List.getElem?_eq_some_iff.1 hrules
  have hsplit : rules = rules.take k ++ ⟨text (String.ofList [c]), some type, none⟩ :: rules.drop (k + 1) := by
    rw [← hr, getElem_cons_drop, take_append_drop]
  have yields : (⟨text (String.ofList [c]), some type, none⟩ : Rule Handler).Yields (ε := Error) handle [c] type
      (.str (String.ofList [c])) := ⟨rfl, rfl⟩
  refine Lexes.lexeme ⟨c, [], rfl, (hfront _ hm).2⟩ (mode_rules ▸ hsplit ▸ firstMatch_append (fun r hr => ?_) ?_) yields h
  · exact shuns_of_starts ((hfront _ hm).1 r hr).1 ((hfront _ hm).1 r hr).2
  · simpa using takes_text (String.ofList [c]) cs

/-! ### Separators -/

theorem lexes_blank (h : LexesTo cs ts) : LexesTo (' ' :: cs) ts := .ignore rfl h

theorem lexes_newline (h : LexesTo cs ts) : LexesTo ('\n' :: cs) ts := by
  have htakes : breaks.Takes ['\n'] cs := (takes_set cs (by decide)).left
  have hm (before : Option Char) : firstMatch before (['\n'] ++ cs) rules = some (⟨breaks, none, some .newline⟩, ['\n']) :=
    firstMatch_of_takes htakes before
  exact .line (w := []) rfl (mode_rules ▸ hm) ⟨.newline, rfl, fun line pos st => rfl⟩ (fun _ _ => trivial) h

end Bx.Tac.Reader
