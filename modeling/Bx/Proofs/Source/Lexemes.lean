import Bx.Proofs.Tac.Lexemes
import Bx.Source.Lexer

namespace Bx.Source

open List Lexer Regex
open Tac.Reader (word word_takes word_shuns Delimited)

variable {d : Dialect} {I : Int → Prop} {e : Option (Fault SyntaxFault)} {cs : List Char} {c : Char} {ts : List (String × Datum)}
  {m type x : String}

def mode (d : Dialect) : Mode Handler := ⟨[rules d], [' ', '\t', '\x0c', '\x0b'], some .junk, none⟩

theorem mode_eq {s : State Memory} (h : s.mode = "INITIAL") : (lexer d).mode s = mode d := by
  rw [Lexer.mode, h]
  rfl

theorem mode_rules : (mode d).rules = rules d := append_nil _

abbrev LexesTo (d : Dialect) (I : Int → Prop) : Option (Fault SyntaxFault) → List Char → List (String × Datum) → Prop :=
  Lexes (handle d) (mode d) I

theorem ignore_eq_false (h : 33 ≤ c.toNat) : (mode d).ignore.contains c = false := by
  rw [Bool.eq_false_iff]
  intro hc
  simp only [mode, contains_eq_mem, decide_eq_true_eq, mem_cons, not_mem_nil, or_false] at hc
  rcases hc with rfl | rfl | rfl | rfl <;> simp at h

theorem lexes_word (hx : word.Matches x.toList) (hcs : Delimited cs) (h : LexesTo d I e cs ts) :
    LexesTo d I e (x.toList ++ cs) (((d.reserved.lookup x).getD "IDENT", .str x) :: ts) := by
  obtain ⟨c, w, hw, hc, -⟩ := matches_set_seq.1 hx
  simp only [CharSet.mem_union, CharSet.mem_range, CharSet.mem_char] at hc
  simp at hc
  have hm (before : Option Char) : firstMatch before (x.toList ++ cs) (mode d).rules =
      some (⟨word, some "IDENT", some Handler.word⟩, x.toList) := mode_rules ▸ firstMatch_of_takes (word_takes hcs hx) before
  refine .lexeme ⟨c, w, hw, ignore_eq_false (by omega)⟩ hm (fun line pos s => ?_) h
  rw [String.ofList_toList]
  rfl

section Numeral

variable (hx : ∃ c w, x.toList = c :: w ∧ (33 ≤ c.toNat ∧ c.toNat ≤ 57) ∧ d.numeral.Takes (c :: w) cs)
include hx

theorem firstMatch_numeral (before : Option Char) : firstMatch before (x.toList ++ cs) (mode d).rules =
    some (⟨d.numeral, some "NUMBER", some .numeral⟩, x.toList) := by
  obtain ⟨c, w, hw, hc, ht⟩ := hx
  rw [hw, mode_rules]
  exact (firstMatch_of_shuns (word_shuns hc.2) before).trans (firstMatch_of_takes ht before)

theorem numeral_starts : ∃ c w, x.toList = c :: w ∧ (mode d).ignore.contains c = false := by
  obtain ⟨c, w, hw, hc, -⟩ := hx
  exact ⟨c, w, hw, ignore_eq_false hc.1⟩

theorem lexes_numeral {n : Int} (hn : number (ε := SyntaxFault) x = .ok n) (h : LexesTo d I e cs ts) :
    LexesTo d I e (x.toList ++ cs) (("NUMBER", .int n) :: ts) := by
  refine .lexeme (numeral_starts hx) (firstMatch_numeral hx) (fun line pos s => ?_) h
  simp only [String.ofList_toList, handle, Datum.string?, Option.getD_some, hn]

theorem lexes_unreadable {f : Fault SyntaxFault} (hf : number x = .error f) : LexesTo d I (some f) (x.toList ++ cs) [] := by
  refine .unread (numeral_starts hx) (firstMatch_numeral hx) rfl fun line pos s => ?_
  simp only [String.ofList_toList, handle, Datum.string?, Option.getD_some, hf]

end Numeral

theorem comment_shuns (h : ∀ c ∈ cs.head?, c ≠ '/') : (Regex.all [text "//", .star notNewline, opt newline]).Shuns ('/' :: cs) := by
  intro w rest hcs hw
  obtain ⟨v, rfl, -⟩ := matches_text_seq.1 hw
  obtain ⟨-, rfl⟩ := cons.inj hcs
  exact h '/' rfl rfl

theorem firstMatch_texts {ms : List (String × String)} (hm : ms.find? (fun m' => m'.1.toList.isPrefixOf (m.toList ++ cs)) = some (m, type))
    (before : Option Char) : firstMatch before (m.toList ++ cs) (ms.map fun m => (⟨text m.1, some m.2, none⟩ : Rule Handler)) =
      some (⟨text m, some type, none⟩, m.toList) := by
  induction ms with
  | nil => cases hm
  | cons m' ms ih =>
    rw [find?_cons] at hm
    split at hm
    · cases hm
      exact firstMatch_of_takes (takes_text m cs) before
    · next hp =>
        rw [map_cons, firstMatch_of_shuns]
        · exact ih hm
        · exact shuns_text fun h => by simp [ isPrefixOf_iff_prefix.2 h] at hp

theorem lexes_mark (hw : ∃ c w, m.toList = c :: w ∧ (mode d).ignore.contains c = false)
    (hfront : ∀ r ∈ (rules d).take 4, r.pattern.Shuns (m.toList ++ cs))
    (hfind : d.marks.find? (fun m' => m'.1.toList.isPrefixOf (m.toList ++ cs)) = some (m, type)) (h : LexesTo d I e cs ts) :
    LexesTo d I e (m.toList ++ cs) ((type, .str m) :: ts) := by
  refine .lexeme hw (fun before => ?_) (Rule.yields_plain (text m) type m) h
  rw [mode_rules]
  exact (firstMatch_skip hfront before).trans (firstMatch_texts hfind before)

end Bx.Source
