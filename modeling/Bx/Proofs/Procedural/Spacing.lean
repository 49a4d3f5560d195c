import Bx.Procedural.Parser
import Bx.Proofs.Source.Lexemes
import Mathlib

namespace Bx.Procedural

open List Source Lexer Regex
open Bx.Procedural.Parser (language)
open Tac.Reader (word numeral_takes toDigits_takes nameChars Delimited)

variable {cs w : List Char} {e r : Expr} {op : Op} {c : Char} {m type sep : String}

/-- Types and values of the tokens read, and the fault that ends the reading. -/
abbrev Tokens := List (String × Datum) × Option (Fault SyntaxFault)

variable {out : Tokens}

def keys (r : Array Token × Option (Fault SyntaxFault) × State Memory) : Tokens := (r.1.toList.map fun t => (t.type, t.value), r.2.1)

def lexed (text : String) : Tokens := keys (language.tokens (text.length + 1) #[] ((State.start Memory.start).feed text))

def Gives (cs : List Char) (out : Tokens) : Prop := LexesTo .procedural (fun _ => True) out.2 cs out.1

theorem keys_tokens {f : Option (Fault SyntaxFault)} {I : State Memory → Prop} {s last : State Memory} {toks : List Token}
    (h : (lexer .procedural).Reads (handle .procedural) I f s toks last) (acc : Array Token) {fuel : Nat} (hf : toks.length < fuel) :
    keys (language.tokens fuel acc s) = ((acc.toList ++ toks).map fun t => (t.type, t.value), f) := by
  obtain ⟨fuel, rfl⟩ := Nat.exists_eq_add_of_lt (Nat.zero_lt_of_lt hf)
  rw [Nat.zero_add]
  induction h generalizing acc fuel with
  | done hs h hs' =>
    rw [Parser.Language.tokens, show language.lexer.token language.handling _ = _ from h]
    cases f <;> simp [ending, keys]
  | next hs h hr ih =>
    obtain ⟨fuel, rfl⟩ : ∃ k, fuel = k + 1 := ⟨fuel - 1, by simp at hf; omega⟩
    rw [Parser.Language.tokens, show language.lexer.token language.handling _ = _ from h]
    simpa using ih (acc.push _) fuel (by simpa using hf)

theorem Gives.lexed {t : String} (h : Gives t.toList out) : lexed t = out := by
  have hat : ((State.start Memory.start).feed t).At (lexer .procedural) (mode .procedural) (fun _ => True) Memory.start t.toList :=
    ⟨⟨[], rfl, rfl⟩, mode_eq rfl, trivial, rfl⟩
  obtain ⟨toks, last, hreads, htoks, -⟩ := Lexes.reads rfl h hat
  have hlen := h.length_le
  rw [← htoks, length_map, String.length_toList] at hlen
  rw [Procedural.lexed, keys_tokens hreads #[] (Nat.lt_succ_of_le hlen)]
  exact Prod.ext htoks rfl

/-! ### Lexemes -/

def push (type : String) (v : Datum) (out : Tokens) : Tokens := ((type, v) :: out.1, out.2)

def numeral (n : Int) (out : Tokens) : Tokens :=
  match number (toString n) with
  | .ok v => push "NUMBER" (.int v) out
  | .error e => ([], some e)

section Operand

variable (hcs : Delimited cs)
include hcs

theorem gives_word {x : String} (hx : word.Matches x.toList) (h : Gives cs out) :
    Gives (x.toList ++ cs) (push ((Dialect.procedural.reserved.lookup x).getD "IDENT") (.str x) out) := lexes_word hx hcs h

theorem gives_numeral (z : Int) (h : Gives cs out) : Gives ((toString z).toList ++ cs) (numeral z out) := by
  have hz : ∃ c w, (toString z).toList = c :: w ∧ (33 ≤ c.toNat ∧ c.toNat ≤ 57) ∧ Tac.Reader.numeral.Takes (c :: w) cs := by
    cases z with
    | ofNat n =>
      obtain ⟨c, w, hw, hc⟩ := Text.toDigits_cons n
      exact ⟨c, w, (Text.toList_toString n).trans hw, by omega, hw ▸ numeral_takes hcs⟩
    | negSucc n =>
      refine ⟨'-', Nat.toDigits 10 (n + 1), ?_, by decide, .right (shuns_of_starts rfl rfl)
        (Takes.seq (v := ['-']) (.left (takes_text "-" _)) (toDigits_takes hcs n.succ_pos))⟩
      show ("-" ++ toString (n + 1)).toList = _
      rw [String.toList_append, Text.toList_toString]
      rfl
  rw [numeral]
  split
  · next hn => exact lexes_numeral (d := .procedural) hz hn h
  · next hf => exact lexes_unreadable (d := .procedural) hz hf

end Operand

def mark (op : Op) : String := ((Dialect.procedural.marks.find? (·.2 == op.name)).map (·.1)).getD ""

def arithmetic : List Op := [.plus, .minus, .times, .div, .modulus, .bitand, .bitor, .bitxor, .bitshl, .bitshr]

def marks : List (String × String) := ("(", "LPAREN") :: (")", "RPAREN") :: arithmetic.map fun op => (mark op, op.name)

def Fits (m : String) (cs : List Char) : Prop :=
  ∀ c ∈ cs.head?, (m.toList = [c] → c ∉ ['/', '&', '|']) ∧ (m = "-" → (CharSet.range '1' '9').mem c = false)

theorem numeral_shuns (h : Fits "-" cs) : Tac.Reader.numeral.Shuns ('-' :: cs) := by
  intro w rest hcs hw
  obtain hw | hw := matches_alt.1 hw
  · rw [matches_text.1 hw] at hcs
    cases hcs
  · obtain ⟨u, v, rfl, hu, hv⟩ := matches_seq.1 hw
    obtain ⟨d, v, rfl, hd, -⟩ := matches_set_seq.1 hv
    obtain hu | hu := matches_alt.1 hu
    · rw [matches_text.1 hu] at hcs
      obtain ⟨-, rfl⟩ := cons.inj hcs
      simp [(h d rfl).2 rfl] at hd
    · cases hu
      obtain ⟨rfl, -⟩ := cons.inj hcs
      cases hd

theorem bif_double (h : Fits m cs) (hm : m.toList = [c]) (hc : c ∈ ['/', '&', '|']) (x y : Option (String × String)) :
    (bif [c].isPrefixOf cs then x else y) = y := by
  have : [c].isPrefixOf cs = false := by
    rw [Bool.eq_false_iff, Ne, isPrefixOf_iff_prefix]
    rintro ⟨t, rfl⟩
    exact (h c rfl).1 hm hc
  rw [this]
  rfl

theorem mark_spec {x : String × String} (hx : x ∈ marks) (h : Fits x.1 cs) :
    (∃ c w, x.1.toList = c :: w ∧ (mode .procedural).ignore.contains c = false) ∧
    (∀ r ∈ (rules .procedural).take 4, r.pattern.Shuns (x.1.toList ++ cs)) ∧
    Dialect.procedural.marks.find? (fun m => m.1.toList.isPrefixOf (x.1.toList ++ cs)) = some x := by
  refine ⟨?_, fun r hr => ?_, ?_⟩
  · fin_cases hx <;> exact ⟨_, _, rfl, rfl⟩
  · fin_cases hr <;> fin_cases hx <;> first | exact shuns_of_starts rfl rfl | exact numeral_shuns h |
      exact comment_shuns fun c hc hd => (h c hc).1 (hd ▸ rfl) (by simp [hd])
  · fin_cases hx <;> first | rfl | exact bif_double h (c := '&') rfl (by simp) (some ("&&", "BOOLAND")) _ |
      exact bif_double h (c := '|') rfl (by simp) (some ("||", "BOOLOR")) _

theorem gives_mark (hm : (m, type) ∈ marks) (hfits : Fits m cs) (h : Gives cs out) : Gives (m.toList ++ cs) (push type (.str m) out) := by
  obtain ⟨hw, hfront, hfind⟩ := mark_spec (x := (m, type)) hm hfits
  exact lexes_mark hw hfront hfind h

/-! ### Expressions -/

/-- Expressions over variables, numbers that are not negative, and binary operators on integers. -/
inductive Arithmetic : Expr → Prop
  | var {line : Int} {x : String} (h : word.Matches x.toList) : Arithmetic (.var line x)
  | num {line : Int} (n : Nat) : Arithmetic (.num line n)
  | binary {line : Int} {op : Op} {l r : Expr} (h : op ∈ arithmetic) (hl : Arithmetic l) (hr : Arithmetic r) :
      Arithmetic (.binary line op l r)

def print (sep : String) : Expr → String
  | .var _ x => x
  | .num _ n => toString n
  | .binary _ op l r => "(" ++ sep ++ print sep l ++ sep ++ mark op ++ sep ++ print sep r ++ sep ++ ")"
  | _ => ""

def signed? : Op → Expr → Option Int
  | .minus, .num _ n => if 0 < n then some n else none
  | _, _ => none

theorem signed?_eq_some {z : Int} (h : signed? op e = some z) : op = .minus ∧ ∃ line, e = .num line z ∧ 0 < z := by
  unfold signed? at h
  split at h
  · split at h
    · next hz =>
        cases h
        exact ⟨rfl, _, rfl, hz⟩
    · cases h
  · cases h

def tokensOf (tight : Bool) : Expr → Tokens → Tokens
  | .var _ x => push ((Dialect.procedural.reserved.lookup x).getD "IDENT") (.str x)
  | .num _ n => numeral n
  | .binary _ op l r => push "LPAREN" (.str "(") ∘ tokensOf tight l ∘
      (match if tight then signed? op r else none with
        | some n => numeral (-n)
        | none => push op.name (.str (mark op)) ∘ tokensOf tight r) ∘ push "RPAREN" (.str ")")
  | _ => id

theorem fits_bracket (hm : m = "(" ∨ m = ")") : Fits m cs := by
  rcases hm with rfl | rfl
  all_goals
    refine fun c _ => ⟨fun h => ?_, fun h => absurd h (by decide)⟩
    obtain ⟨rfl, -⟩ := cons.inj h
    decide

theorem fits_cons (hc : c = ' ' ∨ c = '(' ∨ nameChars.mem c = true) (hd : m = "-" → (CharSet.range '1' '9').mem c = false) :
    Fits m (c :: cs) := by
  intro d hcd
  obtain rfl := Option.some.inj hcd
  refine ⟨fun _ hmem => ?_, hd⟩
  fin_cases hmem <;> (revert hc; decide)

theorem fits_print (hr : Arithmetic r) (hop : op ∈ arithmetic) (hs : signed? op r = none) :
    Fits (mark op) ((print sep r).toList ++ cs) := by
  cases hr with
  | @var line x h =>
    obtain ⟨c, w, hw, hc, -⟩ := matches_set_seq.1 h
    rw [print, hw]
    simp only [CharSet.mem_union] at hc
    refine fits_cons (.inr (.inr ?_)) fun _ => ?_
    · simp only [nameChars, CharSet.mem_union]
      tauto
    · simp only [CharSet.mem_range, CharSet.mem_char] at hc
      simp only [Bool.eq_false_iff, Ne, CharSet.mem_range]
      simp at hc ⊢
      omega
  | @num line n =>
    obtain ⟨c, w, hw, hc⟩ := Text.toDigits_cons n
    rw [print, show (toString (n : Int)).toList = _ from (Text.toList_toString n).trans hw]
    refine fits_cons (.inr (.inr ?_)) fun hm => ?_
    · simp only [nameChars, CharSet.mem_union, CharSet.mem_range]
      simp
      omega
    · have hminus : ∀ op ∈ arithmetic, mark op = "-" → op = .minus := by decide +kernel
      obtain rfl := hminus op hop hm
      obtain rfl : n = 0 := by
        rw [signed?] at hs
        split at hs
        · cases hs
        · omega
      cases hw
      rfl
  | binary =>
    simp only [print, String.toList_append, append_assoc]
    exact fits_cons (.inr (.inl rfl)) fun _ => rfl

section Separated

variable (hsep : sep = "" ∨ sep = " ")
include hsep

theorem Gives.separated (h : Gives cs out) : Gives (sep.toList ++ cs) out := by
  rcases hsep with rfl | rfl
  · exact h
  · exact .ignore rfl h

theorem delimited_mark (hm : (m, type) ∈ marks) : Delimited (sep.toList ++ (m.toList ++ cs)) := by
  have hmarks : (marks.all fun x => x.1.toList.head?.any fun c => !nameChars.mem c) = true := rfl
  have hm := all_eq_true.1 hmarks _ hm
  cases hu : m.toList with
  | nil => simp [hu] at hm
  | cons c u =>
    rcases hsep with rfl | rfl
    · simpa [hu, Delimited] using hm
    · simp [Delimited]
      rfl

theorem gives_print (he : Arithmetic e) (hcs : Delimited cs) (h : Gives cs out) :
    Gives ((print sep e).toList ++ cs) (tokensOf (sep == "") e out) := by
  induction he generalizing cs out with
  | var hx => exact gives_word hcs hx h
  | num n => exact gives_numeral hcs n h
  | @binary line op l r hop hl hr ihl ihr =>
    have hopen : ("(", "LPAREN") ∈ marks := mem_cons_self
    have hclose : (")", "RPAREN") ∈ marks := mem_cons_of_mem _ mem_cons_self
    have hmark : (mark op, op.name) ∈ marks := mem_cons_of_mem _ (mem_cons_of_mem _ (mem_map.2 ⟨op, hop, rfl⟩))
    have hend : Delimited (sep.toList ++ (")".toList ++ cs)) := delimited_mark hsep hclose
    have h := (gives_mark hclose (fits_bracket (.inr rfl)) h).separated hsep
    simp only [print, String.toList_append, append_assoc]
    refine gives_mark hopen (fits_bracket (.inl rfl)) (.separated hsep (ihl (delimited_mark hsep hmark) (.separated hsep ?_)))
    cases hs : if sep == "" then signed? op r else none with
    | none =>
      refine gives_mark hmark ?_ ((ihr hend h).separated hsep)
      rcases hsep with rfl | rfl
      · exact fits_print hr hop hs
      · exact fits_cons (.inl rfl) fun _ => rfl
    | some z =>
      -- the sign and the number are one token
      obtain rfl : sep = "" := by
        rcases hsep with rfl | rfl
        · rfl
        · cases hs
      obtain ⟨rfl, line, rfl, hz⟩ := signed?_eq_some hs
      obtain ⟨n, rfl⟩ := Int.eq_succ_of_zero_lt hz
      have h := gives_numeral hend (Int.negSucc n) h
      rw [show toString (Int.negSucc n) = "-" ++ toString (n + 1) from rfl, String.toList_append, append_assoc] at h
      exact h

theorem lexed_print (he : Arithmetic e) : lexed (print sep e) = tokensOf (sep == "") e ([], none) :=
  Gives.lexed (by simpa using gives_print hsep he (show Delimited [] by simp [Delimited]) (show Gives [] ([], none) from .nil))

end Separated

/-! ### Where the readings part -/

/-- A number that cannot be read, or a positive number that is subtracted. -/
inductive Snag
  | unreadable | subtracted
  deriving DecidableEq

def snag? : Expr → Option Snag
  | .num _ n => if (Text.Numeral.read (toString n)).isOk then none else some .unreadable
  | .binary _ op l r => (snag? l).or (if (signed? op r).isSome then some .subtracted else snag? r)
  | _ => none

def Compare (f g : Tokens → Tokens) : Option Snag → Prop
  | none => f = g ∧ Function.Injective g
  | some .unreadable => ∀ o o', f o = g o'
  | some .subtracted => ∀ o o', f o ≠ g o'

section Compare

variable {f g f' g' : Tokens → Tokens} {s t : Option Snag}

theorem Compare.comp (h : Compare f g s) (h' : Compare f' g' t) : Compare (f ∘ f') (g ∘ g') (s.or t) := by
  rcases s with _ | _ | _
  · obtain ⟨rfl, hinj⟩ := h
    rcases t with _ | _ | _
    · exact ⟨by rw [h'.1], hinj.comp h'.2⟩
    · exact fun o o' => congrArg f (h' o o')
    · exact fun o o' heq => h' o o' (hinj heq)
  · exact fun o o' => h _ _
  · exact fun o o' => h _ _

theorem Compare.eq_iff (h : Compare f g s) (o : Tokens) : f o = g o ↔ s ≠ some .subtracted := by
  rcases s with _ | _ | _
  · simp [h.1]
  · simp [h o o]
  · simpa using h o o

theorem compare_push (type : String) (v : Datum) : Compare (push type v) (push type v) none :=
  ⟨rfl, fun o o' h => by simpa [push, Prod.ext_iff] using h⟩

theorem compare_numeral (z : Int) :
    Compare (numeral z) (numeral z) (if (Text.Numeral.read (toString z)).isOk then none else some .unreadable) := by
  cases hr : Text.Numeral.read (toString z) with
  | ok v =>
    have : numeral z = push "NUMBER" (.int v) := funext fun o => by simp only [numeral, number, hr]; rfl
    rw [this]
    exact compare_push _ _
  | error e =>
    intro o o'
    simp only [numeral, number, hr]
    rfl

theorem compare_tokensOf (he : Arithmetic e) : Compare (tokensOf true e) (tokensOf false e) (snag? e) := by
  induction he with
  | var => exact compare_push _ _
  | num n => exact compare_numeral n
  | @binary line op l r hop hl hr ihl ihr =>
    refine (compare_push _ _).comp (t := (snag? l).or _) (ihl.comp ?_)
    rw [if_pos rfl, if_neg Bool.false_ne_true]
    cases hs : signed? op r with
    | none => simpa using ((compare_push op.name (.str (mark op))).comp ihr).comp (compare_push "RPAREN" (.str ")"))
    | some z =>
      obtain ⟨rfl, -⟩ := signed?_eq_some hs
      intro o o' heq
      simp only [Function.comp, numeral] at heq
      split at heq <;> simp [push, Op.name] at heq

end Compare

/-- Without blanks an expression is read as it is with them, unless a positive number is subtracted, and none that stands
before it is too long to be read. -/
theorem lexed_print_eq_iff (he : Arithmetic e) : lexed (print "" e) = lexed (print " " e) ↔ snag? e ≠ some .subtracted := by
  rw [lexed_print (.inl rfl) he, lexed_print (.inr rfl) he]
  exact (compare_tokensOf he).eq_iff _

def less (n : Nat) : Expr := .binary 1 .minus (.var 1 "x") (.num 1 n)

theorem arithmetic_less (n : Nat) : Arithmetic (less n) :=
  .binary (by decide) (.var (show word.Matches ['x'] from Tac.Reader.matches_word rfl rfl)) (.num n)

theorem lexed_print_eq_iff_quotient : Arithmetic (.binary 1 .div (less 0) (.num 1 10)) ∧ lexed "((x-0)/10)" = lexed "( ( x - 0 ) / 10 )" := by
  have he : Arithmetic (.binary 1 .div (less 0) (.num 1 (10 : Nat))) := .binary (by decide) (arithmetic_less 0) (.num 10)
  exact ⟨he, (lexed_print_eq_iff he).2 (by decide +kernel)⟩

theorem lexed_less_one : Arithmetic (less 1) ∧ print "" (less 1) = "(x-1)" ∧ lexed (print "" (less 1)) ≠ lexed (print " " (less 1)) := by
  refine ⟨arithmetic_less 1, by decide +kernel, fun h => ?_⟩
  have hlength : (lexed (print "" (less 1))).1.length = 4 ∧ (lexed (print " " (less 1))).1.length = 5 := by decide +kernel
  rw [h, hlength.2] at hlength
  cases hlength.1

end Bx.Procedural
