import Bx.Proofs.Parser.Runs
import Bx.Proofs.Source.Lexemes
import Bx.Proofs.Structured.Tables
import Mathlib.Tactic.FinCases

namespace Bx.Structured

open List Source Lexer Regex
open Bx.Parser (Tables Language Moves Entry topState aheadType)
open Bx.Structured.Parser (Value tables language levels binaries phrases)
open Tac.Reader (word Delimited)

def token (op : Op) : String := if op = .uminus then Op.minus.name else op.name

structure Lexeme where
  text : String
  type : String
  value : Datum

def Lexeme.Short (x : Lexeme) : Prop := x.type = "NUMBER" → x.text.length ≤ Text.Numeral.maxDigits

instance (x : Lexeme) : Decidable x.Short := inferInstanceAs (Decidable (_ → _))

def mark (type : String) : Lexeme :=
  let m := ((Dialect.structured.marks.find? (·.2 == type)).map (·.1)).getD ""
  ⟨m, type, .str m⟩

def bracketed (b : Bool) (xs : List Lexeme) : List Lexeme := if b then mark "LPAREN" :: (xs ++ [mark "RPAREN"]) else xs

namespace Expr

def joint? : Expr → Option Op
  | .binary _ op _ _ => some op
  | _ => none

def leftBrackets (op : Op) (e : Expr) : Bool := e.joint?.any fun o => level o < level op || level o == level op && !leftmost op

def rightBrackets (op : Op) (e : Expr) : Bool := e.joint?.any fun o => level o ≤ level op

def lexemes : Expr → List Lexeme
  | .var _ x => [⟨x, "IDENT", .str x⟩]
  | .num _ n => [⟨toString n, "NUMBER", .int n⟩]
  | .bool _ b => [if b then ⟨"true", "TRUE", .str "true"⟩ else ⟨"false", "FALSE", .str "false"⟩]
  | .unary _ op e => mark (token op) :: bracketed e.joint?.isSome e.lexemes
  | .binary _ op l r => bracketed (l.leftBrackets op) l.lexemes ++ mark op.name :: bracketed (r.rightBrackets op) r.lexemes

def text (e : Expr) : String := " ".intercalate (e.lexemes.map Lexeme.text)

def program (e : Expr) : String := "def main ( ) \x7b print ( " ++ e.text ++ " ) ; \x7d"

inductive Plain : Expr → Prop
  | var {line : Int} {x : String} (hx : word.Matches x.toList) (hr : Dialect.structured.reserved.lookup x = none) : Plain (.var line x)
  | num {line : Int} (n : Nat) : Plain (.num line n)
  | bool {line : Int} (b : Bool) : Plain (.bool line b)
  | unary {line : Int} {op : Op} {e : Expr} (ho : op ∈ unaries) (he : Plain e) : Plain (.unary line op e)
  | binary {line : Int} {op : Op} {l r : Expr} (ho : op ∈ binaries) (hl : Plain l) (hr : Plain r) : Plain (.binary line op l r)

def onLine (line : Int) : Expr → Expr
  | .var _ x => .var line x
  | .num _ n => .num line n
  | .bool _ b => .bool line b
  | .unary _ op e => .unary line op (e.onLine line)
  | .binary _ op l r => .binary line op (l.onLine line) (r.onLine line)

theorem toDatum_onLine (line : Int) (e : Expr) : (e.onLine line).toDatum = e.toDatum := by
  induction e <;> simp_all [onLine, toDatum]

end Expr

/-! ### Moves -/

variable {line : Int} {e : Expr} {op o : Op} {p : Place} {st : List (Entry Value)} {us : List (String × Value)} {t : String} {b : Bool}

abbrev Leads (line : Int) : Nat → List (Entry Value) → List (String × Value) → List (Entry Value) → List (String × Value) → Prop :=
  Bx.Parser.Leads tables fun n vs => some (Parser.reduce n vs line)

def Lexeme.valued (x : Lexeme) : String × Value := (x.type, .word x.value)

def Parses (line : Int) (e : Expr) : Prop :=
  ∀ ⦃p : Place⦄ ⦃st : List (Entry Value)⦄ ⦃us : List (String × Value)⦄, p ∈ Place.all → topState st = p.states.1 →
    (∀ o ∈ e.joint?, p.admits o ∧ closes o (aheadType us)) → aheadType us ∈ followers →
    Leads line (2 * e.lexemes.length) st (e.lexemes.map Lexeme.valued ++ us) (⟨p.states.2, "expr", .expr (e.onLine line)⟩ :: st) us

theorem admits_of_le (h : p.admits op) (hle : level op ≤ level o) : p.admits o := by
  cases p with
  | print | bracket => rfl
  | unary => cases h
  | binary =>
    simp only [Place.admits, decide_eq_true_eq] at h ⊢
    omega

theorem closes_of_lt (h : closes op t) (hlt : level op < level o) : closes o t := by
  simp only [closes, Bool.or_eq_true, any_eq_true, Bool.and_eq_true, decide_eq_true_eq, beq_iff_eq] at h ⊢
  rcases h with h | ⟨x, hx, hname, hlevel⟩
  · exact .inl h
  · exact .inr ⟨x, hx, hname, .inl (by omega)⟩

theorem closes_name (hop : op ∈ binaries) (h : ¬(level o < level op ∨ level o = level op ∧ leftmost op = false)) :
    closes o op.name := by
  simp only [closes, Bool.or_eq_true, any_eq_true, Bool.and_eq_true, decide_eq_true_eq, beq_iff_eq]
  refine .inr ⟨op, hop, rfl, ?_⟩
  rcases Nat.lt_trichotomy (level o) (level op) with hlt | heq | hgt
  · exact absurd (.inl hlt) h
  · refine .inr ⟨heq.symm, ?_⟩
    rw [leftmost, heq]
    simpa [leftmost] using fun hf => h (.inr ⟨heq, hf⟩)
  · exact .inl hgt

section Moves

variable (hp : p ∈ Place.all) (hst : topState st = p.states.1) (hus : aheadType us ∈ followers)
include hp hst

theorem leads_reduce {n : Nat} {symbols : List String} {v : Value} (top : List (Entry Value))
    (h : tables.action? (topState (top ++ st)) (aheadType us) = some (.reduce n)) (hrow : ruleRows[n]? = some ("expr", symbols))
    (hlen : top.length = symbols.length) (hv : Parser.reduce n (top.reverse.map Entry.value) line = v) :
    Leads line 1 (top ++ st) us (⟨p.states.2, "expr", v⟩ :: st) us := by
  have hdrop : (top ++ st).drop symbols.length = st := by rw [← hlen, drop_left]
  refine .reduce (k := p.states.2) (v := v) h (Tables.has_of_rows tables_entries.rules hrow) ?_ ?_ ?_ ?_
  · simp only [length_append]
    omega
  · rw [← hlen, take_left, hv]
  · rw [hdrop, hst]
    exact tables_entries.expr p hp
  · rw [hdrop]
    exact .refl _ _

include hus

theorem leads_start (type : String) (k n : Nat) {d : Datum} {v : Value} (hx : (type, k) ∈ starts) (hkn : (k, n) ∈ complete)
    (hrow : ruleRows[n]? = some ("expr", [type])) (hv : Parser.reduce n [.word d] line = v) :
    Leads line 2 st ((type, .word d) :: us) (⟨p.states.2, "expr", v⟩ :: st) us :=
  .shift (k := k) (hst ▸ tables_entries.starts p hp _ hx)
    (leads_reduce hp hst [⟨k, type, .word d⟩] (tables_entries.complete _ hkn _ hus) hrow rfl hv)

theorem leads_bracketed (he : Parses line e) (hb : b = false → ∀ o ∈ e.joint?, p.admits o ∧ closes o (aheadType us)) :
    Leads line (2 * (bracketed b e.lexemes).length) st ((bracketed b e.lexemes).map Lexeme.valued ++ us)
      (⟨p.states.2, "expr", .expr (e.onLine line)⟩ :: st) us := by
  cases b with
  | false => exact he hp hst (hb rfl) hus
  | true =>
    let opened : Entry Value := ⟨37, "LPAREN", .word (.str "(")⟩
    let inside : Entry Value := ⟨66, "expr", .expr (e.onLine line)⟩
    have hinner : Leads line _ (opened :: st) (e.lexemes.map Lexeme.valued ++ (mark "RPAREN").valued :: us) (inside :: opened :: st) _ :=
      he (p := .bracket) (by decide) rfl (fun o _ => ⟨rfl, rfl⟩) mem_cons_self
    have hclose : Leads line 2 (inside :: opened :: st) ((mark "RPAREN").valued :: us) (⟨p.states.2, "expr", inside.value⟩ :: st) us :=
      .shift (k := 92) (tables_entries.around (66, "RPAREN", .shift 92) (by decide))
        (leads_reduce hp hst (n := 4) [⟨92, "RPAREN", .word (.str ")")⟩, inside, opened]
          (tables_entries.complete (92, 4) (by decide) _ hus) rfl rfl rfl)
    have hopen : Leads line (_ + 1) st ((mark "LPAREN").valued :: _) _ us :=
      .shift (k := 37) (hst ▸ tables_entries.starts p hp ("LPAREN", 37) (by decide)) (hinner.trans hclose)
    rw [bracketed, if_pos rfl, map_cons, map_append, map_singleton, cons_append, append_assoc, singleton_append]
    exact hopen.mono (by simp; omega)

end Moves

theorem Parses.unary {i : Int} (he : Parses line e) (ho : op ∈ unaries) : Parses line (.unary i op e) := by
  intro p st us hp hst _ hus
  have hop : ∀ op ∈ unaries, Place.unary op ∈ Place.all ∧ (token op, (Place.unary op).states.1) ∈ starts ∧
      ((Place.unary op).states.2, unaryRule op) ∈ complete ∧ ruleRows[unaryRule op]? = some ("expr", [token op, "expr"]) := by decide
  obtain ⟨hplace, hstart, hcomplete, hrow⟩ := hop op ho
  let sign : Entry Value := ⟨(Place.unary op).states.1, token op, (mark (token op)).valued.2⟩
  have hoperand : Leads line _ (sign :: st) _ _ us :=
    leads_bracketed hplace rfl hus (b := e.joint?.isSome) he fun hb o hj => by simp [Option.mem_def.1 hj] at hb
  have hlast : Leads line 1 (_ :: sign :: st) us (⟨p.states.2, "expr", .expr (.unary line op (e.onLine line))⟩ :: st) us :=
    leads_reduce hp hst [⟨(Place.unary op).states.2, "expr", .expr (e.onLine line)⟩, sign]
      (tables_entries.complete _ hcomplete _ hus) hrow rfl (by fin_cases ho <;> rfl)
  have hall : Leads line (_ + 1) st ((mark (token op)).valued :: _) _ us :=
    .shift (hst ▸ tables_entries.starts p hp _ hstart) (hoperand.trans hlast)
  exact hall.mono (by simp [Expr.lexemes]; omega)

theorem Parses.binary {i : Int} {l r : Expr} (hl : Parses line l) (ho : op ∈ binaries) (hr : Parses line r) :
    Parses line (.binary i op l r) := by
  intro p st us hp hst hjoint hus
  obtain ⟨hin, hout⟩ := hjoint op rfl
  have hop : ∀ op ∈ binaries, Place.binary op ∈ Place.all ∧ op.name ∈ followers ∧
      ruleRows[7 + binaries.idxOf op]? = some ("expr", ["expr", op.name, "expr"]) := by decide
  obtain ⟨hplace, hfollow, hrow⟩ := hop op ho
  let left : Entry Value := ⟨p.states.2, "expr", .expr (l.onLine line)⟩
  let sign : Entry Value := ⟨(Place.binary op).states.1, op.name, (mark op.name).valued.2⟩
  have hleft (ts : List (String × Value)) : Leads line _ st _ (left :: st) ((mark op.name).valued :: ts) :=
    leads_bracketed hp hst hfollow (b := l.leftBrackets op) hl fun hb o hj => by
      have hnot : ¬(level o < level op ∨ level o = level op ∧ leftmost op = false) := by
        simpa [Expr.leftBrackets, Option.mem_def.1 hj] using hb
      exact ⟨admits_of_le hin (by omega), closes_name ho hnot⟩
  have hright : Leads line _ (sign :: left :: st) _ _ us :=
    leads_bracketed hplace rfl hus (b := r.rightBrackets op) hr fun hb o hj => by
      have hlt : level op < level o := by simpa [Expr.rightBrackets, Option.mem_def.1 hj] using hb
      exact ⟨by simpa [Place.admits] using hlt, closes_of_lt hout hlt⟩
  have hlast : Leads line 1 (_ :: sign :: left :: st) us
      (⟨p.states.2, "expr", .expr (.binary line op (l.onLine line) (r.onLine line))⟩ :: st) us :=
    leads_reduce hp hst [⟨(Place.binary op).states.2, "expr", .expr (r.onLine line)⟩, sign, left]
      (tables_entries.closes op ho _ hus hout) hrow rfl (by fin_cases ho <;> rfl)
  have hall := (hleft _).trans (.shift (tables_entries.admits p hp op ho hin) (hright.trans hlast))
  rw [Expr.lexemes, map_append, map_cons, append_assoc, cons_append]
  exact hall.mono (by simp; omega)

theorem parses (he : e.Plain) : Parses line e := by
  induction he with
  | var => exact fun p st us hp hst _ hus => leads_start hp hst hus "IDENT" 35 1 (by decide) (by decide) rfl rfl
  | num => exact fun p st us hp hst _ hus => leads_start hp hst hus "NUMBER" 36 3 (by decide) (by decide) rfl rfl
  | bool b =>
    intro p st us hp hst _ hus
    cases b with
    | false => exact leads_start hp hst hus "FALSE" 39 6 (by decide) (by decide) rfl rfl
    | true => exact leads_start hp hst hus "TRUE" 38 5 (by decide) (by decide) rfl rfl
  | unary ho _ ih => exact ih.unary ho
  | binary ho _ _ ihl ihr => exact ihl.binary ho ihr

def keyword (x : String) : Lexeme := ⟨x, (Dialect.structured.reserved.lookup x).getD "IDENT", .str x⟩

def opening : List Lexeme :=
  [keyword "def", keyword "main", mark "LPAREN", mark "RPAREN", mark "LBRACE", keyword "print", mark "LPAREN"]

def closing : List Lexeme := [mark "RPAREN", mark "SEMICOLON", mark "RBRACE"]

theorem leads_program (he : e.Plain) : Leads line (2 * e.lexemes.length + 17) []
    ((opening ++ (e.lexemes ++ closing)).map Lexeme.valued) [⟨1, "program", .stmt (.block line [.print line (e.onLine line)])⟩] [] := by
  have act {k : Nat} {t : String} {a : Lalr.Action} (h : (k, t, a) ∈ around) : tables.action? k t = some a := tables_entries.around _ h
  have rule {n : Nat} {name : String} {symbols : List String} (h : ruleRows[n]? = some (name, symbols)) : tables.Has n name symbols :=
    Tables.has_of_rows tables_entries.rules h
  have goto {k n : Nat} {name : String} (h : (k, name, n) ∈ [(0, "program", 1), (5, "block", 6), (7, "stmts", 8), (8, "stmt", 10),
      (8, "print", 13)]) : tables.goto? k name = some n := tables_entries.gotos _ h
  -- the stack up to the block, and up to the bracket of `print`
  let outer : List (Entry Value) := [⟨7, "LBRACE", .word (.str "\x7b")⟩, ⟨5, "RPAREN", .word (.str ")")⟩,
    ⟨4, "LPAREN", .word (.str "(")⟩, ⟨3, "MAIN", .word (.str "main")⟩, ⟨2, "DEF", .word (.str "def")⟩]
  let inner : List (Entry Value) := ⟨28, "LPAREN", .word (.str "(")⟩ :: ⟨20, "PRINT", .word (.str "print")⟩ ::
    ⟨8, "stmts", .stmts []⟩ :: outer
  have hbegin (ts : List (String × Value)) : Leads line 8 [] (opening.map Lexeme.valued ++ ts) inner ts :=
    .shift (act (k := 0) (by decide)) <| .shift (act (k := 2) (by decide)) <| .shift (act (k := 3) (by decide)) <|
      .shift (act (k := 4) (by decide)) <| .shift (act (k := 5) (by decide)) <|
      .reduce (act (k := 7) (t := "PRINT") (by decide)) (rule (n := 30) rfl) (by simp) rfl (goto (k := 7) (by decide)) <|
      .shift (act (k := 8) (by decide)) <| .shift (act (k := 20) (by decide)) (.refl _ _)
  have hexpr : Leads line _ inner (e.lexemes.map Lexeme.valued ++ closing.map Lexeme.valued) _ _ :=
    parses he (p := .print) (by decide) rfl (fun o _ => ⟨rfl, rfl⟩) mem_cons_self
  have hend : Leads line 8 (⟨43, "expr", .expr (e.onLine line)⟩ :: inner) (closing.map Lexeme.valued)
      [⟨1, "program", .stmt (.block line [.print line (e.onLine line)])⟩] [] :=
    .shift (act (k := 43) (by decide)) <| .shift (act (k := 70) (by decide)) <|
      .reduce (act (k := 93) (by decide)) (rule (n := 41) rfl) (by simp [inner]) rfl (goto (k := 8) (by decide)) <|
      .reduce (act (k := 13) (by decide)) (rule (n := 34) rfl) (by simp [inner]) rfl (goto (k := 8) (by decide)) <|
      .reduce (act (k := 10) (by decide)) (rule (n := 31) rfl) (by simp [inner]) rfl (goto (k := 7) (by decide)) <|
      .shift (act (k := 8) (by decide)) <|
      .reduce (act (k := 9) (by decide)) (rule (n := 29) rfl) (by simp [inner, outer]) rfl (goto (k := 5) (by decide)) <|
      .reduce (act (k := 6) (by decide)) (rule (n := 28) rfl) (by simp [inner, outer]) rfl (goto (k := 0) (by decide)) (.refl _ _)
  rw [map_append, map_append]
  exact ((hbegin _).trans (hexpr.trans hend)).mono (by omega)

/-! ### Texts -/

inductive Lexeme.Proper : Lexeme → Prop
  | mark {type : String} (h : type ∈ Dialect.structured.marks.map Prod.snd) : Proper (mark type)
  | word {x : String} (h : word.Matches x.toList) : Proper (keyword x)
  | numeral (n : Nat) : Proper ⟨toString (n : Int), "NUMBER", .int n⟩

theorem Lexeme.Proper.type_spec {x : Lexeme} (h : x.Proper) :
    x.type ≠ "$end" ∧ (x.type = "NUMBER" → ∃ n : Nat, x = ⟨toString (n : Int), "NUMBER", .int n⟩) := by
  cases h with
  | @mark type hm =>
    have hmarks : ∀ t ∈ Dialect.structured.marks.map Prod.snd, t ≠ "$end" ∧ t ≠ "NUMBER" := by decide
    exact ⟨(hmarks type hm).1, fun hn => absurd hn (hmarks type hm).2⟩
  | @word x =>
    have hwords : ∀ e ∈ Dialect.structured.reserved, e.2 ≠ "$end" ∧ e.2 ≠ "NUMBER" := by decide
    have htype : (keyword x).type ≠ "$end" ∧ (keyword x).type ≠ "NUMBER" := by
      rw [keyword]
      cases hl : Dialect.structured.reserved.lookup x with
      | none => simp
      | some type => exact hwords _ (mem_of_lookup hl)
    exact ⟨htype.1, fun hn => absurd hn htype.2⟩
  | numeral n => exact ⟨by simp, fun _ => ⟨n, rfl⟩⟩

theorem lexemes_proper (he : e.Plain) : ∀ x ∈ e.lexemes, x.Proper := by
  have inside {b : Bool} {xs : List Lexeme} (h : ∀ x ∈ xs, x.Proper) : ∀ x ∈ bracketed b xs, x.Proper := by
    cases b with
    | false => exact h
    | true => exact forall_mem_cons.2 ⟨.mark (by decide), forall_mem_append.2 ⟨h, forall_mem_singleton.2 (.mark (by decide))⟩⟩
  have mark_op : (∀ op ∈ unaries, token op ∈ Dialect.structured.marks.map Prod.snd) ∧
      ∀ op ∈ binaries, op.name ∈ Dialect.structured.marks.map Prod.snd := by decide
  induction he with
  | @var _ x hx hr =>
    have h := Lexeme.Proper.word hx
    rw [keyword, hr] at h
    exact forall_mem_singleton.2 h
  | num n => exact forall_mem_singleton.2 (.numeral n)
  | bool b =>
    cases b with
    | false => exact forall_mem_singleton.2 (.word (x := "false") (Tac.Reader.matches_word rfl rfl))
    | true => exact forall_mem_singleton.2 (.word (x := "true") (Tac.Reader.matches_word rfl rfl))
  | unary ho _ ih => exact forall_mem_cons.2 ⟨.mark (mark_op.1 _ ho), inside ih⟩
  | binary ho _ _ ihl ihr => exact forall_mem_append.2 ⟨inside ihl, forall_mem_cons.2 ⟨.mark (mark_op.2 _ ho), inside ihr⟩⟩

variable {x : Lexeme} {I : Int → Prop} {f : Option (Fault SyntaxFault)} {cs : List Char} {ts : List (String × Datum)}
  (hcs : ∀ c ∈ cs.head?, c = ' ')
include hcs

theorem delimited : Delimited cs := by
  intro c hc
  rw [hcs c hc]
  rfl

theorem mark_spec {type : String} (h : type ∈ Dialect.structured.marks.map Prod.snd) :
    (∃ c w, (mark type).text.toList = c :: w ∧ (mode .structured).ignore.contains c = false) ∧
    (∀ r ∈ (rules .structured).take 4, r.pattern.Shuns ((mark type).text.toList ++ cs)) ∧
    Dialect.structured.marks.find? (fun m => m.1.toList.isPrefixOf ((mark type).text.toList ++ cs)) = some ((mark type).text, type) := by
  refine ⟨?_, fun r hr => ?_, ?_⟩
  · fin_cases h <;> exact ⟨_, _, rfl, rfl⟩
  · fin_cases hr <;> fin_cases h <;> first | exact shuns_of_starts rfl rfl | exact comment_shuns fun c hc hd => by simp [hcs c hc] at hd
  · rcases cs with _ | ⟨c, cs⟩
    · fin_cases h <;> rfl
    · obtain rfl := hcs c rfl
      fin_cases h <;> rfl

theorem numeral_spec (n : Nat) : ∃ c w, (toString (n : Int)).toList = c :: w ∧ (33 ≤ c.toNat ∧ c.toNat ≤ 57) ∧
    Dialect.structured.numeral.Takes (c :: w) cs := by
  obtain ⟨c, w, hw, hc⟩ := Text.toDigits_cons n
  have hmem : ∀ d ∈ c :: w, (CharSet.range '0' '9').mem d := fun d hd =>
    CharSet.mem_range.2 (Text.toNat_of_isDigit (Nat.isDigit_of_mem_toDigits (b := 10) (n := n) (by decide) (by decide) (hw ▸ hd)))
  obtain ⟨hc', hw'⟩ := forall_mem_cons.1 hmem
  exact ⟨c, w, (Text.toList_toString n).trans hw, by omega, .set_seq hc' (takes_star_set hw' (delimited hcs).digits)⟩

omit hcs in
theorem number_toString (n : Nat) : number (ε := SyntaxFault) (toString (n : Int)) =
    if Text.Numeral.maxDigits < (toString (n : Int)).length then
      .error (.numeral (toString (n : Int)) (.tooLong (toString (n : Int)).length)) else .ok (n : Int) := by
  rw [number, show toString (n : Int) = toString n from rfl, Text.Numeral.read_toString]
  split <;> rfl

theorem Lexeme.Proper.lexes (hx : x.Proper) (hn : x.Short) (h : LexesTo .structured I f cs ts) :
    LexesTo .structured I f (x.text.toList ++ cs) ((x.type, x.value) :: ts) := by
  cases hx with
  | mark hm =>
    obtain ⟨hw, hfront, hfind⟩ := mark_spec hcs hm
    exact lexes_mark hw hfront hfind h
  | word hx => exact lexes_word hx (delimited hcs) h
  | numeral n => exact lexes_numeral (numeral_spec hcs n) (by rw [number_toString, if_neg (Nat.not_lt.2 (hn rfl))]) h

theorem Lexeme.Proper.unreadable (hx : x.Proper) (hn : ¬x.Short) : ∃ f, LexesTo .structured I (some f) (x.text.toList ++ cs) [] := by
  rw [Lexeme.Short, Classical.not_imp, Nat.not_le] at hn
  obtain ⟨n, rfl⟩ := hx.type_spec.2 hn.1
  exact ⟨_, lexes_unreadable (numeral_spec hcs n) (by rw [number_toString, if_pos hn.2])⟩

omit hcs

def spaced (xs : List Lexeme) : List Char := xs.flatMap fun x => x.text.toList ++ [' ']

section Spaced

variable {xs : List Lexeme} (hxs : ∀ x ∈ xs, x.Proper)
include hxs

theorem lexes_spaced (hn : ∀ x ∈ xs, x.Short) (h : LexesTo .structured I f cs ts) :
    LexesTo .structured I f (spaced xs ++ cs) ((xs.map fun x => (x.type, x.value)) ++ ts) := by
  induction xs with
  | nil => exact h
  | cons x xs ih =>
    obtain ⟨hx, hxs⟩ := forall_mem_cons.1 hxs
    obtain ⟨hnx, hn⟩ := forall_mem_cons.1 hn
    have hrest : LexesTo .structured I f (' ' :: (spaced xs ++ cs)) _ := .ignore rfl (ih hxs hn)
    simpa [spaced] using hx.lexes (by simp) hnx hrest

theorem unreadable_spaced (cs : List Char) (hn : ∃ x ∈ xs, ¬x.Short) :
    ∃ f ts, LexesTo .structured I (some f) (spaced xs ++ cs) ts ∧ ∀ t ∈ ts, t.1 ≠ "$end" := by
  induction xs with
  | nil => simp at hn
  | cons x xs ih =>
    obtain ⟨hx, hxs⟩ := forall_mem_cons.1 hxs
    by_cases hshort : x.Short
    · obtain ⟨f, ts, hlex, hts⟩ := ih hxs (by simpa [hshort] using hn)
      have hrest : LexesTo .structured I (some f) (' ' :: (spaced xs ++ cs)) _ := .ignore rfl hlex
      exact ⟨f, _, by simpa [spaced] using hx.lexes (by simp) hshort hrest, forall_mem_cons.2 ⟨hx.type_spec.1, hts⟩⟩
    · obtain ⟨f, hf⟩ : ∃ f, LexesTo .structured I (some f) (x.text.toList ++ ' ' :: (spaced xs ++ cs)) [] := hx.unreadable (by simp) hshort
      exact ⟨f, [], by simpa [spaced] using hf, nofun⟩

end Spaced

theorem intercalate_blank {xs : List Lexeme} (h : xs ≠ []) : (" ".intercalate (xs.map Lexeme.text)).toList ++ [' '] = spaced xs := by
  induction xs with
  | nil => exact absurd rfl h
  | cons x xs ih =>
    cases xs with
    | nil => simp [spaced]
    | cons y ys =>
      rw [map_cons, map_cons, String.intercalate_cons_cons, ← map_cons, String.toList_append, String.toList_append, append_assoc,
        ih (by simp)]
      simp [spaced]

theorem lexemes_ne_nil (e : Expr) : e.lexemes ≠ [] := by
  cases e <;> simp [Expr.lexemes]

theorem toList_program (e : Expr) : e.program.toList = spaced opening ++ (spaced e.lexemes ++ ") ; \x7d".toList) := by
  have hfront : "def main ( ) \x7b print ( ".toList = spaced opening := by decide +kernel
  have hback : " ) ; \x7d".toList = ' ' :: ") ; \x7d".toList := by decide +kernel
  show ("def main ( ) \x7b print ( " ++ e.text ++ " ) ; \x7d").toList = _
  rw [String.toList_append, String.toList_append, hfront, hback, Expr.text, ← intercalate_blank (lexemes_ne_nil e)]
  simp only [append_assoc, cons_append, nil_append]

theorem opening_proper : ∀ x ∈ opening, x.Proper := by
  have hword {x : String} (h : x ∈ ["def", "main", "print"]) : (keyword x).Proper := by
    fin_cases h <;> exact .word (Tac.Reader.matches_word rfl rfl)
  simp only [opening, forall_mem_cons]
  exact ⟨hword (by simp), hword (by simp), .mark (by decide), .mark (by decide), .mark (by decide), hword (by simp), .mark (by decide), nofun⟩

theorem lexes_closing : LexesTo .structured I none ") ; \x7d".toList (closing.map fun x => (x.type, x.value)) := by
  have hchars : ") ; \x7d".toList = (mark "RPAREN").text.toList ++ ' ' :: ((mark "SEMICOLON").text.toList ++ ' ' ::
      ((mark "RBRACE").text.toList ++ [])) := by decide +kernel
  rw [hchars]
  exact (Lexeme.Proper.mark (by decide)).lexes (by simp) nofun (.ignore rfl ((Lexeme.Proper.mark (by decide)).lexes (by simp) nofun
    (.ignore rfl ((Lexeme.Proper.mark (by decide)).lexes nofun nofun .nil))))

theorem lexes_program (he : e.Plain) (hn : ∀ x ∈ e.lexemes, x.Short) :
    LexesTo .structured I none e.program.toList ((opening ++ (e.lexemes ++ closing)).map fun x => (x.type, x.value)) := by
  rw [toList_program, map_append, map_append]
  exact lexes_spaced opening_proper (by decide) (lexes_spaced (lexemes_proper he) hn lexes_closing)

theorem unreadable_program (he : e.Plain) (hn : ∃ x ∈ e.lexemes, ¬x.Short) :
    ∃ f ts, LexesTo .structured I (some f) e.program.toList ts ∧ ∀ t ∈ ts, t.1 ≠ "$end" := by
  obtain ⟨f, ts, hlex, hts⟩ := unreadable_spaced (I := I) (lexemes_proper he) ") ; \x7d".toList hn
  rw [toList_program]
  refine ⟨f, _, lexes_spaced opening_proper (by decide) hlex, forall_mem_append.2 ⟨fun t ht => ?_, hts⟩⟩
  obtain ⟨x, hx, rfl⟩ := mem_map.1 ht
  exact (opening_proper x hx).type_spec.1

/-! ### Reading -/

variable {r : Reading}

theorem feed_at (hr : r.state.mode = "INITIAL") (text : String) :
    ({ r.state with memory := { r.state.memory with output := "" } }.feed text).At (lexer .structured) (mode .structured)
      (· = r.state.line) { r.state.memory with output := "" } text.toList := ⟨⟨[], rfl, rfl⟩, mode_eq hr, rfl, rfl⟩

theorem read_program (he : e.Plain) (hr : r.state.mode = "INITIAL") (hn : ∀ x ∈ e.lexemes, x.Short) :
    (Parser.read e.program r).1 = .ok [.print r.state.line (e.onLine r.state.line)] := by
  have hlex : LexesTo .structured (· = r.state.line) _ _ _ := lexes_program he hn
  obtain ⟨toks, last, hreads, htoks, -⟩ := hlex.reads rfl (feed_at hr e.program)
  obtain ⟨n, hle, hmoves⟩ : Leads r.state.line _ [] _ _ [] := leads_program he
  have htyped : toks.map language.typed = (opening ++ (e.lexemes ++ closing)).map Lexeme.valued := by
    have := congrArg (List.map fun t : String × Datum => (t.1, Value.word t.2)) htoks
    rw [map_map, map_map] at this
    exact this
  have hfuel : n < parseSteps e.program := by
    have := hlex.length_le
    rw [String.length_toList, length_map, length_append, length_append] at this
    simp only [parseSteps]
    omega
  have hm : Moves language.tables _ n [] (toks.map language.typed) [⟨1, "program", _⟩] [] := htyped ▸ hmoves
  have hf (n : Nat) (vs : List Value) (v : Value) (s : State Source.Memory) (hv : some (Parser.reduce n vs r.state.line) = some v)
      (hs : s.line = r.state.line) : language.reduce n vs s = (.ok (some v), s) := by
    rw [← hs] at hv
    cases hv
    rfl
  have ha : language.tables.action? 1 "$end" = some .accept := tables_entries.around (1, "$end", .accept) (by decide)
  rw [Parser.read, Source.parse, Language.parse_of_moves hf tables_consistent hreads hm ha hfuel]
  rfl

theorem read_program_ne_ok (he : e.Plain) (hr : r.state.mode = "INITIAL") (hn : ∃ x ∈ e.lexemes, ¬x.Short) (ss : List Stmt) :
    (Parser.read e.program r).1 ≠ .ok ss := by
  obtain ⟨f, ts, hlex, hts⟩ := unreadable_program (I := (· = r.state.line)) he hn
  obtain ⟨toks, last, hreads, htoks, -⟩ := hlex.reads rfl (feed_at hr e.program)
  have htypes : ∀ t ∈ toks, t.type ≠ "$end" := fun t ht => hts (t.type, t.value) (htoks ▸ mem_map_of_mem ht)
  have hne : ∀ v ok s, language.parse (parseSteps e.program) r.errorOk _ ≠ some (.ok v, ok, s) := Language.parse_ne_ok
    (fun n vs s => ⟨_, rfl⟩) (fun t s => by cases t <;> exact ⟨_, _, rfl⟩) (fun k t => accept_end) hreads htypes
  rw [Parser.read, Source.parse]
  dsimp only
  split
  · next v ok s hp => exact absurd hp (hne (some v) ok s)
  all_goals nofun

/-- An expression printed with the brackets that its operators ask for is read back, unless it has a number that is too long. -/
theorem read_program_iff (he : e.Plain) (hr : r.state.mode = "INITIAL") :
    (∃ line arg, (Parser.read e.program r).1 = .ok [.print line arg] ∧ arg.toDatum = e.toDatum) ↔ ∀ x ∈ e.lexemes, x.Short := by
  refine ⟨fun ⟨line, arg, hread, _⟩ x hx => ?_, fun hn => ⟨_, _, read_program he hr hn, Expr.toDatum_onLine _ e⟩⟩
  by_contra hlong
  exact read_program_ne_ok he hr ⟨x, hx, hlong⟩ _ hread

def difference : Expr :=
  .binary 1 .minus (.var 1 "x") (.binary 1 .minus (.unary 1 .uminus (.num 1 (10 : Nat))) (.binary 1 .times (.var 1 "y") (.bool 1 true)))

theorem read_program_iff_difference : difference.Plain ∧ ∃ line arg,
    (Parser.read "def main ( ) \x7b print ( x - ( - 10 - y * true ) ) ; \x7d" .start).1 = .ok [.print line arg] ∧
      arg.toDatum = difference.toDatum := by
  have hvar {x : String} (h : x ∈ ["x", "y"]) : (Expr.var 1 x).Plain := by
    fin_cases h <;> exact .var (Tac.Reader.matches_word rfl rfl) rfl
  have he : difference.Plain :=
    .binary (by decide) (hvar (by simp)) (.binary (by decide) (.unary (by decide) (.num 10)) (.binary (by decide) (hvar (by simp)) (.bool true)))
  have htext : difference.program = "def main ( ) \x7b print ( x - ( - 10 - y * true ) ) ; \x7d" := by decide +kernel
  refine ⟨he, ?_⟩
  rw [← htext]
  exact (read_program_iff he rfl).2 (by decide +kernel)

def enormous : Expr := .num 1 (10 ^ Text.Numeral.maxDigits : Nat)

theorem not_read_enormous : enormous.Plain ∧
    ¬∃ line arg, (Parser.read enormous.program .start).1 = .ok [.print line arg] ∧ arg.toDatum = enormous.toDatum := by
  have he : enormous.Plain := .num _
  refine ⟨he, fun ⟨line, arg, hread, _⟩ => read_program_ne_ok he rfl ⟨_, mem_singleton.2 rfl, fun h => ?_⟩ _ hread⟩
  have hlen : (toString (10 ^ Text.Numeral.maxDigits : Nat)).length ≤ Text.Numeral.maxDigits := h rfl
  rw [← String.length_toList, Text.toList_toString, Text.length_toDigits_pow] at hlen
  exact Nat.not_succ_le_self _ hlen

end Bx.Structured
