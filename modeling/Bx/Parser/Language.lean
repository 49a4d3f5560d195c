import Bx.Lexer.Basic
import Bx.Parser.Machine

namespace Bx.Parser

open Grammar

/-- How the tokens of a level associate, and the tokens. Later levels bind tighter. -/
abbrev Level := String × List String

def grammarOf (tokens : List String) (levels : List Level) (start : String) (rules : List (String × List String)) :
    Except Grammar.Error Grammar := do
  let g ← levels.zipIdx.foldlM (fun g (level, k) =>
    level.2.foldlM (fun (g : Grammar) t => g.setPrecedence t level.1 (.int (k + 1))) g) (Grammar.ofTerminals tokens)
  let g ← rules.foldlM (fun (g : Grammar) (name, syms) =>
    match g.addProduction name syms "" ⟨"", .int 0⟩ with
    | (.ok _, g) => .ok g
    | (.error e, _) => .error e) g
  g.setStart (some start)

def Tables.none : Tables := ⟨#[], #[], #[], []⟩

def Tables.ofRules (tokens : List String) (levels : List Level) (start : String) (rules : List (String × List String)) : Tables :=
  match grammarOf tokens levels start rules with
  | .error _ => .none
  | .ok g => match Lalr.build g .empty with
    | (.ok t, g, _) => ⟨(g.augmented.toList ++ g.rules).toArray, t.actions, t.gotos, (t.defaulted?).getD []⟩
    | _ => .none

structure Language (η σ α ε : Type) where
  lexer : Lexer η
  handling : Lexer.Handling η σ ε
  tables : Tables
  tracking : Bool
  ofToken : Token → α
  /-- `none` calls the phrase a syntax error. -/
  reduce : Nat → List α → Lexer.State σ → Except ε (Option α) × Lexer.State σ
  onError : Option (Symbol α) → Lexer.State σ → Except ε Unit × Lexer.State σ
  blank : α

namespace Language

variable {η σ α ε : Type} (L : Language η σ α ε)

def client : Client α (Lexer.State σ) (Lexer.Fault ε) where
  tables := L.tables
  tracking := L.tracking
  recording := false
  next := fun s => match L.lexer.token L.handling s with
    | (.ok t, s) => (.ok (t.map fun t => .ofToken t.type (L.ofToken t) (some t.line) t.pos), s)
    | (.error e, s) => (.error e, s)
  position := fun s => (s.line, s.pos)
  reduce := fun n phrase s => match L.reduce n (phrase.parts.map fun p => p.value.getD L.blank) s with
    | (.ok v, s) => (.ok (v.map fun v => { phrase.whole with value := some v }), s)
    | (.error e, s) => (.error (.handler e), s)
  onError := some fun t s => match L.onError t s with
    | (.ok _, s) => (.ok .none, s)
    | (.error e, s) => (.error (.handler e), s)
  record := fun _ s => s
  errorWord := L.blank
  errorToken := fun _ => L.blank

def parse (fuel : Nat) (errorOk : Bool) (s : Lexer.State σ) :
    Option (Except (Parser.Fault (Lexer.Fault ε)) (Option α) × Bool × Lexer.State σ) :=
  (run L.client fuel (.initial errorOk s)).map fun (r, c) => (r, c.errorOk, c.memory)

def tokens : Nat → Array Token → Lexer.State σ → Array Token × Option (Lexer.Fault ε) × Lexer.State σ
  | 0, ts, s => (ts, none, s)
  | n + 1, ts, s => match L.lexer.token L.handling s with
    | (.ok none, s) => (ts, none, s)
    | (.ok (some t), s) => tokens n (ts.push t) s
    | (.error e, s) => (ts, some e, s)

end Language

end Bx.Parser
