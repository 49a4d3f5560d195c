import Bx.Parser.Language
import Bx.Tac.Program

namespace Bx.Tac.Reader

open Bx.Parser Lexer Regex

inductive Handler
  | newline | word | numeral | junk

inductive Error
  | numeral
  | parsing
  | load (e : LoadError)

def Error.message : Error → String
  | .numeral => "immint"
  | .parsing => "parsing"
  | .load e => e.message

/-- Where the text comes from, and what has been printed. -/
structure Memory where
  provenance : String
  output : String

def print (m : Memory) (line : Int) (s : String) : Memory :=
  { m with output := m.output ++ m.provenance ++ ":" ++ toString line ++ ":" ++ s ++ "\n" }

def digits : Regex := .seq (.set (.range '1' '9')) (.star digit)

def rules : List (Rule Handler) := [
  ⟨.alt newline (all [text "//", .star notNewline, opt newline]), none, some .newline⟩,
  ⟨.seq letter (.star alphanumeric), some "OPCODE", some .word⟩,
  ⟨.alt (text "0") (.seq (opt (text "-")) digits), some "NUM64", some .numeral⟩,
  ⟨.seq (text "%") (any [text "0", digits,
    .seq (.set (.union (.range 'A' 'Z') (.range 'a' 'z'))) (.star alphanumeric)]), some "TEMP", none⟩,
  ⟨all [text "@", letter, .star alphanumeric], some "GSYM", none⟩,
  ⟨.seq (text "%.L") (.star alphanumeric), some "LABEL", none⟩,
  ⟨text "(", some "LPAREN", none⟩,
  ⟨text ")", some "RPAREN", none⟩,
  ⟨text ":", some "COLON", none⟩,
  ⟨text ",", some "COMMA", none⟩,
  ⟨text "=", some "EQ", none⟩,
  ⟨text ";", some "SEMICOLON", none⟩]

def lexer : Lexer Handler := ⟨[("INITIAL", ⟨[rules], [' ', '\t', '\x0c', '\x0b', '\r'], some .junk, none⟩)], []⟩

def handle (h : Handler) (t : Token) (s : State Memory) : Except (Lexer.Fault Error) Reply × State Memory :=
  match h with
  | .newline => (.ok .nothing, { s with line := s.line + 1 })
  | .word =>
    let type := if t.value.is "var" then "VAR" else if t.value.is "proc" then "PROC" else t.type
    (.ok (.token { t with type := type }), s)
  | .numeral => match number (t.value.string?.getD "") with
    | .error e => (.error e, s)
    | .ok n =>
      if 0 ≤ n ∧ n < Word.size then (.ok (.token { t with value := .int n }), s)
      else (.error (.handler .numeral), { s with memory := print s.memory t.line ("Error: numerical literal " ++ toString n ++
        " not in [" ++ toString (-Word.half) ++ ", " ++ toString Word.half ++ ")") })
  | .junk =>
    let c := String.ofList ((t.value.string?.getD "").toList.take 1)
    (.ok .nothing, { s.skip 1 with memory := print s.memory t.line ("Warning: skipping illegal character: " ++ c) })

def tokenTypes : List String :=
  ["NUM64", "TEMP", "GSYM", "LABEL", "OPCODE", "EQ", "COMMA", "SEMICOLON", "COLON", "LPAREN", "RPAREN", "VAR", "PROC"]

def phrases : List (String × List String) := [
  ("program", ["program", "gvar"]),
  ("program", ["program", "proc"]),
  ("program", []),
  ("gvar", ["VAR", "GSYM", "EQ", "NUM64", "SEMICOLON"]),
  ("proc", ["PROC", "GSYM", "procparams", "COLON", "instrs"]),
  ("procparams", ["LPAREN", "argtemps", "RPAREN"]),
  ("procparams", []),
  ("argtemps", ["argtemps1"]),
  ("argtemps", []),
  ("argtemps1", ["TEMP"]),
  ("argtemps1", ["argtemps1", "COMMA", "TEMP"]),
  ("instrs", ["instrs", "instr"]),
  ("instrs", []),
  ("instr", ["lhs", "OPCODE", "args", "SEMICOLON"]),
  ("instr", ["LABEL", "COLON"]),
  ("lhs", ["TEMP", "EQ"]),
  ("lhs", ["GSYM", "EQ"]),
  ("lhs", []),
  ("args", ["arg", "COMMA", "arg"]),
  ("args", ["arg"]),
  ("args", []),
  ("arg", ["TEMP"]),
  ("arg", ["NUM64"]),
  ("arg", ["LABEL"]),
  ("arg", ["GSYM"])]

@[irreducible] def tables : Tables := .ofRules tokenTypes [] "program" phrases

inductive Value (ι : Type)
  | word (d : Datum)
  | words (ds : List Datum)
  | instr (i : ι)
  | instrs (is : List ι)
  | decl (d : Decl ι)
  | program (ds : List (Decl ι))

variable {ι : Type} [Instruction ι]

def build (result op : Datum) (args : List Datum) : Except Error (Option (Value ι)) :=
  match Instruction.ofParts result op (.tuple args) with
  | .ok i => .ok (some (.instr i))
  | .error e => .error (.load e)

def reduce (n : Nat) (parts : List (Value ι)) : Except Error (Option (Value ι)) :=
  match n, parts with
  | 1, [.program ds, .decl d] | 2, [.program ds, .decl d] => .ok (some (.program (ds ++ [d])))
  | 3, _ => .ok (some (.program []))
  | 4, [_, .word (.str g), _, .word v, _] => .ok (some (.decl (.gvar ⟨g, v⟩)))
  | 5, [_, .word (.str f), .words ps, _, .instrs is] => .ok (some (.decl (.proc ⟨f, ps, is⟩)))
  | 6, [_, v, _] => .ok (some v)
  | 8, [v] => .ok (some v)
  | 7, _ | 9, _ | 21, _ => .ok (some (.words []))
  | 10, [.word t] | 20, [.word t] => .ok (some (.words [t]))
  | 11, [.words ts, _, .word t] => .ok (some (.words (ts ++ [t])))
  | 12, [.instrs is, .instr i] => .ok (some (.instrs (is ++ [i])))
  | 13, _ => .ok (some (.instrs []))
  | 14, [.word r, .word op, .words args, _] => build r op args
  | 15, [.word l, _] => build .null (.str "label") [l]
  | 18, _ => .ok (some (.word .null))
  | 19, [.word a, _, .word b] => .ok (some (.words [a, b]))
  | _, v :: _ => .ok (some v)
  | _, [] => .ok (some (.word .null))

def language : Language Handler Memory (Value ι) Error where
  lexer := lexer
  handling := handle
  tables := tables
  tracking := true
  ofToken := fun t => .word t.value
  reduce := fun n parts s => (reduce n parts, s)
  onError := fun t s => match t with
    | some t =>
      (.error .parsing, { s with memory := print s.memory (t.line.getD 0) ("Error:syntax error at token " ++ t.type) })
    | none => (.error .parsing, s)
  blank := .word .null

def read (fuel : Nat) (provenance text : String) : Except (Parser.Fault (Lexer.Fault Error)) (List (Decl ι)) × String :=
  match language.parse fuel true ((State.start ⟨provenance, ""⟩).feed text) with
  | some (.ok (some (.program ds)), _, s) => (.ok ds, s.memory.output)
  | some (.ok _, _, s) => (.ok [], s.memory.output)
  | some (.error e, _, s) => (.error e, s.memory.output)
  | none => (.ok [], "")

end Bx.Tac.Reader
