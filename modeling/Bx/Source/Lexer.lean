import Bx.Parser.Language

namespace Bx.Source

open Bx.Parser Lexer Regex

inductive Dialect
  | straight | structured | procedural
  deriving DecidableEq

structure Memory where
  output : String
  declared : List String

def Memory.start : Memory := ⟨"", []⟩

namespace Dialect

def reserved : Dialect → List (String × String)
  | .straight => [("print", "PRINT"), ("int", "INT"), ("def", "DEF"), ("var", "VAR"), ("main", "MAIN")]
  | .structured => [("print", "PRINT"), ("int", "INT"), ("def", "DEF"), ("var", "VAR"), ("main", "MAIN"), ("if", "IF"),
      ("else", "ELSE"), ("while", "WHILE"), ("break", "BREAK"), ("continue", "CONTINUE"), ("true", "TRUE"), ("false", "FALSE")]
  | .procedural => [("int", "INT"), ("bool", "BOOL"), ("def", "DEF"), ("var", "VAR"), ("if", "IF"), ("else", "ELSE"),
      ("while", "WHILE"), ("break", "BREAK"), ("continue", "CONTINUE"), ("true", "TRUE"), ("false", "FALSE"),
      ("void", "VOID"), ("return", "RETURN")]

def arithmetic : List (String × String) := [("<<", "BITSHL"), (">>", "BITSHR"), ("*", "TIMES"), ("/", "DIV"),
  ("%", "MODULUS"), ("&", "BITAND"), ("|", "BITOR"), ("^", "BITXOR"), ("(", "LPAREN"), (")", "RPAREN"), ("+", "PLUS"),
  ("-", "MINUS"), (";", "SEMICOLON"), ("~", "BITCOMPL"), ("=", "EQUAL"), (":", "COLON"), ("\x7b", "LBRACE"), ("\x7d", "RBRACE")]

def logical : List (String × String) := [("&&", "BOOLAND"), ("||", "BOOLOR"), ("==", "BOOLEQ"), ("<=", "LESSEQ"),
  (">=", "GREATEREQ"), ("!=", "BOOLNEQ"), ("<", "LESS"), (">", "GREATER"), ("!", "BOOLNOT")]

def marks (d : Dialect) : List (String × String) :=
  let all := match d with
    | .straight => arithmetic
    | .structured => arithmetic ++ logical
    | .procedural => arithmetic ++ logical ++ [(",", "COMMA")]
  all.filter (·.1.length == 2) ++ all.filter (·.1.length == 1)

def tokenTypes (d : Dialect) : List String := d.marks.map (·.2) ++ ["IDENT", "NUMBER"] ++ d.reserved.map (·.2)

def numeral : Dialect → Regex
  | .procedural => .alt (text "0") (all [opt (text "-"), .set (.range '1' '9'), .star digit])
  | _ => plus digit

end Dialect

inductive Handler
  | word | numeral | newline | junk

def rules (d : Dialect) : List (Rule Handler) := [
  ⟨.seq letter (.star alphanumeric), some "IDENT", some .word⟩,
  ⟨d.numeral, some "NUMBER", some .numeral⟩,
  ⟨all [text "//", .star notNewline, opt newline], none, some .newline⟩,
  ⟨newline, none, some .newline⟩] ++
  d.marks.map fun (m, type) => ⟨text m, some type, none⟩

def lexer (d : Dialect) : Lexer Handler :=
  ⟨[("INITIAL", ⟨[rules d], [' ', '\t', '\x0c', '\x0b'], some .junk, none⟩)], []⟩

variable {ε : Type}

def handle (d : Dialect) (h : Handler) (t : Token) (s : State Memory) : Except (Lexer.Fault ε) Reply × State Memory :=
  match h with
  | .word => (.ok (.token { t with type := (t.value.string?.bind fun w => d.reserved.lookup w).getD t.type }), s)
  | .numeral => match number (t.value.string?.getD "") with
    | .ok n => (.ok (.token { t with value := .int n }), s)
    | .error e => (.error e, s)
  | .newline => (.ok .nothing, { s with line := s.line + 1 })
  | .junk =>
    let c := String.ofList ((t.value.string?.getD "").toList.take 1)
    let line := "Illegal character ’" ++ c ++ "’ on line " ++ toString s.line ++ "\n"
    (.ok .nothing, { s.skip 1 with memory := { s.memory with output := s.memory.output ++ line } })

inductive SyntaxFault
  | earlyEnd
  | unexpected (line : Int) (type : String)

def SyntaxFault.message : SyntaxFault → String
  | .earlyEnd => "ERROR: Main function not defined/ not defined properly!"
  | .unexpected line type => "ERROR: (line: " ++ toString line ++ ") syntax error while processing " ++ type

def onError {α : Type} (wrap : SyntaxFault → ε) (t : Option (Symbol α)) (s : State Memory) : Except ε Unit × State Memory :=
  match t with
  | none => (.error (wrap .earlyEnd), s)
  | some t => (.error (wrap (.unexpected s.line t.type)), s)

def binaryRules (ops : List String) : List (String × List String) := ops.map fun op => ("expr", ["expr", op, "expr"])

def place (line : Int) : String := "[" ++ toString line ++ "]"

end Bx.Source
