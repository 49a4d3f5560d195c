import Bx.Source.Reading
import Bx.Straight.Tree
import Bx.Word

namespace Bx.Straight.Parser

open Bx.Parser Source

inductive Error
  | text (e : SyntaxFault)
  | undeclaredUse (line : Int) (x : String)
  | undeclared (line : Int) (x : String)
  | declaredTwice (line : Int) (x : String)
  | outOfRange (line : Int)

def Error.message : Error → String
  | .text e => e.message
  | .undeclaredUse l x => "ERROR: (line: " ++ toString l ++ ") Variable " ++ x ++ " has not been declared!"
  | .undeclared l x => "ERROR: (line: " ++ toString l ++ ") Variable " ++ x ++ " not declared!"
  | .declaredTwice l x => "ERROR: (line: " ++ toString l ++ ") Variable " ++ x ++ " already declared!"
  | .outOfRange l => "ERROR: (line: " ++ toString l ++ ") Value out of range (63 bits)!"

def levels : List Level := [("left", ["BITOR"]), ("left", ["BITXOR"]), ("left", ["BITAND"]),
  ("left", ["BITSHR", "BITSHL"]), ("left", ["PLUS", "MINUS"]), ("left", ["TIMES", "DIV", "MODULUS"]),
  ("right", ["BITCOMPL"])]

def binaries : List String :=
  ["PLUS", "MINUS", "TIMES", "DIV", "MODULUS", "BITAND", "BITOR", "BITXOR", "BITSHL", "BITSHR"]

def tables : Tables := .ofRules Dialect.straight.tokenTypes levels "program" ([
  ("expr", ["IDENT"]),
  ("var", ["IDENT"]),
  ("expr", ["NUMBER"])] ++ binaryRules binaries ++ [
  ("expr", ["LPAREN", "expr", "RPAREN"]),
  ("expr", ["MINUS", "expr", "%prec", "MODULUS"]),
  ("expr", ["BITCOMPL", "expr"]),
  ("program", ["DEF", "MAIN", "LPAREN", "RPAREN", "LBRACE", "stmts", "RBRACE"]),
  ("stmts", []),
  ("stmts", ["stmts", "stmt"]),
  ("stmt", ["vardecl"]),
  ("stmt", ["assign"]),
  ("stmt", ["print"]),
  ("assign", ["var", "EQUAL", "expr", "SEMICOLON"]),
  ("vardecl", ["VAR", "var", "EQUAL", "expr", "COLON", "INT", "SEMICOLON"]),
  ("print", ["PRINT", "LPAREN", "expr", "RPAREN", "SEMICOLON"])])

inductive Value
  | word (d : Datum)
  | expr (e : Expr)
  | stmt (s : Stmt)
  | stmts (ss : List Stmt)

def reduce (n : Nat) (parts : List Value) (line : Int) (declared : List String) : Except Error (Value × List String) :=
  let ok (v : Value) : Except Error (Value × List String) := .ok (v, declared)
  match n, parts with
  | 1, [.word (.str x)] => if declared.contains x then ok (.expr (.var (.str x))) else .error (.undeclaredUse line x)
  | 3, [.word (.int n)] => if n < Word.half then ok (.expr (.num (.int n))) else .error (.outOfRange line)
  | 14, [_, v, _] => ok v
  | 15, [_, .expr e] => ok (.expr (.unary "UMINUS" e))
  | 16, [_, .expr e] => ok (.expr (.unary "BITCOMPL" e))
  | 17, [_, _, _, _, _, v, _] => ok v
  | 18, _ => ok (.stmts [])
  | 19, [.stmts ss, .stmt s] => ok (.stmts (ss ++ [s]))
  | 23, [.word (.str x), _, .expr e, _] =>
    if declared.contains x then ok (.stmt (.assign (.str x) (some e))) else .error (.undeclared line x)
  | 24, [_, .word (.str x), _, .expr e, _, _, _] =>
    if declared.contains x then .error (.declaredTwice line x)
    else .ok (.stmt (.vardecl (.str x) (some e)), declared ++ [x])
  | 25, [_, _, .expr e, _, _] => ok (.stmt (.print e))
  | n, [.expr l, _, .expr r] => ok (.expr (.binary (binaries.getD (n - 4) "") l r))
  | _, v :: _ => ok v
  | _, [] => ok (.word .null)

def language : Language Handler Memory Value Error where
  lexer := lexer .straight
  handling := handle .straight
  tables := tables
  tracking := false
  ofToken := fun t => .word t.value
  reduce := fun n parts s => match reduce n parts s.line s.memory.declared with
    | .ok (v, declared) => (.ok (some v), { s with memory := { s.memory with declared := declared } })
    | .error e => (.error e, s)
  onError := onError .text
  blank := .word .null

def read (text : String) (r : Reading) : Except (ReadError Error) (List Stmt) × String × Reading :=
  let (v, out, r) := parse language text r
  (v.bind fun v => match v with
    | .stmts ss => .ok ss
    | _ => .error .none, out, r)

end Bx.Straight.Parser
