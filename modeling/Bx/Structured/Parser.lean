import Bx.Source.Reading
import Bx.Structured.Tree

namespace Bx.Structured.Parser

open Bx.Parser Source

def levels : List Level := [("left", ["BOOLOR"]), ("left", ["BOOLAND"]), ("left", ["BITOR"]), ("left", ["BITXOR"]),
  ("left", ["BITAND"]), ("nonassoc", ["BOOLEQ", "BOOLNEQ"]), ("nonassoc", ["LESS", "LESSEQ", "GREATER", "GREATEREQ"]),
  ("left", ["BITSHR", "BITSHL"]), ("left", ["PLUS", "MINUS"]), ("left", ["TIMES", "DIV", "MODULUS"]),
  ("right", ["BOOLNOT"]), ("right", ["BITCOMPL"])]

def binaries : List Op := [.plus, .minus, .times, .div, .modulus, .bitand, .bitor, .bitxor, .bitshl, .bitshr, .less,
  .lesseq, .greater, .greatereq, .booleq, .boolneq, .booland, .boolor]

def exprRules : List (String × List String) := [
  ("expr", ["IDENT"]),
  ("var", ["IDENT"]),
  ("expr", ["NUMBER"]),
  ("expr", ["LPAREN", "expr", "RPAREN"]),
  ("expr", ["TRUE"]),
  ("expr", ["FALSE"])] ++ binaryRules (binaries.map Op.name) ++ [
  ("expr", ["BOOLNOT", "expr"]),
  ("expr", ["BITCOMPL", "expr"]),
  ("expr", ["MINUS", "expr", "%prec", "MODULUS"])]

def phrases : List (String × List String) := exprRules ++ [
  ("program", ["DEF", "MAIN", "LPAREN", "RPAREN", "block"]),
  ("block", ["LBRACE", "stmts", "RBRACE"]),
  ("stmts", []),
  ("stmts", ["stmts", "stmt"]),
  ("stmt", ["vardecl"]),
  ("stmt", ["assign"]),
  ("stmt", ["print"]),
  ("stmt", ["ifelse"]),
  ("stmt", ["while"]),
  ("stmt", ["jump"]),
  ("stmt", ["block"]),
  ("assign", ["var", "EQUAL", "expr", "SEMICOLON"]),
  ("vardecl", ["VAR", "var", "EQUAL", "expr", "COLON", "INT", "SEMICOLON"]),
  ("print", ["PRINT", "LPAREN", "expr", "RPAREN", "SEMICOLON"]),
  ("ifelse", ["IF", "LPAREN", "expr", "RPAREN", "block", "ifrest"]),
  ("ifrest", []),
  ("ifrest", ["ELSE", "ifelse"]),
  ("ifrest", ["ELSE", "block"]),
  ("while", ["WHILE", "LPAREN", "expr", "RPAREN", "block"]),
  ("jump", ["CONTINUE", "SEMICOLON"]),
  ("jump", ["BREAK", "SEMICOLON"])]

@[irreducible] def tables : Tables := .ofRules Dialect.structured.tokenTypes levels "program" phrases

inductive Value
  | word (d : Datum)
  | var (line : Int) (x : String)
  | expr (e : Expr)
  | stmt (s : Stmt)
  | stmts (ss : List Stmt)

def reduce (n : Nat) (parts : List Value) (line : Int) : Value :=
  match n, parts with
  | 1, [.word (.str x)] => .expr (.var line x)
  | 2, [.word (.str x)] => .var line x
  | 3, [.word (.int n)] => .expr (.num line n)
  | 4, [_, v, _] => v
  | 5, _ => .expr (.bool line true)
  | 6, _ => .expr (.bool line false)
  | 25, [_, .expr e] => .expr (.unary line .boolnot e)
  | 26, [_, .expr e] => .expr (.unary line .bitcompl e)
  | 27, [_, .expr e] => .expr (.unary line .uminus e)
  | 28, [_, _, _, _, v] => v
  | 29, [_, .stmts ss, _] => .stmt (.block line ss)
  | 30, _ => .stmts []
  | 31, [.stmts ss, .stmt s] => .stmts (ss ++ [s])
  | 39, [.var l x, _, .expr e, _] => .stmt (.assign line l x e)
  | 40, [_, .var _ x, _, .expr e, _, _, _] => .stmt (.vardecl line x e)
  | 41, [_, _, .expr e, _, _] => .stmt (.print line e)
  | 42, [_, _, .expr c, _, .stmt (.block _ yes), .stmt no] => .stmt (.ifelse line c yes no)
  | 43, _ => .stmt (.block line [])
  | 44, [_, v] | 45, [_, v] => v
  | 46, [_, _, .expr c, _, .stmt (.block _ body)] => .stmt (.while line c body)
  | 47, _ => .stmt (.continue line)
  | 48, _ => .stmt (.break line)
  | n, [.expr l, _, .expr r] => .expr (.binary line (binaries.getD (n - 7) .plus) l r)
  | _, v :: _ => v
  | _, [] => .word .null

def language : Language Handler Memory Value SyntaxFault where
  lexer := lexer .structured
  handling := handle .structured
  tables := tables
  tracking := false
  ofToken := fun t => .word t.value
  reduce := fun n parts s => (.ok (some (reduce n parts s.line)), s)
  onError := onError id
  blank := .word .null

def statements : Value → Except (ReadError SyntaxFault) (List Stmt)
  | .stmt (.block _ body) => .ok body
  | _ => .error .none

def read (text : String) (r : Reading) : Except (ReadError SyntaxFault) (List Stmt) × String × Reading :=
  let result := parse language text r
  (result.1.bind statements, result.2)

end Bx.Structured.Parser
