import Bx.Procedural.Tree
import Bx.Structured.Parser

namespace Bx.Procedural.Parser

open Bx.Parser Source

def tables : Tables := .ofRules Dialect.procedural.tokenTypes Structured.Parser.levels "program"
  (Structured.Parser.exprRules ++ [
  ("expr", ["IDENT", "LPAREN", "maybe_expr", "RPAREN"]),
  ("maybe_expr", []),
  ("maybe_expr", ["expr", "exprs"]),
  ("exprs", []),
  ("exprs", ["exprs", "COMMA", "expr"]),
  ("program", ["decls"]),
  ("decls", []),
  ("decls", ["decls", "decl"]),
  ("decl", ["vardecl"]),
  ("decl", ["procdecl"]),
  ("ty", ["INT"]),
  ("ty", ["BOOL"]),
  ("procdecl", ["DEF", "IDENT", "LPAREN", "maybe_params", "RPAREN", "maybe_ty", "block"]),
  ("maybe_params", []),
  ("maybe_params", ["param", "params"]),
  ("params", []),
  ("params", ["params", "COMMA", "param"]),
  ("maybe_ty", []),
  ("maybe_ty", ["COLON", "ty"]),
  ("param", ["IDENT", "idents", "COLON", "ty"]),
  ("idents", []),
  ("idents", ["idents", "COMMA", "IDENT"]),
  ("block", ["LBRACE", "stmts", "RBRACE"]),
  ("stmts", []),
  ("stmts", ["stmts", "stmt"]),
  ("stmt", ["vardecl"]),
  ("stmt", ["assign"]),
  ("stmt", ["eval"]),
  ("stmt", ["ifelse"]),
  ("stmt", ["while"]),
  ("stmt", ["jump"]),
  ("stmt", ["block"]),
  ("stmt", ["return"]),
  ("assign", ["var", "EQUAL", "expr", "SEMICOLON"]),
  ("vardecl", ["VAR", "varinit", "COLON", "ty", "SEMICOLON"]),
  ("varinit", ["var", "EQUAL", "expr", "varinits"]),
  ("varinits", []),
  ("varinits", ["varinits", "COMMA", "var", "EQUAL", "expr"]),
  ("eval", ["expr", "SEMICOLON"]),
  ("ifelse", ["IF", "LPAREN", "expr", "RPAREN", "block", "ifrest"]),
  ("ifrest", []),
  ("ifrest", ["ELSE", "ifelse"]),
  ("ifrest", ["ELSE", "block"]),
  ("while", ["WHILE", "LPAREN", "expr", "RPAREN", "block"]),
  ("return", ["RETURN", "SEMICOLON"]),
  ("return", ["RETURN", "expr", "SEMICOLON"]),
  ("jump", ["CONTINUE", "SEMICOLON"]),
  ("jump", ["BREAK", "SEMICOLON"])])

abbrev Init := String × Expr

inductive Value
  | word (d : Datum)
  | var (line : Int) (x : String)
  | expr (e : Expr)
  | exprs (es : List Expr)
  | ty (t : Base)
  | names (xs : List String)
  | params (ps : List (String × Base))
  | inits (is : List Init)
  | vardecl (is : List Init) (t : Base)
  | stmt (s : Stmt)
  | stmts (ss : List Stmt)
  | proc (p : Procedure)
  | decls (ds : List Decl)
  | program (p : Program)

def reduceExpr (n : Nat) (parts : List Value) (line : Int) : Value :=
  match n, parts with
  | 1, [.word (.str x)] => .expr (.var line x)
  | 2, [.word (.str x)] => .var line x
  | 3, [.word (.int n)] => .expr (.num line n)
  | 4, [_, v, _] => v
  | 5, _ => .expr (.bool line true)
  | 6, _ => .expr (.bool line false)
  | 25, [_, .expr e] => .expr (.unary line .boolnot e)
  | 26, [_, .expr e] => .expr (.unary line .bitcompl e)
  | 27, [_, .expr e] => .expr (.unary line .uminus e)
  | n, [.expr l, _, .expr r] => .expr (.binary line (Structured.Parser.binaries.getD (n - 7) .plus) l r)
  | _, v :: _ => v
  | _, [] => .word .null

def reduceStmt (n : Nat) (parts : List Value) (line : Int) : Value :=
  match n, parts with
  | 50, [_, .stmts ss, _] => .stmt (.block line ss)
  | 51, _ => .stmts []
  | 52, [.stmts ss, .stmt s] => .stmts (ss ++ [s])
  | 52, [.stmts ss, .stmts more] => .stmts (ss ++ more)
  | 53, [.vardecl is t] => .stmts (is.map fun (x, e) => .vardecl line x e t)
  | 61, [.var l x, _, .expr e, _] => .stmt (.assign line l x e)
  | 62, [_, .inits is, _, .ty t, _] => .vardecl is t
  | 63, [.var _ x, _, .expr e, .inits is] => .inits ((x, e) :: is)
  | 64, _ => .inits []
  | 65, [.inits is, _, .var _ x, _, .expr e] => .inits (is ++ [(x, e)])
  | 66, [.expr e, _] => .stmt (.eval line e)
  | 67, [_, _, .expr c, _, .stmt (.block _ yes), .stmt no] => .stmt (.ifelse line c yes no)
  | 68, _ => .stmt (.block line [])
  | 69, [_, v] | 70, [_, v] => v
  | 71, [_, _, .expr c, _, .stmt (.block _ body)] => .stmt (.while line c body)
  | 72, _ => .stmt (.return line none)
  | 73, [_, .expr e, _] => .stmt (.return line (some e))
  | 74, _ => .stmt (.continue line)
  | 75, _ => .stmt (.break line)
  | _, v :: _ => v
  | _, [] => .word .null

def reduce (n : Nat) (parts : List Value) (line : Int) : Value :=
  if n < 28 then reduceExpr n parts line else if 50 ≤ n then reduceStmt n parts line else
  match n, parts with
  | 28, [.word (.str f), _, .exprs es, _] => .expr (.call line f es)
  | 29, _ | 31, _ => .exprs []
  | 30, [.expr e, .exprs es] => .exprs (e :: es)
  | 32, [.exprs es, _, .expr e] => .exprs (es ++ [e])
  | 33, [.decls ds] => .program ⟨line, ds⟩
  | 34, _ => .decls []
  | 35, [.decls ds, .decls more] => .decls (ds ++ more)
  | 36, [.vardecl is t] => .decls (is.map fun (x, e) => .var line x e t)
  | 37, [.proc p] => .decls [.proc p]
  | 38, _ => .ty .int
  | 39, _ => .ty .bool
  | 40, [_, .word (.str f), _, .params ps, _, .ty t, .stmt (.block _ body)] => .proc ⟨line, f, ps, t, body⟩
  | 41, _ | 43, _ => .params []
  | 42, [.params p, .params ps] => .params (p ++ ps)
  | 44, [.params ps, _, .params p] => .params (ps ++ p)
  | 45, _ => .ty .void
  | 46, [_, v] => v
  | 47, [.word (.str x), .names xs, _, .ty t] => .params ((x :: xs).map fun x => (x, t))
  | 48, _ => .names []
  | 49, [.names xs, _, .word (.str x)] => .names (xs ++ [x])
  | _, v :: _ => v
  | _, [] => .word .null

def language : Language Handler Memory Value SyntaxFault where
  lexer := lexer .procedural
  handling := handle .procedural
  tables := tables
  tracking := false
  ofToken := fun t => .word t.value
  reduce := fun n parts s => (.ok (some (reduce n parts s.line)), s)
  onError := onError id
  blank := .word .null

def program : Value → Except (ReadError SyntaxFault) Program
  | .program p => .ok p
  | _ => .error .none

def read (text : String) (r : Reading) : Except (ReadError SyntaxFault) Program × String × Reading :=
  let result := parse language text r
  (result.1.bind program, result.2)

end Bx.Procedural.Parser
