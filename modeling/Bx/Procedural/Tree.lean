import Bx.Datum.Literal
import Bx.Source.Op

namespace Bx.Procedural

open Source

inductive Base
  | int | bool | void
  deriving DecidableEq

def Base.name : Base → String
  | .int => "int"
  | .bool => "bool"
  | .void => "void"

inductive Expr
  | var (line : Int) (name : String)
  | num (line : Int) (value : Int)
  | bool (line : Int) (value : Bool)
  | unary (line : Int) (op : Op) (e : Expr)
  | binary (line : Int) (op : Op) (l r : Expr)
  | call (line : Int) (name : String) (args : List Expr)

inductive Stmt
  | vardecl (line : Int) (name : String) (rhs : Expr) (ty : Base)
  | assign (line varLine : Int) (name : String) (rhs : Expr)
  | eval (line : Int) (e : Expr)
  | block (line : Int) (body : List Stmt)
  | ifelse (line : Int) (cond : Expr) (yes : List Stmt) (no : Stmt)
  | while (line : Int) (cond : Expr) (body : List Stmt)
  | break (line : Int)
  | continue (line : Int)
  | return (line : Int) (e : Option Expr)

structure Procedure where
  line : Int
  name : String
  params : List (String × Base)
  ret : Base
  body : List Stmt

inductive Decl
  | var (line : Int) (name : String) (rhs : Expr) (ty : Base)
  | proc (p : Procedure)

structure Program where
  line : Int
  decls : List Decl

def variableDatum (name : String) : Datum := .dict [("tag", .str "Variable"), ("name", .str name)]

mutual

def Expr.toDatum : Expr → Datum
  | .var _ x => variableDatum x
  | .num _ n => .dict [("tag", .str "Number"), ("value", .str (toString n))]
  | .bool _ b => .dict [("tag", .str "Bool"), ("value", .int (if b then 1 else 0))]
  | .unary _ op e => .dict [("tag", .str "OpApp"), ("op", .str op.name), ("args", .list [e.toDatum])]
  | .binary _ op l r => .dict [("tag", .str "OpApp"), ("op", .str op.name), ("args", .list [l.toDatum, r.toDatum])]
  | .call _ f args => .dict [("tag", .str "Call"), ("name", .str f), ("args", .list (exprData args))]

def exprData : List Expr → List Datum
  | [] => []
  | e :: rest => e.toDatum :: exprData rest

end

def vardeclDatum (x : String) (e : Expr) : Datum :=
  .dict [("tag", .str "Vardecl"), ("lhs", variableDatum x), ("rhs", e.toDatum)]

def blockDatum (body : List Datum) : Datum := .dict [("tag", .str "Block"), ("stmts", .list body)]

mutual

def Stmt.toDatum : Stmt → Except Datum.Fault Datum
  | .vardecl _ x e _ => .ok (vardeclDatum x e)
  | .assign _ _ x e => .ok (.dict [("tag", .str "Assign"), ("lhs", variableDatum x), ("rhs", e.toDatum)])
  | .eval _ e => .ok (.dict [("tag", .str "Eval"), ("expr", e.toDatum)])
  | .block _ body => do return blockDatum (← stmtData body)
  | .ifelse _ c yes no => do
    return .dict [("tag", .str "IfElse"), ("condition", c.toDatum), ("block", blockDatum (← stmtData yes)), ("ifrest", ← no.toDatum)]
  | .while _ c body => do
    return .dict [("tag", .str "While"), ("condition", c.toDatum), ("stmts", blockDatum (← stmtData body))]
  | .break _ => .ok (.dict [("tag", .str "Break")])
  | .continue _ => .ok (.dict [("tag", .str "Continue")])
  | .return _ (some e) => .ok (.dict [("tag", .str "Return"), ("expr", e.toDatum)])
  | .return _ none => .error .method

def stmtData : List Stmt → Except Datum.Fault (List Datum)
  | [] => .ok []
  | s :: rest => do return (← s.toDatum) :: (← stmtData rest)

end

def paramDatum (p : String × Base) : Datum :=
  .dict [("tag", .str "Param"), ("name", .str p.1), ("type", .str p.2.name)]

def Decl.toDatum : Decl → Except Datum.Fault Datum
  | .var _ x e _ => .ok (vardeclDatum x e)
  | .proc p => do
    return .dict [("tag", .str "Procdecl"), ("name", .str p.name), ("params", .list (p.params.map paramDatum)),
      ("ret_type", .str p.ret.name), ("block", blockDatum (← stmtData p.body))]

end Bx.Procedural
