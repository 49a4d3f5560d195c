import Bx.Datum.Literal
import Bx.Source.Op

namespace Bx.Structured

open Source

inductive Expr
  | var (line : Int) (name : String)
  | num (line : Int) (value : Int)
  | bool (line : Int) (value : Bool)
  | unary (line : Int) (op : Op) (e : Expr)
  | binary (line : Int) (op : Op) (l r : Expr)

inductive Stmt
  | vardecl (line : Int) (name : String) (rhs : Expr)
  | assign (line varLine : Int) (name : String) (rhs : Expr)
  | print (line : Int) (arg : Expr)
  | block (line : Int) (body : List Stmt)
  | ifelse (line : Int) (cond : Expr) (yes : List Stmt) (no : Stmt)
  | while (line : Int) (cond : Expr) (body : List Stmt)
  | break (line : Int)
  | continue (line : Int)

def variableDatum (name : String) : Datum := .dict [("tag", .str "Variable"), ("name", .str name)]

def Expr.toDatum : Expr → Datum
  | .var _ x => variableDatum x
  | .num _ n => .dict [("tag", .str "Number"), ("value", .str (toString n))]
  | .bool _ b => .dict [("tag", .str "Bool"), ("value", .int (if b then 1 else 0))]
  | .unary _ op e => .dict [("tag", .str "OpApp"), ("op", .str op.name), ("args", .list [e.toDatum])]
  | .binary _ op l r => .dict [("tag", .str "OpApp"), ("op", .str op.name), ("args", .list [l.toDatum, r.toDatum])]

def blockDatum (body : List Datum) : Datum := .dict [("tag", .str "Block"), ("stmts", .list body)]

mutual

def Stmt.toDatum : Stmt → Except Datum.Fault Datum
  | .vardecl _ x e => .ok (.dict [("tag", .str "Vardecl"), ("lhs", variableDatum x), ("rhs", e.toDatum)])
  | .assign _ _ x e => .ok (.dict [("tag", .str "Assign"), ("lhs", variableDatum x), ("rhs", e.toDatum)])
  | .print _ e => .ok (.dict [("tag", .str "Print"), ("arg", e.toDatum)])
  | .block _ body => do return blockDatum (← stmtData body)
  | .ifelse _ c yes no => do
    return .dict [("tag", .str "IfElse"), ("condition", c.toDatum), ("block", blockDatum (← stmtData yes)), ("ifrest", ← no.toDatum)]
  | .while _ c body => do
    return .dict [("tag", .str "While"), ("condition", c.toDatum), ("stmts", blockDatum (← stmtData body))]
  | .break _ | .continue _ => .error .method

def stmtData : List Stmt → Except Datum.Fault (List Datum)
  | [] => .ok []
  | s :: rest => do return (← s.toDatum) :: (← stmtData rest)

end

end Bx.Structured
