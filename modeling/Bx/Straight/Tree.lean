import Bx.Datum.Literal

namespace Bx.Straight

inductive Expr
  | var (name : Datum)
  | num (value : Datum)
  | unary (op : String) (e : Expr)
  | binary (op : String) (l r : Expr)

/-- The right side of a declaration or an assignment may be missing. -/
inductive Stmt
  | vardecl (lhs : Datum) (rhs : Option Expr)
  | assign (lhs : Datum) (rhs : Option Expr)
  | print (arg : Expr)

def variableDatum (name : Datum) : Datum := .dict [("tag", .str "Variable"), ("name", name)]

def Expr.toDatum : Expr → Datum
  | .var x => variableDatum x
  | .num n => .dict [("tag", .str "Number"), ("value", .str n.text)]
  | .unary op e => .dict [("tag", .str "OpApp"), ("op", .str op), ("args", .list [e.toDatum])]
  | .binary op l r => .dict [("tag", .str "OpApp"), ("op", .str op), ("args", .list [l.toDatum, r.toDatum])]

def Stmt.toDatum : Stmt → Except Datum.Fault Datum
  | .vardecl x (some e) => .ok (.dict [("tag", .str "Vardecl"), ("lhs", variableDatum x), ("rhs", e.toDatum)])
  | .assign x (some e) => .ok (.dict [("tag", .str "Assign"), ("lhs", variableDatum x), ("rhs", e.toDatum)])
  | .print e => .ok (.dict [("tag", .str "Print"), ("arg", e.toDatum)])
  | .vardecl _ none | .assign _ none => .error .method

end Bx.Straight
