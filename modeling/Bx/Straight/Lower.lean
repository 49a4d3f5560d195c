import Bx.Source.Op
import Bx.Straight.Tree
import Bx.Tac.Record

namespace Bx.Straight

open Tac

inductive LowerError
  | shape (f : Datum.Fault)
  | missingExpr (scheme : String)

def LowerError.message : LowerError → String
  | .shape _ => ""
  | .missingExpr s => s ++ "_expr: unknown expr kind: <class 'NoneType'>"

/-- `temps` says which temporary holds a variable. -/
structure Gen where
  next : Nat
  temps : List (Datum × String)
  code : List Record

def Gen.start : Gen := ⟨0, [], []⟩

abbrev Lower := StateT Gen (Except LowerError)

def fresh : Lower String := do
  let g ← get
  set { g with next := g.next + 1 }
  return "%" ++ toString g.next

def lookup (x : Datum) : Lower String := do
  if !x.isKey then throw (.shape .operator)
  match (← get).temps.find? fun e => e.1.same x with
  | some e => return e.2
  | none =>
    let t ← fresh
    modify fun g => { g with temps := g.temps ++ [(x, t)] }
    return t

def emit (op : String) (args : List Datum) (result : Datum) : Lower Unit :=
  modify fun g => { g with code := g.code ++ [.of op args result] }

def opcode (op : String) : Lower String :=
  match (Source.Op.ofName? op).bind Source.Op.opcode? with
  | some s => return s
  | none => throw (.shape (.key (.str op)))

namespace TopDown

def expr (target : String) : Expr → Lower Unit
  | .var x => do emit "copy" [.str (← lookup x)] (.str target)
  | .num n => emit "const" [n] (.str target)
  | .unary op e => do
    let t ← fresh
    expr t e
    emit (← opcode op) [.str t] (.str target)
  | .binary op l r => do
    let t ← fresh
    expr t l
    let u ← fresh
    expr u r
    emit (← opcode op) [.str t, .str u] (.str target)

def assign (x : Datum) (rhs : Option Expr) : Lower Unit := do
  let t ← lookup x
  match rhs with
  | some e => expr t e
  | none => throw (.missingExpr "tmm")

def stmt : Stmt → Lower Unit
  | .vardecl x rhs | .assign x rhs => assign x rhs
  | .print e => do
    let t ← fresh
    expr t e
    emit "print" [.str t] .null

end TopDown

namespace BottomUp

def expr : Expr → Lower String
  | .var x => lookup x
  | .num n => do
    let t ← fresh
    emit "const" [n] (.str t)
    return t
  | .unary op e => do
    let t ← expr e
    let u ← fresh
    emit (← opcode op) [.str t] (.str u)
    return u
  | .binary op l r => do
    let t ← expr l
    let u ← expr r
    let v ← fresh
    emit (← opcode op) [.str t, .str u] (.str v)
    return v

def assign (x : Datum) (rhs : Option Expr) : Lower Unit := do
  let t ← lookup x
  match rhs with
  | some e => do emit "copy" [.str (← expr e)] (.str t)
  | none => throw (.missingExpr "bmm")

def stmt : Stmt → Lower Unit
  | .vardecl x rhs | .assign x rhs => assign x rhs
  | .print e => do emit "print" [.str (← expr e)] .null

end BottomUp

inductive Scheme
  | topDown | bottomUp
  deriving DecidableEq

def Scheme.stmt : Scheme → Stmt → Lower Unit
  | .topDown => TopDown.stmt
  | .bottomUp => BottomUp.stmt

def lower (scheme : Scheme) (program : List Stmt) : Except LowerError (List Record × Nat) := do
  let (_, g) ← (program.forM scheme.stmt).run .start
  return (g.code, g.next)

def mainDatum (code : List Record) : Datum :=
  .list [.dict [("proc", .str "@main"), ("body", .list (code.map Record.toDatum))]]

end Bx.Straight
