import Bx.Structured.Tree
import Bx.Tac.Record

namespace Bx.Structured

open Source Tac

inductive LowerError
  | noOpcode (op : Op)
  | notCondition (kind : String)
  | outsideLoop

def LowerError.message : LowerError → String
  | .noOpcode op => op.name
  | .notCondition k => "tmm_bool_expr: unknown stmt kind: <class 'bx_ast." ++ k ++ "'>"
  | .outsideLoop => ""

structure Gen where
  next : Nat
  nextLabel : Nat
  temps : List (String × String)
  code : List Record

def Gen.start : Gen := ⟨0, 0, [], []⟩

abbrev Lower := StateT Gen (Except LowerError)

def fresh : Lower String := do
  let g ← get
  set { g with next := g.next + 1 }
  return "%" ++ toString g.next

def freshLabel : Lower String := do
  let g ← get
  set { g with nextLabel := g.nextLabel + 1 }
  return ".L" ++ toString g.nextLabel

def lookup (x : String) : Lower String := do
  match (← get).temps.lookup x with
  | some t => return t
  | none =>
    let t ← fresh
    modify fun g => { g with temps := g.temps ++ [(x, t)] }
    return t

def emit (op : String) (args : List Datum) (result : Datum) : Lower Unit :=
  modify fun g => { g with code := g.code ++ [.of op args result] }

def emitLabel (l : String) : Lower Unit := emit "label" [.str l] .null

def emitJump (l : String) : Lower Unit := emit "jmp" [.str l] .null

def opcode (op : Op) : Lower String :=
  match op.opcode? with
  | some s => return s
  | none => throw (.noOpcode op)

def intExpr (target : String) : Expr → Lower Unit
  | .var _ x => do emit "copy" [.str (← lookup x)] (.str target)
  | .num _ n => emit "const" [.int n] (.str target)
  | .bool _ b => emit "const" [.int (if b then 1 else 0)] (.str target)
  | .unary _ op e => do
    let t ← fresh
    intExpr t e
    emit (← opcode op) [.str t] (.str target)
  | .binary _ op l r => do
    let t ← fresh
    intExpr t l
    let u ← fresh
    intExpr u r
    emit (← opcode op) [.str t, .str u] (.str target)

def comparison? : Op → Option String
  | .booleq => some "jz"
  | .boolneq => some "jnz"
  | .less => some "jl"
  | .lesseq => some "jle"
  | .greater => some "jg"
  | .greatereq => some "jge"
  | _ => none

def compare (jump : String) (l r : Expr) (yes no : String) : Lower Unit := do
  let t ← fresh
  let u ← fresh
  intExpr t l
  intExpr u r
  emit "sub" [.str t, .str u] (.str t)
  emit jump [.str t, .str yes] .null
  emitJump no

def boolExpr (yes no : String) : Expr → Lower Unit
  | .bool _ b => emitJump (if b then yes else no)
  | .unary _ .boolnot e => boolExpr no yes e
  | .unary _ _ _ => pure ()
  | .binary _ .booland l r => do
    let between ← freshLabel
    boolExpr between yes l
    emitLabel between
    boolExpr between yes r
  | .binary _ .boolor l r => do
    let between ← freshLabel
    boolExpr yes between l
    emitLabel between
    boolExpr yes no r
  | .binary _ op l r => match comparison? op with
    | some jump => compare jump l r yes no
    | none => pure ()
  | .var _ _ => throw (.notCondition "Variable")
  | .num _ _ => throw (.notCondition "Number")

structure Loop where
  head : String
  exit : String

mutual

def stmt (loop : Option Loop) : Stmt → Lower Unit
  | .vardecl _ x e | .assign _ _ x e => do intExpr (← lookup x) e
  | .print _ e => do
    let t ← fresh
    intExpr t e
    emit "print" [.str t] .null
  | .block _ body => stmts loop body
  | .ifelse _ c yes no => do
    let onYes ← freshLabel
    let onNo ← freshLabel
    let done ← freshLabel
    boolExpr onYes onNo c
    emitLabel onYes
    stmts loop yes
    emitJump done
    emitLabel onNo
    stmt loop no
    emitLabel done
  | .while _ c body => do
    let head ← freshLabel
    let inside ← freshLabel
    let exit ← freshLabel
    emitLabel head
    boolExpr inside exit c
    emitLabel inside
    stmts (some ⟨head, exit⟩) body
    emitJump head
    emitLabel exit
  | .break _ => match loop with
    | some l => emitJump l.exit
    | none => throw .outsideLoop
  | .continue _ => match loop with
    | some l => emitJump l.head
    | none => throw .outsideLoop

def stmts (loop : Option Loop) : List Stmt → Lower Unit
  | [] => pure ()
  | s :: rest => do
    stmt loop s
    stmts loop rest

end

def lower (program : List Stmt) : Except LowerError (List Record) := do
  let (_, g) ← (stmts none program).run .start
  return g.code

end Bx.Structured
