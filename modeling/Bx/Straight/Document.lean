import Bx.Source.Op
import Bx.Straight.Load
import Bx.Tac.Record

namespace Bx.Straight.Document

open Tac

inductive Error
  | shape (f : Datum.Fault)
  /-- The tag of the expression was printed. -/
  | unrecognized (tag : Datum)

def Error.notice : Error → String
  | .unrecognized t => "Unrecognized <expr> form: " ++ t.text ++ "\n"
  | .shape _ => ""

/-- Registers of variables that no statement declares are looked up in `given`. Code goes behind `before`. -/
structure Gen where
  registers : List (Datum × Datum) := []
  next : Datum := .int 0
  code : List Record := []
  given : Datum := .dict []
  before : Datum := .list []

abbrev Lower := StateT Gen (Except Error)

def lift {α : Type} (r : Except Datum.Fault α) : Lower α :=
  match r with
  | .ok a => return a
  | .error e => throw (.shape e)

def follow (d : Datum) (path : List Int) : Lower Datum := lift (Load.at? d path)

def register (r : Datum) : Datum := .str ("%" ++ r.text)

def emit (op : String) (args : List Datum) (result : Datum) : Lower Unit :=
  modify fun g => { g with code := g.code ++ [.of op args result] }

def fresh : Lower Datum := do
  let r := (← get).next
  match r.number? with
  | some n =>
    modify fun g => { g with next := .int (n + 1) }
    return r
  | none => throw (.shape .operator)

def compute (parts : Lower (String × List Datum)) : Lower Datum := do
  match (← get).before with
  | .list _ =>
    let (op, args) ← parts
    emit op args (register (← get).next)
    fresh
  | _ => throw (.shape .method)

def key (d : Datum) : Lower Unit := if d.isKey then pure () else throw (.shape .operator)

def lookup (x : Datum) : Lower Datum := do
  let g ← get
  match g.registers.find? fun e => e.1.same x with
  | some e => return e.2
  | none => lift (g.given.index x)

def opcode (op : Datum) : Lower String := do
  key op
  match op.string?.bind fun s => (Source.Op.ofName? s).bind Source.Op.opcode? with
  | some s => return s
  | none => throw (.shape (.key op))

def expr : Nat → Datum → Lower Datum
  | 0, _ => throw (.shape .operator)
  | n + 1, d => do
    let tag ← follow d [0]
    if tag.is "<var>" then lookup (← follow d [1])
    else if tag.is "<number>" then compute (return ("const", [← follow d [1]]))
    else if tag.is "<unop>" then
      let op ← follow d [1, 0, 0]
      let r ← expr n (← follow d [2, 0])
      compute (return (← opcode op, [register r]))
    else if tag.is "<binop>" then
      let l ← expr n (← follow d [1, 0])
      let r ← expr n (← follow d [3, 0])
      let op ← follow d [2, 0, 0]
      compute (return (← opcode op, [register l, register r]))
    else throw (.unrecognized tag)

def value (d : Datum) : Lower Datum := expr (d.depth + 1) d

def declare (x : Datum) (r : Datum) : Lower Unit := do
  key x
  modify fun g =>
    let known := g.registers.any fun e => e.1.same x
    { g with registers := if known then g.registers.map fun e => if e.1.same x then (e.1, r) else e
      else g.registers ++ [(x, r)] }

def stmt (d : Datum) : Lower Unit := do
  let tag ← follow d [0, 0]
  if tag.is "<assign>" then
    let x ← follow d [0, 1, 0, 1]
    let r ← value (← follow d [0, 2, 0])
    emit "copy" [register r] (register (← lookup x))
  if tag.is "<eval>" then
    let r ← value (← follow d [0, 1, 0, 2, 0, 0])
    emit "print" [register r] .null
  if tag.is "<vardecl>" then
    let zero ← compute (return ("const", [.int 0]))
    let x ← follow d [0, 1, 0]
    let _ ← follow d [0, 2, 0]
    let r ← fresh
    declare x r
    emit "copy" [register zero] (register r)

def program (d : Datum) : Except Error (List Record) := do
  let act : Lower Unit := do
    let ast ← lift (d.entry "ast")
    let body ← follow ast [0, 0, 0, 4, 0, 1]
    (← lift body.members).forM stmt
  let (_, g) ← act.run {}
  return g.code

def partNames? (kind : String) : Option (List String) :=
  match kind with
  | "Expr" => some []
  | "Variable" => some ["name", "value", "register"]
  | "Number" => some ["number"]
  | "UnopApp" => some ["op", "arg"]
  | "BinopApp" => some ["arg1", "op", "arg2"]
  | _ => none

def nodeFields? (kind : String) (parts : Datum) : Option (List (String × Datum)) := do
  let names ← partNames? kind
  let parts ← parts.members.toOption
  if names.length = parts.length then some (names.zip parts) else none

def Gen.body (g : Gen) : Datum :=
  match g.before with
  | .list xs => .list (xs ++ g.code.map Record.toDatum)
  | d => d

end Bx.Straight.Document
