import Bx.Tac.Operand
import Bx.Word

namespace Bx.Tac

/-- A numeral: a number, or a truth value in the place of one. -/
inductive Numeral
  | int (n : Int)
  | bool (b : Bool)
  deriving DecidableEq

def Numeral.toDatum : Numeral → Datum
  | .int n => .int n
  | .bool b => .bool b

def Numeral.value : Numeral → Int
  | .int n => n
  | .bool b => if b then 1 else 0

/-- A `frozenPhi` has lost its table of sources: it can be kept and shown as data only. -/
inductive Instr
  | nop
  | label (l : String)
  | jmp (l : String)
  | jcc (c : Word.Cond) (x l : String)
  | binop (op : Word.Binop) (dest x y : String)
  | unop (op : Word.Unop) (dest x : String)
  | copy (dest x : String)
  | const (dest : String) (n : Numeral)
  | param (n : Numeral) (x : String)
  | call (dest : Option String) (f : String) (n : Numeral)
  | ret (x : Option String)
  | phi (dest : String) (sources : List (String × String))
  | frozenPhi (dest : String) (sources : List (String × String))
  deriving DecidableEq

inductive LoadError
  | shape (f : Datum.Fault)
  | refused
  | badOpcode (d : Datum)
  | badOperand (opcode place : String) (d : Datum)

def LoadError.message : LoadError → String
  | .badOpcode d => "bad tac.Instr opcode: " ++ d.text
  | .badOperand op place d => "bad tac.Instr/" ++ op ++ " " ++ place ++ ": " ++ d.text
  | .shape _ | .refused => ""

namespace Instr

def opcode : Instr → String
  | .nop => "nop"
  | .label _ => "label"
  | .jmp _ => "jmp"
  | .jcc c _ _ => c.name
  | .binop op _ _ _ => op.name
  | .unop op _ _ => op.name
  | .copy _ _ => "copy"
  | .const _ _ => "const"
  | .param _ _ => "param"
  | .call _ _ _ => "call"
  | .ret _ => "ret"
  | .phi _ _ | .frozenPhi _ _ => "phi"

def dest : Instr → Option String
  | .binop _ d _ _ | .unop _ d _ | .copy d _ | .const d _ | .phi d _ | .frozenPhi d _ => some d
  | .call d _ _ => d
  | .nop | .label _ | .jmp _ | .jcc _ _ _ | .param _ _ | .ret _ => none

def isFrozen : Instr → Bool
  | .frozenPhi _ _ => true
  | _ => false

def isLabel : Instr → Bool
  | .label _ => true
  | _ => false

def isPhi : Instr → Bool
  | .phi _ _ | .frozenPhi _ _ => true
  | _ => false

def optional : Option String → Datum
  | some s => .str s
  | none => .null

def operands : Instr → Datum × Datum
  | .nop => (.null, .null)
  | .label l | .jmp l => (.str l, .null)
  | .jcc _ x l => (.str x, .str l)
  | .binop _ _ x y => (.str x, .str y)
  | .unop _ _ x | .copy _ x => (.str x, .null)
  | .const _ n => (n.toDatum, .null)
  | .param n x => (n.toDatum, .str x)
  | .call _ f n => (.str f, n.toDatum)
  | .ret x => (optional x, .null)
  | .phi _ sources => (.dict (sources.map fun (l, t) => (l, .str t)), .null)
  | .frozenPhi _ sources => (.tuple (sources.map fun (l, t) => .tuple [.str l, .str t]), .null)

def toDatum (i : Instr) : Datum :=
  .dict [("opcode", .str i.opcode), ("args", .tuple [i.operands.1, i.operands.2]), ("result", optional i.dest)]

def literal (i : Instr) : String := "Instr.load(" ++ i.toDatum.literal ++ ")"

def text (i : Instr) : String :=
  match i with
  | .label l => l ++ ":"
  | .phi d sources | .frozenPhi d sources =>
    "  " ++ d ++ " = phi(" ++ ", ".intercalate (sources.map fun (l, t) => l ++ ":" ++ t) ++ ");"
  | i =>
    let (a, b) := i.operands
    let head := match i.dest with
      | some d => "  " ++ d ++ " = " ++ i.opcode
      | none => "  " ++ i.opcode
    let args := if a.isNull then "" else if b.isNull then " " ++ a.text else " " ++ a.text ++ ", " ++ b.text
    head ++ args ++ ";"

def text? (i : Instr) : Except Datum.Fault String := if i.isFrozen then .error .method else .ok i.text

def kinds? (op : String) : Option (Kind × Kind × Kind) :=
  match op with
  | "nop" => some (.nothing, .nothing, .nothing)
  | "jmp" | "label" => some (.nothing, .label, .nothing)
  | "const" => some (.var, .int, .nothing)
  | "copy" => some (.var, .var, .nothing)
  | "param" => some (.nothing, .int, .var)
  | "call" => some (.optional, .global, .int)
  | "ret" => some (.nothing, .optional, .nothing)
  | "phi" => some (.var, .phi, .nothing)
  | op =>
    if (Word.Cond.ofName? op).isSome then some (.nothing, .var, .label)
    else if (Word.Binop.ofName? op).isSome then some (.var, .var, .var)
    else if (Word.Unop.ofName? op).isSome then some (.var, .var, .nothing)
    else none

def numeral : Datum → Numeral
  | .bool b => .bool b
  | d => .int (d.number?.getD 0)

def name (d : Datum) : String := d.string?.getD ""

def assemble (op : String) (dest a b : Datum) : Instr :=
  match op with
  | "nop" => .nop
  | "jmp" => .jmp (name a)
  | "label" => .label (name a)
  | "const" => .const (name dest) (numeral a)
  | "copy" => .copy (name dest) (name a)
  | "param" => .param (numeral a) (name b)
  | "call" => .call dest.string? (name a) (numeral b)
  | "ret" => .ret a.string?
  | "phi" => .phi (name dest) (match a with
    | .dict fields => fields.map fun (l, t) => (l, name t)
    | _ => [])
  | op => match Word.Cond.ofName? op, Word.Binop.ofName? op, Word.Unop.ofName? op with
    | some c, _, _ => .jcc c (name a) (name b)
    | _, some o, _ => .binop o (name dest) (name a) (name b)
    | _, _, some o => .unop o (name dest) (name a)
    | _, _, _ => .nop

def argument (args : Datum) (k : Nat) : Except Datum.Fault Datum := do
  if (← args.size) ≤ k then return .null else args.item k

def ofParts (dest op args : Datum) : Except LoadError Instr := do
  let a ← (argument args 0).mapError .shape
  let b ← (argument args 1).mapError .shape
  if !op.isKey then throw (.shape .operator)
  match op.string?.bind fun s => (kinds? s).map fun ks => (s, ks) with
  | none => throw (.badOpcode op)
  | some (s, k, k₁, k₂) =>
    if !k.accepts dest then throw (.badOperand s "destination" dest)
    if !k₁.accepts a then throw (.badOperand s "arg1" a)
    if !k₂.accepts b then throw (.badOperand s "arg2" b)
    return assemble s dest a b

def defs (i : Instr) : List String := i.dest.toList.filter isTempName

/-- In a phi only along the edge from a label. -/
inductive Use
  | plain (x : String)
  | along (l x : String)
  deriving DecidableEq

def Use.temp : Use → String
  | .plain x => x
  | .along _ x => x

def names : Instr → List String
  | .nop | .const _ _ | .phi _ _ | .frozenPhi _ _ => []
  | .label l | .jmp l => [l]
  | .jcc _ x l => [x, l]
  | .binop _ _ x y => [x, y]
  | .unop _ _ x | .copy _ x | .param _ x => [x]
  | .call _ f _ => [f]
  | .ret x => x.toList

def uses (i : Instr) : List Use :=
  match i with
  | .phi _ sources => (sources.filter fun s => isTempName s.2).map fun (l, t) => .along l t
  | i => (i.names.filter isTempName).map .plain

def reads : Instr → List String
  | .nop | .label _ | .jmp _ | .const _ _ | .call _ _ _ | .frozenPhi _ _ => []
  | .jcc _ x _ | .unop _ _ x | .copy _ x | .param _ x => [x]
  | .binop _ _ x y => [x, y]
  | .ret x => x.toList
  | .phi _ sources => sources.map (·.2)

def writes (i : Instr) : List String := i.dest.toList

def jumpDest : Instr → Datum
  | .jmp l => .str l
  | .ret _ => .null
  | i => i.operands.2

def renameReads (f : String → String) : Instr → Instr
  | .jcc c x l => .jcc c (f x) l
  | .binop op d x y => .binop op d (f x) (f y)
  | .unop op d x => .unop op d (f x)
  | .copy d x => .copy d (f x)
  | .param n x => .param n (f x)
  | .ret x => .ret (x.map f)
  | i => i

def renameDest (f : String → String) : Instr → Instr
  | .binop op d x y => .binop op (f d) x y
  | .unop op d x => .unop op (f d) x
  | .copy d x => .copy (f d) x
  | .const d n => .const (f d) n
  | .call d h n => .call (d.map f) h n
  | .phi d sources => .phi (f d) sources
  | .frozenPhi d sources => .frozenPhi (f d) sources
  | i => i

end Instr

end Bx.Tac
