import Bx.Asm.Basic
import Bx.Tac.Record

namespace Bx.Asm.Procedure

open Tac

structure Frame where
  temps : List (Datum × Nat)
  size : Nat

def Frame.empty : Frame := ⟨[], 0⟩

/-- Conditional jumps test `left`, the left operand of the last binary operation; a call keeps its result only once something
has been written. -/
structure State where
  frame : Frame
  left : Option Place
  written : Bool

def argumentRegs : List Reg := [.rdi, .rsi, .rdx, .rcx, .r8, .r9]

def slot (d : Datum) (f : Frame) : Except Error (Place × Frame) :=
  if !d.isKey then .error (.shape .operator) else
  match f.temps.find? fun e => e.1.same d with
  | some e => .ok (.slot e.2, f)
  | none => .ok (.slot (f.size + 1), ⟨f.temps ++ [(d, f.size + 1)], f.size + 1⟩)

def place (globals args d : Datum) (f : Frame) : Except Error (Place × Frame) := do
  if ← shape (globals.contains d) then return (.global (← shape d.rest).text, f)
  if ← shape (args.contains d) then
    let k ← shape (args.find d)
    if argumentRegs.length ≤ k then return (.passed (k - argumentRegs.length), f)
  slot d f

abbrev Emit := StateT State (Except Error)

variable (globals : Datum)

def locate (d args : Datum) : Emit Place := do
  let s ← get
  let (p, f) ← place globals args d s.frame
  set { s with frame := f }
  return p

def wrote : Emit Unit := modify fun s => { s with written := true }

def entry (args : Datum) (count : Nat) : Nat → List Reg → Emit (List Line)
  | _, [] => return []
  | k, r :: rest => do
    if count ≤ k then return []
    let p ← locate globals (← arg args k) args
    wrote
    return .movq r p :: (← entry args count (k + 1) rest)

def param (args : Datum) : Emit (List Line) := do
  let x ← locate globals (← arg args 1) args
  match (← arg args 0).number? with
  | none => throw (.shape .operator)
  | some n =>
    if n ≤ 6 then
      match (Datum.position? argumentRegs.length (n - 1)).bind (argumentRegs[·]?) with
      | some r => do
        wrote
        return [.movq x r]
      | none => throw (.shape .range)
    else return [.pushq x]

def call (r : Record) : Emit (List Line) := do
  let f ← shape (← arg r.args 0).rest
  if !(← get).written then throw .unset
  let d ← locate globals r.result r.args
  return [.callq f.text, .movq Reg.rax d]

def exitLabel (name : String) : String := ".Lend_" ++ name

def ret (name : String) (args : Datum) : Emit (List Line) :=
  match args with
  | .list [] => return [clear, .jmp (exitLabel name)]
  | args => do
    let x ← locate globals (← arg args 0) args
    return [.movq x Reg.rax, .jmp (exitLabel name)]

def branch (b : Branch) (r : Record) : Emit (List Line) :=
  match b with
  | .jcc c => do
    count 2 r.args
    require r.result.isNull
    let _ ← locate globals (← arg r.args 0) r.args
    let l ← arg r.args 1
    match (← get).left with
    | some x => return test c x l.text
    | none => throw .unset
  | .jmp => do
    count 1 r.args
    require r.result.isNull
    return [.jmp (← arg r.args 0).text]
  | .label => do
    count 1 r.args
    require r.result.isNull
    return [← labelLine (← arg r.args 0)]

def special (name : String) (r : Record) : Emit (List Line) := do
  match ← Branch.ofOpcode? r.opcode with
  | some b => branch globals b r
  | none =>
    if r.opcode.is "param" then param globals r.args
    else if r.opcode.is "call" then call globals r
    else if r.opcode.is "ret" then ret globals name r.args
    else throw (.unknownOpcode r.opcode)

def instr (name : String) (r : Record) : Emit (List Line) := do
  match ← Form.ofOpcode r.opcode with
  | .nop => return []
  | .const =>
    let n ← immediate (← oneArg r.args)
    let d ← locate globals r.result r.args
    wrote
    return [.movq (.imm n) d]
  | .copy =>
    let x ← locate globals (← oneArg r.args) r.args
    let d ← locate globals r.result r.args
    wrote
    return copy x d
  | .binop op =>
    count 2 r.args
    let x ← locate globals (← arg r.args 0) r.args
    modify fun s => { s with left := some x }
    let y ← locate globals (← arg r.args 1) r.args
    let d ← locate globals r.result r.args
    wrote
    return binop op x y d
  | .unop op =>
    let x ← locate globals (← oneArg r.args) r.args
    let d ← locate globals r.result r.args
    wrote
    return unop op x d
  | .other _ => special globals name r

def instrs (name : String) : List Record → Emit (List Line)
  | [] => return []
  | r :: rest => do return (← instr globals name r) ++ (← instrs name rest)

def heading (name : String) : List String := ["\t.globl " ++ name, "\t.text"]

def framed (name : String) (words : Nat) (lines : List Line) : List Line :=
  [.label name] ++ enter words ++ lines ++ (if name == "main" then [clear] else []) ++
    [.label (exitLabel name)] ++ leave ++ [.retq, .blank]

structure Compiled where
  lines : List Line
  frame : Frame

def finish (name : String) (lines : List Line) (s : State) : Compiled :=
  let words := aligned s.frame.temps.length
  ⟨framed name words lines, ⟨s.frame.temps, words⟩⟩

def start (f : Frame) : State := ⟨f, none, false⟩

def begin (args : Datum) : Emit (List Line) := do entry globals args (← shape args.size) 0 argumentRegs

def compile (name : String) (args : Datum) (body : List Record) (f : Frame) : Except Error Compiled := do
  let act : Emit (List Line) := do return (← begin globals args) ++ (← instrs globals name body)
  let (lines, s) ← act.run (start f)
  return finish name lines s

def compileData (name : String) (args body : Datum) (f : Frame) : Except Error Compiled := do
  let act : Emit (List Line) := do
    let lines ← begin globals args
    (← shape body.members).foldlM (fun acc d => do
      let r ← shape (Record.ofFields d)
      return acc ++ (← instr globals name r)) lines
  let (lines, s) ← act.run (start f)
  return finish name lines s

def text (name : String) (c : Compiled) : List String := heading name ++ c.lines.map Line.indented

def globalText (name : String) (value : Datum) : List String :=
  ["\t.globl " ++ name, "\t.data", name ++ ": .quad " ++ value.text]

end Bx.Asm.Procedure
