import Bx.Asm.Basic
import Bx.Tac.Record
import Bx.Text.Numeric

namespace Bx.Asm.Body

open Tac

structure Target where
  aligned : Bool
  /-- With jumps, numbers are printed by a routine of the run time system. -/
  branching : Bool

def Target.plain : Target := ⟨false, false⟩

def Target.aligning : Target := ⟨true, false⟩

def Target.structured : Target := ⟨true, true⟩

def isTemp (d : Datum) : Except Error Bool :=
  match d with
  | .str s => match s.toList with
    | [] => .error (.shape .range)
    | c :: rest => .ok (c == '%' && Text.isNumeral (String.ofList rest))
  | _ => .ok false

abbrev Temps := List String

def place (d : Datum) (temps : Temps) : Except Error (Place × Temps) := do
  if ← isTemp d then
    let t := d.string?.getD ""
    match temps.idxOf? t with
    | some k => return (.slot (k + 1), temps)
    | none => return (.slot (temps.length + 1), temps ++ [t])
  else throw (.badTemp d)

def printLines (target : Target) (x : Place) : List Line :=
  if target.branching then
    [.pushq Reg.rdi, .pushq Reg.rax, .movq x Reg.rdi, .callq "bx_print_int", .popq Reg.rax, .popq Reg.rdi]
  else [.leaFormat Reg.rdi, .movq x Reg.rsi, clear, .callq "printf@PLT"]

def print (target : Target) (r : Record) (temps : Temps) : Except Error (List Line × Temps) := do
  count 1 r.args
  require r.result.isNull
  let (x, temps) ← place (← arg r.args 0) temps
  return (printLines target x, temps)

def branch (b : Branch) (r : Record) (temps : Temps) : Except Error (List Line × Temps) :=
  match b with
  | .jcc c => do
    count 2 r.args
    require r.result.isNull
    let (x, temps) ← place (← arg r.args 0) temps
    return (test c x (← arg r.args 1).text, temps)
  | .jmp => do
    count 1 r.args
    require r.result.isNull
    return ([.jmp (← arg r.args 0).text], temps)
  | .label => do
    count 1 r.args
    require r.result.isNull
    return ([← labelLine (← arg r.args 0)], temps)

def special (target : Target) (r : Record) (temps : Temps) : Except Error (List Line × Temps) := do
  let b ← if target.branching then Branch.ofOpcode? r.opcode else pure none
  match b with
  | some b => branch b r temps
  | none => if r.opcode.is "print" then print target r temps else throw (.unknownOpcode r.opcode)

def instr (target : Target) (r : Record) (temps : Temps) : Except Error (List Line × Temps) := do
  match ← Form.ofOpcode r.opcode with
  | .nop => return ([], temps)
  | .const =>
    let n ← immediate (← oneArg r.args)
    let (d, temps) ← place r.result temps
    return ([.movq (.imm n) d], temps)
  | .copy =>
    let (x, temps) ← place (← oneArg r.args) temps
    let (d, temps) ← place r.result temps
    return (copy x d, temps)
  | .binop op =>
    count 2 r.args
    let (x, temps) ← place (← arg r.args 0) temps
    let (y, temps) ← place (← arg r.args 1) temps
    let (d, temps) ← place r.result temps
    return (binop op x y d, temps)
  | .unop op =>
    let (x, temps) ← place (← oneArg r.args) temps
    let (d, temps) ← place r.result temps
    return (unop op x d, temps)
  | .other _ => special target r temps

def instrs (target : Target) : List Record → Temps → Except Error (List Line × Temps)
  | [], temps => .ok ([], temps)
  | r :: rest, temps => do
    let (ls, temps) ← instr target r temps
    let (more, temps) ← instrs target rest temps
    return (ls ++ more, temps)

def framed (target : Target) (lines : List Line) (temps : Temps) : List Line :=
  let words := if target.aligned then aligned temps.length else temps.length
  enter words ++ lines ++ leave ++ [clear, .retq]

def compile (target : Target) (body : List Record) : Except Error (List Line) := do
  let (lines, temps) ← instrs target body []
  return framed target lines temps

def compileData (target : Target) (body : Datum) : Except Error (List Line) := do
  let (lines, temps) ← (← shape body.members).foldlM (fun (acc, temps) d => do
    let r ← shape (Record.ofFields d)
    let (ls, temps) ← instr target r temps
    return (acc ++ ls, temps)) ([], [])
  return framed target lines temps

def file (lines : List Line) : List String :=
  ["\t.section .rodata", ".lprintfmt:", "\t.string \"%ld\\n\"", "\t.text", "\t.globl main", "main:"] ++
    lines.map fun l => "\t" ++ l.text

end Bx.Asm.Body
