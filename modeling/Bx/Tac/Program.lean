import Bx.Tac.Record

namespace Bx.Tac

class Instruction (ι : Type) where
  ofParts : (result opcode args : Datum) → Except LoadError ι
  toDatum : ι → Datum
  literal : ι → String
  text : ι → Except Datum.Fault String

instance : Instruction Instr := ⟨Instr.ofParts, Instr.toDatum, Instr.literal, Instr.text?⟩

instance : Instruction Record := ⟨Record.ofParts, Record.toDatum, Record.literal, fun r => .ok r.text⟩

structure Gvar where
  name : String
  init : Datum

structure Proc (ι : Type) where
  name : String
  params : List Datum
  body : List ι

inductive Decl (ι : Type)
  | gvar (g : Gvar)
  | proc (p : Proc ι)

variable {ι : Type} [Instruction ι]

def loadInstr (d : Datum) : Except LoadError ι := do
  let op ← (d.get "opcode" .null).mapError .shape
  if op.isNull then throw .refused
  let args ← (d.get "args" (.tuple [])).mapError .shape
  let result ← (d.get "result" .null).mapError .shape
  Instruction.ofParts result op args

def loadName (d : Datum) (key : String) : Except LoadError (Option String) := do
  let name ← (d.get key .null).mapError .shape
  if !name.truthy then return none
  match name with
  | .str s => if isGlobalName s then return some s else throw .refused
  | _ => throw .refused

def Gvar.load (d : Datum) : Except LoadError (Option Gvar) := do
  match ← loadName d "var" with
  | none => return none
  | some name => return some ⟨name, ← (d.get "init" (.tuple [])).mapError .shape⟩

def Proc.load (d : Datum) : Except LoadError (Option (Proc ι)) := do
  match ← loadName d "proc" with
  | none => return none
  | some name =>
    let args ← (d.get "args" (.tuple [])).mapError .shape
    let body ← ((d.get "body" (.list [])).bind Datum.members).mapError .shape
    let body ← body.mapM loadInstr
    return some ⟨name, ← args.members.mapError .shape, body⟩

def Decl.load (d : Datum) : Except LoadError (Option (Decl ι)) := do
  match ← Gvar.load d with
  | some g => return some (.gvar g)
  | none => return (← Proc.load d).map .proc

def Gvar.toDatum (g : Gvar) : Datum := .dict [("var", .str g.name), ("init", g.init)]

def Proc.toDatum (p : Proc ι) : Datum :=
  .dict [("proc", .str p.name), ("args", .tuple p.params), ("body", .list (p.body.map Instruction.toDatum))]

def Decl.toDatum : Decl ι → Datum
  | .gvar g => g.toDatum
  | .proc p => p.toDatum

def Gvar.text (g : Gvar) : String := "var " ++ g.name ++ " = " ++ g.init.text ++ ";\n"

def Proc.text (p : Proc ι) : Except Datum.Fault String := do
  let params ← p.params.mapM fun d => match d with
    | .str s => .ok s
    | _ => .error .operator
  let lines ← p.body.mapM Instruction.text
  return "proc " ++ p.name ++ "(" ++ ", ".intercalate params ++ "):\n" ++ String.join (lines.map (· ++ "\n"))

def Decl.text : Decl ι → Except Datum.Fault String
  | .gvar g => .ok g.text
  | .proc p => p.text

def Decl.literal : Decl ι → String
  | .gvar g => "Gvar.load(" ++ g.toDatum.literal ++ ")"
  | .proc p => "Proc.load(" ++ p.toDatum.literal ++ ")"

def Decl.name : Decl ι → String
  | .gvar g => g.name
  | .proc p => p.name

/-- A later declaration takes the place of an earlier one. -/
structure Program (ι : Type) where
  globals : List (String × Datum)
  procs : List (String × Proc ι)

def Program.add (p : Program ι) : Decl ι → Program ι
  | .gvar g => { p with globals := Datum.put g.name g.init p.globals }
  | .proc q => { p with procs := Datum.put q.name q p.procs }

def Program.ofDecls (ds : List (Decl ι)) : Program ι := ds.foldl Program.add ⟨[], []⟩

end Bx.Tac
