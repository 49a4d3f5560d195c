import Bx.FileName
import Bx.Flow.Label
import Bx.Tac.Program

namespace Bx.Flow

open Tac

/-- Lines of one identity are one instruction, wherever they stand. -/
structure Line where
  id : Nat
  instr : Instr

inductive Fault
  | assertion
  | missing (key : Label)
  | emptyBlock
  /-- As `emptyBlock`, met while going through the pairs of a graph. -/
  | emptyInSequence
  | pastEnd
  | frozen
  | unsuited
  | file (e : FileName.Fault)
  | load (e : LoadError)

def isConditional : Instr → Bool
  | .jcc _ _ _ => true
  | _ => false

def isFinal : Instr → Bool
  | .jmp _ | .ret _ => true
  | _ => false

def isEnder (i : Instr) : Bool := isConditional i || isFinal i

def freshId (taken : Nat) (lines : List Line) : Nat := lines.foldl (fun n l => max n (l.id + 1)) taken

def adminLabels (name : String) (fresh : Nat) : Nat → Bool → List Line → List Line × Option Fault
  | _, false, [] => ([], none)
  | _, true, [] => ([], some .pastEnd)
  | k, inRun, l :: rest =>
    let label : Line := ⟨fresh + k, .label ("%.L" ++ name ++ toString k)⟩
    if isConditional l.instr then
      let (out, e) := adminLabels name fresh k true rest
      (l :: out, e)
    else if !inRun then
      let (out, e) := adminLabels name fresh k false rest
      (l :: out, e)
    else
      let (out, e) := adminLabels name fresh (k + 1) false rest
      (if isFinal l.instr then l :: label :: out else label :: l :: out, e)

def addAdminLabels (taken : Nat) (name : String) (lines : List Line) : List Line × Option Fault :=
  adminLabels name (freshId taken lines) 0 false lines

def explicitJumps (fresh : Nat) : List Line → List Line
  | [] => []
  | l :: rest => match l.instr.isLabel || isFinal l.instr, rest with
    | false, ⟨_, .label x⟩ :: _ => l :: ⟨fresh, .jmp x⟩ :: explicitJumps (fresh + 1) rest
    | _, _ => l :: explicitJumps fresh rest

def fallthroughToJump (taken : Nat) (lines : List Line) : List Line := explicitJumps (freshId taken lines) lines

abbrev Renaming := List (String × String)

def Renaming.apply (r : Renaming) (x : String) : String := (r.lookup x).getD x

def numberLabels (fresh : Nat) : Nat → Option String → Renaming → List Line → List Line × Renaming × Option Fault
  | _, _, r, [] => ([], r, none)
  | k, inRun, r, l :: rest => match l.instr, inRun with
    | .label x, some y => numberLabels fresh k (some y) (Datum.put x y r) rest
    | .label x, none =>
      if (r.lookup x).isSome then ([], r, some .assertion) else
      let y := "%.L" ++ toString k
      let (out, r, e) := numberLabels fresh (k + 1) (some y) (Datum.put x y r) rest
      (⟨fresh + k, .label y⟩ :: out, r, e)
    | _, _ =>
      let (out, r, e) := numberLabels fresh k none r rest
      (l :: out, r, e)

def relabel (r : Renaming) : Instr → Option Instr
  | .jmp l => some (.jmp (r.apply l))
  | .phi d sources => some (.frozenPhi d (sources.map fun (l, t) => (r.apply l, t)))
  | .frozenPhi _ _ => none
  | .jcc c x l => some (.jcc c x (r.apply l))
  | .binop op d x y => some (.binop op d x (r.apply y))
  | .param n x => some (.param n (r.apply x))
  | i => some i

def relabelAll (r : Renaming) : List Line → List Line × Option Fault
  | [] => ([], none)
  | l :: rest => match relabel r l.instr with
    | none => (l :: rest, some .frozen)
    | some i =>
      let (out, e) := relabelAll r rest
      (⟨l.id, i⟩ :: out, e)

def normalizeLabels (taken : Nat) (lines : List Line) : List Line × Option Fault :=
  match numberLabels (freshId taken lines) 0 none [] lines with
  | (out, _, some e) => (out, some e)
  | (out, r, none) => relabelAll r out

def canonical (taken : Nat) (name : String) (lines : List Line) : List Line × Option Fault :=
  match addAdminLabels taken name lines with
  | (out, some e) => (out, some e)
  | (out, none) => normalizeLabels taken (fallthroughToJump taken out)

end Bx.Flow
