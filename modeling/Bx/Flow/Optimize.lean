import Bx.Flow.Copies
import Bx.Flow.DeadStores
import Bx.Flow.Ssa

namespace Bx.Flow

open Tac

def linesOf (body : List Instr) : List Line := body.zipIdx.map fun (i, k) => ⟨k, i⟩

structure Routine where
  proc : Proc Instr
  graph : Graph

def inferProc (p : Proc Instr) : Except Fault Routine := do
  let (_, r) := infer p.body.length p.name (linesOf p.body)
  return ⟨p, ← r⟩

def ssaProc (u : Routine) : Except Fault Routine :=
  match ssa (freshId u.proc.body.length u.graph.lines) u.proc.params u.graph with
  | (g, none) => .ok { u with graph := g }
  | (_, some e) => .error e

def linearizeProc (u : Routine) : Except Fault (Proc Instr) := do
  let lines ← linearize (freshId u.proc.body.length u.graph.lines) u.graph
  return { u.proc with body := lines.map (·.instr) }

def optimize (globals : List String) (procs : List (Proc Instr)) : Except Fault (List (Proc Instr)) := do
  let us ← procs.mapM inferProc
  let us ← us.mapM fun u => return { u with graph := ← dropDeadStores globals u.graph }
  let us ← us.mapM ssaProc
  let us := us.map fun u => { u with graph := propagateCopies globals u.graph }
  us.mapM linearizeProc

end Bx.Flow
