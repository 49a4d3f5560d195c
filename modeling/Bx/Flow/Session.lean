import Bx.Flow.Optimize
import Bx.Tac.Run.Checked

namespace Bx.Flow

open Tac

structure Session where
  globals : Fields
  procs : List (String × Proc Instr)
  name : String
  params : List Datum
  lines : List Line
  graph : Option Graph

namespace Session

def start? (p : Program Instr) (name : Option String) : Option Session := do
  let q ← match name with
    | some n => p.procs.lookup n
    | none => p.procs.head?.map (·.2)
  return ⟨p.globals, p.procs, q.name, q.params, linesOf q.body, none⟩

abbrev Work := ExceptT Fault (StateM Session)

def update (source : List Line) (lines : List Line) : List Line :=
  lines.map fun l => (source.find? fun m => m.id == l.id).getD l

def setLines (lines : List Line) : Work Unit := modify fun s => { s with
  lines := lines
  graph := s.graph.map fun g => { g with blocks := g.blocks.map fun (x, b) =>
    (x, { b with body := update lines b.body, jumps := update lines b.jumps }) } }

def setGraph (g : Graph) : Work Unit := modify fun s => { s with graph := some g, lines := update g.lines s.lines }

def graphOf : Work Graph := do
  match (← get).graph with
  | some g => return g
  | none => throw (.missing (.name "cfg"))

def taken (s : Session) : Nat := freshId 0 (s.lines ++ s.graph.elim [] Graph.lines)

def finish (e : Option Fault) : Work Unit :=
  match e with
  | some e => throw e
  | none => pure ()

def addAdminLabels : Work Unit := do
  let s ← get
  let (lines, e) := Flow.addAdminLabels s.taken (dropName s.name) s.lines
  setLines lines
  finish e
where
  dropName (n : String) : String := String.ofList (n.toList.drop 1)

def fallthroughToJump : Work Unit := do
  let s ← get
  setLines (Flow.fallthroughToJump s.taken s.lines)

def normalizeLabels : Work Unit := do
  let s ← get
  let (lines, e) := Flow.normalizeLabels s.taken s.lines
  setLines lines
  finish e

def infer : Work Unit := do
  let s ← get
  let (lines, r) := Flow.infer s.taken s.name s.lines
  setLines lines
  match r with
  | .ok g => setGraph g
  | .error e => throw e

def linearize : Work Unit := do
  let g ← graphOf
  match Flow.linearize (← get).taken g with
  | .ok lines => setLines lines
  | .error e => throw e

def ssa : Work Unit := do
  let g ← graphOf
  let s ← get
  let (g, e) := Flow.ssa s.taken s.params g
  setGraph g
  finish e

def edit (act : Graph.Edit Unit) : Work Unit := do
  let (r, g) := act.run.run (← graphOf)
  setGraph g
  match r with
  | .ok _ => pure ()
  | .error e => throw e

def label (g : Graph) (d : Datum) : Except Fault Label :=
  match (g.preds.map (·.1)).find? (fun l => l.toDatum.same d) <|> Label.ofDatum? d with
  | some l => .ok l
  | none => .error .unsuited

def onEdge (act : Label → Label → Graph.Edit Unit) (a b : Datum) : Work Unit := edit do
  let g ← get
  let a ← label g a
  let _ ← g.successors a
  act a (← label g b)

def addBlock (d : Datum) (body jumps : List Instr) : Work Unit := do
  let _ ← graphOf
  let n := (← get).taken
  let line := fun (i, k) => (⟨n + k, i⟩ : Line)
  edit do Graph.addBlock ⟨← label (← get) d, body.zipIdx.map line, (jumps.zipIdx body.length).map line⟩

def removeBlock (d : Datum) : Work Unit := edit do
  let g ← get
  let l ← label g d
  let _ ← g.block l
  Graph.removeBlock l

def proc (s : Session) : Proc Instr := ⟨s.name, s.params, s.lines.map (·.instr)⟩

def exec (fuel : Nat) (args : Datum) (s : Session) : Except Tac.Fault (Option Datum) × Session × String :=
  let procs := Datum.put s.name s.proc s.procs
  let (r, w) := (Run.call (Run.Checked.semantics {} procs) fuel s.name args 0).run.run ⟨s.globals, #[]⟩
  (r, { s with globals := w.globals }, w.text)

def text (s : Session) : Except Datum.Fault (List String) := s.lines.mapM fun l => l.instr.text?

end Session

end Bx.Flow
