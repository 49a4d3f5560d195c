import Bx.Flow.Liveness

namespace Bx.Flow

open Tac

def shown (r : Except Datum.Fault String) : Except Fault Datum := (r.map .str).mapError fun f => .load (.shape f)

def Line.shown (l : Line) : Except Fault Datum := Flow.shown l.instr.text?

def namesDatum (s : NameSet) : Datum := .list (s.map .str)

def labelsDatum (s : LabelSet) : Datum := .list (s.map Label.toDatum)

def Graph.toDatum (g : Graph) : Except Fault Datum := do
  return .dict [("entry", g.entry.toDatum), ("blocks", .list (← g.blocks.mapM fun (_, b) => shown b.text)),
    ("edges", .list (g.edges.map fun (a, b) => .list [a.toDatum, b.toDatum]))]

def Graph.liveDatum (g : Graph) : Except Fault Datum := do
  let v ← liveness g
  return .list (← g.lines.mapM fun l => return .list [← l.shown, namesDatum (v.livein l.id), namesDatum (v.liveout l.id)])

def Graph.pairsDatum (g : Graph) (labelled : Bool) : Except Fault Datum := do
  return .list (← g.attempts.mapM fun r => do
    let p ← r
    let (i, j) := (← p.line.shown, ← p.next.shown)
    return .list (if labelled then [p.label.toDatum, i, p.nextLabel.toDatum, j] else [i, j]))

def Graph.blockDatum (g : Graph) (l : Label) : Except Fault Datum := do
  let b ← g.block l
  let text ← shown b.text
  match b.lines.head?, b.lines.getLast? with
  | some i, some j => return .dict [("str", text), ("first", ← i.shown), ("last", ← j.shown),
      ("reversed", .list (← b.lines.reverse.mapM Line.shown))]
  | _, _ => throw .emptyBlock

def Graph.degreesDatum (g : Graph) (l : Label) : Except Fault Datum := do
  let ps ← g.predecessors l
  let ss ← g.successors l
  return .list [.int ps.length, .int ss.length, labelsDatum ps, labelsDatum ss]

end Bx.Flow
