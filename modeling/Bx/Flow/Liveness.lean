import Bx.Flow.Graph
import Bx.NameSet

namespace Bx.Flow

open Tac

structure Succession where
  label : Label
  line : Line
  nextLabel : Label
  next : Line

namespace Graph

def pairAcross (g : Graph) (a b : Label) : Except Fault Succession := do
  match (← g.block a).lines.getLast? with
  | none => throw .emptyInSequence
  | some i => match (← g.block b).lines.head? with
    | none => throw .emptyInSequence
    | some j => return ⟨a, i, b, j⟩

def pairsInside (l : Label) (b : Block) : List (Except Fault Succession) :=
  if b.lines.isEmpty then [.error .emptyInSequence]
  else ((b.lines.zip b.lines.tail).map fun (i, j) => .ok ⟨l, i, l, j⟩).reverse

def attempts (g : Graph) : List (Except Fault Succession) :=
  (g.edges.map fun (a, b) => g.pairAcross a b) ++ g.blocks.flatMap fun (l, b) => pairsInside l b

def pairs (g : Graph) : Except Fault (List Succession) := g.attempts.mapM id

end Graph

abbrev LiveMap := List (Nat × List Instr.Use)

namespace LiveMap

def liveAt (m : LiveMap) (id : Nat) : List Instr.Use := (m.lookup id).getD []

def insertUse (us : List Instr.Use) (u : Instr.Use) : List Instr.Use := if us.contains u then us else us ++ [u]

def add (id : Nat) (us : List Instr.Use) : LiveMap → LiveMap
  | [] => []
  | (k, vs) :: rest => if k == id then (k, us.foldl insertUse vs) :: rest else (k, vs) :: add id us rest

def weight (m : LiveMap) : Nat := m.foldl (fun n e => n + e.2.length) 0

end LiveMap

def along (label : Label) (us : List Instr.Use) : List Instr.Use :=
  us.filterMap fun u => match u with
    | .plain x => some (.plain x)
    | .along l x => if l == label.text then some (.plain x) else none

def passed (m : LiveMap) (p : Succession) : List Instr.Use :=
  let us := m.liveAt p.next.id
  let us := if p.label == p.nextLabel then us else along p.label us
  us.filter fun u => !p.line.instr.defs.contains u.temp

def growOnce (ps : List Succession) (m : LiveMap) : LiveMap :=
  ps.foldl (fun m p => m.add p.line.id (passed m p)) m

def grow (ps : List Succession) : Nat → LiveMap → LiveMap
  | 0, m => m
  | n + 1, m =>
    let m' := growOnce ps m
    if m'.weight == m.weight then m' else grow ps n m'

structure Liveness where
  before : List (Nat × NameSet)
  after : List (Nat × NameSet)

namespace Liveness

def livein (v : Liveness) (id : Nat) : NameSet := (v.before.lookup id).getD []

def liveout (v : Liveness) (id : Nat) : NameSet := (v.after.lookup id).getD []

end Liveness

def temps (us : List Instr.Use) : NameSet := NameSet.ofList (us.map Instr.Use.temp)

def firstUses (g : Graph) : LiveMap := g.lines.map fun l => (l.id, l.instr.uses.eraseDups)

def rounds (m : LiveMap) : Nat := m.length * (2 * m.weight) + 1

def liveness (g : Graph) : Except Fault Liveness := do
  if g.lines.any fun l => l.instr.isFrozen then throw .frozen
  let ps ← g.pairs
  let start := firstUses g
  let m := grow ps (rounds start) start
  return {
    before := m.map fun (id, us) => (id, temps us)
    after := g.lines.map fun l => (l.id, NameSet.ofList ((ps.filter fun p => p.line.id == l.id).flatMap fun p =>
      (along p.label (m.liveAt p.next.id)).map Instr.Use.temp)) }

end Bx.Flow
