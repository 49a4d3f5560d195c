import Bx.Flow.Canonical

namespace Bx.Flow

open Tac

structure Block where
  label : Label
  body : List Line
  jumps : List Line

namespace Block

def lines (b : Block) : List Line := b.body ++ b.jumps

def text (b : Block) : Except Datum.Fault String := do
  let lines ← b.lines.mapM fun l => l.instr.text?
  return b.label.text ++ ":\n" ++ String.join (lines.map (· ++ "\n"))

def mapInstrs (f : Instr → Instr) (b : Block) : Block :=
  let g := fun l : Line => { l with instr := f l.instr }
  { b with body := b.body.map g, jumps := b.jumps.map g }

end Block

structure Graph where
  name : String
  entry : Label
  blocks : List (Label × Block)
  succs : List (Label × LabelSet)
  preds : List (Label × LabelSet)

namespace Graph

def lines (g : Graph) : List Line := g.blocks.flatMap fun b => b.2.lines

def edges (g : Graph) : List (Label × Label) := g.succs.flatMap fun (a, bs) => bs.map fun b => (a, b)

def mapInstrs (f : Instr → Instr) (g : Graph) : Graph :=
  { g with blocks := g.blocks.map fun (l, b) => (l, b.mapInstrs f) }

def block (g : Graph) (l : Label) : Except Fault Block :=
  match g.blocks.lookup l with
  | some b => .ok b
  | none => .error (.missing l)

def successors (g : Graph) (l : Label) : Except Fault LabelSet :=
  match g.succs.lookup l with
  | some s => .ok s
  | none => .error (.missing l)

def predecessors (g : Graph) (l : Label) : Except Fault LabelSet :=
  match g.preds.lookup l with
  | some s => .ok s
  | none => .error (.missing l)

abbrev Edit := ExceptT Fault (StateM Graph)

def addEdge (a b : Label) : Edit Unit := do
  let g ← get
  match g.succs.lookup a with
  | none => throw (.missing a)
  | some s => set { g with succs := Datum.put a (LabelSet.insert b s) g.succs }
  match g.preds.lookup b with
  | none => throw (.missing b)
  | some s => modify fun g => { g with preds := Datum.put b (LabelSet.insert a s) g.preds }

def without (x : Label) (s : LabelSet) : Except Fault LabelSet :=
  if s.contains x then .ok (s.filter (· != x)) else .error (.missing x)

def dropSucc (a b : Label) : Edit Unit := do
  let g ← get
  match (g.successors a).bind (without b) with
  | .error e => throw e
  | .ok s => set { g with succs := Datum.put a s g.succs }

def dropPred (a b : Label) : Edit Unit := do
  let g ← get
  match (g.predecessors b).bind (without a) with
  | .error e => throw e
  | .ok s => set { g with preds := Datum.put b s g.preds }

def removeEdge (a b : Label) : Edit Unit := do
  dropSucc a b
  dropPred a b

def destinations (b : Block) : List Label :=
  b.jumps.filterMap fun l => if l.instr.jumpDest.truthy then Label.ofDatum? l.instr.jumpDest else none

def linkBlock (b : Block) : Edit Unit := (destinations b).forM (addEdge b.label)

def addBlock (b : Block) : Edit Unit := do
  let g ← get
  if (g.blocks.lookup b.label).isSome then throw .assertion
  set { g with
    blocks := g.blocks ++ [(b.label, b)]
    succs := Datum.put b.label [] g.succs
    preds := Datum.put b.label [] g.preds }
  linkBlock b

def removeBlock (l : Label) : Edit Unit := do
  let g ← get
  if (g.blocks.lookup l).isNone then throw .assertion
  set { g with blocks := g.blocks.filter (·.1 != l) }
  match g.successors l with
  | .error e => throw e
  | .ok s => s.forM fun b => dropPred l b
  modify fun g => { g with succs := g.succs.filter (·.1 != l) }

def unlinked (name : String) (entry : Label) (blocks : List Block) : Graph where
  name := name
  entry := entry
  blocks := blocks.foldl (fun acc b => Datum.put b.label b acc) []
  succs := blocks.foldl (fun acc b => Datum.put b.label [] acc) []
  preds := blocks.foldl (fun acc b => Datum.put b.label [] acc) []

def ofBlocks (name : String) (entry : Label) (blocks : List Block) : Except Fault Graph :=
  match (blocks.forM linkBlock).run.run (unlinked name entry blocks) with
  | (.ok _, g) => .ok g
  | (.error e, _) => .error e

end Graph

def blocksOf : Nat → List Line → Except Fault (List Block)
  | _, [] => .ok []
  | 0, _ :: _ => .error .assertion
  | n + 1, l :: rest => match l.instr with
    | .label x =>
      let body := rest.takeWhile fun l => !isEnder l.instr
      let rest := rest.dropWhile fun l => !isEnder l.instr
      let jumps := rest.takeWhile fun l => isEnder l.instr
      return ⟨.name x, body, jumps⟩ :: (← blocksOf n (rest.dropWhile fun l => isEnder l.instr))
    | _ => .error .assertion

def infer (taken : Nat) (name : String) (lines : List Line) : List Line × Except Fault Graph :=
  match canonical taken (String.ofList (name.toList.drop 1)) lines with
  | (out, some e) => (out, .error e)
  | (out, none) => (out, match out with
    | ⟨_, .label entry⟩ :: _ => do Graph.ofBlocks name (.name entry) (← blocksOf out.length out)
    | _ => .error .assertion)

def placeable (g : Graph) (l : Label) : Except Fault (String × Block) := do
  let b ← g.block l
  match l with
  | .name s => if isLabelName s then return (s, b) else throw (bad l)
  | l => throw (bad l)
where
  bad (l : Label) : Fault := .load (.badOperand "label" "arg1" l.toDatum)

def walk (g : Graph) : Nat → List Label → LabelSet → List Label → Except Fault (List Label × LabelSet × List Label)
  | 0, _, seen, put => .ok ([], seen, put)
  | _, [], seen, put => .ok ([], seen, put)
  | n + 1, x :: todo, seen, put =>
    if seen.contains x then walk g n todo seen put else do
    match ← g.successors x with
    | [] => walk g n todo seen (x :: put)
    | next =>
      let _ ← placeable g x
      let (order, seen, put) ← walk g n (next.reverse ++ todo) (LabelSet.insert x seen) put
      return (x :: order, seen, put)

def putOff (seen : LabelSet) : List Label → List Label
  | [] => []
  | x :: rest => if seen.contains x then putOff seen rest else x :: putOff (LabelSet.insert x seen) rest

def schedule (g : Graph) : Except Fault (List Label) := do
  let (order, seen, put) ← walk g (g.edges.length + 2) [g.entry] [] []
  return order ++ putOff seen put

def linearize (taken : Nat) (g : Graph) : Except Fault (List Line) := do
  let fresh := freshId taken g.lines
  let blocks ← (← schedule g).mapM (placeable g)
  return blocks.zipIdx.flatMap fun ((l, b), k) => ⟨fresh + k, .label l⟩ :: b.lines

end Bx.Flow
