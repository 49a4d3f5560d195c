import Bx.Tac.Record

namespace Bx.Blocks

open Tac

/-- An instruction with an identity: a change to it shows wherever it stands. -/
structure Line where
  id : Nat
  record : Record

inductive Fault
  | shape (f : Datum.Fault)
  | tooDeep

abbrev Label := Datum

abbrev LabelSet := List Label

def LabelSet.insert (l : Label) : LabelSet → LabelSet
  | [] => [l]
  | m :: rest => if m.same l then m :: rest else if l.text < m.text then l :: m :: rest else m :: insert l rest

def LabelSet.has (s : LabelSet) (l : Label) : Bool := s.any fun m => m.same l

structure Block where
  label : Label
  lines : List Line
  preds : LabelSet
  succs : LabelSet

structure Graph where
  name : String
  entry : Label
  blocks : List (Label × Block)

def isOp (op : String) (l : Line) : Bool := l.record.opcode.is op

def arg (l : Line) (k : Nat) : Except Fault Datum := (l.record.args.item k).mapError .shape

def record (op : String) (args : List Datum) : Record := .of op args .null

def withEntry (name : String) (fresh : Nat) (lines : List Line) : Except Fault (Label × List Line) :=
  match lines with
  | [] => .error (.shape .range)
  | l :: _ =>
    if isOp "label" l then do return (← arg l 0, lines)
    else
      let entry := Datum.str (".Lentry_" ++ name)
      .ok (entry, ⟨fresh, record "label" [entry]⟩ :: lines)

def complete (name : String) (fresh count : Nat) (previous : Line) : List Line → Except Fault (List Line)
  | [] =>
    if isOp "jmp" previous || isOp "ret" previous then .ok []
    else .ok [⟨fresh, record "ret" []⟩]
  | l :: rest =>
    if isOp "label" l then
      if isOp "jmp" previous then do return l :: (← complete name fresh count l rest)
      else do
        let target ← arg l 0
        return ⟨fresh, record "jmp" [target]⟩ :: l :: (← complete name (fresh + 1) count l rest)
    else if isOp "jmp" previous then do
      let new := Datum.str (".Ljmp_" ++ name ++ "_" ++ toString (count + 1))
      return ⟨fresh, record "label" [new]⟩ :: l :: (← complete name (fresh + 1) (count + 1) l rest)
    else do return l :: (← complete name fresh count l rest)

def completed (name : String) (fresh : Nat) (lines : List Line) : Except Fault (Label × List Line) := do
  let (entry, lines) ← withEntry name fresh lines
  match lines with
  | [] => return (entry, [])
  | l :: rest => return (entry, l :: (← complete name (fresh + 1) 0 l rest))

def conditionals : List String := ["jz", "jnz", "jl", "jle", "jg", "jge", "jnl", "jnle"]

def isConditional (l : Line) : Bool := l.record.opcode.string?.any conditionals.contains

def nameOf (lines : List Line) : Except Fault Label :=
  match lines with
  | [] => .error (.shape .range)
  | l :: _ => arg l 0

abbrev Edges := List (Label × Label)

def putBlock (b : Block) : List (Label × Block) → List (Label × Block)
  | [] => [(b.label, b)]
  | (l, c) :: rest => if l.same b.label then (l, b) :: rest else (l, c) :: putBlock b rest

def finish (lines : List Line) (blocks : List (Label × Block)) : Except Fault (Label × List (Label × Block)) := do
  let label ← nameOf lines
  if !label.isKey then throw (.shape .operator)
  return (label, putBlock ⟨label, lines, [], []⟩ blocks)

def cut : List Line → List (Label × Block) → Edges → List Line → Except Fault (List (Label × Block) × Edges)
  | _, blocks, edges, [] => .ok (blocks, edges)
  | current, blocks, edges, l :: rest =>
    let current := current ++ [l]
    if isOp "jmp" l then do
      let (label, blocks) ← finish current blocks
      cut [] blocks (edges ++ [(label, ← arg l 0)]) rest
    else if isOp "ret" l then do
      let (_, blocks) ← finish current blocks
      cut [] blocks edges rest
    else if isConditional l then do
      let label ← nameOf current
      cut current blocks (edges ++ [(label, ← arg l 1)]) rest
    else cut current blocks edges rest

def find (blocks : List (Label × Block)) (l : Label) : Except Fault Block :=
  match blocks.find? fun e => e.1.same l with
  | some e => .ok e.2
  | none => .error (.shape (.key l))

def update (f : Block → Block) (l : Label) (blocks : List (Label × Block)) : List (Label × Block) :=
  blocks.map fun (k, b) => if k.same l then (k, f b) else (k, b)

def link (blocks : List (Label × Block)) (e : Label × Label) : Except Fault (List (Label × Block)) := do
  let _ ← find blocks e.1
  if !e.2.isKey then throw (.shape .operator)
  let blocks := update (fun b => { b with succs := b.succs.insert e.2 }) e.1 blocks
  let _ ← find blocks e.2
  return update (fun b => { b with preds := b.preds.insert e.1 }) e.2 blocks

structure Desk where
  said : Array String
  ledger : List Line

abbrev Work := ExceptT Fault (StateM Desk)

def lift {α : Type} (r : Except Fault α) : Work α :=
  match r with
  | .ok a => pure a
  | .error e => throw e

def say (s : String) : Work Unit := modify fun d => { d with said := d.said.push s }

def free (ledger : List Line) : Nat := ledger.foldl (fun n l => max n (l.id + 1)) 0

def note (lines : List Line) (ledger : List Line) : List Line :=
  let n := free ledger
  ledger ++ lines.filter fun l => n ≤ l.id

def blocksOf (name : String) (entry : Label) (lines : List Line) : Except Fault Graph := do
  let (blocks, edges) ← cut [] [] [] lines
  return ⟨name, entry, ← edges.foldlM link blocks⟩

def build (name : String) (lines : List Line) : Work Graph := do
  let (entry, lines) ← lift (completed name (free (note lines (← get).ledger)) lines)
  modify fun d => { d with ledger := note lines d.ledger }
  let g ← lift (blocksOf name entry lines)
  say "CFG was successfully built"
  return g

mutual

def visitAll (blocks : List (Label × Block)) : Nat → LabelSet → LabelSet → Except Fault (List Block × LabelSet)
  | _, seen, [] => .ok ([], seen)
  | fuel, seen, l :: rest => do
    let (first, seen) ← visit blocks fuel seen l
    let (others, seen) ← visitAll blocks fuel seen rest
    return (first ++ others, seen)
termination_by fuel _ todo => (fuel, todo.length + 1)

def visit (blocks : List (Label × Block)) (fuel : Nat) (seen : LabelSet) (l : Label) : Except Fault (List Block × LabelSet) :=
  if seen.has l then .ok ([], seen) else
  match fuel with
  | 0 => .error .tooDeep
  | fuel + 1 => do
    let b ← find blocks l
    let (more, seen) ← visitAll blocks fuel (seen.insert l) b.succs
    return (b :: more, seen)
termination_by (fuel, 0)

end

def reached (g : Graph) : Except Fault (List Block) := do
  let first ← find g.blocks g.entry
  let (more, _) ← visitAll g.blocks g.blocks.length [g.entry] first.succs
  return first :: more

def isIdle (l m : Line) : Except Fault Bool := do
  if isOp "jmp" l && isOp "label" m then return (← arg m 0).same (← arg l 0) else return false

def dropIdleJumps : List Line → Except Fault (List Line)
  | [] => .ok []
  | [l] => .ok [l]
  | l :: m :: rest => do
    let idle ← isIdle l m
    let others ← dropIdleJumps (m :: rest)
    return if idle then others else l :: others

def serialize (final : Bool) (g : Graph) : Except Fault (List Line × Graph) := do
  let blocks ← reached g
  let lines := blocks.flatMap Block.lines
  let lines ← if final then dropIdleJumps lines else .ok lines
  return (lines, { g with blocks := update (fun b => { b with lines := lines }) g.entry g.blocks })

def dropUnreachable (g : Graph) : Work Graph := do
  let (lines, _) ← lift (serialize false g)
  build g.name lines

def recordLiteral (r : Record) : String :=
  "\x7bopcode: " ++ r.opcode.text ++ ", args: " ++ r.args.text ++ ", result: " ++ r.result.text ++ "\x7d"

def Block.literal (b : Block) : String :=
  "Label: " ++ b.label.text ++ " ; Instructions: [" ++ ", ".intercalate (b.lines.map fun l => recordLiteral l.record) ++ "]"

def current (ledger : List Line) (l : Line) : Record :=
  { l.record with args := ((ledger.find? fun m => m.id == l.id).getD l).record.args }

def Graph.toDatum (ledger : List Line) (g : Graph) : List (String × Datum) := [
  ("entry", g.entry),
  ("blocks", .list (g.blocks.map fun (l, b) => .dict [("label", l),
    ("instrs", .list (b.lines.map fun l => (current ledger l).toDatum)), ("succ", .list b.succs), ("pred", .list b.preds)]))]

end Bx.Blocks
