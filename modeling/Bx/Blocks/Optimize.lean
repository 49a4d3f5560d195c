import Bx.Blocks.Basic

namespace Bx.Blocks

open Tac

def mapLine (id : Nat) (f : Record → Record) (lines : List Line) : List Line :=
  lines.map fun l => if l.id == id then { l with record := f l.record } else l

def mapRecord (id : Nat) (f : Record → Record) (g : Graph) : Work Graph := do
  modify fun d => { d with ledger := mapLine id f d.ledger }
  return { g with blocks := g.blocks.map fun (k, b) => (k, { b with lines := mapLine id f b.lines }) }

def chain (blocks : List (Label × Block)) : Nat → Block → Except Fault (List Label)
  | 0, _ => .error .tooDeep
  | n + 1, b => match b.succs with
    | [k] => do
      let kid ← find blocks k
      if kid.preds.length == 1 then return k :: (← chain blocks n kid) else return []
    | _ => .ok []

def retarget (l : Line) (target : Datum) (g : Graph) : Work Graph := do
  let args ← lift ((l.record.args.setFirst target).mapError .shape)
  mapRecord l.id (fun r => { r with args := args }) g

def absorb (first label : Label) (g : Graph) : Except Fault Graph := do
  let b ← find g.blocks label
  return { g with blocks := update (fun a =>
    { a with lines := a.lines ++ b.lines, succs := b.succs.foldl (fun s l => LabelSet.insert l s) a.succs }) first g.blocks }

def inner (b : Block) : List Line := (b.lines.drop 1).dropLast

def areIdle (blocks : List (Label × Block)) : List Label → Except Fault Bool
  | [] => .ok true
  | l :: rest => do
    let b ← find blocks l
    if (inner b).isEmpty then areIdle blocks rest else return false

def threadChain (label : Label) (g : Graph) : Work (Graph × List Label) := do
  let b ← lift (find g.blocks label)
  let seq := (label :: (← lift (chain g.blocks (g.blocks.length + 1) b))).dropLast
  match seq.getLast?, b.lines.getLast? with
  | some target, some last =>
    let between := (seq.drop 1).dropLast
    if seq.length > 1 then
      if ← lift (areIdle g.blocks between) then
        let g ← retarget last target g
        return (← lift (between.foldlM (fun g l => absorb label l g) g), between)
      else return (g, [])
    else return (g, [])
  | _, _ => return (g, [])

def testFor (target : Label) : List Line → Except Fault (Option (Datum × Datum))
  | [] => .ok none
  | l :: rest => do
    if !l.record.opcode.isKey then throw (.shape .operator)
    let here ← if ["jz", "jnz", "jl", "jle"].any (isOp · l) then do
        if (← arg l 1).same target then pure (some (l.record.opcode, ← arg l 0)) else pure none
      else pure none
    match ← testFor target rest with
    | some t => return some t
    | none => return here

def settleTests (label : Label) (op tested : Datum) : List Nat → Graph → Work Graph
  | [], g => return g
  | k :: rest, g => do
    let b ← lift (find g.blocks label)
    match b.lines[k]?, b.lines[k + 1]? with
    | some l, some next =>
      if l.record.opcode.same op then
        if (← lift (arg l 0)).same tested then
          let target ← lift (arg l 1)
          let g ← mapRecord l.id (fun r => { r with opcode := .str "nop" }) g
          let g ← if next.id != l.id && isOp "jmp" next then retarget next target g else pure g
          settleTests label op tested rest g
        else settleTests label op tested rest g
      else settleTests label op tested rest g
    | _, _ => return g

def threadTests (label : Label) (g : Graph) : Work Graph := do
  let b ← lift (find g.blocks label)
  b.succs.foldlM (fun g kid => do
    let b ← lift (find g.blocks label)
    match ← lift (testFor kid b.lines) with
    | none => return g
    | some (op, tested) =>
      if !tested.truthy then return g
      let k ← lift (find g.blocks kid)
      if k.lines.any fun l => l.record.result.same tested then return g
      settleTests kid op tested (List.range (k.lines.length - 1)) g) g

def threadJumps (g : Graph) : Work Graph := do
  let (g, gone) ← (g.blocks.map (·.1)).foldlM (fun (g, gone) label => do
    let (g, more) ← threadChain label g
    return (← threadTests label g, gone ++ more)) (g, ([] : List Label))
  return { g with blocks := g.blocks.filter fun e => !gone.any e.1.same }

def coalesce (g : Graph) : Except Fault Unit :=
  g.blocks.forM fun (_, b) => match b.succs with
    | [k] => do
      let kid ← find g.blocks k
      if kid.preds.length == 1 && !k.same g.entry then throw (.shape .method)
    | _ => pure ()

def optimize (g : Graph) : Work Graph := do
  let g ← threadJumps g
  say "Jump thread done"
  let g ← dropUnreachable g
  say "UCE done"
  lift (coalesce g)
  let g ← dropUnreachable g
  say "Coalesced done"
  return g

end Bx.Blocks
