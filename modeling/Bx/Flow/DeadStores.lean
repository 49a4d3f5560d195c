import Bx.Flow.Liveness

namespace Bx.Flow

open Tac

def isDeclared (globals : List String) (d : Datum) : Except Fault Bool :=
  match d with
  | .str x => .ok (globals.contains x)
  | .dict _ => .error .unsuited
  | _ => .ok false

def mayDoMore : Instr → Bool
  | .binop .div _ _ _ | .binop .mod _ _ _ | .call _ _ _ => true
  | _ => false

def isExempt (globals : List String) (i : Instr) : Except Fault Bool := do
  if mayDoMore i then return true
  if ← isDeclared globals (optional i.dest) then return true
  if ← isDeclared globals i.operands.1 then return true
  isDeclared globals i.operands.2
where
  optional (x : Option String) : Datum := x.elim .null .str

def isDead (globals : List String) (v : Liveness) (l : Line) : Except Fault Bool := do
  if ← isExempt globals l.instr then return false
  return l.instr.dest.any fun d => !(v.liveout l.id).contains d

def sweepBody (dead : Line → Except Fault Bool) : List Line → Except Fault (List Line)
  | [] => .ok []
  | l :: rest => do
    if ← dead l then match rest with
      | [] => return []
      | m :: rest => return m :: (← sweepBody dead rest)
    else return l :: (← sweepBody dead rest)

def sweep (globals : List String) (v : Liveness) (g : Graph) : Except Fault Graph := do
  let blocks ← g.blocks.mapM fun (x, b) => do
    let body ← sweepBody (isDead globals v) b.body
    b.jumps.forM fun l => do
      let _ ← isDead globals v l
    return (x, { b with body := body })
  return { g with blocks := blocks }

def dropDeadWithin (globals : List String) : Nat → Graph → Except Fault Graph
  | 0, g => .ok g
  | n + 1, g => do
    let h ← sweep globals (← liveness g) g
    if h.lines.length == g.lines.length then return h else dropDeadWithin globals n h

def dropDeadStores (globals : List String) (g : Graph) : Except Fault Graph :=
  dropDeadWithin globals (g.lines.length + 1) g

end Bx.Flow
