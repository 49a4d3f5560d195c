import Bx.Flow.Graph

namespace Bx.Flow

open Tac

def substitute (f : String → String) : Instr → Instr
  | .label l => .label (f l)
  | .jmp l => .jmp (f l)
  | .jcc c x l => .jcc c (f x) (f l)
  | .binop op d x y => .binop op d (f x) (f y)
  | .unop op d x => .unop op d (f x)
  | .copy d x => .copy d (f x)
  | .param n x => .param n (f x)
  | .call d g n => .call d (f g) n
  | .ret x => .ret (x.map f)
  | .phi d sources => .phi d (sources.map fun (l, t) => (l, f t))
  | i => i

def replaceIn (globals : List String) (find replace : String) (l : Line) : Line :=
  if l.instr.dest.any globals.contains then l
  else { l with instr := substitute (fun x => if x == find then replace else x) l.instr }

def copyOf? (globals : List String) : Instr → Option (String × String)
  | .copy d x => if globals.contains d || globals.contains x then none else some (d, x)
  | _ => none

def mapBodies (f : Label → List Line → List Line) (g : Graph) : Graph :=
  { g with blocks := g.blocks.map fun (x, b) => (x, { b with body := f x b.body }) }

def forward (globals : List String) (block : Label) (k : Nat) (find replace : String) (g : Graph) : Graph :=
  mapBodies (fun x body =>
    (if x == block then body.eraseIdx k else body).map (replaceIn globals find replace)) g

def propagateFrom (globals : List String) (block : Label) : Nat → Nat → Graph → Graph
  | 0, _, g => g
  | n + 1, k, g =>
    match ((g.blocks.lookup block).bind (·.body[k]?)) with
    | none => g
    | some l => match copyOf? globals l.instr with
      | none => propagateFrom globals block n (k + 1) g
      | some (d, x) => propagateFrom globals block n (k + 1) (forward globals block k d x g)

def propagateCopies (globals : List String) (g : Graph) : Graph :=
  g.blocks.foldl (fun h (x, b) => propagateFrom globals x b.body.length 0 h) g

end Bx.Flow
