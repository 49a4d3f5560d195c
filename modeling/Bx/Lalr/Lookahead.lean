import Bx.Lalr.Automaton

namespace Bx.Lalr

variable (R : Rules)

structure Transition where
  state : Nat
  symbol : String
  deriving DecidableEq, Inhabited

def nullableRound (nullable : List String) : List String :=
  R.grammar.rules.foldl
    (fun acc p => if !acc.contains p.name && p.symbols.all acc.contains then acc ++ [p.name] else acc) nullable

def iterateNullable : Nat → List String → List String
  | 0, xs => xs
  | n + 1, xs =>
    let ys := nullableRound R xs
    if ys.length == xs.length then xs else iterateNullable n ys

def nullable : List String := iterateNullable R (R.grammar.rules.length + 1) []

def transitionsOf (k : Nat) (st : State) : List Transition :=
  st.items.foldl (fun acc i => match i.next? with
    | some s => if R.grammar.isNonterminal s && !acc.contains ⟨k, s⟩ then acc ++ [⟨k, s⟩] else acc
    | none => acc) []

structure Graph where
  states : List State
  transitions : List Transition
  index : List (List (String × Nat))

def graphOf (states : List State) : Graph :=
  let ts := states.zipIdx.flatMap fun (st, k) => transitionsOf R k st
  ⟨states, ts, (List.range states.length).map fun k =>
    (ts.zipIdx.filter fun t => t.1.state == k).map fun t => (t.1.symbol, t.2)⟩

def Graph.move? (G : Graph) (k : Nat) (s : String) : Option Nat := (G.states[k]?).bind fun st => st.moves.lookup s

def Graph.itemsAt (G : Graph) (k : Nat) : List Item := ((G.states[k]?).map (·.items)).getD []

def Graph.number? (G : Graph) (k : Nat) (s : String) : Option Nat := (G.index[k]?).bind fun l => l.lookup s

def Graph.after (G : Graph) (t : Transition) : List String :=
  match G.move? t.state t.symbol with
  | none => []
  | some k => (G.itemsAt k).filterMap Item.next?

/-- Numbers in the order in which they came. The bits say which they are. -/
structure Bag where
  bits : Nat
  members : List Nat
  deriving Inhabited

def Bag.empty : Bag := ⟨0, []⟩

def Bag.has (b : Bag) (n : Nat) : Bool := b.bits.testBit n

def Bag.insert (b : Bag) (n : Nat) : Bag := if b.has n then b else ⟨b.bits ||| 1 <<< n, b.members ++ [n]⟩

def Bag.covers (b c : Bag) : Bool := b.bits ||| c.bits == b.bits

def Bag.addAll (b c : Bag) : Bag := c.members.foldl insert b

def Rules.terminals : List String := R.grammar.terminals.map (·.1) ++ ["$end"]

def Rules.terminalsOf (b : Bag) : List String := b.members.filterMap (R.terminals[·]?)

def directReads (G : Graph) (t : Transition) : Bag :=
  let terms := (G.after t).filter R.grammar.isTerminal
  let terms := if t.state == 0 && some t.symbol == R.start.symbols.head? then terms ++ ["$end"] else terms
  (terms.map R.terminals.idxOf).foldl .insert .empty

def reads (G : Graph) (empty : List String) (t : Transition) : List Nat :=
  match G.move? t.state t.symbol with
  | none => []
  | some k => ((G.after t).filter empty.contains).filterMap (G.number? k)

structure Walk where
  depth : List Nat
  cell : List Nat
  cells : List Bag
  stack : List Nat

def finished : Nat := 9223372036854775807

def Walk.depthOf (w : Walk) (x : Nat) : Nat := w.depth.getD x finished

def Walk.cellOf (w : Walk) (x : Nat) : Nat := w.cell.getD x 0

def Walk.bagOf (w : Walk) (x : Nat) : Bag := w.cells.getD (w.cellOf x) .empty

def Walk.lower (w : Walk) (x d : Nat) : Walk := if d < w.depthOf x then { w with depth := w.depth.set x d } else w

def Walk.addAll (w : Walk) (x : Nat) (b : Bag) : Walk :=
  if (w.bagOf x).covers b then w else { w with cells := w.cells.set (w.cellOf x) ((w.bagOf x).addAll b) }

def Walk.popTo (w : Walk) (x : Nat) : List Nat → Walk
  | [] => { w with stack := [] }
  | y :: rest =>
    let w := { w with depth := w.depth.set y finished, cell := w.cell.set y (w.cellOf x), stack := rest }
    if y == x then w else Walk.popTo w x rest

def Walk.visit (rel : Nat → List Nat) (base : Nat → Nat) : Nat → Nat → Walk → Walk
  | 0, _, w => w
  | n + 1, x, w =>
    let d := w.stack.length + 1
    let w := { w with stack := x :: w.stack, depth := w.depth.set x d, cell := w.cell.set x (base x) }
    let w := (rel x).foldl (fun w y =>
      let w := if w.depthOf y == 0 then Walk.visit rel base n y w else w
      (w.lower x (w.depthOf y)).addAll x (w.bagOf y)) w
    if w.depthOf x == d then w.popTo x w.stack else w

def digraph (count : Nat) (rel : Nat → List Nat) (base : Nat → Nat) (cells : List Bag) : List Nat × List Bag :=
  let w := (List.range count).foldl
    (fun w x => if w.depthOf x == 0 then Walk.visit rel base (count + 1) x w else w)
    (⟨List.replicate count 0, List.replicate count 0, cells, []⟩ : Walk)
  (w.cell, w.cells)

def trace (G : Graph) (empty : List String) : Nat → List String → List Nat × Option Nat
  | k, [] => ([], some k)
  | k, s :: rest =>
    let here := if rest.all (fun r => !R.grammar.isTerminal r && empty.contains r) then (G.number? k s).toList else []
    match G.move? k s with
    | none => (here, none)
    | some j =>
      let (more, last) := trace G empty j rest
      (here ++ more, last)

def matching (i : Item) (items : List Item) : List Nat :=
  (items.filter fun r => r.next?.isNone && r.production.name == i.production.name &&
    r.production.symbols == i.dotted.drop 1).map Item.rule

structure Relations where
  lookback : List (Nat × Nat)
  includes : Bag

def relationsOf (G : Graph) (empty : List String) (t : Transition) : Relations :=
  ((G.itemsAt t.state).filter fun i => i.production.name == t.symbol).foldl (fun acc i =>
    let (inc, last) := trace R G empty t.state (i.production.symbols.drop i.dot)
    let back := match last with
      | none => []
      | some j => (matching i (G.itemsAt j)).map fun n => (j, n)
    ⟨acc.lookback ++ back, inc.foldl .insert acc.includes⟩) ⟨[], .empty⟩

/-- For each state the rules complete there and what can follow them. -/
abbrev Lookaheads := List (List (Nat × Bag))

def addLookaheads (la : Lookaheads) (k n : Nat) (b : Bag) : Lookaheads :=
  let row := la.getD k []
  match row.lookup n with
  | none => la.set k ((n, b) :: row)
  | some old => if old.covers b then la else la.set k (Datum.put n (old.addAll b) row)

def lookaheads (states : List State) : Lookaheads :=
  let G := graphOf R states
  let empty := nullable R
  let count := G.transitions.length
  let (readCell, cells) :=
    digraph count (fun x => reads G empty (G.transitions.getD x default)) id (G.transitions.map (directReads R G))
  let relations := G.transitions.map (relationsOf R G empty)
  let included := (List.range count).map fun x => (relations.zipIdx.filter (·.1.includes.has x)).map (·.2)
  let (followCell, cells) := digraph count (included.getD · []) (readCell.getD · 0) cells
  relations.zipIdx.foldl (fun la (r, x) =>
    let follow := cells.getD (followCell.getD x 0) .empty
    r.lookback.foldl (fun la (j, n) => addLookaheads la j n follow) la) (List.replicate states.length [])

end Bx.Lalr
