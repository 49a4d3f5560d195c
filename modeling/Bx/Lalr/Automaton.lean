import Bx.Grammar.Basic

namespace Bx.Lalr

open Grammar

/-- A production with a dot in front of the symbol at position `dot`. -/
structure Item where
  production : Production
  dot : Nat

def Item.rule (i : Item) : Nat := i.production.number

instance : BEq Item := ⟨fun i j => i.rule == j.rule && i.dot == j.dot⟩

def Item.next? (i : Item) : Option String := i.production.symbols[i.dot]?

def Item.dotted (i : Item) : List String := i.production.symbols.take i.dot ++ ["."] ++ i.production.symbols.drop i.dot

def Item.text (i : Item) : String := i.production.name ++ " -> " ++ " ".intercalate i.dotted

structure State where
  items : List Item
  moves : List (String × Nat)

/-- For each production the number of the last closure that took it in, the latest first; none takes it in twice. -/
structure Stamps where
  count : Nat
  last : List (Nat × Nat)

structure Rules where
  grammar : Grammar
  start : Production
  table : Array Production

def Rules.ofGrammar (g : Grammar) (start : Production) : Rules := ⟨g, start, (start :: g.rules).toArray⟩

variable (R : Rules)

def stamped (stamps : Stamps) (n : Nat) : Bool := stamps.last.lookup n == some stamps.count

def close : Nat → List Item → List Item → List String → Stamps → List Item × Stamps
  | 0, done, todo, _, stamps => (done.reverse ++ todo, stamps)
  | _ + 1, done, [], _, stamps => (done.reverse, stamps)
  | n + 1, done, i :: todo, seen, stamps => match i.next? with
    | none => close n (i :: done) todo seen stamps
    | some s =>
      if seen.contains s then close n (i :: done) todo seen stamps else
      let new := (R.grammar.productionsOf s).filter fun p => !stamped stamps p.number
      close n (i :: done) (todo ++ new.map fun p => ⟨p, 0⟩) (s :: seen)
        { stamps with last := new.map (fun p => (p.number, stamps.count)) ++ stamps.last }

def closure (kernel : List Item) (stamps : Stamps) : List Item × Stamps :=
  close R (kernel.length + R.grammar.rules.length + 1) [] kernel [] { stamps with count := stamps.count + 1 }

def symbolsOf (items : List Item) : List String :=
  items.foldl (fun acc i => i.production.symbols.foldl (fun acc s => if acc.contains s then acc else acc ++ [s]) acc) []

def advance (items : List Item) (s : String) : List Item :=
  items.filterMap fun i => if i.next? == some s then some { i with dot := i.dot + 1 } else none

/-- Kernels and their states by the symbol that leads to them, the items of the states not yet gone through, and the moves
from the one in hand, the last first. -/
structure Growth where
  known : List (String × List (List Item × Nat))
  count : Nat
  waiting : List (List Item)
  moves : List (String × Nat)
  stamps : Stamps

def growBy (items : List Item) (G : Growth) (s : String) : Growth :=
  match advance items s with
  | [] => G
  | kernel =>
    let kernels := (G.known.lookup s).getD []
    match kernels.lookup kernel with
    | some k => { G with moves := (s, k) :: G.moves }
    | none =>
      let (all, stamps) := closure R kernel G.stamps
      ⟨Datum.put s ((kernel, G.count) :: kernels) G.known, G.count + 1, G.waiting ++ [all], (s, G.count) :: G.moves, stamps⟩

def grow : Nat → List State → Growth → List State × Stamps
  | 0, done, G => (done.reverse, G.stamps)
  | n + 1, done, G => match G.waiting with
    | [] => (done.reverse, G.stamps)
    | items :: rest =>
      let G := (symbolsOf items).foldl (growBy R items) { G with waiting := rest, moves := [] }
      grow n (⟨items, G.moves.reverse⟩ :: done) G

def stateBound : Nat := 1000000

def automaton (stamps : Stamps) : List State × Stamps :=
  let (items, stamps) := closure R [⟨R.start, 0⟩] stamps
  grow R stateBound [] ⟨[], 1, [items], [], stamps⟩

end Bx.Lalr
