import Bx.Datum
import Bx.Lalr.Table

namespace Bx.Lalr

open Grammar

def byName {α : Type} (f : α → Datum) (row : List (String × α)) : Datum :=
  .list ((row.mergeSort fun a b => decide (a.1 ≤ b.1)).map fun (k, v) => .list [.str k, f v])

def namesDatum (xs : List String) : Datum := .list (xs.map .str)

def Sets.toDatum (s : Sets) : Datum := byName namesDatum s

def Production.literal (p : Production) : Datum := .str ("Production(" ++ p.text ++ ")")

def Production.toDatum (p : Production) : Datum := .dict [
  ("str", .str p.text), ("len", .int p.symbols.length), ("symbols", namesDatum p.symbols),
  ("unique", namesDatum p.distinct), ("prec", .list [.str p.prec.assoc.name, p.prec.level]),
  ("number", .int p.number), ("line", p.site.line)]

def itemDatum (g : Grammar) (p : Production) (n : Nat) : Datum :=
  let i : Item := ⟨p, n⟩
  let before := if n = 0 then p.symbols.getLast?.getD "." else p.symbols[n - 1]?.getD ""
  .list [.str ("LRItem(" ++ i.text ++ ")"), .int n, .str before,
    .list (((i.next?).elim [] g.productionsOf).map Production.literal)]

def itemsDatum (g : Grammar) (start : Production) : Datum :=
  .list ((start :: g.rules).map fun p => .list ((List.range (p.symbols.length + 1)).map (itemDatum g p)))

def Table.toDatum (g : Grammar) (t : Table) : Datum :=
  let name := fun n => .str (((g.production? n).map (·.text)).getD "")
  .dict [
    ("action", .list (t.actions.toList.map (byName fun a => a.code?.elim .null .int))),
    ("goto", .list (t.gotos.toList.map (byName fun k => .int (k : Nat)))),
    ("sr", .list (t.shiftReduce.map fun c =>
      .list [.int c.state, .str c.token, .str (if c.shifted then "shift" else "reduce")])),
    ("rr", .list (t.reduceReduce.map fun c => .list [.int c.state, name c.chosen, name c.rejected])),
    ("reduced", .list ((List.range (g.rules.length + 1)).map fun n => .int ((t.reduced.lookup n).getD 0)))]

end Bx.Lalr
