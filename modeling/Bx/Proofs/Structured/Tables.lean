import Bx.Proofs.Lalr.Table
import Bx.Structured.Parser
import Mathlib.Tactic.MkIffOfInductiveProp

namespace Bx.Structured

open List Source
open Bx.Parser (Tables)
open Bx.Structured.Parser (tables levels binaries phrases)

def unaries : List Op := [.uminus, .boolnot, .bitcompl]

def level (op : Op) : Nat := levels.findIdx fun l => l.2.contains op.name

def leftmost (op : Op) : Bool := (levels[level op]?).any (·.1 == "left")

/-- What stands before an expression. -/
inductive Place
  | print | bracket | unary (op : Op) | binary (op : Op)
  deriving DecidableEq

namespace Place

def all : List Place := .print :: .bracket :: (unaries.map .unary ++ binaries.map .binary)

def states : Place → Nat × Nat
  | .print => (28, 43)
  | .bracket => (37, 66)
  | .unary op => (40 + unaries.idxOf op, 67 + unaries.idxOf op)
  | .binary op => (48 + binaries.idxOf op, 74 + binaries.idxOf op)

def admits : Place → Op → Bool
  | .print, _ | .bracket, _ => true
  | .unary _, _ => false
  | .binary op, o => level op < level o

end Place

def closes (op : Op) (type : String) : Bool :=
  type == "RPAREN" || binaries.any fun o => o.name == type && (level o < level op || level o == level op && leftmost op)

def unaryRule : Op → Nat
  | .boolnot => 25
  | .bitcompl => 26
  | _ => 27

def starts : List (String × Nat) := [("IDENT", 35), ("NUMBER", 36), ("LPAREN", 37), ("TRUE", 38), ("FALSE", 39), ("MINUS", 40),
  ("BOOLNOT", 41), ("BITCOMPL", 42)]

def followers : List String := "RPAREN" :: binaries.map Op.name

def complete : List (Nat × Nat) := [(35, 1), (36, 3), (38, 5), (39, 6), (67, 27), (68, 25), (69, 26), (92, 4)]

def around : List (Nat × String × Lalr.Action) := [(0, "DEF", .shift 2), (2, "MAIN", .shift 3), (3, "LPAREN", .shift 4),
  (4, "RPAREN", .shift 5), (5, "LBRACE", .shift 7), (7, "PRINT", .reduce 30), (8, "PRINT", .shift 20), (20, "LPAREN", .shift 28),
  (43, "RPAREN", .shift 70), (66, "RPAREN", .shift 92), (70, "SEMICOLON", .shift 93), (93, "RBRACE", .reduce 41),
  (13, "RBRACE", .reduce 34), (10, "RBRACE", .reduce 31), (8, "RBRACE", .shift 9), (9, "$end", .reduce 29), (6, "$end", .reduce 28),
  (1, "$end", .accept)]

def ruleRows : List (String × List String) := ("S'", ["program"]) :: phrases.map fun r => (r.1, r.2.takeWhile (· != "%prec"))

@[mk_iff] structure Entries (T : Tables) : Prop where
  rules : (T.rules.toList.map fun p => (p.name, p.symbols)) = ruleRows
  accept : ∀ row ∈ T.actions.toList, ∀ e ∈ row, e.2 = .accept → e.1 = "$end"
  around : ∀ e ∈ around, T.action? e.1 e.2.1 = some e.2.2
  gotos : ∀ e ∈ [(0, "program", 1), (5, "block", 6), (7, "stmts", 8), (8, "stmt", 10), (8, "print", 13)], T.goto? e.1 e.2.1 = some e.2.2
  starts : ∀ p ∈ Place.all, ∀ s ∈ starts, T.action? p.states.1 s.1 = some (.shift s.2)
  expr : ∀ p ∈ Place.all, T.goto? p.states.1 "expr" = some p.states.2
  complete : ∀ e ∈ complete, ∀ t ∈ followers, T.action? e.1 t = some (.reduce e.2)
  admits : ∀ p ∈ Place.all, ∀ o ∈ binaries, p.admits o → T.action? p.states.2 o.name = some (.shift (Place.binary o).states.1)
  closes : ∀ o ∈ binaries, ∀ t ∈ followers, closes o t → T.action? (Place.binary o).states.2 t = some (.reduce (7 + binaries.idxOf o))

set_option maxRecDepth 100000 in
theorem tables_entries : Entries tables := by
  rw [entries_iff]
  decide +kernel

theorem accept_end {k : Nat} {t : String} (h : tables.action? k t = some .accept) : t = "$end" := by
  have hlookup : ((tables.actions[k]?).getD []).lookup t = some .accept := by
    rw [Tables.action?] at h
    split at h <;> simp_all
  rcases hk : tables.actions[k]? with _ | row
  · simp [hk] at hlookup
  · rw [hk, Option.getD_some] at hlookup
    exact tables_entries.accept row (Array.mem_toList_iff.2 (Array.mem_of_getElem? hk)) _ (mem_of_lookup hlookup) rfl

theorem tables_consistent : tables.Consistent := by
  unfold tables
  exact Tables.ofRules_consistent _ _ _ _

end Bx.Structured
