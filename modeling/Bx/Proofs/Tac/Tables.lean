import Bx.Proofs.Lalr.Table
import Bx.Proofs.Parser.Paths
import Bx.Tac.Reader

namespace Bx.Tac.Reader

open List Bx.Parser Lalr

def on (types : List String) (a : Action) : List (String × Action) := types.map fun t => (t, a)

def declStarts : List String := ["VAR", "PROC", "$end"]

def instrStarts : List String := ["LABEL", "TEMP", "GSYM", "OPCODE", "VAR", "PROC", "$end"]

def operandShifts : List (String × Action) := [("TEMP", .shift 32), ("NUM64", .shift 33), ("LABEL", .shift 34), ("GSYM", .shift 35)]

def actionRows : List (List (String × Action)) := [
  /- 0 -/ on declStarts (.reduce 3),
  /- 1 -/ [("$end", .accept), ("VAR", .shift 4), ("PROC", .shift 5)],
  /- 2 -/ on declStarts (.reduce 1),
  /- 3 -/ on declStarts (.reduce 2),
  /- 4 -/ [("GSYM", .shift 6)],
  /- 5 -/ [("GSYM", .shift 7)],
  /- 6 -/ [("EQ", .shift 8)],
  /- 7 -/ [("LPAREN", .shift 10), ("COLON", .reduce 7)],
  /- 8 -/ [("NUM64", .shift 11)],
  /- 9 -/ [("COLON", .shift 12)],
  /- 10 -/ [("RPAREN", .reduce 9), ("TEMP", .shift 15)],
  /- 11 -/ [("SEMICOLON", .shift 16)],
  /- 12 -/ on instrStarts (.reduce 13),
  /- 13 -/ [("RPAREN", .shift 18)],
  /- 14 -/ [("RPAREN", .reduce 8), ("COMMA", .shift 19)],
  /- 15 -/ on ["COMMA", "RPAREN"] (.reduce 10),
  /- 16 -/ on declStarts (.reduce 4),
  /- 17 -/ on declStarts (.reduce 5) ++ [("LABEL", .shift 23), ("TEMP", .shift 24), ("GSYM", .shift 20), ("OPCODE", .reduce 18)],
  /- 18 -/ [("COLON", .reduce 6)],
  /- 19 -/ [("TEMP", .shift 25)],
  /- 20 -/ [("EQ", .shift 26)],
  /- 21 -/ on instrStarts (.reduce 12),
  /- 22 -/ [("OPCODE", .shift 27)],
  /- 23 -/ [("COLON", .shift 28)],
  /- 24 -/ [("EQ", .shift 29)],
  /- 25 -/ on ["COMMA", "RPAREN"] (.reduce 11),
  /- 26 -/ [("OPCODE", .reduce 17)],
  /- 27 -/ ("SEMICOLON", .reduce 21) :: operandShifts,
  /- 28 -/ on instrStarts (.reduce 15),
  /- 29 -/ [("OPCODE", .reduce 16)],
  /- 30 -/ [("SEMICOLON", .shift 36)],
  /- 31 -/ [("COMMA", .shift 37), ("SEMICOLON", .reduce 20)],
  /- 32 -/ on ["COMMA", "SEMICOLON"] (.reduce 22),
  /- 33 -/ on ["COMMA", "SEMICOLON"] (.reduce 23),
  /- 34 -/ on ["COMMA", "SEMICOLON"] (.reduce 24),
  /- 35 -/ on ["COMMA", "SEMICOLON"] (.reduce 25),
  /- 36 -/ on instrStarts (.reduce 14),
  /- 37 -/ operandShifts,
  /- 38 -/ [("SEMICOLON", .reduce 19)]]

def gotos : Nat → List (String × Nat)
  | 0 => [("program", 1)]
  | 1 => [("gvar", 2), ("proc", 3)]
  | 7 => [("procparams", 9)]
  | 10 => [("argtemps", 13), ("argtemps1", 14)]
  | 12 => [("instrs", 17)]
  | 17 => [("instr", 21), ("lhs", 22)]
  | 27 => [("args", 30), ("arg", 31)]
  | 37 => [("arg", 38)]
  | _ => []

def ruleRows : List (String × List String) := ("S'", ["program"]) :: phrases

set_option maxRecDepth 100000 in
theorem tables_rows : tables.actions.toList = actionRows ∧ tables.gotos.toList = (List.range 39).map gotos ∧
    tables.defaulted = [(18, 6), (26, 17), (29, 16), (38, 19)] ∧
    (tables.rules.toList.map fun p => (p.name, p.symbols)) = ruleRows := by
  decide +kernel

def act (k : Nat) (type : String) : Option Action := ((actionRows[k]?).getD []).lookup type

theorem actionRows_ne_refuse : ∀ row ∈ actionRows, ∀ e ∈ row, e.2 ≠ .refuse := by decide

theorem action?_eq (k : Nat) (type : String) : tables.action? k type = act k type := by
  rw [Tables.action?, ← Array.getElem?_toList, tables_rows.1, act]
  split
  · next h =>
      cases hk : actionRows[k]? with
      | none => simp [hk] at h
      | some row =>
        rw [hk, Option.getD_some] at h
        exact absurd rfl (actionRows_ne_refuse row (mem_of_getElem? hk) _ (mem_of_lookup h))
  · next h => rw [h]
  · next h => rw [h]

theorem gotos_eq_nil {k : Nat} (h : 39 ≤ k) : gotos k = [] := by
  rw [gotos.eq_def]
  split <;> first | omega | rfl

theorem goto?_eq (k : Nat) (name : String) : tables.goto? k name = (gotos k).lookup name := by
  rw [Tables.goto?, ← Array.getElem?_toList, tables_rows.2.1, List.getElem?_map]
  by_cases hk : k < 39
  · simp [hk]
  · simp [hk, gotos_eq_nil (Nat.le_of_not_lt hk)]

theorem rules_eq {n : Nat} {name : String} {symbols : List String} (h : ruleRows[n]? = some (name, symbols)) :
    tables.Has n name symbols := Tables.has_of_rows tables_rows.2.2.2 h

theorem tables_consistent : tables.Consistent := by
  unfold tables
  exact Tables.ofRules_consistent _ _ _ _

/-! ### Ways through the automaton -/

def entries : List (Nat × String × Action) :=
  (List.range 39).flatMap fun k => ((actionRows[k]?).getD []).map fun e => (k, e.1, e.2)

theorem mem_entries {k : Nat} {type : String} {a : Action} (h : act k type = some a) : (k, type, a) ∈ entries := by
  have hk : k < 39 := by
    by_contra hk
    rw [act, List.getElem?_eq_none (Nat.le_of_not_lt hk)] at h
    cases h
  exact mem_flatMap.2 ⟨k, List.mem_range.2 hk, mem_map.2 ⟨(type, a), mem_of_lookup h, rfl⟩⟩

def edges : List (Nat × String × Nat) :=
  (entries.filterMap fun e => match e.2.2 with
    | .shift j => some (e.1, e.2.1, j)
    | _ => none) ++ (List.range 39).flatMap fun k => (gotos k).map fun e => (k, e.1, e.2)

theorem mem_edges {k j : Nat} {x : String} (h : tables.Edge k x j) : (k, x, j) ∈ edges := by
  rcases h with h | h
  · rw [action?_eq] at h
    exact mem_append_left _ (mem_filterMap.2 ⟨_, mem_entries h, rfl⟩)
  · rw [goto?_eq] at h
    have hk : k < 39 := by
      by_contra hk
      simp [gotos_eq_nil (Nat.le_of_not_lt hk)] at h
    exact mem_append_right _ (mem_flatMap.2 ⟨k, List.mem_range.2 hk, mem_map.2 ⟨(x, j), mem_of_lookup h, rfl⟩⟩)

def sound (e : Nat × String × Action) : Bool :=
  match e.2.2 with
  | .shift _ => e.2.1 != "$end"
  | .reduce n => (ruleRows[n]?).any fun r => spelled edges r.2.reverse e.1
  | .accept => spelled edges ["program"] e.1
  | .refuse => true

set_option maxRecDepth 10000 in
theorem entries_sound : ∀ e ∈ entries, sound e := by decide +kernel

theorem reduces_row {k n : Nat} (h : tables.Reduces k n) :
    ∃ name symbols, ruleRows[n]? = some (name, symbols) ∧ tables.Spells k symbols := by
  have hentry : ∃ type, (k, type, .reduce n) ∈ entries := by
    rcases h with ⟨type, h⟩ | h
    · exact ⟨type, mem_entries (action?_eq k type ▸ h)⟩
    · rw [tables_rows.2.2.1] at h
      have hmem := mem_of_lookup h
      have : ∀ e ∈ [(18, 6), (26, 17), (29, 16), (38, 19)], ∃ t ∈ ["COLON", "OPCODE", "SEMICOLON"], (e.1, t, .reduce e.2) ∈ entries := by
        decide
      obtain ⟨t, -, ht⟩ := this _ hmem
      exact ⟨t, ht⟩
  obtain ⟨type, hmem⟩ := hentry
  have hs := entries_sound _ hmem
  rw [sound, Option.any_eq_true] at hs
  obtain ⟨⟨name, symbols⟩, hrow, hs⟩ := hs
  exact ⟨name, symbols, hrow, spells_of_spelled (fun _ _ _ => mem_edges) hs⟩

theorem accept_spells {k : Nat} {type : String} (h : tables.action? k type = some .accept) : tables.Spells k ["program"] := by
  have hs : sound (k, type, .accept) := entries_sound _ (mem_entries (action?_eq k type ▸ h))
  exact spells_of_spelled (fun _ _ _ => mem_edges) hs

theorem action?_end_ne_shift (k j : Nat) : tables.action? k "$end" ≠ some (.shift j) := by
  intro h
  have := entries_sound _ (mem_entries (action?_eq k "$end" ▸ h))
  simp [sound] at this

end Bx.Tac.Reader
