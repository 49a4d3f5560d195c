import Bx.Grammar.Analysis
import Bx.Lalr.Lookahead
import Bx.Text.Pad

namespace Bx.Lalr

open Grammar

/-- A refusal stands where an operator does not associate. -/
inductive Action
  | shift (state : Nat)
  | reduce (rule : Nat)
  | accept
  | refuse
  deriving DecidableEq, Inhabited

def Action.code? : Action → Option Int
  | .shift k => some k
  | .reduce n => some (-n)
  | .accept => some 0
  | .refuse => none

structure ShiftReduce where
  state : Nat
  token : String
  shifted : Bool

structure ReduceReduce where
  state : Nat
  chosen : Nat
  rejected : Nat
  deriving DecidableEq

inductive Conflict
  | unknown (state : Nat)
  | shiftShift (state : Nat)
  | noLookahead (state : Nat)
  /-- Levels or lines that do not compare. -/
  | unordered

def Conflict.message : Conflict → String
  | .unknown k => "Unknown conflict in state " ++ toString k
  | .shiftShift k => "Shift/shift conflict in state " ++ toString k
  | .noLookahead k => toString k
  | .unordered => ""

structure Table where
  actions : Array (List (String × Action))
  gotos : Array (List (String × Nat))
  shiftReduce : List ShiftReduce
  reduceReduce : List ReduceReduce
  reduced : List (Nat × Int)
  log : Array String

structure Row where
  actions : List (String × Action)
  items : List (String × Item)
  wishes : List (String × Item × String)
  shiftReduce : List ShiftReduce
  reduceReduce : List ReduceReduce
  reduced : List (Nat × Int)
  log : List String

variable (R : Rules)

def precedenceOf (s : String) : Precedence := (R.grammar.precedence.lookup s).getD .none

def Rules.prec (n : Nat) : Precedence := ((R.table[n]?).map (·.prec)).getD .none

def Rules.line (n : Nat) : Datum := ((R.table[n]?).map (·.site.line)).getD (.int 0)

def before (row : Row) (a b : Datum) : Except (Conflict × List String) Bool :=
  (a.before? b).elim (.error (.unordered, row.log)) .ok

def Row.count (row : Row) (n : Nat) (d : Int) : Row :=
  { row with reduced := (n, (row.reduced.lookup n).getD 0 + d) :: row.reduced.filter (·.1 != n) }

def Row.set (row : Row) (a : String) (act : Action) (i : Item) : Row :=
  { row with actions := Datum.put a act row.actions, items := Datum.put a i row.items }

def Row.note (row : Row) (k : Nat) (a : String) (shifted : Bool) : Row :=
  { row with
    shiftReduce := row.shiftReduce ++ [⟨k, a, shifted⟩]
    log := row.log ++ ["  ! shift/reduce conflict for " ++ a ++ " resolved as " ++ if shifted then "shift" else "reduce"] }

def entry? (row : Row) (a : String) : Option Action :=
  match row.actions.lookup a with
  | some .refuse | none => none
  | some act => some act

def reduceOn (k : Nat) (i : Item) (row : Row) (a : String) : Except (Conflict × List String) Row :=
  let n := i.rule
  let row := { row with wishes := row.wishes ++
    [(a, i, "reduce using rule " ++ toString n ++ " (" ++ i.text ++ ")")] }
  match entry? row a with
  | none => .ok ((row.set a (.reduce n) i).count n 1)
  | some (.shift _) => do
    let s := precedenceOf R a
    let r := R.prec n
    if (← before row s.level r.level) || (s.level.same r.level && r.assoc == .left) then
      let row := row.set a (.reduce n) i
      let row := if !s.level.truthy && !r.level.truthy then row.note k a false else row
      .ok (row.count n 1)
    else if s.level.same r.level && r.assoc == .nonassoc then
      .ok { row with actions := Datum.put a .refuse row.actions }
    else .ok (if !r.level.truthy then row.note k a true else row)
  | some (.reduce m) => do
    let (row, chosen, rejected) :=
      if ← before row (R.line n) (R.line m) then (((row.set a (.reduce n) i).count n 1).count m (-1), n, m)
      else (row, m, n)
    let held := (row.items.lookup a).getD i
    .ok { row with
      reduceReduce := row.reduceReduce ++ [⟨k, chosen, rejected⟩]
      log := row.log ++ ["  ! reduce/reduce conflict for " ++ a ++ " resolved using rule " ++
        toString held.rule ++ " (" ++ held.text ++ ")"] }
  | some _ => .error (.unknown k, row.log)

def shiftOn (k : Nat) (i : Item) (a : String) (j : Nat) (row : Row) : Except (Conflict × List String) Row :=
  let row := { row with wishes := row.wishes ++ [(a, i, "shift and go to state " ++ toString j)] }
  match entry? row a with
  | none => .ok (row.set a (.shift j) i)
  | some (.shift m) => if m == j then .ok row else .error (.shiftShift k, row.log)
  | some (.reduce _) => do
    let n := ((row.items.lookup a).getD i).rule
    let s := precedenceOf R a
    let r := R.prec n
    if (← before row r.level s.level) || (s.level.same r.level && r.assoc == .right) then
      let row := (row.count n (-1)).set a (.shift j) i
      .ok (if !r.level.truthy then row.note k a true else row)
    else if s.level.same r.level && r.assoc == .nonassoc then
      .ok { row with actions := Datum.put a .refuse row.actions }
    else .ok (if !s.level.truthy && !r.level.truthy then row.note k a false else row)
  | some _ => .error (.unknown k, row.log)

def fillItem (k : Nat) (st : State) (la : List (Nat × Bag)) (row : Row) (i : Item) :
    Except (Conflict × List String) Row :=
  match i.next? with
  | none =>
    if i.rule == 0 then .ok (row.set "$end" .accept i)
    else match la.lookup i.rule with
      | none => .error (.noLookahead k, row.log)
      | some b => (R.terminalsOf b).foldlM (reduceOn R k i) row
  | some a =>
    if R.grammar.isTerminal a then
      match st.moves.lookup a with
      | some j => shiftOn R k i a j row
      | none => .ok row
    else .ok row

def wishLines (row : Row) : List String :=
  let stands := fun (w : String × Item × String) => row.items.lookup w.1 == some w.2.1
  let known := row.wishes.filter fun w => (row.actions.lookup w.1).isSome
  let kept := known.filter stands
  let lost := (known.filter fun w => !stands w).foldl
    (fun (acc : List (String × String)) w =>
      if acc.contains (w.1, w.2.2) || kept.any (fun v => v.1 == w.1 && v.2.2 == w.2.2) then acc
      else acc ++ [(w.1, w.2.2)]) []
  kept.map (fun w => "    " ++ Text.padRight 15 w.1 ++ " " ++ w.2.2) ++ [""] ++
    lost.map (fun (a, m) => "  ! " ++ Text.padRight 15 a ++ " [ " ++ m ++ " ]") ++ if lost.isEmpty then [] else [""]

def gotoRow (st : State) : List (String × Nat) :=
  st.moves.filter fun m => R.grammar.isNonterminal m.1

def fillState (k : Nat) (st : State) (la : List (Nat × Bag)) (t : Table) :
    Except (Conflict × Array String) Table :=
  let header := ["", "state " ++ toString k, ""] ++
    st.items.map (fun i => "    (" ++ toString i.rule ++ ") " ++ i.text) ++ [""]
  match st.items.foldlM (fillItem R k st la) ⟨[], [], [], t.shiftReduce, t.reduceReduce, t.reduced, []⟩ with
  | .error (e, more) => .error (e, t.log ++ header ++ more)
  | .ok row =>
    let gotos := gotoRow R st
    .ok {
      actions := t.actions.push row.actions
      gotos := t.gotos.push gotos
      shiftReduce := row.shiftReduce
      reduceReduce := row.reduceReduce
      reduced := row.reduced
      log := t.log ++ header ++ row.log ++ wishLines row ++
        gotos.map fun (s, j) => "    " ++ Text.padRight 30 s ++ " shift and go to state " ++ toString j }

inductive Failure
  | grammar (e : Grammar.Error)
  | conflict (c : Conflict) (log : Array String)

/-- How often each rule is reduced, and the stamps of the closures. -/
structure Memory where
  reduced : List (Nat × Int)
  stamps : List (Nat × Nat)

def Memory.empty : Memory := ⟨[], []⟩

def build (g : Grammar) (memory : Memory) : Except Failure Table × Grammar × Memory :=
  match g.augmented with
  | none => (.error (.grammar .notAugmented), g, memory)
  | some start => match g.computeFirst with
    | (.error e, g) => (.error (.grammar e), g, memory)
    | (.ok _, g) => match g.computeFollow none with
      | (.error e, g) => (.error (.grammar e), g, memory)
      | (.ok _, g) =>
        let R := Rules.ofGrammar g start
        let (states, stamps) := automaton R ⟨0, memory.stamps⟩
        let la := lookaheads R states
        let start : Table := ⟨#[], #[], [], [], memory.reduced, #[]⟩
        match (states.zip la).zipIdx.foldlM (fun t ((st, la), k) => fillState R k st la t) start with
        | .error (c, log) => (.error (.conflict c log), g, { memory with stamps := stamps.last })
        | .ok t => (.ok t, g, ⟨t.reduced, stamps.last⟩)

def Table.defaulted? (t : Table) : Option (List (Nat × Nat)) :=
  t.actions.toList.zipIdx.foldlM (fun acc (row, k) => match row with
    | [(_, .reduce n)] => some (acc ++ [(k, n)])
    | [(_, .refuse)] => none
    | _ => some acc) []

end Bx.Lalr
