import Bx.Lalr.Table

namespace Bx.Parser

open Grammar Lalr

/-- The end of the input has no position, and a phrase has one only if positions are tracked. -/
structure Symbol (α : Type) where
  type : String
  value : Option α
  line : Option Int
  endLine : Option Int
  pos : Option Int
  endPos : Option Int
  isToken : Bool

variable {α σ ε : Type}

def Symbol.plain (type : String) (value : Option α) : Symbol α := ⟨type, value, none, none, none, none, false⟩

def Symbol.ofToken (type : String) (value : α) (line : Option Int) (pos : Int) : Symbol α :=
  ⟨type, some value, line, none, some pos, none, true⟩

def Symbol.endmark : Symbol α := .plain "$end" none

structure Tables where
  rules : Array Production
  actions : Array (List (String × Action))
  gotos : Array (List (String × Nat))
  defaulted : List (Nat × Nat)

def Tables.action? (T : Tables) (k : Nat) (type : String) : Option Action :=
  match ((T.actions[k]?).getD []).lookup type with
  | some .refuse | none => none
  | some a => some a

def Tables.goto? (T : Tables) (k : Nat) (name : String) : Option Nat := ((T.gotos[k]?).getD []).lookup name

structure Phrase (α : Type) where
  whole : Symbol α
  parts : List (Symbol α)
  below : List (Symbol α)

inductive Event (α : Type)
  | start
  | state (k : Nat)
  | defaulted (k rule : Nat)
  | stack (symbols : List (Symbol α)) (lookahead : Option (Symbol α))
  | shift (k : Nat)
  | reduce (p : Production) (parts : List (Symbol α)) (k : Nat)
  | result (value : Option α)
  | accept (value : Option α)
  | error (symbols : List (Symbol α)) (lookahead : Option (Symbol α))
  | unhandled (token : Option (Symbol α))

/-- Nothing, to go on with a given token, or to start over. -/
inductive Recovery (α : Type)
  | none
  | resume (lookahead : Option (Symbol α))
  | restart

inductive Fault (ε : Type)
  | noPosition
  | emptyStack
  | noGoto (name : String)
  | action (e : ε)

/-- An action answers `none` to call its phrase a syntax error. -/
structure Client (α σ ε : Type) where
  tables : Tables
  tracking : Bool
  recording : Bool
  next : σ → Except ε (Option (Symbol α)) × σ
  position : σ → Int × Int
  reduce : Nat → Phrase α → σ → Except ε (Option (Symbol α)) × σ
  onError : Option (Option (Symbol α) → σ → Except ε (Recovery α) × σ)
  record : Event α → σ → σ
  errorWord : α
  errorToken : Symbol α → α

structure Config (α σ : Type) where
  state : Nat
  states : List Nat
  stack : List (Symbol α)
  lookahead : Option (Symbol α)
  pushed : List (Option (Symbol α))
  errorCount : Nat
  errorOk : Bool
  memory : σ

def Config.initial (errorOk : Bool) (memory : σ) : Config α σ :=
  ⟨0, [0], [.endmark], none, [], 0, errorOk, memory⟩

inductive Outcome (α σ ε : Type)
  | next (c : Config α σ)
  | done (value : Option α) (c : Config α σ)
  | failed (e : Fault ε) (c : Config α σ)

def errorDistance : Nat := 3

variable (C : Client α σ ε)

def Config.record (c : Config α σ) (e : Event α) : Config α σ :=
  if C.recording then { c with memory := C.record e c.memory } else c

def Config.symbols (c : Config α σ) : List (Symbol α) := c.stack.reverse.drop 1

def fetch (c : Config α σ) : Except (Fault ε × Config α σ) (Symbol α × Config α σ) :=
  match c.lookahead, c.pushed with
  | some t, _ => .ok (t, c)
  | none, t :: rest =>
    let t := t.getD .endmark
    .ok (t, { c with lookahead := some t, pushed := rest })
  | none, [] => match C.next c.memory with
    | (.error e, m) => .error (.action e, { c with memory := m })
    | (.ok t, m) =>
      let t := t.getD .endmark
      .ok (t, { c with lookahead := some t, memory := m })

def shift (k : Nat) (c : Config α σ) : Outcome α σ ε :=
  let c := c.record C (.shift k)
  .next { c with
    state := k
    states := k :: c.states
    stack := c.lookahead.getD .endmark :: c.stack
    lookahead := none
    errorCount := c.errorCount - 1 }

def span? (whole : Symbol α) (first last : Symbol α) : Option (Symbol α) := do
  let line ← first.line
  let pos ← first.pos
  let lastLine ← last.line
  let lastPos ← last.pos
  some { whole with
    line := some line
    pos := some pos
    endLine := some (last.endLine.getD lastLine)
    endPos := some (last.endPos.getD lastPos) }

def reject (phrase : Phrase α) (c : Config α σ) : Outcome α σ ε :=
  let c := { c with
    pushed := c.lookahead :: c.pushed
    stack := (phrase.parts.dropLast).reverse ++ phrase.below
    states := c.states.drop 1
    lookahead := some { phrase.whole with type := "error", value := some C.errorWord, isToken := false }
    errorCount := errorDistance
    errorOk := false }
  match c.states with
  | [] => .failed .emptyStack c
  | k :: _ => .next { c with state := k }

def reduce (n : Nat) (c : Config α σ) : Outcome α σ ε :=
  match C.tables.rules[n]? with
  | none => .failed .emptyStack c
  | some p =>
    let len := p.symbols.length
    let parts := (c.stack.take len).reverse
    let below := c.stack.drop len
    let target := match c.states.drop len with
      | [] => none
      | k :: _ => some (C.tables.goto? k p.name)
    match C.recording, target with
    | true, none => .failed .emptyStack c
    | true, some none => .failed (.noGoto p.name) c
    | _, _ =>
      let c := c.record C (.reduce p parts ((target.bind id).getD 0))
      let whole := Symbol.plain p.name none
      let whole? := match C.tracking, parts.head?, parts.getLast? with
        | true, some first, some last => span? whole first last
        | true, _, _ =>
          let (line, pos) := C.position c.memory
          some { whole with line := some line, pos := some pos }
        | false, _, _ => some whole
      match whole? with
      | none => .failed .noPosition c
      | some whole =>
        let phrase : Phrase α := ⟨whole, parts, below⟩
        match C.reduce n phrase c.memory with
        | (.error e, m) => .failed (.action e) { c with memory := m }
        | (.ok none, m) => reject C phrase { c with memory := m }
        | (.ok (some whole), m) =>
          let c := { c with memory := m }.record C (.result whole.value)
          let c := { c with states := c.states.drop len, stack := whole :: below }
          match target with
          | none => .failed .emptyStack c
          | some none => .failed (.noGoto p.name) c
          | some (some k) => .next { c with state := k, states := k :: c.states }

def recover (t : Symbol α) (c : Config α σ) : Outcome α σ ε :=
  if c.states.length ≤ 1 && t.type != "$end" then .next { c with lookahead := none, state := 0, pushed := [] }
  else if t.type == "$end" then .done none c
  else if t.type == "error" then
    match c.stack with
    | [] => .failed .emptyStack c
    | top :: rest =>
      let t? := if C.tracking then
          match top.line, top.pos with
          | some l, some p => some { t with line := some l, pos := some p }
          | _, _ => none
        else some t
      match t?, c.states.drop 1 with
      | none, _ => .failed .noPosition c
      | _, [] => .failed .emptyStack c
      | some t, k :: ks => .next { c with lookahead := some t, stack := rest, states := k :: ks, state := k }
  else match c.stack with
    | [] => .failed .emptyStack c
    | top :: rest =>
      if top.type == "error" then
        if C.tracking then
          match top.line, top.pos with
          | some l, some p =>
            let top := { top with endLine := some (t.line.getD l), endPos := some (t.pos.getD p) }
            .next { c with stack := top :: rest, lookahead := none }
          | _, _ => .failed .noPosition c
        else .next { c with lookahead := none }
      else
        let e : Symbol α := ⟨"error", some (C.errorToken t), t.line, t.line, t.pos, t.pos, false⟩
        .next { c with lookahead := some e, pushed := some t :: c.pushed }

def handleError (t : Symbol α) (c : Config α σ) : Outcome α σ ε :=
  let c := c.record C (.error c.symbols (some t))
  if c.errorCount == 0 || c.errorOk then
    let c := { c with errorCount := errorDistance, errorOk := false }
    let culprit := if t.type == "$end" then none else some t
    match C.onError with
    | some handle => match handle culprit c.memory with
      | (.error e, m) => .failed (.action e) { c with memory := m }
      | (.ok .none, m) => recover C t { c with memory := m }
      | (.ok (.resume ahead), m) => .next { c with memory := m, errorOk := true, lookahead := ahead }
      | (.ok .restart, m) => recover C t { c with memory := m, states := [0], stack := [.endmark] }
    | none =>
      let c := { c with memory := C.record (.unhandled culprit) c.memory }
      if culprit.isNone then .done none c else recover C t c
  else recover C t { c with errorCount := errorDistance }

def unshowable (c : Config α σ) : Bool :=
  match c.lookahead with
  | some t => t.isToken && t.line.isNone
  | none => false

def act (a : Option Action) (t : Symbol α) (c : Config α σ) : Outcome α σ ε :=
  if C.recording && unshowable c then .failed .noPosition c else
  let c := c.record C (.stack c.symbols c.lookahead)
  match a with
  | some (.shift k) => shift C k c
  | some (.reduce n) => reduce C n c
  | some .accept =>
    let v := (c.stack.head?).bind (·.value)
    .done v (c.record C (.accept v))
  | some .refuse | none => handleError C t c

def step (c : Config α σ) : Outcome α σ ε :=
  let c := c.record C (.state c.state)
  match C.tables.defaulted.lookup c.state with
  | some n => act C (some (.reduce n)) .endmark (c.record C (.defaulted c.state n))
  | none => match fetch C c with
    | .error (e, c) => .failed e c
    | .ok (t, c) => act C (C.tables.action? c.state t.type) t c

def run : Nat → Config α σ → Option (Except (Fault ε) (Option α) × Config α σ)
  | 0, _ => none
  | n + 1, c => match step C c with
    | .next c => run n c
    | .done v c => some (.ok v, c)
    | .failed e c => some (.error e, c)

end Bx.Parser
