import Bx.Parser.Declarations

namespace Bx.Parser.Tree

open Grammar Lalr

inductive Value
  | datum (d : Datum)
  | token (type literal : String)

def Value.toDatum : Value → Datum
  | .datum d => d
  | .token type _ => .list [.str "error-token", .str type]

def Value.literal : Value → String
  | .datum d => d.literal
  | .token _ l => l

def kindName : Value → String
  | .datum .null => "NoneType"
  | .datum (.bool _) => "bool"
  | .datum (.int _) => "int"
  | .datum (.str _) => "str"
  | .datum (.list _) => "list"
  | .datum (.tuple _) => "tuple"
  | .datum (.dict _) => "dict"
  | .token _ _ => "LexToken"

abbrev Sym := Symbol Value

def valueOf (s : Sym) : Value := s.value.getD (.datum .null)

def symbolText (s : Sym) : String :=
  if s.isToken then
    "LexToken(" ++ s.type ++ "," ++ (valueOf s).literal ++ "," ++ toString (s.line.getD 0) ++ "," ++
      toString (s.pos.getD 0) ++ ")"
  else s.type

def stackText (symbols : List Sym) (ahead : Option Sym) : String :=
  let ahead := (ahead.map symbolText).getD "None"
  if symbols.isEmpty then ". " ++ ahead else " ".intercalate (symbols.map (·.type)) ++ " . " ++ ahead

def entryText (v : Value) : String :=
  let l := v.literal
  if l.length < 16 then l else "<" ++ kindName v ++ " @>"

def resultText (v : Option Value) : String :=
  let v := v.getD (.datum .null)
  let l := v.literal
  "<" ++ kindName v ++ " @> (" ++ (if l.length > 40 then String.ofList (l.toList.take 40) ++ " ..." else l) ++ ")"

def eventLines : Event Value → List String
  | .start => ["PLY: PARSE DEBUG START"]
  | .state k => ["State  : " ++ toString k]
  | .defaulted k n => ["Defaulted state " ++ toString k ++ ": Reduce using " ++ toString n]
  | .stack symbols ahead => ["Stack  : " ++ stackText symbols ahead]
  | .shift k => ["Action : Shift and goto state " ++ toString k]
  | .reduce p parts k => ["Action : Reduce rule [" ++ p.text ++ "] with [" ++
      ",".intercalate (parts.map fun s => entryText (valueOf s)) ++ "] and goto state " ++ toString k]
  | .result v => ["Result : " ++ resultText v]
  | .accept v => ["Done   : Returning " ++ resultText v, "PLY: PARSE DEBUG END"]
  | .error symbols ahead => ["ERROR: Error  : " ++ stackText symbols ahead]
  | .unhandled _ => []

def complaint (token : Option Sym) : String :=
  match token with
  | none => "yacc: Parse error in input. EOF\n"
  | some t =>
    let line := t.line.getD 0
    if line == 0 then "yacc: Syntax error, token=" ++ t.type
    else "yacc: Syntax error at line " ++ toString line ++ ", token=" ++ t.type ++ "\n"

/-- What happens on a syntax error. -/
inductive Policy
  | unhandled | pass | giveUp | resume | restart

structure Options where
  tracking : Bool
  recording : Bool
  merged : Bool
  spans : Bool
  probe : Bool
  /-- Rules whose action calls its phrase a syntax error. -/
  rejecting : List Nat
  /-- Rules whose action moves its phrase to another line and position. -/
  moved : List (Nat × Int × Int)
  policy : Policy
  /-- Whether the trace tells the place of an error. -/
  located : Bool

inductive Fault (ε : Type)
  | syntaxError
  | noPosition
  | source (e : ε)

structure Source (τ ε : Type) where
  next : τ → Except ε (Option Sym) × τ
  position : τ → Int × Int

structure Memory (τ : Type) where
  source : τ
  trace : Array Datum
  log : Array String
  complaints : String

variable {τ ε : Type}

def extent (s : Sym) : Datum :=
  let line := s.line.getD 0
  let pos := s.pos.getD 0
  .list [.int line, .int line, .int (s.endLine.getD line), .int pos, .int pos, .int (s.endPos.getD pos)]

def look (whole : Sym) (phrase : Phrase Value) : Option Datum :=
  if phrase.parts.any fun s => s.isToken && s.line.isNone then none
  else some (.dict [
    ("slice", .str ("[" ++ ", ".intercalate ((whole :: phrase.parts).map symbolText) ++ "]")),
    ("values", .list (phrase.parts.map fun s => (valueOf s).toDatum)),
    ("left", match phrase.below with
      | s :: _ :: _ => (valueOf s).toDatum
      | _ => .null)])

def apply (o : Options) (k : Nat) (phrase : Phrase Value) (m : Memory τ) :
    Except (Fault ε) (Option Sym) × Memory τ :=
  let m := { m with trace := m.trace.push (.int k) }
  if o.rejecting.contains k then (.ok none, m) else
  let whole := match o.moved.lookup k with
    | some (line, pos) => { phrase.whole with line := some line, pos := some pos }
    | none => phrase.whole
  let parts := .str whole.type :: phrase.parts.map fun s => (valueOf s).toDatum
  let parts := if o.spans then parts ++ [.list ((whole :: phrase.parts).map extent)] else parts
  if o.probe then
    match look whole phrase with
    | some d => (.ok (some { whole with value := some (.datum (.list (parts ++ [d]))) }), m)
    | none => (.error .noPosition, m)
  else (.ok (some { whole with value := some (.datum (.list parts)) }), m)

def place (o : Options) (t : Sym) : String :=
  if o.located then ":" ++ toString (t.line.getD 0) ++ ":" ++ toString (t.pos.getD 0) else ""

def next (S : Source τ ε) (m : Memory τ) : Except (Fault ε) (Option Sym) × Memory τ :=
  let (r, s) := S.next m.source
  (r.mapError .source, { m with source := s })

def handle (S : Source τ ε) (o : Options) (token : Option Sym) (m : Memory τ) :
    Except (Fault ε) (Recovery Value) × Memory τ :=
  let word := match token with
    | some t => "error:" ++ t.type ++ place o t
    | none => "error:EOF"
  let m := { m with trace := m.trace.push (.str word) }
  match o.policy with
  | .giveUp => (.error .syntaxError, m)
  | .restart => (.ok .restart, m)
  | .resume => match token with
    | none => (.ok .none, m)
    | some _ => match next S m with
      | (.ok t, m) => (.ok (.resume t), m)
      | (.error e, m) => (.error e, m)
  | .pass | .unhandled => (.ok .none, m)

def ruleNumber? (p : Production) : Option Nat :=
  if p.action.startsWith "p_" then (String.ofList (p.action.toList.drop 2)).toNat? else none

def client (T : Tables) (S : Source τ ε) (o : Options) : Client Value (Memory τ) (Fault ε) where
  tables := T
  tracking := o.tracking
  recording := o.recording
  next := next S
  position := fun m => S.position m.source
  reduce := fun n phrase m => match (T.rules[n]?).bind ruleNumber? with
    | some k => apply o k phrase m
    | none => (.ok (some { phrase.whole with value := some (.datum .null) }), m)
  onError := match o.policy with
    | .unhandled => none
    | _ => some (handle S o)
  record := fun e m => match e with
    | .unhandled t => { m with complaints := m.complaints ++ complaint t }
    | e =>
      if o.merged then { m with complaints := m.complaints ++ String.join ((eventLines e).map (· ++ "\n")) }
      else { m with log := m.log ++ (eventLines e).toArray }
  errorWord := .datum (.str "error")
  errorToken := fun t => .token t.type (symbolText t)

def parse (T : Tables) (S : Source τ ε) (o : Options) (fuel : Nat) (errorOk : Bool) (source : τ) :
    Option (Except (Parser.Fault (Fault ε)) (Option Value) × Bool × Memory τ) :=
  let C := client T S o
  let c : Config Value (Memory τ) := Config.initial errorOk ⟨source, #[], #[], ""⟩
  (run C fuel (c.record C .start)).map fun (r, c) => (r, c.errorOk, c.memory)

/-- A text of token names: each line is a list of names. -/
structure Names where
  ahead : List (String × Option Int × Int)
  line : Int
  pos : Int

def Names.ofText (first : Option Int) (text : String) : Names :=
  let ahead := ((text.splitOn "\n").zipIdx.flatMap fun (l, i) =>
    (Text.words l).zipIdx.map fun (w, j) => (w, first.map (· + (i : Int)), (j : Int)))
  ⟨ahead, 1, 0⟩

def Names.source : Source Names Empty where
  next := fun s => match s.ahead with
    | [] => (.ok none, s)
    | (w, line, pos) :: rest =>
      (.ok (some (.ofToken w (.datum (.str w.toLower)) line pos)), ⟨rest, line.getD 0, pos⟩)
  position := fun s => (s.line, s.pos)

end Bx.Parser.Tree
