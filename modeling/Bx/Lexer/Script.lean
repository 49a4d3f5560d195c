import Bx.Lexer.Basic

namespace Bx.Lexer.Script

inductive Action
  | drop
  | countLines
  | toInt
  | retype (type : String)
  | skip (n : Int)
  | push (mode : String)
  | begin (mode : String)
  | pop
  | modeName
  | reread (text : String)
  | refuse
  | idle

def Action.ofText (s : String) : Action :=
  let arg (n : Nat) := String.ofList (s.toList.drop n)
  if s == "drop" then .drop
  else if s == "line" then .countLines
  else if s == "int" then .toInt
  else if s == "pop" then .pop
  else if s == "state" then .modeName
  else if s.startsWith "type:" then .retype (arg 5)
  else if s.startsWith "skip:" then .skip ((arg 5).toInt?.getD 0)
  else if s.startsWith "push:" then .push (arg 5)
  else if s.startsWith "begin:" then .begin (arg 6)
  else if s.startsWith "more:" then .reread (arg 5)
  else .idle

def ofTexts (arity : Nat) (texts : List String) : List Action :=
  if arity == 1 then texts.map .ofText else [.refuse]

/-- Whether the text at hand has been exchanged for another one already. -/
abbrev Memory := Bool

variable (L : Lexer (List Action))

def perform : List Action → Option Token → Token → State Memory → Except (Lexer.Fault Empty) Reply × State Memory
  | [], kept, t, s => (.ok (match kept with | some _ => .token t | none => .nothing), s)
  | a :: rest, kept, t, s => match a with
    | .drop => perform rest none t s
    | .idle => perform rest kept t s
    | .countLines =>
      let n := (t.value.string?.getD "").toList.count '\n'
      perform rest kept t { s with line := s.line + max n 1 }
    | .toInt =>
      match t.value with
      | .str text => match number text with
        | .ok n => perform rest kept { t with value := .int n } s
        | .error e => (.error e, s)
      | _ => perform rest kept t s
    | .retype type => perform rest kept { t with type := type } s
    | .skip n => perform rest kept t (s.skip n)
    | .modeName => perform rest kept { t with value := .str s.mode } s
    | .begin m => match L.begin m s with
      | (.ok _, s) => perform rest kept t s
      | (.error e, s) => (.error e, s)
    | .push m => match L.begin m { s with stack := s.mode :: s.stack } with
      | (.ok _, s) => perform rest kept t s
      | (.error e, s) => (.error e, s)
    | .pop => match s.stack with
      | [] => (.error .emptyStack, s)
      | m :: stack => match L.begin m { s with stack := stack } with
        | (.ok _, s) => perform rest kept t s
        | (.error e, s) => (.error e, s)
    | .refuse => (.error .refused, s)
    | .reread text =>
      if s.memory then perform rest none t s
      else (.ok (.reread text), { s with memory := true })

def handling : Handling (List Action) Memory Empty := fun script t s => perform L script (some t) t s

def bind (L : Lexer String) (script : String → List Action) : Lexer (List Action) where
  literals := L.literals
  modes := L.modes.map fun (n, m) =>
    (n, ⟨m.groups.map fun g => g.map fun r => ⟨r.pattern, r.type, r.handler.map script⟩, m.ignore,
      m.onError.map script, m.onEnd.map script⟩)

def rebind? (L : Lexer String) (old : String → List Action) (new : String → Option (List Action)) :
    Option (Lexer (List Action)) := do
  let initial ← L.modes.lookup "INITIAL"
  let modes ← L.modes.mapM fun (n, m) => do
    let groups ← m.groups.mapM fun g => g.mapM fun r => do
      match r.handler with
      | none => some (⟨r.pattern, r.type, none⟩ : Rule (List Action))
      | some h => some ⟨r.pattern, r.type, some (← new h)⟩
    some (n, (⟨groups.getLast?.toList, m.ignore, none, m.onEnd.map old⟩ : Mode (List Action)), m.onError)
  let _ ← initial.onError
  let modes ← modes.mapM fun (n, m, h) => do
    match h with
    | none => some (n, m)
    | some h => some (n, { m with onError := some (← new h) })
  some ⟨modes, L.literals⟩

def tokens (L : Lexer (List Action)) : Nat → State Memory →
    Array Token × Option (Lexer.Fault Empty) × State Memory
  | 0, s => (#[], none, s)
  | n + 1, s => match L.token (handling L) s with
    | (.error e, s) => (#[], some e, s)
    | (.ok none, s) => (#[], none, s)
    | (.ok (some t), s) =>
      let (ts, e, s) := tokens L n s
      (#[t] ++ ts, e, s)

end Bx.Lexer.Script
