import Bx.Datum.Literal
import Bx.Regex.Basic

namespace Bx

structure Token where
  type : String
  value : Datum
  line : Int
  pos : Int

def Token.literal (t : Token) : String :=
  "LexToken(" ++ t.type ++ "," ++ t.value.literal ++ "," ++ toString t.line ++ "," ++ toString t.pos ++ ")"

def Token.listing (ts : List Token) : String :=
  String.join (ts.map fun t => "(" ++ t.type ++ "," ++ t.value.literal ++ "," ++ toString t.line ++ "," ++ toString t.pos ++ ")\n")

namespace Lexer

def greeting : String := "Reading from standard input (type EOF to end):\n"

/-- A rule without a handler yields its token as it is, or nothing if it has no type. -/
structure Rule (η : Type) where
  pattern : Regex
  type : Option String
  handler : Option η

/-- Within a group no capture name is used twice. -/
structure Mode (η : Type) where
  groups : List (List (Rule η))
  ignore : List Char
  onError : Option η
  onEnd : Option η

structure State (σ : Type) where
  text : Option (List Char)
  pos : Int
  line : Int
  mode : String
  stack : List String
  memory : σ

def State.start {σ : Type} (memory : σ) : State σ := ⟨none, 0, 1, "INITIAL", [], memory⟩

def State.feed {σ : Type} (s : State σ) (text : String) : State σ := { s with text := some text.toList, pos := 0 }

def State.skip {σ : Type} (s : State σ) (n : Int) : State σ := { s with pos := s.pos + n }

inductive Fault (ε : Type)
  | stuck (c : Char)
  | illegal (c : Char) (pos : Int)
  | outside
  | noText
  | unknownMode (name : String)
  | emptyStack
  | refused
  | numeral (lexeme : String) (e : Text.Numeral.Error)
  | handler (e : ε)

def Fault.message {ε : Type} (text : ε → String) : Fault ε → String
  | .stuck c => "Scanning error. Illegal character " ++ Datum.quote c.toString
  | .illegal c n => "Illegal character " ++ Datum.quote c.toString ++ " at index " ++ toString n
  | .noText => "No input string given with input()"
  | .unknownMode m => "Undefined state " ++ Datum.quote m
  | .emptyStack | .refused | .outside => ""
  | .numeral _ (.tooLong n) => Text.Numeral.tooLongMessage n
  | .numeral s .malformed => "invalid literal for int() with base 10: " ++ String.ofList ((Datum.quote s).toList.take 200)
  | .handler e => text e

/-- A token, nothing, or the first token of another text. -/
inductive Reply
  | token (t : Token)
  | nothing
  | reread (text : String)

end Lexer

open Lexer in
structure Lexer (η : Type) where
  modes : List (String × Mode η)
  literals : List Char

namespace Lexer

variable {η σ ε : Type}

def Mode.rules (m : Mode η) : List (Rule η) := m.groups.flatten

def mode (L : Lexer η) (s : State σ) : Mode η := (L.modes.lookup s.mode).getD ⟨[], [], none, none⟩

abbrev Handling (η σ ε : Type) := η → Token → State σ → Except (Fault ε) Reply × State σ

def begin (L : Lexer η) (name : String) (s : State σ) : Except (Fault ε) Unit × State σ :=
  if (L.modes.lookup name).isSome then (.ok (), { s with mode := name }) else (.error (.unknownMode name), s)

def firstMatch (before : Option Char) (cs : List Char) : List (Rule η) → Option (Rule η × List Char)
  | [] => none
  | r :: rest => match r.pattern.split? before cs with
    | some (lexeme, _) => some (r, lexeme)
    | none => firstMatch before cs rest

def charBefore (text : List Char) : Nat → Option Char
  | 0 => none
  | k + 1 => text[k]?

/-- The character at a position and the one before it, and the text that rules are tried on, with its start. -/
inductive Spot
  | finished
  | outside
  | at (c : Char) (before : Option Char) (front : List Char) (start : Nat)

def spot (text : List Char) : Int → Spot
  | .ofNat n => match text.drop n with
    | [] => .finished
    | c :: cs => .at c (charBefore text n) (c :: cs) n
  | .negSucc k => match text.reverse[k]? with
    | none => .outside
    | some c => .at c none text 0

def textFrom (text : List Char) : Int → List Char
  | .ofNat n => text.drop n
  | .negSucc k => text.drop (text.length - (k + 1))

def number (lexeme : String) : Except (Fault ε) Int := (Text.Numeral.read lexeme).mapError (.numeral lexeme)

def scan (L : Lexer η) (run : Handling η σ ε) :
    Nat → List Char → List Char → Int → State σ → Except (Fault ε) (Option Token) × State σ
  | 0, _, _, _, s => (.ok none, s)
  | fuel + 1, text, ignore, pos, s =>
    let restart (s : State σ) : Except (Fault ε) (Option Token) × State σ :=
      match s.text with
      | some t => scan L run fuel t (L.mode s).ignore s.pos s
      | none => (.error .noText, { s with pos := s.pos + 1 })
    match spot text pos with
    | .outside => (.error .outside, s)
    | .finished => match (L.mode s).onEnd with
      | some h => match run h ⟨"eof", .str "", s.line, pos⟩ { s with pos := pos } with
        | (.error e, s) => (.error e, s)
        | (.ok (.token t), s) => (.ok (some t), s)
        | (.ok .nothing, s) => (.ok none, s)
        | (.ok (.reread more), s) => restart (s.feed more)
      | none => (if s.text.isNone then .error .noText else .ok none, { s with pos := pos + 1 })
    | .at c before front start =>
      if ignore.contains c then scan L run fuel text ignore (pos + 1) s else
      match firstMatch before front (L.mode s).rules with
      | some (r, lexeme) =>
        let stop : Int := start + lexeme.length
        let value := Datum.str (String.ofList lexeme)
        match r.handler with
        | none => match r.type with
          | some type => (.ok (some ⟨type, value, s.line, pos⟩), { s with pos := stop })
          | none => scan L run fuel text ignore stop s
        | some h => match run h ⟨r.type.getD "", value, s.line, pos⟩ { s with pos := stop } with
          | (.error e, s) => (.error e, s)
          | (.ok (.token t), s) => (.ok (some t), s)
          | (.ok .nothing, s) => scan L run fuel text (L.mode s).ignore s.pos s
          | (.ok (.reread more), s) => match restart (s.feed more) with
            | (.ok none, s) => scan L run fuel text (L.mode s).ignore s.pos s
            | r => r
      | none =>
        if L.literals.contains c then
          (.ok (some ⟨c.toString, .str c.toString, s.line, pos⟩), { s with pos := pos + 1 })
        else match (L.mode s).onError with
          | none => (.error (.illegal c pos), { s with pos := pos })
          | some h =>
            let settle (t : Option Token) (s : State σ) : Except (Fault ε) (Option Token) × State σ :=
              if s.pos == pos then (.error (.stuck c), s)
              else match t with
                | some t => (.ok (some t), s)
                | none => scan L run fuel text ignore s.pos s
            let value := Datum.str (String.ofList (textFrom (s.text.getD []) pos))
            match run h ⟨"error", value, s.line, pos⟩ { s with pos := pos } with
            | (.error e, s) => (.error e, s)
            | (.ok (.token t), s) => settle (some t) s
            | (.ok .nothing, s) => settle none s
            | (.ok (.reread more), s) => match restart (s.feed more) with
              | (.ok t, s) => settle t s
              | r => r

def token (L : Lexer η) (run : Handling η σ ε) (s : State σ) : Except (Fault ε) (Option Token) × State σ :=
  let text := s.text.getD []
  scan L run (4 * text.length + 4096) text (L.mode s).ignore s.pos s

end Lexer

end Bx
