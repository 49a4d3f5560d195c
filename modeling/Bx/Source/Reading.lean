import Bx.Source.Lexer

namespace Bx.Source

open Bx.Parser

structure Reading where
  errorOk : Bool
  state : Lexer.State Memory

def Reading.start : Reading := ⟨true, .start .start⟩

inductive ReadError (ε : Type)
  | failed (f : Parser.Fault (Lexer.Fault ε))
  | none

def parseSteps (text : String) : Nat := 200 * (text.length + 10)

variable {α ε : Type}

def parse (L : Language Handler Memory α ε) (text : String) (r : Reading) : Except (ReadError ε) α × String × Reading :=
  let s := { r.state with memory := { r.state.memory with output := "" } }
  match L.parse (parseSteps text) r.errorOk (s.feed text) with
  | some (.ok (some v), ok, s) => (.ok v, s.memory.output, ⟨ok, s⟩)
  | some (.error f, ok, s) => (.error (.failed f), s.memory.output, ⟨ok, s⟩)
  | some (.ok none, ok, s) => (.error .none, s.memory.output, ⟨ok, s⟩)
  | none => (.error .none, "", r)

end Bx.Source
