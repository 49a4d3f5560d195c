import Bx.Datum
import Bx.Text.Blank

namespace Bx

structure Function where
  name : String
  line : Int
  arity : Nat
  doc : Datum

inductive Definition
  | value (d : Datum)
  | function (f : Function)

structure Declarations where
  file : String
  source : String
  names : List (String × Definition)

namespace Declarations

def value? (d : Declarations) (name : String) : Option Datum :=
  match d.names.lookup name with
  | some (.value v) => some v
  | _ => none

def site (d : Declarations) (line : Int) : String := d.file ++ ":" ++ toString line

def sourceLines (d : Declarations) : List String := if d.source.isEmpty then [] else d.source.splitOn "\n"

def isNameChar (c : Char) : Bool := c.isAlphanum || c == '_'

def definedOn (initial : String) (line : String) : Option String :=
  match line.toList.dropWhile Text.isBlank with
  | 'd' :: 'e' :: 'f' :: c :: rest =>
    if !Text.isBlank c then none else
    let rest := rest.dropWhile Text.isBlank
    let name := rest.takeWhile isNameChar
    if initial.toList.isPrefixOf name && (rest.drop name.length).head? == some '(' then some (String.ofList name)
    else none
  | _ => none

def assignedOn (initial : String) (line : String) : Option String :=
  let rest := line.toList.dropWhile Text.isBlank
  let name := rest.takeWhile isNameChar
  if initial.toList.isPrefixOf name && ((rest.drop name.length).dropWhile Text.isBlank).head? == some '=' then
    some (String.ofList name)
  else none

def redefinitions (named : String → Option String) : Nat → List (String × Nat) → List String → List (Nat × String × Nat)
  | _, _, [] => []
  | line, seen, text :: rest => match named text with
    | none => redefinitions named (line + 1) seen rest
    | some n => match seen.lookup n with
      | some prev => (line, n, prev) :: redefinitions named (line + 1) seen rest
      | none => redefinitions named (line + 1) ((n, line) :: seen) rest

end Declarations

end Bx
