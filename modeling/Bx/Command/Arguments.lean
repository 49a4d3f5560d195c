import Bx.Text.Decimal
import Bx.Text.Search

namespace Bx.Command

structure Shape where
  options : List String
  many : Bool

structure Arguments where
  options : List String
  files : List String

inductive Misuse
  | help
  | wrong

def Misuse.exitCode : Misuse → Nat
  | .help => 0
  | .wrong => 2

namespace Shape

def names (s : Shape) : List String := s.options ++ ["-h", "--help"]

inductive Piece
  | word (w : String)
  | option (name : String) (attached : Option String)
  | unknown

def isNegative (w : String) : Bool :=
  match w.toList with
  | '-' :: rest =>
    let rest := if rest.getLast? == some '\n' then rest.dropLast else rest
    match rest.span Text.isDecimal with
    | (ds, []) => !ds.isEmpty
    | (_, '.' :: more) => !more.isEmpty && more.all Text.isDecimal
    | _ => false
  | _ => false

def candidates (s : Shape) (w : String) : List (String × Option String) :=
  if w.startsWith "--" then
    let (name, attached) := match Text.cutAt? '=' w with
      | some (n, v) => (n, some v)
      | none => (w, none)
    (s.names.filter (·.startsWith name)).map fun n => (n, attached)
  else
    let letter := String.ofList (w.toList.take 2)
    let rest := String.ofList (w.toList.drop 2)
    s.names.filterMap fun n => if n == letter then some (n, some rest) else if n.startsWith w then some (n, none) else none

def attached? (s : Shape) (w : String) : Option (String × String) :=
  (Text.cutAt? '=' w).filter fun (n, _) => s.names.contains n

def classify (s : Shape) (w : String) : Except Misuse Piece :=
  if !w.startsWith "-" then .ok (.word w)
  else if s.names.contains w then .ok (.option w none)
  else if w == "-" then .ok (.word w)
  else match s.attached? w with
    | some (n, v) => .ok (.option n (some v))
    | none => match s.candidates w with
      | [(n, v)] => .ok (.option n v)
      | _ :: _ :: _ => .error .wrong
      | [] => .ok (if isNegative w || w.contains ' ' then .word w else .unknown)

def joined (s : Shape) (name : String) (letters : List Char) : Except Misuse (List String) := do
  if name.startsWith "--" || letters.isEmpty then throw .wrong
  let more ← letters.mapM fun c =>
    let n := String.ofList ['-', c]
    if s.names.contains n then .ok n else .error .wrong
  return name :: more

/-- File names stand together: once an option follows them, no more are taken. -/
structure Progress where
  given : Arguments
  closed : Bool
  wrong : Bool

def addFile (s : Shape) (w : String) (p : Progress) : Progress :=
  if p.closed || (!s.many && !p.given.files.isEmpty) then { p with wrong := true }
  else { p with given := { p.given with files := p.given.files ++ [w] } }

def addOptions (names : List String) (p : Progress) : Except Misuse Progress :=
  if names.any fun n => n == "-h" || n == "--help" then .error .help
  else .ok { p with given := { p.given with options := p.given.options ++ names }, closed := !p.given.files.isEmpty }

def read (s : Shape) : List String → Progress → Except Misuse Progress
  | [], p => .ok p
  | "--" :: rest, p => .ok (rest.foldl (fun p w => s.addFile w p) p)
  | w :: rest, p => do
    match ← s.classify w with
    | .word w => read s rest (s.addFile w p)
    | .option n none => read s rest (← addOptions [n] p)
    | .option n (some v) => read s rest (← addOptions (← s.joined n v.toList) p)
    | .unknown => read s rest { p with wrong := true, closed := !p.given.files.isEmpty }

def parse (s : Shape) (argv : List String) : Except Misuse Arguments := do
  let p ← s.read argv ⟨⟨[], []⟩, false, false⟩
  if p.wrong || (!s.many && p.given.files.isEmpty) then throw .wrong
  return p.given

end Shape

def Arguments.has (a : Arguments) (option : String) : Bool := a.options.contains option

def Arguments.count (a : Arguments) (option : String) : Nat := a.options.count option

end Bx.Command
