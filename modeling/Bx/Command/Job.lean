import Bx.Asm.Body
import Bx.Asm.Procedure
import Bx.Blocks.Optimize
import Bx.Command.Arguments
import Bx.FileName
import Bx.Flow.Dot
import Bx.Flow.Session
import Bx.Json.Reader
import Bx.Json.Writer
import Bx.Procedural.Check
import Bx.Procedural.Lower
import Bx.Procedural.Parser
import Bx.Straight.Document
import Bx.Straight.Lower
import Bx.Straight.Parser
import Bx.Structured.Check
import Bx.Structured.Lower
import Bx.Tac.Reader
import Bx.Tac.Run.Loose
import Bx.Text.Blank

namespace Bx.Command

inductive Call
  | shell (line : String)
  | program (argv : List String)

inductive Error
  | file (e : FileName.Fault)
  | json (e : Json.Error)
  | shape (f : Datum.Fault)
  | refused
  | unexpected (d : Datum)
  | noArgument
  | bothSchemes
  | wrongSuffix (file : String)
  | notCode
  | repeated (name : String)
  | wrongForm
  | unwritable
  | source (e : Source.ReadError Source.SyntaxFault)
  | straight (e : Source.ReadError Straight.Parser.Error)
  | document (e : Straight.Document.Error)
  | straightLoad (e : Straight.LoadError)
  | straightLower (e : Straight.LowerError)
  | structuredCheck (e : Structured.CheckError)
  | structuredLower (e : Structured.LowerError)
  | proceduralCheck (e : Procedural.CheckError)
  | proceduralLower (e : Procedural.LowerError)
  | asm (e : Asm.Error)
  | blocks (e : Blocks.Fault)
  | code (e : Parser.Fault (Lexer.Fault Tac.Reader.Error))
  | load (e : Tac.LoadError)
  | run (e : Tac.Fault)
  | flow (e : Flow.Fault)

def Error.message : Error → String
  | .file e => e.message
  | .json e => e.message
  | .unexpected d => d.text
  | .bothSchemes => "Cannot use both --tmm and --bmm"
  | .wrongSuffix f => f ++ " does not end in .tac.json or .json"
  | .notCode => "TAC file must be a .tac or a .tac.json"
  | .repeated x => "Repeated definition of " ++ x
  | .wrongForm => "You should either provide only 1 argument (a file name), or -o followed with 2 filenames (input and output)!"
  | _ => ""

inductive Stop
  | exit (code : Nat)
  | failure (e : Error)

structure Desk where
  files : List (String × String)
  output : String
  calls : List Call
  reading : Source.Reading

def Desk.start (files : List (String × String)) : Desk := ⟨files.map fun (n, t) => (FileName.normal n, t), "", [], .start⟩

abbrev Job := ExceptT Stop (StateM Desk)

def fail {α : Type} (e : Error) : Job α := throw (.failure e)

def lift {ε α : Type} (wrap : ε → Error) (r : Except ε α) : Job α :=
  match r with
  | .ok a => pure a
  | .error e => fail (wrap e)

def require (b : Bool) : Job Unit := if b then pure () else fail .refused

def write (text : String) : Job Unit := modify fun d => { d with output := d.output ++ text }

def say (line : String) : Job Unit := write (line ++ "\n")

def call (c : Call) : Job Unit := modify fun d => { d with calls := d.calls ++ [c] }

def resolve (writing : Bool) (name : String) : Job String := do
  lift .file (FileName.resolve ((← get).files.map (·.1)) writing name)

def readRaw (name : String) : Job String := do
  let name ← resolve false name
  return ((← get).files.lookup name).getD ""

def readText (name : String) : Job String := return Text.unifyNewlines (← readRaw name)

def writeFile (name text : String) : Job Unit := do
  let name ← resolve true name
  modify fun d => { d with files := Datum.put name text d.files }

def writePieces {ε : Type} (wrap : ε → Error) (name : String) (pieces : List (Except ε String)) : Job Unit := do
  writeFile name (String.join ((pieces.takeWhile Except.isOk).filterMap Except.toOption))
  pieces.forM fun p => do
    let _ ← lift wrap p

def readJson (name : String) : Job Datum := do lift .json (Json.read (← readRaw name))

def readBytes (name : String) : Job Datum := do lift .json (Json.read (Json.dropMark (← readRaw name)))

def writeJson (name : String) (d : Datum) : Job Unit := writeFile name (Json.write d)

def writeLines (name : String) (lines : List String) : Job Unit := writeFile name ("\n".intercalate lines ++ "\n")

def report (source made : String) : Job Unit := say (source ++ " -> " ++ made)

def arguments (s : Shape) (argv : List String) : Job Arguments :=
  match s.parse argv with
  | .ok a => pure a
  | .error m => throw (.exit m.exitCode)

def entry (d : Datum) (key : String) : Job Datum := lift .shape (d.entry key)

def members (d : Datum) : Job (List Datum) := lift .shape d.members

end Bx.Command
