import Bx.Command.Tool

open Bx.Command

def readFile? (name : String) : IO (Option (String × String)) := do
  try
    return some (name, ← IO.FS.readFile name)
  catch _ => return none

def Bx.Command.Call.text : Call → String
  | .shell line => line
  | .program argv => " ".intercalate argv

def main (args : List String) : IO UInt32 := do
  let some t := args.head?.bind Tool.ofName?
    | IO.eprintln ("Tools: " ++ ", ".intercalate (Tool.all.map Tool.name))
      return 2
  let argv := args.drop 1
  let files := (← argv.mapM readFile?).filterMap id
  let o := t.run t.name argv files
  IO.print o.desk.output
  (o.changed files).forM fun (name, text) => IO.FS.writeFile name text
  o.desk.calls.forM fun c => IO.eprintln c.text
  match o.result with
  | .ok code => return code.toUInt32
  | .error e =>
    IO.eprintln e.message
    return 1
