import Bx.Tac.Instr

namespace Bx.Tac

structure Record where
  opcode : Datum
  args : Datum
  result : Datum
  deriving Inhabited

namespace Record

def of (op : String) (args : List Datum) (result : Datum) : Record := ⟨.str op, .list args, result⟩

def arg (r : Record) (k : Nat) : Datum :=
  match r.args with
  | .list xs | .tuple xs => (xs[k]?).getD .null
  | _ => .null

def toDatum (r : Record) : Datum := .dict [("opcode", r.opcode), ("args", r.args), ("result", r.result)]

def literal (r : Record) : String := "Instr.load(" ++ r.toDatum.literal ++ ")"

def text (r : Record) : String :=
  if r.opcode.is "label" then (r.arg 0).text ++ ":" else
  let head := if r.result.isNull then "  " ++ r.opcode.text else "  " ++ r.result.text ++ " = " ++ r.opcode.text
  let args := if (r.arg 0).isNull then "" else if (r.arg 1).isNull then " " ++ (r.arg 0).text
    else " " ++ (r.arg 0).text ++ ", " ++ (r.arg 1).text
  head ++ args ++ ";"

def ofParts (result op args : Datum) : Except LoadError Record := do
  return ⟨op, .tuple (← args.members.mapError .shape), result⟩

def ofFields (d : Datum) : Except Datum.Fault Record := do
  let op ← d.entry "opcode"
  let args ← d.entry "args"
  let result ← d.entry "result"
  return ⟨op, args, result⟩

end Record

end Bx.Tac
