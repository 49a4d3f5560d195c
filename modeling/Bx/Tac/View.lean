import Bx.NameSet
import Bx.Tac.Instr

namespace Bx.Tac

namespace Operand

def tests (loose : Bool) (d : Datum) : List Bool :=
  [isVar d, isInt d, isLabel d] ++ if loose then [isUnlocal d] else [isGlobal d, isPhiArgs d, isTemp d]

end Operand

/-- Once names have been replaced by other values it need not be an instruction, but it can still be shown. -/
structure Pieces where
  opcode : String
  dest : Datum
  first : Datum
  second : Datum

namespace Pieces

def sources (p : Pieces) : List (String × Datum) :=
  match p.first with
  | .dict fields => fields
  | _ => []

def text (p : Pieces) : String :=
  if p.opcode == "label" then p.first.text ++ ":"
  else if p.opcode == "phi" then
    "  " ++ p.dest.text ++ " = phi(" ++ ", ".intercalate (p.sources.map fun (l, t) => l ++ ":" ++ t.text) ++ ");"
  else
    let head := if p.dest.isNull then "  " ++ p.opcode else "  " ++ p.dest.text ++ " = " ++ p.opcode
    let args := if p.first.isNull then "" else if p.second.isNull then " " ++ p.first.text
      else " " ++ p.first.text ++ ", " ++ p.second.text
    head ++ args ++ ";"

variable (f : String → Datum)

def onName (d : Datum) : Datum := d.string?.elim d f

def onTemp (d : Datum) : Datum := if Operand.isTemp d then onName f d else d

def onSources (p : Pieces) : Pieces :=
  match p.first with
  | .dict fields => { p with first := .dict (fields.map fun (l, t) => (l, onName f t)) }
  | _ => p

def onTemps (p : Pieces) : Pieces :=
  onSources f { p with dest := onTemp f p.dest, first := onTemp f p.first, second := onTemp f p.second }

def readsOf (op : String) : Bool × Bool :=
  if op == "param" then (false, true)
  else if (Word.Binop.ofName? op).isSome then (true, true)
  else ((Word.Unop.ofName? op).isSome || (Word.Cond.ofName? op).isSome || op == "copy" || op == "ret", false)

def onReads (p : Pieces) : Pieces :=
  let (a, b) := readsOf p.opcode
  { p with first := if a then onName f p.first else p.first, second := if b then onName f p.second else p.second }

def onAll (p : Pieces) : Pieces :=
  let p := onSources f (onReads f p)
  { p with dest := onName f p.dest }

end Pieces

namespace Instr

def pieces (i : Instr) : Pieces := ⟨i.opcode, optional i.dest, i.operands.1, i.operands.2⟩

def Use.toDatum : Use → Datum
  | .plain x => .str x
  | .along l x => .list [.str l, .str x]

def views (i : Instr) (table : String → Option Datum) (f : String → Datum) : List Datum :=
  let names (xs : List String) : Datum := .list ((NameSet.ofList xs).map .str)
  let p := i.pieces
  [i.toDatum, .str i.text, .str i.literal, .list (i.defs.map .str), .list (i.uses.map Use.toDatum), names i.reads, names i.writes,
    i.jumpDest, .str (p.onTemps fun t => (table t).getD (.str t)).text, .str (p.onTemps f).text, .str (p.onAll f).text,
    .str (p.onReads f).text]

end Instr

end Bx.Tac
