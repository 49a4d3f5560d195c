import Bx.Datum.Literal

namespace Bx.Tac

def isLabelName (s : String) : Bool := s.startsWith "%.L"

def isGlobalName (s : String) : Bool := s.startsWith "@"

def isTempName (s : String) : Bool := s.startsWith "%" && !isLabelName s

def isVarName (s : String) : Bool := s.startsWith "%" || s.startsWith "@"

def tmpRoot (s : String) : String :=
  match s.toList.reverse.dropWhile (· != '.') with
  | _ :: rest => String.ofList rest.reverse
  | [] => s

def tmpVersion (s : String) : String :=
  if s.toList.contains '.' then String.ofList (s.toList.reverse.takeWhile (· != '.')).reverse else ""

namespace Operand

def isVar (d : Datum) : Bool := d.string?.any isVarName

def isInt (d : Datum) : Bool := d.isNumber

def isLabel (d : Datum) : Bool := d.string?.any isLabelName

def isGlobal (d : Datum) : Bool := d.string?.any isGlobalName

def isTemp (d : Datum) : Bool := d.string?.any isTempName

def isUnlocal (d : Datum) : Bool := d.string?.any fun s => !s.startsWith "%"

def isPhiArgs : Datum → Bool
  | .dict fields => fields.all fun f => isVar f.2
  | _ => false

end Operand

inductive Kind
  | nothing | int | var | label | global | phi | optional
  deriving DecidableEq

namespace Kind

def ofLetter? : Char → Option Kind
  | 'N' => some .nothing
  | 'I' => some .int
  | 'V' => some .var
  | 'L' => some .label
  | 'G' => some .global
  | 'F' => some .phi
  | 'O' => some .optional
  | _ => none

def accepts (k : Kind) (d : Datum) : Bool :=
  match k with
  | .nothing => d.isNull
  | .int => Operand.isInt d
  | .var => Operand.isVar d
  | .label => Operand.isLabel d
  | .global => Operand.isGlobal d
  | .phi => Operand.isPhiArgs d
  | .optional => d.isNull || Operand.isVar d

end Kind

def counter {α : Type} (start : Datum) (write : Datum → α) (n : Nat) : List α :=
  let start := if start.truthy then start else .int 0
  (List.range n).map fun (k : Nat) => write (if k = 0 then start else .int (start.number?.getD 0 + k))

end Bx.Tac
