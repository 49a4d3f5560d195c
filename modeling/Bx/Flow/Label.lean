import Bx.Datum.Literal

namespace Bx.Flow

inductive Label
  | name (s : String)
  | number (n : Int)
  | truth (b : Bool)
  | nothing
  deriving DecidableEq

namespace Label

def ofDatum? : Datum → Option Label
  | .str s => some (.name s)
  | .int n => some (.number n)
  | .bool b => some (.truth b)
  | .null => some .nothing
  | .list _ | .tuple _ | .dict _ => none

def toDatum : Label → Datum
  | .name s => .str s
  | .number n => .int n
  | .truth b => .bool b
  | .nothing => .null

def text (l : Label) : String := l.toDatum.text

def before : Label → Label → Bool
  | .name a, .name b => a < b
  | .number a, .number b => a < b
  | .name _, _ => true
  | .number _, .truth _ | .number _, .nothing => true
  | .truth a, .truth b => !a && b
  | .truth _, .nothing => true
  | _, _ => false

end Label

abbrev LabelSet := List Label

namespace LabelSet

def insert (x : Label) : LabelSet → LabelSet
  | [] => [x]
  | y :: rest => if x = y then y :: rest else if x.before y then x :: y :: rest else y :: insert x rest

end LabelSet

end Bx.Flow
