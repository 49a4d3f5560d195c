namespace Bx.Text

def isOctal (c : Char) : Bool := '0' ≤ c && c ≤ '7'

def isHex (c : Char) : Bool := c.isDigit || ('a' ≤ c && c ≤ 'f') || ('A' ≤ c && c ≤ 'F')

def digitValue (c : Char) : Nat :=
  if c.isDigit then c.toNat - 48 else if 'a' ≤ c then c.toNat - 87 else c.toNat - 55

def valueOf (base : Nat) (ds : List Char) : Nat := ds.foldl (fun n d => n * base + digitValue d) 0

def takeUpTo (p : Char → Bool) : Nat → List Char → List Char
  | n + 1, c :: cs => if p c then c :: takeUpTo p n cs else []
  | _, _ => []

end Bx.Text
