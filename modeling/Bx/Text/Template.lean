namespace Bx.Text.Template

inductive Fault
  | incomplete
  | wide
  | precise
  | noValue

def Fault.message : Fault → String
  | .incomplete => "incomplete format"
  | .wide => "width too big"
  | .precise => "precision too big"
  | .noValue => ""

def isFlag (c : Char) : Bool := ['-', '+', ' ', '#', '0'].contains c

def isSize (c : Char) : Bool := ['h', 'l', 'L'].contains c

def amount (digits : List Char) : Nat := digits.foldl (fun n c => 10 * n + (c.toNat - 48)) 0

def kindFault : List Char → Fault
  | [] => .incomplete
  | [c] => if isSize c then .incomplete else .noValue
  | _ => .noValue

def precisionFault : List Char → Fault
  | '.' :: cs =>
    let (digits, cs) := cs.span Char.isDigit
    if amount digits > 2147483647 then .precise else kindFault cs
  | cs => kindFault cs

def placeFault : List Char → Fault
  | '(' :: _ => .noValue
  | cs =>
    let (digits, cs) := (cs.dropWhile isFlag).span Char.isDigit
    if amount digits > 9223372036854775807 then .wide else precisionFault cs

def fillChars : List Char → Except Fault (List Char)
  | [] => .ok []
  | '%' :: '%' :: cs => (fillChars cs).map ('%' :: ·)
  | '%' :: cs => .error (placeFault cs)
  | c :: cs => (fillChars cs).map (c :: ·)

def fill (s : String) : Except Fault String := (fillChars s.toList).map String.ofList

end Bx.Text.Template
