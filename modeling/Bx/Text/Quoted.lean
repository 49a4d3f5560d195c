import Bx.Text.Digits

namespace Bx.Text.Quoted

def isQuote (c : Char) : Bool := c == '\x27' || c == '"'

def letter? : Char → Option Char
  | 'n' => some '\n'
  | 't' => some '\t'
  | 'r' => some '\r'
  | 'a' => some '\x07'
  | 'b' => some '\x08'
  | 'f' => some '\x0c'
  | 'v' => some '\x0b'
  | '\\' => some '\\'
  | '\x27' => some '\x27'
  | '"' => some '"'
  | _ => none

def numbered? (n : Nat) (cs : List Char) : Option (List Char × Nat) :=
  let ds := takeUpTo isHex n cs
  let v := valueOf 16 ds
  if ds.length == n && v.isValidChar then some ([Char.ofNat v], n + 1) else none

def escape? : List Char → Option (List Char × Nat)
  | [] => none
  | '\n' :: _ => some ([], 1)
  | c :: cs => match letter? c with
    | some e => some ([e], 1)
    | none =>
      if isOctal c then
        let ds := takeUpTo isOctal 3 (c :: cs)
        some ([Char.ofNat (valueOf 8 ds)], ds.length)
      else match c with
        | 'x' => numbered? 2 cs
        | 'u' => numbered? 4 cs
        | 'U' => numbered? 8 cs
        | 'N' => none
        | c => some (['\\', c], 1)

def decode : Nat → List Char → Option (List Char)
  | _, [] => some []
  | k + 1, _ :: cs => decode k cs
  | 0, '\\' :: cs => do
    let (here, k) ← escape? cs
    (decode k cs).map (here ++ ·)
  | 0, c :: cs => (decode 0 cs).map (c :: ·)

def cut? (q : Char) : List Char → Option (List Char × List Char)
  | [] => none
  | '\\' :: c :: cs => (cut? q cs).map fun (b, r) => ('\\' :: c :: b, r)
  | c :: cs =>
    if c == q then some ([], cs)
    else if c == '\n' then none
    else (cut? q cs).map fun (b, r) => (c :: b, r)

def cutLong? (q : Char) : List Char → Option (List Char × List Char)
  | [] => none
  | '\\' :: c :: cs => (cutLong? q cs).map fun (b, r) => ('\\' :: c :: b, r)
  | c :: cs =>
    if c == q && cs.take 2 == [q, q] then some ([], cs.drop 2)
    else (cutLong? q cs).map fun (b, r) => (c :: b, r)

def literal? : List Char → Option (List Char × List Char)
  | [] => none
  | q :: cs =>
    if !isQuote q then none else
    let found := if cs.take 2 == [q, q] then cutLong? q (cs.drop 2) else cut? q cs
    found.bind fun (b, r) => (decode 0 b).map (·, r)

/-- The last four are faults: an undefined operator or method, a name, a missing attribute, a position outside. -/
inductive Value
  | text (cs : List Char)
  | number (n : Int)
  | row
  | unsuited
  | unknown
  | absent
  | outside

def Value.isFault : Value → Bool
  | .unsuited | .unknown | .absent | .outside => true
  | _ => false

def Value.combine (f : Value → Value → Value) (l r : Value) : Value :=
  if l.isFault then l else if r.isFault then r else f l r

def plus : Value → Value → Value
  | .text a, .text b => .text (a ++ b)
  | .number a, .number b => .number (a + b)
  | _, _ => .unsuited

def times : Value → Value → Value
  | .text a, .number n | .number n, .text a => .text (List.replicate n.toNat a).flatten
  | .number a, .number b => .number (a * b)
  | _, _ => .unsuited

def isGap (c : Char) : Bool := c == ' ' || c == '\t' || c == '\x0c'

def skipGap : List Char → List Char := List.dropWhile isGap

def isNameStart (c : Char) : Bool := c.isAlpha || c == '_'

def isNameChar (c : Char) : Bool := c.isAlphanum || c == '_'

def keywords : List String :=
  ["and", "as", "else", "for", "if", "in", "is", "lambda", "not", "or"]

def number? (cs : List Char) : Option (Int × List Char) :=
  let (sign, cs) : Int × List Char := match cs with
    | '-' :: cs => (-1, skipGap cs)
    | cs => (1, cs)
  match cs.span Char.isDigit with
  | ([], _) => none
  | (ds, rest) => some (sign * valueOf 10 ds, rest)

def element (v : Value) (k : Int) : Value :=
  match v with
  | .text cs =>
    let k := if k < 0 then k + cs.length else k
    match (if 0 ≤ k then cs[k.toNat]? else none) with
    | some c => .text [c]
    | none => .outside
  | v => if v.isFault then v else .unsuited

def method (name : String) (v : Value) : Value :=
  match v with
  | .text cs => match name with
    | "upper" => .text (cs.map Char.toUpper)
    | "lower" => .text (cs.map Char.toLower)
    | "strip" => .text (((cs.dropWhile Char.isWhitespace).reverse.dropWhile Char.isWhitespace).reverse)
    | _ => .absent
  | v => if v.isFault then v else .absent

def trailers : Nat → Value → List Char → Option (Value × List Char)
  | 0, _, _ => none
  | n + 1, v, cs => match skipGap cs with
    | '[' :: cs => match number? (skipGap cs) with
      | none => none
      | some (k, cs) => match skipGap cs with
        | ']' :: cs => trailers n (element v k) cs
        | _ => none
    | '.' :: cs =>
      let cs := skipGap cs
      let name := String.ofList (cs.takeWhile isNameChar)
      match skipGap (cs.dropWhile isNameChar) with
      | '(' :: cs => match skipGap cs with
        | ')' :: cs => if name.isEmpty then none else trailers n (method name v) cs
        | _ => none
      | cs => if name.isEmpty then none else trailers n (Value.combine (fun _ m => m) (method name v) .unsuited) cs
    | cs => some (v, cs)

def literals : Nat → List Char → List Char → List Char × List Char
  | 0, acc, cs => (acc, cs)
  | n + 1, acc, cs => match literal? (skipGap cs) with
    | some (t, rest) => literals n (acc ++ t) rest
    | none => (acc, cs)

def named : String → Value
  | "True" => .number 1
  | "False" => .number 0
  | "None" => .unsuited
  | _ => .unknown

def operand (n : Nat) (cs : List Char) : Option (Value × List Char) :=
  let cs := skipGap cs
  match literal? cs with
  | some (t, rest) =>
    let (t, rest) := literals n t rest
    trailers n (.text t) rest
  | none => match cs with
    | c :: _ =>
      if c.isDigit || c == '-' then (number? cs).map fun (k, rest) => (.number k, rest)
      else if isNameStart c then
        let name := String.ofList (cs.takeWhile isNameChar)
        if keywords.contains name then none else trailers n (named name) (cs.dropWhile isNameChar)
      else none
    | [] => none

inductive Operator
  | times
  | plus
  | comma
  | other

def operators : List (String × Operator) :=
  (["**", "//", "<<", ">>", "==", "!=", "<=", ">="].map (·, .other)) ++ [("*", .times), ("+", .plus), (",", .comma)] ++
    (["/", "<", ">", "|", "&", "^", "-", "@", "%"].map (·, .other))

def operator? (cs : List Char) : Option (Operator × List Char) :=
  (operators.find? fun (o, _) => o.toList.isPrefixOf cs).map fun (o, kind) => (kind, cs.drop o.length)

def isOver : List Char → Bool
  | [] => true
  | '#' :: cs => match cs.dropWhile (· != '\n') with
    | [] => true
    | _ :: cs => cs.all (· == '\n')
  | '\n' :: cs => cs.all (· == '\n')
  | _ => false

/-- A sum so far, the product at its end, and what a finished row before it makes of it. -/
structure Partial where
  row : Option Value
  sum : Option Value
  product : Value

def Partial.total (p : Partial) : Value := p.sum.elim p.product fun s => Value.combine plus s p.product

def Partial.value (p : Partial) : Value :=
  p.row.elim p.total fun r => Value.combine (fun _ _ => .row) r p.total

def readOn : Nat → Partial → List Char → Option Value
  | 0, _, _ => none
  | n + 1, p, cs =>
    let cs := skipGap cs
    if isOver cs then some p.value else
    match operator? cs with
    | none => none
    | some (o, cs) => match operand n cs with
      | none => none
      | some (v, rest) => readOn n (match o with
        | .times => { p with product := Value.combine times p.product v }
        | .plus => { p with sum := some p.total, product := v }
        | .comma => ⟨some p.value, none, v⟩
        | .other => { p with sum := none, product := Value.combine (fun _ _ => .unsuited) p.total v }) rest

def read? (s : String) : Option Value :=
  if !(s.toList.head?.any isQuote) then none else
  (operand (s.length + 1) s.toList).bind fun (v, rest) => readOn (s.length + 1) ⟨none, none, v⟩ rest

end Bx.Text.Quoted
