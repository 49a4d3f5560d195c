import Bx.Text.Blank

namespace Bx.Text

def digitRuns : List Nat :=
  [48,1632,1776,1984,2406,2534,2662,2790,2918,3046,3174,3302,3430,3558,3664,3792,3872,4160,4240,6112,6160,6470,6608,
   6784,6800,6992,7088,7232,7248,42528,43216,43264,43472,43504,43600,44016,65296,66720,68912,69734,69872,69942,70096,
   70384,70736,70864,71248,71360,71472,71904,72016,72784,73040,73120,92768,92864,93008,120782,120792,120802,120812,
   120822,123200,123632,125264,130032]

def digit? (c : Char) : Option Nat :=
  let n := c.toNat
  if n < 128 then if c.isDigit then some (n - 48) else none
  else (digitRuns.find? fun start => start ≤ n && n < start + 10).map (n - ·)

def isDecimal (c : Char) : Bool := (digit? c).isSome

namespace Numeral

inductive Error
  | tooLong (digits : Nat)
  | malformed

def tooLongMessage (digits : Nat) : String :=
  "Exceeds the limit (4300 digits) for integer string conversion: value has " ++ toString digits ++
    " digits; use sys.set_int_max_str_digits() to increase the limit"

def maxDigits : Nat := 4300

def ofDigits (ds : List Nat) : Nat := ds.foldl (fun n d => 10 * n + d) 0

def isMargin (c : Char) : Bool := isBlank c && !(28 ≤ c.toNat && c.toNat ≤ 31)

def digits? : List Nat → List Char → Option (List Nat × List Char)
  | acc, [] => some (acc.reverse, [])
  | acc, '_' :: c :: rest => match acc, digit? c with
    | _ :: _, some d => digits? (d :: acc) rest
    | _, _ => none
  | acc, c :: rest => match digit? c with
    | some d => digits? (d :: acc) rest
    | none => if c == '_' then none else some (acc.reverse, c :: rest)

def natural (cs : List Char) : Except Error Nat :=
  match digits? [] cs with
  | none | some ([], _) => .error .malformed
  | some (ds, rest) =>
    if ds.length > maxDigits then .error (.tooLong ds.length)
    else if rest.all isMargin then .ok (ofDigits ds)
    else .error .malformed

def read (s : String) : Except Error Int :=
  match s.toList.dropWhile isMargin with
  | '-' :: cs => (natural cs).map fun n => -n
  | '+' :: cs => (natural cs).map fun n => n
  | cs => (natural cs).map fun n => n

end Numeral

end Bx.Text
