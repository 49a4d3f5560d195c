import Bx.Datum
import Bx.Text.Printable

namespace Bx.Datum

def hexDigits (n width : Nat) : String :=
  let ds := Nat.toDigits 16 n
  String.ofList (List.replicate (width - ds.length) '0' ++ ds)

def quoteChar (q c : Char) : String :=
  if c == q || c == '\\' then "\\" ++ c.toString
  else if c == '\n' then "\\n"
  else if c == '\r' then "\\r"
  else if c == '\t' then "\\t"
  else if Text.isPrintable c then c.toString
  else if c.toNat < 0x100 then "\\x" ++ hexDigits c.toNat 2
  else if c.toNat < 0x10000 then "\\u" ++ hexDigits c.toNat 4
  else "\\U" ++ hexDigits c.toNat 8

def quote (s : String) : String :=
  let cs := s.toList
  let q := if cs.contains '\x27' && !cs.contains '"' then '"' else '\x27'
  q.toString ++ String.join (cs.map (quoteChar q)) ++ q.toString

mutual

def literal : Datum → String
  | .null => "None"
  | .bool b => if b then "True" else "False"
  | .int n => toString n
  | .str s => quote s
  | .list xs => "[" ++ ", ".intercalate (literals xs) ++ "]"
  | .tuple [x] => "(" ++ literal x ++ ",)"
  | .tuple xs => "(" ++ ", ".intercalate (literals xs) ++ ")"
  | .dict fields => "\x7b" ++ ", ".intercalate (fieldLiterals fields) ++ "\x7d"

def literals : List Datum → List String
  | [] => []
  | x :: xs => literal x :: literals xs

def fieldLiterals : List (String × Datum) → List String
  | [] => []
  | (k, v) :: rest => (quote k ++ ": " ++ literal v) :: fieldLiterals rest

end

def text : Datum → String
  | .str s => s
  | d => d.literal

end Bx.Datum
