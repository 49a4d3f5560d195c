import Bx.Datum
import Bx.Datum.Literal

namespace Bx.Json

open Datum

def escapeUnit (n : Nat) : String := "\\u" ++ hexDigits n 4

def escapeChar (c : Char) : String :=
  match c with
  | '"' => "\\\""
  | '\\' => "\\\\"
  | '\n' => "\\n"
  | '\r' => "\\r"
  | '\t' => "\\t"
  | '\x0c' => "\\f"
  | '\x08' => "\\b"
  | c =>
    let n := c.toNat
    if 32 ≤ n && n < 127 then c.toString
    else if n < 0x10000 then escapeUnit n
    else escapeUnit (0xd800 + (n - 0x10000) / 0x400) ++ escapeUnit (0xdc00 + (n - 0x10000) % 0x400)

def writeString (s : String) : String := "\"" ++ String.join (s.toList.map escapeChar) ++ "\""

mutual

def write : Datum → String
  | .null => "null"
  | .bool b => if b then "true" else "false"
  | .int n => toString n
  | .str s => writeString s
  | .list xs | .tuple xs => "[" ++ ", ".intercalate (writeAll xs) ++ "]"
  | .dict fields => "\x7b" ++ ", ".intercalate (writeFields fields) ++ "\x7d"

def writeAll : List Datum → List String
  | [] => []
  | x :: xs => write x :: writeAll xs

def writeFields : List (String × Datum) → List String
  | [] => []
  | (k, v) :: rest => (writeString k ++ ": " ++ write v) :: writeFields rest

end

def margin (depth : Nat) : String := "\n" ++ String.ofList (List.replicate (2 * depth) ' ')

def block (depth : Nat) (opening closing : String) (parts : List String) : String :=
  if parts.isEmpty then opening ++ closing
  else opening ++ margin (depth + 1) ++ ("," ++ margin (depth + 1)).intercalate parts ++ margin depth ++ closing

mutual

def writeIndented (depth : Nat) : Datum → String
  | .list xs | .tuple xs => block depth "[" "]" (writeIndentedAll (depth + 1) xs)
  | .dict fields => block depth "\x7b" "\x7d" (writeIndentedFields (depth + 1) fields)
  | .null => "null"
  | .bool b => if b then "true" else "false"
  | .int n => toString n
  | .str s => writeString s

def writeIndentedAll (depth : Nat) : List Datum → List String
  | [] => []
  | x :: xs => writeIndented depth x :: writeIndentedAll depth xs

def writeIndentedFields (depth : Nat) : List (String × Datum) → List String
  | [] => []
  | (k, v) :: rest => (writeString k ++ ": " ++ writeIndented depth v) :: writeIndentedFields depth rest

end

end Bx.Json
