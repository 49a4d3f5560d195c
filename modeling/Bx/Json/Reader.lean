import Bx.Datum
import Bx.Text.Decimal

namespace Bx.Json

open Datum

def skipBlank : List Char → List Char :=
  List.dropWhile fun c => c == ' ' || c == '\t' || c == '\n' || c == '\r'

def hexValue? (c : Char) : Option Nat :=
  if '0' ≤ c && c ≤ '9' then some (c.toNat - 48)
  else if 'a' ≤ c && c ≤ 'f' then some (c.toNat - 87)
  else if 'A' ≤ c && c ≤ 'F' then some (c.toNat - 55)
  else none

def unit? : List Char → Option (Nat × List Char)
  | a :: b :: c :: d :: rest => do
    let n := (((← hexValue? a) * 16 + (← hexValue? b)) * 16 + (← hexValue? c)) * 16 + (← hexValue? d)
    some (n, rest)
  | _ => none

def escape? (c : Char) : Option Char :=
  match c with
  | '"' => some '"'
  | '\\' => some '\\'
  | '/' => some '/'
  | 'b' => some '\x08'
  | 'f' => some '\x0c'
  | 'n' => some '\n'
  | 'r' => some '\r'
  | 't' => some '\t'
  | _ => none

def string? : Nat → List Char → List Char → Option (String × List Char)
  | 0, _, _ => none
  | _ + 1, _, [] => none
  | _ + 1, acc, '"' :: rest => some (String.ofList acc.reverse, rest)
  | n + 1, acc, '\\' :: 'u' :: rest => do
    let (hi, rest) ← unit? rest
    if 0xd800 ≤ hi && hi < 0xdc00 then
      match rest with
      | '\\' :: 'u' :: tail =>
        let (lo, tail) ← unit? tail
        if 0xdc00 ≤ lo && lo < 0xe000 then
          string? n (Char.ofNat (0x10000 + (hi - 0xd800) * 0x400 + (lo - 0xdc00)) :: acc) tail
        else string? n ('�' :: acc) rest
      | _ => string? n ('�' :: acc) rest
    else string? n (Char.ofNat hi :: acc) rest
  | n + 1, acc, '\\' :: c :: rest => do string? n ((← escape? c) :: acc) rest
  | n + 1, acc, c :: rest => if c.toNat < 32 then none else string? n (c :: acc) rest

inductive Error
  | malformed
  | tooLong (digits : Nat)

def Error.message : Error → String
  | .malformed => ""
  | .tooLong n => Text.Numeral.tooLongMessage n

def natural (cs : List Char) : Except Error (Nat × List Char) :=
  match cs.span Char.isDigit with
  | ([], _) => .error .malformed
  | ('0' :: _ :: _, _) => .ok (0, cs.tail)
  | (ds, rest) =>
    if ds.length > Text.Numeral.maxDigits then .error (.tooLong ds.length)
    else .ok (Text.Numeral.ofDigits (ds.map fun d => d.toNat - 48), rest)

def orMalformed {α : Type} (r : Option α) : Except Error α := r.elim (.error .malformed) .ok

def keyword? (word : String) (cs : List Char) : Option (List Char) :=
  if word.toList.isPrefixOf cs then some (cs.drop word.length) else none

mutual

def value : Nat → List Char → Except Error (Datum × List Char)
  | 0, _ => .error .malformed
  | n + 1, cs => match cs with
    | '"' :: rest => orMalformed ((string? n [] rest).map fun (s, rest) => (.str s, rest))
    | '[' :: rest => match skipBlank rest with
      | ']' :: rest => .ok (.list [], rest)
      | rest => (elements n rest).map fun (xs, rest) => (.list xs, rest)
    | '\x7b' :: rest => match skipBlank rest with
      | '\x7d' :: rest => .ok (.dict [], rest)
      | rest => (fields n [] rest).map fun (fs, rest) => (.dict fs, rest)
    | 'n' :: _ => orMalformed ((keyword? "null" cs).map (.null, ·))
    | 't' :: _ => orMalformed ((keyword? "true" cs).map (.bool true, ·))
    | 'f' :: _ => orMalformed ((keyword? "false" cs).map (.bool false, ·))
    | '-' :: rest => (natural rest).map fun (m, rest) => (.int (-m), rest)
    | _ => (natural cs).map fun (m, rest) => (.int m, rest)

def elements : Nat → List Char → Except Error (List Datum × List Char)
  | 0, _ => .error .malformed
  | n + 1, cs => do
    let (x, rest) ← value n cs
    match skipBlank rest with
    | ',' :: rest => do
      let (xs, rest) ← elements n (skipBlank rest)
      return (x :: xs, rest)
    | ']' :: rest => return ([x], rest)
    | _ => throw .malformed

def fields : Nat → List (String × Datum) → List Char → Except Error (List (String × Datum) × List Char)
  | 0, _, _ => .error .malformed
  | n + 1, acc, cs => match cs with
    | '"' :: rest => do
      let (k, rest) ← orMalformed (string? n [] rest)
      match skipBlank rest with
      | ':' :: rest => do
        let (v, rest) ← value n (skipBlank rest)
        let acc := put k v acc
        match skipBlank rest with
        | ',' :: rest => fields n acc (skipBlank rest)
        | '\x7d' :: rest => return (acc, rest)
        | _ => throw .malformed
      | _ => throw .malformed
    | _ => throw .malformed

end

def read (s : String) : Except Error Datum := do
  let cs := s.toList
  let (d, rest) ← value (2 * cs.length + 2) (skipBlank cs)
  if (skipBlank rest).isEmpty then return d else throw .malformed

def dropMark (s : String) : String :=
  match s.toList with
  | '\ufeff' :: cs => String.ofList cs
  | _ => s

end Bx.Json
