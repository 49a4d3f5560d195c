import Bx.Datum.Literal
import Bx.Regex.Basic
import Bx.Text.Digits

namespace Bx.Regex

open Bx.Text (isOctal isHex valueOf takeUpTo)

structure SyntaxError where
  reason : String
  pos : Nat

def SyntaxError.message (whole : String) (e : SyntaxError) : String :=
  let before := whole.toList.take e.pos
  let line := before.count '\n' + 1
  let column := (before.reverse.takeWhile (· != '\n')).length + 1
  e.reason ++ " at position " ++ toString e.pos ++
    if whole.toList.contains '\n' then " (line " ++ toString line ++ ", column " ++ toString column ++ ")" else ""

/-- The rest of the text with its position, the groups met so far, and the numbers of those that are still open. -/
structure Cursor where
  rest : List Char
  pos : Nat
  groups : List (Option String)
  opened : List Nat

def Cursor.start (s : String) : Cursor := ⟨s.toList, 0, [], []⟩

def Cursor.drop (c : Cursor) (n : Nat) : Cursor := { c with rest := c.rest.drop n, pos := c.pos + n }

def Cursor.names (c : Cursor) : List String := c.groups.filterMap id

def Cursor.enter (c : Cursor) (name : Option String) : Cursor :=
  { c with groups := c.groups ++ [name], opened := (c.groups.length + 1) :: c.opened }

def Cursor.leave (c : Cursor) : Cursor := { c with opened := c.opened.tail }

abbrev Parsed (α : Type) := Except SyntaxError (α × Cursor)

def isSpace (c : Char) : Bool := c == ' ' || ('\t' ≤ c && c ≤ '\r')

def escapedChar? : Char → Option Char
  | 'n' => some '\n'
  | 't' => some '\t'
  | 'r' => some '\r'
  | 'f' => some '\x0c'
  | 'v' => some '\x0b'
  | 'a' => some '\x07'
  | _ => none

def escapedSet? : Char → Option CharSet
  | 'd' => some .digit
  | 'D' => some (.not .digit)
  | 'w' => some .word
  | 'W' => some (.not .word)
  | 's' => some .blank
  | 'S' => some (.not .blank)
  | _ => none

def escapedAnchor? : Char → Option Anchor
  | 'A' => some .textStart
  | 'Z' => some .textEnd
  | 'b' => some .wordEdge
  | 'B' => some .noWordEdge
  | _ => none

def hexEscape (n : Nat) (c : Cursor) : Parsed CharSet :=
  let ds := takeUpTo isHex n (c.rest.drop 2)
  if ds.length < n then .error ⟨"incomplete escape " ++ String.ofList (c.rest.take (2 + ds.length)), c.pos⟩
  else .ok (.char (Char.ofNat (valueOf 16 ds)), c.drop (2 + n))

def octalEscape (ds : List Char) (c : Cursor) : Parsed CharSet :=
  if valueOf 8 ds > 0xff then
    .error ⟨"octal escape value \\" ++ String.ofList ds ++ " outside of range 0-0o377", c.pos⟩
  else .ok (.char (Char.ofNat (valueOf 8 ds)), c.drop (1 + ds.length))

def escape (c : Cursor) : Parsed CharSet :=
  match c.rest with
  | '\\' :: d :: _ => match escapedSet? d, escapedChar? d with
    | some s, _ => .ok (s, c.drop 2)
    | none, some x => .ok (.char x, c.drop 2)
    | none, none =>
      if d == 'x' then hexEscape 2 c
      else if d == 'u' then hexEscape 4 c
      else if d.isAlphanum then .error ⟨"bad escape \\" ++ d.toString, c.pos⟩
      else .ok (.char d, c.drop 2)
  | _ => .error ⟨"bad escape (end of pattern)", c.pos⟩

def numberEscape (c : Cursor) : Parsed CharSet :=
  let ds := takeUpTo Char.isDigit 3 (c.rest.drop 1)
  match ds with
  | '0' :: _ => octalEscape ('0' :: takeUpTo isOctal 2 (c.rest.drop 2)) c
  | _ =>
    if ds.length == 3 && ds.all isOctal then octalEscape ds c else
    let ds := ds.take 2
    let n := valueOf 10 ds
    if c.groups.length < n then .error ⟨"invalid group reference " ++ toString n, c.pos + 1⟩
    else if c.opened.contains n then .error ⟨"cannot refer to an open group", c.pos⟩
    else .ok (.none, c.drop (1 + ds.length))

def member (start : Nat) (c : Cursor) : Parsed (CharSet × Option Char) :=
  let single (r : Parsed CharSet) : Parsed (CharSet × Option Char) := r.map fun (s, after) => match s with
    | .char x => ((s, some x), after)
    | s => ((s, none), after)
  match c.rest with
  | [] => .error ⟨"unterminated character set", start⟩
  | '\\' :: 'b' :: _ => .ok ((.char '\x08', some '\x08'), c.drop 2)
  | '\\' :: d :: rest => single (if isOctal d then octalEscape (takeUpTo isOctal 3 (d :: rest)) c else escape c)
  | d :: _ => .ok ((.char d, some d), c.drop 1)

def Cursor.token (c : Cursor) : String := String.ofList (c.rest.take (if c.rest.head? == some '\\' then 2 else 1))

def readSet (start : Nat) : Nat → Bool → CharSet → Cursor → Parsed CharSet
  | 0, _, _, _ => .error ⟨"unterminated character set", start⟩
  | fuel + 1, first, acc, c =>
    if c.rest.head? == some ']' && !first then .ok (acc, c.drop 1) else
    match member start c with
    | .error e => .error e
    | .ok ((s, lo?), after) => match after.rest with
      | ['-'] => .error ⟨"unterminated character set", start⟩
      | '-' :: ']' :: _ => .ok (.union (.union acc s) (.char '-'), after.drop 2)
      | '-' :: _ => match member start (after.drop 1) with
        | .error e => .error e
        | .ok ((_, hi?), last) =>
          let range := c.token ++ "-" ++ (after.drop 1).token
          let bad : SyntaxError := ⟨"bad character range " ++ range, last.pos - range.length⟩
          match lo?, hi? with
          | some lo, some hi => if lo ≤ hi then readSet start fuel false (.union acc (.range lo hi)) last else .error bad
          | _, _ => .error bad
      | _ => readSet start fuel false (.union acc s) after

def isName (s : String) : Bool := s.toList.all Text.isWordChar && !s.toList.head?.any Text.isDecimal

def readName (c : Cursor) : Parsed Unit :=
  let name := String.ofList (c.rest.takeWhile (· != '>'))
  let after := c.drop (name.length + 1)
  if name.isEmpty then .error ⟨"missing group name", c.pos⟩
  else if name.length == c.rest.length then .error ⟨"missing >, unterminated name", c.pos⟩
  else if !isName name then .error ⟨"bad character in group name " ++ Datum.quote name, c.pos⟩
  else match c.groups.idxOf? (some name) with
    | some k => .error ⟨"redefinition of group name " ++ Datum.quote name ++ " as group " ++
        toString (c.groups.length + 1) ++ "; was group " ++ toString (k + 1), c.pos⟩
    | none => .ok ((), after.enter (some name))

def commentLength : List Char → Nat
  | [] => 0
  | '\n' :: _ => 1
  | '\\' :: _ :: cs => commentLength cs + 2
  | _ :: cs => commentLength cs + 1

structure Bounds where
  least : Nat
  most : Option Nat

def bounds? (cs : List Char) : Option (Bounds × List Char) :=
  match cs with
  | '\x7b' :: '\x7d' :: _ => none
  | '\x7b' :: cs =>
    let (lo, cs) := cs.span Char.isDigit
    let (hi, cs) := match cs with
      | ',' :: cs => cs.span Char.isDigit
      | cs => (lo, cs)
    match cs with
    | '\x7d' :: cs => some (⟨valueOf 10 lo, if hi.isEmpty then none else some (valueOf 10 hi)⟩, cs)
    | _ => none
  | _ => none

def copies (r : Regex) : Nat → Regex
  | 0 => .empty
  | n + 1 => .seq r (copies r n)

def upTo (choose : Regex → Regex) (r : Regex) : Nat → Regex
  | 0 => .empty
  | n + 1 => choose (.seq r (upTo choose r n))

def repetition (r : Regex) (b : Bounds) (isLazy : Bool) : Regex :=
  let choose : Regex → Regex := if isLazy then .alt .empty else opt
  match b.least, b.most with
  | 0, none => if isLazy then .lazyStar r else .star r
  | 0, some 1 => choose r
  | n, none => .seq (copies r n) (if isLazy then .lazyStar r else .star r)
  | n, some m => .seq (copies r n) (upTo choose r (m - n))

/-- Something, something that is repeated already, or an anchor, which cannot be repeated. -/
inductive Atom
  | plain (r : Regex)
  | repeated (r : Regex)
  | fixed (r : Regex)

def Atom.regex : Atom → Regex
  | .plain r | .repeated r | .fixed r => r

def repeatLast (last : Option Atom) (b : Bounds) (c after : Cursor) : Parsed Atom :=
  match last with
  | none | some (.fixed _) => .error ⟨"nothing to repeat", c.pos⟩
  | some (.repeated _) => .error ⟨"multiple repeat", c.pos⟩
  | some (.plain r) => match after.rest with
    | '?' :: _ => .ok (.repeated (repetition r b true), after.drop 1)
    | '+' :: _ => .ok (.repeated (.atomic (repetition r b false)), after.drop 1)
    | _ => .ok (.repeated (repetition r b false), after)

def sign? (c : Cursor) : Option (Bounds × Cursor) :=
  match c.rest with
  | '*' :: _ => some (⟨0, none⟩, c.drop 1)
  | '+' :: _ => some (⟨1, none⟩, c.drop 1)
  | '?' :: _ => some (⟨0, some 1⟩, c.drop 1)
  | cs => (bounds? cs).map fun (b, rest) => (b, c.drop (cs.length - rest.length))

mutual

def readAlternatives : Nat → Cursor → Parsed Regex
  | 0, c => .error ⟨"expression too deep", c.pos⟩
  | fuel + 1, c => match readSequence fuel none c with
    | .error e => .error e
    | .ok (r, c) => match c.rest with
      | '|' :: _ => match readAlternatives fuel (c.drop 1) with
        | .error e => .error e
        | .ok (s, c) => .ok (.alt r s, c)
      | _ => .ok (r, c)

def readSequence : Nat → Option Atom → Cursor → Except SyntaxError (Regex × Cursor)
  | 0, _, c => .error ⟨"expression too deep", c.pos⟩
  | fuel + 1, last, c =>
    let goOn (r : Parsed Atom) : Except SyntaxError (Regex × Cursor) := do
      let (item, c) ← r
      let (s, c) ← readSequence fuel (some item) c
      return (match last with
        | none => s
        | some l => .seq l.regex s, c)
    let atom (r : Parsed CharSet) : Parsed Regex := goOn (r.map fun (s, c) => (.plain (.set s), c))
    let group (inside : Parsed Unit) : Except SyntaxError (Regex × Cursor) := do
      let (_, inside) ← inside
      let (r, after) ← readAlternatives fuel inside
      match after.rest with
      | ')' :: _ => goOn (.ok (.plain r, if inside.opened == c.opened then after.drop 1 else (after.drop 1).leave))
      | _ => throw ⟨"missing ), unterminated subpattern", c.pos⟩
    match sign? c with
    | some (b, after) =>
      if b.most.any (· < b.least) then .error ⟨"min repeat greater than max repeat", c.pos + 1⟩ else do
      let (item, after) ← repeatLast last b c after
      readSequence fuel (some item) after
    | none => match c.rest with
      | [] | '|' :: _ | ')' :: _ => .ok ((last.map Atom.regex).getD .empty, c)
      | '#' :: rest => readSequence fuel last (c.drop (1 + commentLength rest))
      | '(' :: '?' :: 'P' :: '<' :: _ => group (readName (c.drop 4))
      | '(' :: '?' :: ':' :: _ => group (.ok ((), c.drop 3))
      | ['(', '?'] => .error ⟨"unexpected end of pattern", c.pos + 2⟩
      | '(' :: '?' :: d :: _ => .error ⟨"unknown extension ?" ++ d.toString, c.pos + 1⟩
      | '(' :: _ => group (.ok ((), (c.drop 1).enter none))
      | '[' :: '^' :: _ => atom ((readSet c.pos c.rest.length true .none (c.drop 2)).map fun (s, c) => (.not s, c))
      | '[' :: _ => atom (readSet c.pos c.rest.length true .none (c.drop 1))
      | '.' :: _ => goOn (.ok (.plain notNewline, c.drop 1))
      | '^' :: _ => goOn (.ok (.fixed (.anchor .textStart), c.drop 1))
      | '$' :: _ => goOn (.ok (.fixed (.anchor .lineEnd), c.drop 1))
      | '\\' :: d :: _ => match escapedAnchor? d with
        | some a => goOn (.ok (.fixed (.anchor a), c.drop 2))
        | none => atom (if d.isDigit then numberEscape c else escape c)
      | d :: _ => if isSpace d then readSequence fuel last (c.drop 1) else atom (.ok (.char d, c.drop 1))

end

def read (s : String) : Except SyntaxError (Regex × List String) :=
  match readAlternatives (2 * s.length + 4) (.start s) with
  | .error e => .error e
  | .ok (r, c) => if c.rest.isEmpty then .ok (r, c.names) else .error ⟨"unbalanced parenthesis", c.pos⟩

end Bx.Regex
