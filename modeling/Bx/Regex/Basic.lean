import Bx.Text.Decimal
import Bx.Text.WordChar

namespace Bx

inductive CharSet
  | char (c : Char)
  | range (lo hi : Char)
  | digit
  | word
  | blank
  | not (s : CharSet)
  | union (s t : CharSet)
  | none

namespace CharSet

def mem (c : Char) : CharSet → Bool
  | .char d => c == d
  | .range lo hi => lo ≤ c && c ≤ hi
  | .digit => Text.isDecimal c
  | .word => Text.isWordChar c
  | .blank => Text.isBlank c
  | .not s => !mem c s
  | .union s t => mem c s || mem c t
  | .none => false

def ofString (s : String) : CharSet := s.toList.foldr (fun c acc => .union (.char c) acc) .none

end CharSet

/-- Places in a text that are matched without taking a character. -/
inductive Anchor
  | textStart | textEnd | lineEnd | wordEdge | noWordEdge
  deriving DecidableEq

def Anchor.holds (before : Option Char) (rest : List Char) : Anchor → Bool
  | .textStart => before.isNone
  | .textEnd => rest.isEmpty
  | .lineEnd => rest.isEmpty || rest == ['\n']
  | .wordEdge => (before.isSome || !rest.isEmpty) && before.any Text.isWordChar != rest.head?.any Text.isWordChar
  | .noWordEdge => (before.isSome || !rest.isEmpty) && before.any Text.isWordChar == rest.head?.any Text.isWordChar

inductive Regex
  | empty
  | set (s : CharSet)
  | seq (r s : Regex)
  | alt (r s : Regex)
  | star (r : Regex)
  | lazyStar (r : Regex)
  /-- Of the ways to match, only the first counts. -/
  | atomic (r : Regex)
  | anchor (a : Anchor)

namespace Regex

def mayBeEmpty : Regex → Bool
  | .empty | .star _ | .lazyStar _ | .anchor _ => true
  | .set _ => false
  | .seq r s => mayBeEmpty r && mayBeEmpty s
  | .alt r s => mayBeEmpty r || mayBeEmpty s
  | .atomic r => mayBeEmpty r

def runs (s : CharSet) : List (List Char) → List Char → List (List Char)
  | acc, [] => [] :: acc
  | acc, c :: cs => if s.mem c then runs s ((c :: cs) :: acc) cs else (c :: cs) :: acc

/-- How one goes on with what is left of a text: what is left in the end, or nothing. -/
abbrev Way := List Char → Option (List Char)

def thread (holds : Anchor → List Char → Bool) : Regex → Way → Way
  | .empty, go, cs => go cs
  | .set _, _, [] => none
  | .set s, go, c :: cs => if s.mem c then go cs else none
  | .seq r s, go, cs => thread holds r (thread holds s go) cs
  | .alt r s, go, cs => (thread holds r go cs).orElse fun _ => thread holds s go cs
  | .star (.set s), go, cs => (runs s [] cs).findSome? go
  | .star r, go, cs => many (mayBeEmpty r) (thread holds r) go cs.length cs
  | .lazyStar r, go, cs => few (mayBeEmpty r) (thread holds r) go cs.length cs
  | .atomic r, go, cs => (thread holds r some cs).bind go
  | .anchor a, go, cs => if holds a cs then go cs else none
where
  many (idle : Bool) (round : Way → Way) (go : Way) : Nat → Way
    | 0, cs => go cs
    | n + 1, cs => (round (fun rest => if idle && rest.length == cs.length then go rest
      else many idle round go n rest) cs).orElse fun _ => go cs
  few (idle : Bool) (round : Way → Way) (go : Way) : Nat → Way
    | 0, cs => go cs
    | n + 1, cs => (go cs).orElse fun _ => round (fun rest => if idle && rest.length == cs.length then go rest
      else few idle round go n rest) cs

def holdsAt (before : Option Char) (cs : List Char) (a : Anchor) (rest : List Char) : Bool :=
  a.holds (match cs.length - rest.length with
    | 0 => before
    | k + 1 => cs[k]?) rest

def split? (r : Regex) (before : Option Char) (cs : List Char) : Option (List Char × List Char) :=
  (thread (holdsAt before cs) r some cs).map fun rest => (cs.take (cs.length - rest.length), rest)

def matchesEmpty (r : Regex) : Bool := (split? r none []).isSome

def text (s : String) : Regex := s.toList.foldr (fun c r => .seq (.set (.char c)) r) .empty

def plus (r : Regex) : Regex := .seq r (.star r)

def opt (r : Regex) : Regex := .alt r .empty

def all : List Regex → Regex
  | [] => .empty
  | [r] => r
  | r :: rs => .seq r (all rs)

def any : List Regex → Regex
  | [] => .set .none
  | [r] => r
  | r :: rs => .alt r (any rs)

def digit : Regex := .set (.range '0' '9')

def letter : Regex := .set (.union (.range 'A' 'Z') (.union (.range 'a' 'z') (.char '_')))

def alphanumeric : Regex := .set (.union (.range 'A' 'Z') (.union (.range 'a' 'z') (.union (.range '0' '9') (.char '_'))))

def newline : Regex := .set (.char '\n')

def notNewline : Regex := .set (.not (.char '\n'))

end Regex

end Bx
