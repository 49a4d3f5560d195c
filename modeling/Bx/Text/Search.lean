namespace Bx.Text

def place? (s word : String) : Option Nat :=
  let cs := s.toList
  let rec go (k : Nat) : List Char → Option Nat
    | [] => if cs.isEmpty then some k else none
    | w :: ws => if cs.isPrefixOf (w :: ws) then some k else go (k + 1) ws
  go 0 word.toList

def occursIn (s word : String) : Bool := (place? s word).isSome

def cutAt? (c : Char) (s : String) : Option (String × String) :=
  match s.toList.span (· != c) with
  | (before, _ :: rest) => some (String.ofList before, String.ofList rest)
  | (_, []) => none

def dropLast (n : Nat) (s : String) : String := String.ofList (s.toList.take (s.length - n))

def stripOf (cs : List Char) (s : String) : String :=
  String.ofList ((s.toList.dropWhile cs.contains).reverse.dropWhile cs.contains).reverse

end Bx.Text
