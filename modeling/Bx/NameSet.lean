namespace Bx

abbrev NameSet := List String

namespace NameSet

def insert (x : String) : NameSet → NameSet
  | [] => [x]
  | y :: rest => if x == y then y :: rest else if x < y then x :: y :: rest else y :: insert x rest

def ofList (xs : List String) : NameSet := xs.foldr insert []

def union (s t : NameSet) : NameSet := s.foldr insert t

end NameSet

end Bx
