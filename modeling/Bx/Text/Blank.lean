namespace Bx.Text

def isBlank (c : Char) : Bool :=
  let n := c.toNat
  (9 ≤ n && n ≤ 13) || (28 ≤ n && n ≤ 32) || n == 0x85 || n == 0xa0 || n == 0x1680 ||
    (0x2000 ≤ n && n ≤ 0x200a) || n == 0x2028 || n == 0x2029 || n == 0x202f || n == 0x205f || n == 0x3000

def words (s : String) : List String :=
  let close (w : List Char) (ws : List String) := if w.isEmpty then ws else String.ofList w.reverse :: ws
  let (w, ws) := s.toList.foldl
    (fun (w, ws) c => if isBlank c then ([], close w ws) else (c :: w, ws)) (([], []) : List Char × List String)
  (close w ws).reverse

def isLineBreak (c : Char) : Bool :=
  let n := c.toNat
  (10 ≤ n && n ≤ 13) || (28 ≤ n && n ≤ 30) || n == 0x85 || n == 0x2028 || n == 0x2029

private def cutLines : List Char → List Char → List String
  | [], [] => []
  | [], w => [String.ofList w.reverse]
  | '\r' :: '\n' :: rest, w => String.ofList w.reverse :: cutLines rest []
  | c :: rest, w => if isLineBreak c then String.ofList w.reverse :: cutLines rest [] else cutLines rest (c :: w)

def lines (s : String) : List String := cutLines s.toList []

def unifyNewlines (s : String) : String :=
  let rec go : List Char → List Char
    | '\r' :: '\n' :: rest => '\n' :: go rest
    | '\r' :: rest => '\n' :: go rest
    | c :: rest => c :: go rest
    | [] => []
  String.ofList (go s.toList)

def trimBlankRight (s : String) : String := String.ofList (s.toList.reverse.dropWhile isBlank).reverse

def trimBlank (s : String) : String := trimBlankRight (String.ofList (s.toList.dropWhile isBlank))

end Bx.Text
