namespace Bx.Text

def padRight (n : Nat) (s : String) : String := s ++ String.ofList (List.replicate (n - s.length) ' ')

def padLeft (n : Nat) (c : Char) (s : String) : String := String.ofList (List.replicate (n - s.length) c) ++ s

def zeroFilled (base width : Nat) (n : Int) : String :=
  let digits := String.ofList (Nat.toDigits base n.natAbs)
  if n < 0 then "-" ++ padLeft (width - 1) '0' digits else padLeft width '0' digits

def spaced (width : Nat) (n : Int) : String :=
  padLeft width ' ' (if n < 0 then toString n else " " ++ toString n)

end Bx.Text
