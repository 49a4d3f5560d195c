namespace Bx.Text

def inRunsFrom : Bool → List Nat → Nat → Bool
  | _, [], _ => false
  | inside, k :: ks, n => if n < k then inside else inRunsFrom (!inside) ks (n - k)

def inRuns (runs : List Nat) (n : Nat) : Bool := inRunsFrom false runs n

end Bx.Text
