import Bx.Datum

namespace Bx.Word

inductive Fault
  | divisionByZero
  | negativeShift
  | tooLarge

abbrev size : Int := 18446744073709551616

/-- The number of words that are read as negative, 2^63. -/
abbrev half : Int := 9223372036854775808

def ofInt (x : Int) : Int := x % size

def toSigned (x : Int) : Int := if x / half % 2 = 0 then x else x - size

def roundedQuotient (a b : Nat) : Nat :=
  if a = 0 ∨ b = 0 then 0 else
  let k : Int := (a.log2 : Int) - b.log2
  let fits := if 0 ≤ k then b * Nat.pow 2 k.toNat ≤ a else b ≤ a * Nat.pow 2 (-k).toNat
  let e : Int := (if fits then k else k - 1) - 52
  let num := if 0 ≤ e then a else a * Nat.pow 2 (-e).toNat
  let den := if 0 ≤ e then b * Nat.pow 2 e.toNat else b
  let q := num / den
  let r := num % den
  let m := if 2 * r < den ∨ (2 * r = den ∧ q % 2 = 0) then q else q + 1
  if 0 ≤ e then m * Nat.pow 2 e.toNat else m / Nat.pow 2 (-e).toNat

def quotient (a b : Int) : Int :=
  let q := roundedQuotient a.natAbs b.natAbs
  if (a < 0) = (b < 0) then q else -q

def divide (a b : Int) : Except Fault Int :=
  if b = 0 then .error .divisionByZero
  else if (quotient a b).natAbs.log2 < 1024 then .ok (quotient a b)
  else .error .tooLarge

inductive Binop
  | add | sub | mul | div | mod | and | or | xor | shl | shr
  deriving DecidableEq

inductive Unop
  | neg | not
  deriving DecidableEq

inductive Cond
  | z | nz | l | le | nl | nle
  deriving DecidableEq

def bitwise (f : Nat → Nat → Nat) (u v : Int) : Int := f (ofInt u).toNat (ofInt v).toNat

def Binop.eval (op : Binop) (u v : Int) : Except Fault Int :=
  let a := toSigned u
  let b := toSigned v
  match op with
  | .add => .ok (ofInt (a + b))
  | .sub => .ok (ofInt (a - b))
  | .mul => .ok (ofInt (a * b))
  | .div => (divide a b).map ofInt
  | .mod => (divide a b).map fun q => ofInt (a - b * q)
  | .and => .ok (bitwise (· &&& ·) u v)
  | .or => .ok (bitwise (· ||| ·) u v)
  | .xor => .ok (bitwise (· ^^^ ·) u v)
  | .shl => if b < 0 then .error .negativeShift else .ok (if b < 64 then ofInt (a <<< b.toNat) else 0)
  | .shr => if b < 0 then .error .negativeShift else .ok (ofInt (a >>> b.toNat))

def Unop.eval (op : Unop) (u : Int) : Int :=
  match op with
  | .neg => ofInt (-toSigned u)
  | .not => ofInt (-toSigned u - 1)

def Cond.holds (c : Cond) (k : Int) : Bool :=
  match c with
  | .z => k == 0
  | .nz => k != 0
  | .l => toSigned k < 0
  | .le => toSigned k ≤ 0
  | .nl => toSigned k ≥ 0
  | .nle => toSigned k > 0

def Binop.name : Binop → String
  | .add => "add" | .sub => "sub" | .mul => "mul" | .div => "div" | .mod => "mod"
  | .and => "and" | .or => "or" | .xor => "xor" | .shl => "shl" | .shr => "shr"

def Unop.name : Unop → String
  | .neg => "neg" | .not => "not"

def Cond.name : Cond → String
  | .z => "jz" | .nz => "jnz" | .l => "jl" | .le => "jle" | .nl => "jnl" | .nle => "jnle"

def Binop.ofName? (s : String) : Option Binop :=
  [.add, .sub, .mul, .div, .mod, .and, .or, .xor, .shl, .shr].find? (·.name == s)

def Unop.ofName? (s : String) : Option Unop := [.neg, .not].find? (·.name == s)

def Cond.ofName? (s : String) : Option Cond := [.z, .nz, .l, .le, .nl, .nle].find? (·.name == s)

end Bx.Word
