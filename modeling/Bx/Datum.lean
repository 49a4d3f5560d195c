import Bx.Text.Search

namespace Bx

inductive Datum
  | null
  | bool (b : Bool)
  | int (n : Int)
  | str (s : String)
  | list (xs : List Datum)
  | tuple (xs : List Datum)
  | dict (fields : List (String × Datum))
  deriving Inhabited

namespace Datum

/-- A kind of value lacks the operator or the method, a position lies outside, or a key is absent. -/
inductive Fault
  | operator
  | method
  | range
  | key (k : Datum)

def number? : Datum → Option Int
  | .int n => some n
  | .bool b => some (if b then 1 else 0)
  | _ => none

def isNumber (d : Datum) : Bool := d.number?.isSome

def isNull : Datum → Bool
  | .null => true
  | _ => false

def string? : Datum → Option String
  | .str s => some s
  | _ => none

def isString (d : Datum) : Bool := d.string?.isSome

def truthy : Datum → Bool
  | .null => false
  | .bool b => b
  | .int n => n != 0
  | .str s => !s.isEmpty
  | .list xs | .tuple xs => !xs.isEmpty
  | .dict fields => !fields.isEmpty

mutual

def same : Datum → Datum → Bool
  | .null, .null => true
  | .bool a, .bool b => a == b
  | .int a, .int b => a == b
  | .bool a, .int b | .int b, .bool a => b == if a then 1 else 0
  | .str a, .str b => a == b
  | .list xs, .list ys | .tuple xs, .tuple ys => sameAll xs ys
  | .dict xs, .dict ys => xs.length == ys.length && sameFields xs ys
  | _, _ => false

def sameAll : List Datum → List Datum → Bool
  | [], [] => true
  | x :: xs, y :: ys => same x y && sameAll xs ys
  | _, _ => false

def sameFields : List (String × Datum) → List (String × Datum) → Bool
  | [], _ => true
  | (k, x) :: xs, ys => (match ys.lookup k with | some y => same x y | none => false) && sameFields xs ys

end

mutual

def before? : Datum → Datum → Option Bool
  | .str a, .str b => some (a < b)
  | .list xs, .list ys | .tuple xs, .tuple ys => beforeAll? xs ys
  | a, b => do return (← a.number?) < (← b.number?)

def beforeAll? : List Datum → List Datum → Option Bool
  | [], ys => some !ys.isEmpty
  | _, [] => some false
  | x :: xs, y :: ys => if x.same y then beforeAll? xs ys else before? x y

end

mutual

def isKey : Datum → Bool
  | .list _ | .dict _ => false
  | .tuple xs => areKeys xs
  | _ => true

def areKeys : List Datum → Bool
  | [] => true
  | x :: xs => isKey x && areKeys xs

end

mutual

def depth : Datum → Nat
  | .list xs | .tuple xs => depthAll xs + 1
  | .dict fields => depthFields fields + 1
  | _ => 1

def depthAll : List Datum → Nat
  | [] => 0
  | x :: xs => max (depth x) (depthAll xs)

def depthFields : List (String × Datum) → Nat
  | [] => 0
  | (_, x) :: xs => max (depth x) (depthFields xs)

end

def is (d : Datum) (s : String) : Bool :=
  match d with
  | .str t => t == s
  | _ => false

def startsWith (d : Datum) (s : String) : Except Fault Bool :=
  match d with
  | .str t => .ok (t.startsWith s)
  | _ => .error .method

def size : Datum → Except Fault Nat
  | .str s => .ok s.length
  | .list xs | .tuple xs => .ok xs.length
  | .dict fields => .ok fields.length
  | _ => .error .operator

def position? (n : Nat) (i : Int) : Option Nat :=
  if 0 ≤ i then if i < n then some i.toNat else none
  else if 0 ≤ i + n then some (i + n).toNat else none

def pick (xs : List Datum) (i : Int) : Except Fault Datum :=
  match (position? xs.length i).bind (xs[·]?) with
  | some x => .ok x
  | none => .error .range

def item (d : Datum) (i : Int) : Except Fault Datum :=
  match d with
  | .str s => pick (s.toList.map fun c => .str c.toString) i
  | .list xs | .tuple xs => pick xs i
  | .dict _ => .error (.key (.int i))
  | _ => .error .operator

def entry (d : Datum) (k : String) : Except Fault Datum :=
  match d with
  | .dict fields => match fields.lookup k with
    | some v => .ok v
    | none => .error (.key (.str k))
  | _ => .error .operator

def get (d : Datum) (k : String) (default : Datum) : Except Fault Datum :=
  match d with
  | .dict fields => .ok ((fields.lookup k).getD default)
  | _ => .error .method

def put {κ α : Type} [BEq κ] (k : κ) (v : α) : List (κ × α) → List (κ × α)
  | [] => [(k, v)]
  | (k', v') :: rest => if k' == k then (k, v) :: rest else (k', v') :: put k v rest

def members : Datum → Except Fault (List Datum)
  | .str s => .ok (s.toList.map fun c => .str c.toString)
  | .list xs | .tuple xs => .ok xs
  | .dict fields => .ok (fields.map fun f => .str f.1)
  | _ => .error .operator

def index (d k : Datum) : Except Fault Datum :=
  match d with
  | .dict fields => if !k.isKey then .error .operator else
    match k.string?.bind fun s => fields.lookup s with
    | some v => .ok v
    | none => .error (.key k)
  | d => match k.number? with
    | some i => d.item i
    | none => .error .operator

def contains (d x : Datum) : Except Fault Bool :=
  match d, x with
  | .str t, .str s => .ok (Text.occursIn s t)
  | .list xs, x | .tuple xs, x => .ok (xs.any x.same)
  | .dict fields, x => if x.isKey then .ok (fields.any fun f => x.is f.1) else .error .operator
  | _, _ => .error .operator

def find (d x : Datum) : Except Fault Nat :=
  match d, x with
  | .str t, .str s => match Text.place? s t with
    | some k => .ok k
    | none => .error .range
  | .list xs, x | .tuple xs, x => match xs.findIdx? x.same with
    | some k => .ok k
    | none => .error .range
  | .str _, _ => .error .operator
  | _, _ => .error .method

def rest : Datum → Except Fault Datum
  | .str s => .ok (.str (String.ofList (s.toList.drop 1)))
  | .list xs => .ok (.list (xs.drop 1))
  | .tuple xs => .ok (.tuple (xs.drop 1))
  | _ => .error .operator

def setFirst (d v : Datum) : Except Fault Datum :=
  match d with
  | .list (_ :: xs) => .ok (.list (v :: xs))
  | .list [] => .error .range
  | .dict fields => .ok (.dict (put "0" v fields))
  | _ => .error .operator

end Datum

end Bx
