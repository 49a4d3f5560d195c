import Bx.Tac.Program
import Bx.Tac.Store
import Bx.Text.Pad

namespace Bx.Tac.Run

structure Options where
  showProcs : Bool := false
  showInstrs : Bool := false
  onlyDecimal : Bool := true

structure World where
  globals : Fields
  output : Array String

def World.text (w : World) : String := String.join w.output.toList

abbrev Action := ExceptT Fault (StateM World)

def print (line : String) : Action Unit := modify fun w => { w with output := w.output.push (line ++ "\n") }

def lift {α : Type} (r : Except Fault α) : Action α :=
  match r with
  | .ok a => pure a
  | .error e => throw e

def explain {α : Type} (line : String) : Action α := do
  print line
  throw .explained

def store (temps : Fields) : Action Store := return ⟨temps, (← get).globals⟩

def commit (s : Store) : Action Fields := do
  modify fun w => { w with globals := s.globals }
  return s.temps

def read (temps : Fields) (x : Datum) : Action Datum := do lift ((← store temps).read x)

def write (temps : Fields) (x v : Datum) : Action Fields := do commit (← lift ((← store temps).write x v))

def bind (params : List Datum) (args : Datum) : Action Fields :=
  params.zipIdx.foldlM (fun temps (x, k) => do write temps x (← lift ((args.item k).mapError .shape))) []

def indent (depth : Int) : String := String.ofList (List.replicate (2 * depth).toNat ' ')

def describe (name : String) (temps : Fields) : String :=
  name ++ "(" ++ ",".intercalate (temps.map fun (x, v) => x ++ "=" ++ v.text) ++ ")"

def setParam (params : List Datum) (place : Int) (v : Datum) : Except Fault (List Datum) :=
  let params := params ++ List.replicate (place - params.length).toNat .null
  match Datum.position? params.length (place - 1) with
  | some k => .ok (params.set k v)
  | none => .error (.shape .range)

def passParam (temps : Fields) (params : List Datum) (place x : Datum) : Action (List Datum) := do
  if !(place.number?.any fun n => 1 ≤ n) then print ("Bad argument to param: expecting int >= 1, got " ++ place.text)
  let n ← lift (Fault.number place)
  let v ← read temps x
  lift (setParam params n v)

def isPrint (name : String) : Bool := name.startsWith "@__bx_print"

def printInt (o : Options) (v : Datum) : Action Unit := do
  let s ← lift (signed v)
  if o.onlyDecimal then print s.text
  else
    let n := (v.number?).getD 0
    print (Text.spaced 20 ((s.number?).getD 0) ++ "  0x" ++ Text.zeroFilled 16 16 n ++ "  0b" ++ Text.zeroFilled 2 64 n)

def callPrint (o : Options) (name : String) (params : List Datum) : Action Unit := do
  match params with
  | [v] =>
    if name == "@__bx_print_int" then printInt o v
    else if name == "@__bx_print_bool" then print (if v.same (.int 0) then "false" else "true")
    else throw (.unknownPrint name)
  | _ => throw (.printArity params.length)

def checkArity (name : String) (announced : Datum) (got : Nat) : Action Unit := do
  let n ← lift (Fault.number announced)
  if (got : Int) < n then throw (.callArity name announced got)

inductive Effect (φ : Type)
  | go (f : φ)
  | call (f : φ) (name : String) (args : List Datum) (depth : Int)
  | ret (v : Datum)

structure Semantics (φ : Type) where
  enter : String → Datum → Int → Action φ
  advance : φ → Action (Effect φ)
  resume : φ → Datum → Action φ

def maxDepth : Nat := 900

variable {φ : Type} (S : Semantics φ)

def step : List φ → Action (Sum (List φ) Datum)
  | [] => return .inr .null
  | f :: rest => do
    match ← S.advance f with
    | .go f => return .inl (f :: rest)
    | .call f name args depth =>
      if rest.length ≥ maxDepth then throw .tooDeep
      return .inl ((← S.enter name (.list args) depth) :: f :: rest)
    | .ret v => match rest with
      | [] => return .inr v
      | g :: rest => return .inl ((← S.resume g v) :: rest)

def steps : Nat → List φ → Action (Option Datum)
  | 0, _ => return none
  | n + 1, fs => do
    match ← step S fs with
    | .inl fs => steps n fs
    | .inr v => return some v

def call (fuel : Nat) (name : String) (args : Datum) (depth : Int) : Action (Option Datum) := do
  steps S fuel [← S.enter name args depth]

def callData (fuel : Nat) (depth name args : Datum) : Action (Option Datum) := do
  let depth ← lift (Fault.number depth)
  match name with
  | .str name => call S fuel name args depth
  | d => throw (.shape (if d.isKey then .key d else .operator))

end Bx.Tac.Run
