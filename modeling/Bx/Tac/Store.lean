import Bx.Tac.Operand
import Bx.Word

namespace Bx.Tac

inductive Fault
  | shape (f : Datum.Fault)
  | word (f : Word.Fault)
  | unassignable
  | illegalValue (n : Int)
  | reusedLabel (l : Datum)
  | unknownLabel (l : Datum)
  | printArity (got : Nat)
  | unknownPrint (name : String)
  | callArity (name : String) (expected : Datum) (got : Nat)
  | unresolvedPhi (source : Option String) (known : List String)
  /-- The cause was printed. -/
  | explained
  | tooDeep

def Fault.message : Fault → String
  | .illegalValue n => "Illegal value: " ++ toString n ++ ": " ++ (Datum.bool (-Word.half ≤ n)).text ++ " " ++
      (Datum.bool (n < Word.half)).text
  | .reusedLabel l => "Reused label " ++ l.text
  | .unknownLabel l => "Unknown jump destination " ++ l.text
  | .printArity n => "Bad number of arguments to print(): expected 1, got " ++ toString n
  | .unknownPrint f => "Unknown print() specialization: " ++ f
  | .callArity f e n => "Bad number of arguments to " ++ f ++ "(): expected " ++ e.text ++ ", got " ++ toString n
  | .unresolvedPhi s ls => "cannot resolve phi: came from " ++ s.getD "None" ++ ", can only handle [" ++
      ",".intercalate ls ++ "]"
  | .shape _ | .word _ | .unassignable | .explained | .tooDeep => ""

abbrev Fields := List (String × Datum)

structure Store where
  temps : Fields
  globals : Fields

namespace Store

def find (fields : Fields) (x : String) : Except Fault Datum :=
  match fields.lookup x with
  | some v => .ok v
  | none => .error (.shape (.key (.str x)))

def get (s : Store) (x : String) : Except Fault Datum := find (if isGlobalName x then s.globals else s.temps) x

def read (s : Store) (x : Datum) : Except Fault Datum :=
  match x with
  | .str x => s.get x
  | _ => .error (.shape .method)

def check (v : Datum) : Except Fault Unit :=
  match v.number? with
  | some n => if 0 ≤ n ∧ n < Word.size then .ok () else .error (.illegalValue n)
  | none => .error (.shape .operator)

def set (s : Store) (x : String) (v : Datum) : Except Fault Store :=
  if !isVarName x then .error .unassignable else do
    check v
    if isGlobalName x then
      match s.globals.lookup x with
      | some _ => .ok { s with globals := Datum.put x v s.globals }
      | none => .error (.shape (.key (.str x)))
    else .ok { s with temps := Datum.put x v s.temps }

def write (s : Store) (x v : Datum) : Except Fault Store :=
  match x with
  | .str x => s.set x v
  | _ => .error .unassignable

end Store

def Fault.number (v : Datum) : Except Fault Int :=
  match v.number? with
  | some n => .ok n
  | none => .error (.shape .operator)

def signed (v : Datum) : Except Fault Datum := do
  let n ← Fault.number v
  return if Word.toSigned n = n then v else .int (Word.toSigned n)

def applyBinop (op : Word.Binop) (u v : Datum) : Except Fault Datum := do
  match op.eval (← Fault.number u) (← Fault.number v) with
  | .ok r => .ok (.int r)
  | .error f => .error (.word f)

def applyUnop (op : Word.Unop) (u : Datum) : Except Fault Datum := do
  return .int (op.eval (← Fault.number u))

def holds (c : Word.Cond) (v : Datum) : Except Fault Bool :=
  match c with
  | .z => .ok (v.same (.int 0))
  | .nz => .ok !(v.same (.int 0))
  | c => do return c.holds (← Fault.number v)

def apply (name : String) (args : List Datum) : Except Fault Datum :=
  match Word.Binop.ofName? name, Word.Unop.ofName? name, Word.Cond.ofName? name, args with
  | some op, _, _, [x, y] => applyBinop op x y
  | none, some op, _, [x] => applyUnop op x
  | none, none, some c, [x] => do return .bool (← holds c x)
  | none, none, none, args => match name, args with
    | "twoc", [x] => do return .int (Word.ofInt (← Fault.number x))
    | "untwoc", [x] => signed x
    | "twoc", _ | "untwoc", _ => .error (.shape .operator)
    | _, _ => .error (.shape (.key (.str name)))
  | _, _, _, _ => .error (.shape .operator)

end Bx.Tac
