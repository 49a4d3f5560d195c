import Bx.Tac.Run.Basic

namespace Bx.Tac.Run.Loose

structure Frame where
  title : String
  body : Array Record
  labels : List (Datum × Nat)
  depth : Int
  pc : Nat
  params : List Datum
  temps : Fields

def target? (labels : List (Datum × Nat)) (l : Datum) : Except Fault (Option Nat) :=
  if l.isKey then .ok ((labels.find? fun e => e.1.same l).map (·.2)) else .error (.shape .operator)

def jump (f : Frame) (l : Datum) : Except Fault Nat := do
  match ← target? f.labels l with
  | some k => .ok k
  | none => .error (.unknownLabel l)

def labelsOf (body : List Record) : Except Fault (List (Datum × Nat)) :=
  body.zipIdx.foldlM (fun labels (r, k) =>
    if r.opcode.is "label" then do
      match ← target? labels (r.arg 0) with
      | some _ => .error (.reusedLabel (r.arg 0))
      | none => .ok (labels ++ [(r.arg 0, k + 1)])
    else .ok labels) []

def enter (o : Options) (procs : List (String × Proc Record)) (name : String) (args : Datum) (depth : Int) : Action Frame := do
  match procs.lookup name with
  | none => throw (.shape (.key (.str name)))
  | some p =>
    let temps ← bind p.params args
    let title := describe name temps
    if o.showProcs then print ("// " ++ indent depth ++ "entering " ++ title)
    let labels ← lift (labelsOf p.body)
    return ⟨title, p.body.toArray, labels, depth, 0, [], temps⟩

def assign (f : Frame) (x v : Datum) : Action Frame := do
  return { f with temps := ← write f.temps x v, pc := f.pc + 1 }

def callProc (o : Options) (f : Frame) (callee announced : Datum) : Action (Effect Frame) := do
  match callee with
  | .str name =>
    if isPrint name then
      callPrint o name f.params
      return .go { f with params := [], pc := f.pc + 1 }
    else
      checkArity name announced f.params.length
      return .call f name f.params (f.depth + 1)
  | _ => throw (.shape .method)

def return_ (o : Options) (f : Frame) (x : Datum) : Action (Effect Frame) := do
  let v ← if x.isNull then pure .null else read f.temps x
  if o.showProcs then print ("// " ++ indent f.depth ++ f.title ++ " --> " ++ v.text)
  return .ret v

def compute (f : Frame) (r : Record) (op : String) : Action (Effect Frame) := do
  match Word.Cond.ofName? op, Word.Binop.ofName? op, Word.Unop.ofName? op with
  | some c, _, _ =>
    let k ← read f.temps (r.arg 0)
    let there ← lift (jump f (r.arg 1))
    return .go { f with pc := if ← lift (holds c k) then there else f.pc + 1 }
  | _, some b, _ =>
    let u ← read f.temps (r.arg 0)
    let v ← read f.temps (r.arg 1)
    return .go (← assign f r.result (← lift (applyBinop b u v)))
  | _, _, some u =>
    let v ← read f.temps (r.arg 0)
    if !(r.arg 1).isNull then explain ("Unary operator " ++ op ++ " has two arguments!")
    return .go (← assign f r.result (← lift (applyUnop u v)))
  | none, none, none => explain ("Unknown opcode " ++ op)

def exec (o : Options) (f : Frame) (r : Record) : Action (Effect Frame) := do
  match r.opcode with
  | .str "nop" | .str "label" => return .go { f with pc := f.pc + 1 }
  | .str "jmp" => return .go { f with pc := ← lift (jump f (r.arg 0)) }
  | .str "const" => match (r.arg 0).number? with
    | none => explain ("Missing or bad argument: " ++ (r.arg 0).text)
    | some n => return .go (← assign f r.result (.int (Word.ofInt n)))
  | .str "copy" => return .go (← assign f r.result (← read f.temps (r.arg 0)))
  | .str "param" =>
    return .go { f with params := ← passParam f.temps f.params (r.arg 0) (r.arg 1), pc := f.pc + 1 }
  | .str "call" => callProc o f (r.arg 0) (r.arg 1)
  | .str "ret" => return_ o f (r.arg 0)
  | .str op => compute f r op
  | op => if op.isKey then explain ("Unknown opcode " ++ op.text) else throw (.shape .operator)

def advance (o : Options) (f : Frame) : Action (Effect Frame) := do
  match f.body[f.pc]? with
  | none =>
    print ("// " ++ indent f.depth ++ f.title ++ " --> NONE")
    return .ret .null
  | some r =>
    if o.showInstrs then
      print ("// " ++ indent f.depth ++ "[" ++ Text.spaced 4 (f.pc + 1) ++ "] " ++ r.text)
    exec o f r

def resume (f : Frame) (v : Datum) : Action Frame := do
  let r := (f.body[f.pc]?).getD default
  return { ← assign f r.result v with params := [] }

def semantics (o : Options) (procs : List (String × Proc Record)) : Semantics Frame :=
  ⟨enter o procs, advance o, resume⟩

end Bx.Tac.Run.Loose
