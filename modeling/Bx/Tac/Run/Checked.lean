import Bx.Tac.Run.Basic

namespace Bx.Tac.Run.Checked

/-- `previous` and `current` are the labels passed last; `before` holds the temporaries at the last
jump. -/
structure Frame where
  title : String
  body : Array Instr
  labels : List (String × Nat)
  depth : Int
  pc : Nat
  params : List Datum
  temps : Fields
  before : Fields
  previous : Option String
  current : String

def labelsFrom (k : Nat) : List Instr → Except Fault (List (String × Nat))
  | [] => .ok []
  | i :: rest => do
    let labels ← labelsFrom (k + 1) rest
    match i with
    | .label l => .ok ((l, k + 1 + (rest.takeWhile Instr.isLabel).length) :: labels)
    | _ => .ok labels

def repeated? : List String → List String → Option String
  | _, [] => none
  | seen, l :: rest => if seen.contains l then some l else repeated? (l :: seen) rest

def labelsOf (body : List Instr) : Except Fault (List (String × Nat)) := do
  let labels ← labelsFrom 0 body
  match repeated? [] (labels.map (·.1)) with
  | some l => .error (.reusedLabel (.str l))
  | none => .ok labels

def enter (o : Options) (procs : List (String × Proc Instr)) (name : String) (args : Datum) (depth : Int) : Action Frame := do
  match procs.lookup name with
  | none => throw (.shape (.key (.str name)))
  | some p =>
    let temps ← bind p.params args
    let title := describe name temps
    if o.showProcs then print ("// " ++ indent depth ++ "entering " ++ title)
    let labels ← lift (labelsOf p.body)
    return ⟨title, p.body.toArray, labels, depth, 0, [], temps, temps, none, name⟩

def get (f : Frame) (x : String) : Action Datum := read f.temps (.str x)

def assign (f : Frame) (x : String) (v : Datum) : Action Frame := do
  return { f with temps := ← write f.temps (.str x) v }

def target (f : Frame) (l : String) : Action Nat :=
  match f.labels.lookup l with
  | some k => return k
  | none => throw (.unknownLabel (.str l))

def goTo (f : Frame) (l : String) (k : Nat) : Frame :=
  { f with pc := k, before := f.temps, previous := some f.current, current := l }

def exec (o : Options) (f : Frame) (i : Instr) : Action (Effect Frame) := do
  match i with
  | .nop => return .go f
  | .label l => return .go { f with previous := some f.current, current := l }
  | .phi d sources => match f.previous.bind fun l => sources.lookup l with
    | some x => return .go (← assign f d (← read f.before (.str x)))
    | none => throw (.unresolvedPhi f.previous (sources.map (·.1)))
  | .frozenPhi _ _ => throw (.shape .method)
  | .jmp l => return .go (goTo f l (← target f l))
  | .jcc c x l =>
    let v ← get f x
    let k ← target f l
    return .go (if ← lift (holds c v) then goTo f l k else f)
  | .const d n => return .go (← assign f d (.int (Word.ofInt n.value)))
  | .copy d x => return .go (← assign f d (← get f x))
  | .param n x => return .go { f with params := ← passParam f.temps f.params n.toDatum (.str x) }
  | .call _ g n =>
    if isPrint g then
      callPrint o g f.params
      return .go { f with params := [] }
    else
      checkArity g n.toDatum f.params.length
      return .call f g f.params (f.depth + 1)
  | .ret x =>
    let v ← match x with
      | some x => get f x
      | none => pure .null
    if o.showProcs then print ("// " ++ indent f.depth ++ f.title ++ " --> " ++ v.text)
    return .ret v
  | .binop op d x y =>
    let u ← get f x
    let v ← get f y
    return .go (← assign f d (← lift (applyBinop op u v)))
  | .unop op d x => return .go (← assign f d (← lift (applyUnop op (← get f x))))

def advance (o : Options) (f : Frame) : Action (Effect Frame) := do
  match f.body[f.pc]? with
  | none =>
    print ("// " ++ indent f.depth ++ f.title ++ " --> NONE")
    return .ret .null
  | some i =>
    if o.showInstrs then
      let line ← lift (i.text?.mapError .shape)
      print ("// " ++ indent f.depth ++ "[" ++ Text.spaced 4 (f.pc + 2) ++ "] " ++ line)
    exec o { f with pc := f.pc + 1 } i

def resume (f : Frame) (v : Datum) : Action Frame := do
  match (f.body[f.pc - 1]?).bind Instr.dest with
  | some d => return { ← assign f d v with params := [] }
  | none => return { f with params := [] }

def semantics (o : Options) (procs : List (String × Proc Instr)) : Semantics Frame :=
  ⟨enter o procs, advance o, resume⟩

end Bx.Tac.Run.Checked
