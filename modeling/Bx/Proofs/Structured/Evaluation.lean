import Bx.Proofs.Machine.Body
import Bx.Structured.Tree

namespace Bx.Structured

open Source
open Tac.Body (Operators)

def binopOf? : Op → Option Word.Binop
  | .plus => some .add
  | .minus => some .sub
  | .times => some .mul
  | .div => some .div
  | .modulus => some .mod
  | .bitand => some .and
  | .bitor => some .or
  | .bitxor => some .xor
  | .bitshl => some .shl
  | .bitshr => some .shr
  | _ => none

def unopOf? : Op → Option Word.Unop
  | .bitcompl => some .not
  | .uminus => some .neg
  | _ => none

def relationOf? : Op → Option (Int → Bool)
  | .booleq => some (· = 0)
  | .boolneq => some (· ≠ 0)
  | .less => some (· < 0)
  | .lesseq => some (· ≤ 0)
  | .greater => some (· > 0)
  | .greatereq => some (· ≥ 0)
  | _ => none

structure Memory where
  vars : String → BitVec 64
  printed : List (BitVec 64)

def Memory.start : Memory := ⟨fun _ => 0, []⟩

def Memory.set (m : Memory) (x : String) (v : BitVec 64) : Memory :=
  { m with vars := fun y => if y = x then v else m.vars y }

def Memory.print (m : Memory) (v : BitVec 64) : Memory := { m with printed := m.printed ++ [v] }

variable (ops : Operators)

def Expr.value (vars : String → BitVec 64) : Expr → Option (BitVec 64)
  | .var _ x => some (vars x)
  | .num _ n => some (BitVec.ofInt 64 n)
  | .bool _ b => some (if b then 1 else 0)
  | .unary _ op e => do return ops.unop (← unopOf? op) (← e.value vars)
  | .binary _ op l r => do
    let u ← l.value vars
    let v ← r.value vars
    ops.binop (← binopOf? op) u v

def Expr.truth (vars : String → BitVec 64) : Expr → Option Bool
  | .bool _ b => some b
  | .unary _ .boolnot e => (e.truth vars).map (!·)
  | .binary _ .booland l r => do if ← l.truth vars then r.truth vars else return false
  | .binary _ .boolor l r => do if ← l.truth vars then return true else r.truth vars
  | .binary _ op l r => do
    let u ← l.value ops vars
    let v ← r.value ops vars
    return (← relationOf? op) (u - v).toInt
  | _ => none

/-- How a statement is left, and what it leaves in memory. -/
inductive Outcome
  | normal (m : Memory)
  | break (m : Memory)
  | continue (m : Memory)
  | trapped (m : Memory)
  /-- A loop would have taken more turns than it may. -/
  | cut (m : Memory)

def Outcome.memory : Outcome → Memory
  | .normal m | .break m | .continue m | .trapped m | .cut m => m

def Outcome.andThen (o : Outcome) (k : Memory → Outcome) : Outcome :=
  match o with
  | .normal m => k m
  | o => o

def Expr.using (e : Expr) (m : Memory) (k : BitVec 64 → Memory) : Outcome :=
  match e.value ops m.vars with
  | some v => .normal (k v)
  | none => .trapped m

def turns (test : Memory → Option Bool) (body : Memory → Outcome) : Nat → Memory → Outcome
  | 0, m => .cut m
  | n + 1, m => match test m with
    | none => .trapped m
    | some false => .normal m
    | some true => match body m with
      | .normal m | .continue m => turns test body n m
      | .break m => .normal m
      | o => o

mutual

def Stmt.run (bound : Nat) : Stmt → Memory → Outcome
  | .vardecl _ x e, m | .assign _ _ x e, m => e.using ops m (m.set x)
  | .print _ e, m => e.using ops m m.print
  | .block _ body, m => runAll bound body m
  | .ifelse _ c yes no, m => match c.truth ops m.vars with
    | some true => runAll bound yes m
    | some false => no.run bound m
    | none => .trapped m
  | .while _ c body, m => turns (fun m => c.truth ops m.vars) (runAll bound body) bound m
  | .break _, m => .break m
  | .continue _, m => .continue m

def runAll (bound : Nat) : List Stmt → Memory → Outcome
  | [], m => .normal m
  | s :: rest, m => (s.run bound m).andThen (runAll bound rest)

end

def Prints (program : List Stmt) (ws : List (BitVec 64)) : Prop :=
  ∃ bound, ws <+: (runAll ops bound program .start).memory.printed

def Ends (program : List Stmt) (e : Stop) (ws : List (BitVec 64)) : Prop :=
  ∃ bound, match runAll ops bound program .start with
    | .normal m => e = .returned ∧ m.printed = ws
    | .trapped m => e = .trapped ∧ m.printed = ws
    | _ => False

end Bx.Structured
