import Bx.Tac.Instr
import Bx.Text.Search

namespace Bx.Asm

open Tac

inductive Reg
  | rax | rcx | rdx | rdi | rsi | rbp | rsp | r8 | r9 | r11
  deriving DecidableEq

def Reg.text : Reg → String
  | .rax => "%rax"
  | .rcx => "%rcx"
  | .rdx => "%rdx"
  | .rdi => "%rdi"
  | .rsi => "%rsi"
  | .rbp => "%rbp"
  | .rsp => "%rsp"
  | .r8 => "%r8"
  | .r9 => "%r9"
  | .r11 => "%r11"

/-- A word of the frame by its number, one that the caller pushed, or a global. -/
inductive Place
  | slot (k : Nat)
  | passed (k : Nat)
  | global (name : String)
  deriving DecidableEq

def Place.text : Place → String
  | .slot k => toString (-8 * (k : Int)) ++ "(%rbp)"
  | .passed k => toString (16 + 8 * k) ++ "(%rbp)"
  | .global x => x ++ "(%rip)"

inductive Operand
  | reg (r : Reg)
  | at (p : Place)
  | imm (n : Numeral)
  deriving DecidableEq

def Operand.text : Operand → String
  | .reg r => r.text
  | .at p => p.text
  | .imm (.int n) => "$" ++ toString n
  | .imm (.bool b) => "$" ++ if b then "True" else "False"

inductive Alu
  | add | sub | and | or | xor | cmp
  deriving DecidableEq

def Alu.text : Alu → String
  | .add => "addq"
  | .sub => "subq"
  | .and => "andq"
  | .or => "orq"
  | .xor => "xorq"
  | .cmp => "cmpq"

inductive Cond
  | ne | e | l | le | g | ge | z | nz | nge | ng | nle | nl
  deriving DecidableEq

def Cond.text : Cond → String
  | .ne => "jne"
  | .e => "je"
  | .l => "jl"
  | .le => "jle"
  | .g => "jg"
  | .ge => "jge"
  | .z => "jz"
  | .nz => "jnz"
  | .nge => "jnge"
  | .ng => "jng"
  | .nle => "jnle"
  | .nl => "jnl"

def Cond.all : List Cond := [.ne, .e, .l, .le, .g, .ge, .z, .nz, .nge, .ng, .nle, .nl]

def Cond.ofText? (s : String) : Option Cond := Cond.all.find? fun c => c.text == s

/-- Shifts are by `%cl`; `imulq`, `cqto` and `idivq` work on `%rdx:%rax`. -/
inductive Line
  | movq (src dst : Operand)
  | alu (op : Alu) (src dst : Operand)
  | imulq (src : Operand)
  | idivq (src : Operand)
  | cqto
  | salq (dst : Operand)
  | sarq (dst : Operand)
  | negq (dst : Operand)
  | notq (dst : Operand)
  | pushq (src : Operand)
  | popq (dst : Operand)
  | leaFormat (dst : Operand)
  | callq (f : String)
  | retq
  | jmp (l : String)
  | jcc (c : Cond) (l : String)
  | label (l : String)
  | blank
  deriving DecidableEq

def Line.text : Line → String
  | .movq s d => "movq " ++ s.text ++ ", " ++ d.text
  | .alu op s d => op.text ++ " " ++ s.text ++ ", " ++ d.text
  | .imulq s => "imulq " ++ s.text
  | .idivq s => "idivq " ++ s.text
  | .cqto => "cqto"
  | .salq d => "salq %cl, " ++ d.text
  | .sarq d => "sarq %cl, " ++ d.text
  | .negq d => "negq " ++ d.text
  | .notq d => "notq " ++ d.text
  | .pushq s => "pushq " ++ s.text
  | .popq d => "popq " ++ d.text
  | .leaFormat d => "leaq .lprintfmt(%rip), " ++ d.text
  | .callq f => "callq " ++ f
  | .retq => "retq"
  | .jmp l => "jmp " ++ l
  | .jcc c l => c.text ++ " " ++ l
  | .label l => l ++ ":"
  | .blank => ""

def Line.indented (l : Line) : String :=
  match l with
  | .label _ | .blank => l.text
  | l => "\t" ++ l.text

instance : Coe Reg Operand := ⟨.reg⟩

instance : Coe Place Operand := ⟨.at⟩

def binop (op : Word.Binop) (x y d : Place) : List Line :=
  let through (a : Alu) : List Line := [.movq x Reg.r11, .alu a y Reg.r11, .movq Reg.r11 d]
  match op with
  | .add => through .add
  | .sub => through .sub
  | .and => through .and
  | .or => through .or
  | .xor => through .xor
  | .mul => [.movq x Reg.rax, .imulq y, .movq Reg.rax d]
  | .div => [.movq x Reg.rax, .cqto, .idivq y, .movq Reg.rax d]
  | .mod => [.movq x Reg.rax, .cqto, .idivq y, .movq Reg.rdx d]
  | .shl => [.movq x Reg.r11, .movq y Reg.rcx, .salq Reg.r11, .movq Reg.r11 d]
  | .shr => [.movq x Reg.r11, .movq y Reg.rcx, .sarq Reg.r11, .movq Reg.r11 d]

def unop (op : Word.Unop) (x d : Place) : List Line :=
  let change : Line := match op with
    | .neg => .negq Reg.r11
    | .not => .notq Reg.r11
  [.movq x Reg.r11, change, .movq Reg.r11 d]

def copy (x d : Place) : List Line := [.movq x Reg.r11, .movq Reg.r11 d]

def test (c : Cond) (x : Place) (l : String) : List Line :=
  [.movq x Reg.r11, .alu .cmp (.imm (.int 0)) Reg.r11, .jcc c l]

def enter (words : Nat) : List Line :=
  [.pushq Reg.rbp, .movq Reg.rsp Reg.rbp, .alu .sub (.imm (.int (8 * words))) Reg.rsp]

def leave : List Line := [.movq Reg.rbp Reg.rsp, .popq Reg.rbp]

def clear : Line := .alu .xor Reg.rax Reg.rax

def aligned (words : Nat) : Nat := words + words % 2

inductive Error
  | shape (f : Datum.Fault)
  | malformed
  | badTemp (d : Datum)
  | unknownOpcode (d : Datum)
  | unset

def Error.message : Error → String
  | .badTemp d => d.text
  | .unknownOpcode d => "unknown opcode: " ++ d.text
  | _ => ""

def require (b : Bool) : Except Error Unit := if b then .ok () else .error .malformed

def shape {α : Type} (r : Except Datum.Fault α) : Except Error α := r.mapError .shape

def count (n : Nat) (args : Datum) : Except Error Unit := do require ((← shape args.size) == n)

def arg (args : Datum) (k : Nat) : Except Error Datum := shape (args.item k)

def oneArg (args : Datum) : Except Error Datum := do
  count 1 args
  arg args 0

def immediate (d : Datum) : Except Error Numeral :=
  match d with
  | .int n => .ok (.int n)
  | .bool b => .ok (.bool b)
  | _ => .error .malformed

def labelLine (d : Datum) : Except Error Line :=
  match d with
  | .str s => .ok (.label s)
  | _ => .error (.shape .operator)

inductive Form
  | nop | const | copy
  | binop (op : Word.Binop)
  | unop (op : Word.Unop)
  | other (op : Datum)

def Form.ofOpcode (op : Datum) : Except Error Form :=
  match op with
  | .str "nop" => .ok .nop
  | .str "const" => .ok .const
  | .str "copy" => .ok .copy
  | .str s => match Word.Binop.ofName? s, Word.Unop.ofName? s with
    | some b, _ => .ok (.binop b)
    | _, some u => .ok (.unop u)
    | none, none => .ok (.other op)
  | op => if op.isKey then .ok (.other op) else .error (.shape .operator)

/-- An abbreviation, any part of the name, stands for a jump or a label. -/
inductive Branch
  | jcc (c : Cond) | jmp | label

def Branch.ofOpcode? (op : Datum) : Except Error (Option Branch) :=
  match op with
  | .str s => match Cond.ofText? s with
    | some c => .ok (some (.jcc c))
    | none => .ok (if Text.occursIn s "jmp" then some .jmp else if Text.occursIn s "label" then some .label else none)
  | _ => .error (.shape .operator)

end Bx.Asm
