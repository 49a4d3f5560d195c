import Bx.Asm.Basic
import Bx.Proofs.Basic
import Bx.Proofs.Machine.Basic
import Mathlib.Algebra.Group.Nat.Defs

namespace Bx.Asm.X64

open List
open Tac (Numeral)

abbrev Address := BitVec 64

abbrev Memory := Address → BitVec 8

def littleEndian (byte : Nat → Nat) : Nat := (List.range 8).foldr (fun i n => byte i + 256 * n) 0

def load (m : Memory) (a : Address) : BitVec 64 :=
  BitVec.ofNat 64 (littleEndian fun i => (m (a + BitVec.ofNat 64 i)).toNat)

def store (m : Memory) (a : Address) (v : BitVec 64) : Memory :=
  fun b => if (b - a).toNat < 8 then BitVec.ofNat 8 (v.toNat / 256 ^ (b - a).toNat) else m b

structure Flags where
  zero : Bool
  sign : Bool
  overflow : Bool

/-- Flags are not known after instructions that leave them undefined. -/
structure State where
  pc : Nat
  regs : Reg → BitVec 64
  mem : Memory
  flags : Option Flags
  printed : List (BitVec 64)

def State.set (s : State) (r : Reg) (v : BitVec 64) : State :=
  { s with regs := fun q => if q = r then v else s.regs q }

@[simp]
theorem set_regs_self (s : State) (r : Reg) (v : BitVec 64) : (s.set r v).regs r = v := if_pos rfl

@[simp]
theorem set_mem (s : State) (r : Reg) (v : BitVec 64) : (s.set r v).mem = s.mem := rfl

@[simp]
theorem set_pc (s : State) (r : Reg) (v : BitVec 64) : (s.set r v).pc = s.pc := rfl

@[simp]
theorem set_printed (s : State) (r : Reg) (v : BitVec 64) : (s.set r v).printed = s.printed := rfl

/-- A routine that prints a word and keeps the frame pointer, the stack pointer and the memory from there on. -/
structure Printer where
  run : State → State
  rbp : ∀ s, (run s).regs .rbp = s.regs .rbp
  rsp : ∀ s, (run s).regs .rsp = s.regs .rsp
  above : ∀ s a, (s.regs .rsp).toNat ≤ a.toNat → (run s).mem a = s.mem a

/-- Where symbols are, the routine that prints, and where the caller goes on. -/
structure Env where
  symbols : String → Address
  printer : Printer
  caller : Address

variable (env : Env)

def address (s : State) : Place → Address
  | .slot k => s.regs .rbp - BitVec.ofNat 64 (8 * k)
  | .passed k => s.regs .rbp + BitVec.ofNat 64 (16 + 8 * k)
  | .global x => env.symbols x

def read (s : State) : Operand → Option (BitVec 64)
  | .reg r => some (s.regs r)
  | .at p => some (load s.mem (address env s p))
  | .imm (.int n) => if -Word.half ≤ n ∧ n < Word.size then some (BitVec.ofInt 64 n) else none
  | .imm (.bool _) => none

def write (s : State) (d : Operand) (v : BitVec 64) : Option State :=
  match d with
  | .reg r => some (s.set r v)
  | .at p => some { s with mem := store s.mem (address env s p) v }
  | .imm _ => none

def encodable (src dst : Operand) : Bool :=
  match src, dst with
  | .at _, .at _ => false
  | .imm (.int n), _ => -2147483648 ≤ n && n < 2147483648
  | _, _ => true

def flagsOf (w : BitVec 64) (exact : Int) : Flags := ⟨w == 0, w.msb, w.toInt != exact⟩

def Alu.apply (op : Alu) (u v : BitVec 64) : BitVec 64 × Flags :=
  match op with
  | .add => (u + v, flagsOf (u + v) (u.toInt + v.toInt))
  | .sub => (u - v, flagsOf (u - v) (u.toInt - v.toInt))
  | .cmp => (u, flagsOf (u - v) (u.toInt - v.toInt))
  | .and => (u &&& v, flagsOf (u &&& v) (u &&& v).toInt)
  | .or => (u ||| v, flagsOf (u ||| v) (u ||| v).toInt)
  | .xor => (u ^^^ v, flagsOf (u ^^^ v) (u ^^^ v).toInt)

def wide (s : State) : Int := (s.regs .rdx).toInt * Word.size + (s.regs .rax).toNat

def setWide (s : State) (low high : Int) : State :=
  { (s.set .rax (BitVec.ofInt 64 low)).set .rdx (BitVec.ofInt 64 high) with flags := none }

def shiftCount (s : State) : Nat := (s.regs .rcx).toNat % 64

def effect (s : State) : Line → Option State
  | .movq src dst => do
    if src matches .at _ ∧ dst matches .at _ then none
    else write env s dst (← read env s src)
  | .alu op src dst => do
    if encodable src dst then
      let v ← read env s src
      let u ← read env s dst
      let s ← write env s dst (Alu.apply op u v).1
      return { s with flags := some (Alu.apply op u v).2 }
    else none
  | .imulq src => do
    let n := (s.regs .rax).toInt * (← read env s src).toInt
    return setWide s n (n / Word.size)
  | .cqto => some (s.set .rdx (if (s.regs .rax).msb then -1 else 0))
  | .salq dst => do return { ← write env s dst ((← read env s dst) <<< shiftCount s) with flags := none }
  | .sarq dst => do return { ← write env s dst ((← read env s dst).sshiftRight (shiftCount s)) with flags := none }
  | .negq dst => do
    let v ← read env s dst
    return { ← write env s dst (-v) with flags := some (flagsOf (-v) (-v.toInt)) }
  | .notq dst => do write env s dst (~~~(← read env s dst))
  | .pushq src => do
    let v ← read env s src
    let a := s.regs .rsp - 8
    return { s.set .rsp a with mem := store s.mem a v }
  | .popq dst => write env (s.set .rsp (s.regs .rsp + 8)) dst (load s.mem (s.regs .rsp))
  | .leaFormat dst => write env s dst (env.symbols ".lprintfmt")
  | .label _ | .blank => some s
  | .idivq _ | .callq _ | .retq | .jmp _ | .jcc _ _ => none

def Flags.holds (f : Flags) : Cond → Bool
  | .e | .z => f.zero
  | .ne | .nz => !f.zero
  | .l | .nge => f.sign != f.overflow
  | .ge | .nl => f.sign == f.overflow
  | .le | .ng => f.zero || f.sign != f.overflow
  | .g | .nle => !f.zero && f.sign == f.overflow

def labelAt (lines : List Line) (l : String) : Option Nat := lines.findIdx? (· == .label l)

def divide (s : State) (v : BitVec 64) : Next State :=
  let q := (wide s).tdiv v.toInt
  if v = 0 ∨ q < -Word.half ∨ Word.half ≤ q then .stop .trapped
  else .go { setWide s q ((wide s) - v.toInt * q) with pc := s.pc + 1 }

def exec (lines : List Line) (s : State) (line : Line) : Next State :=
  match line with
  | .retq => .stop (if load s.mem (s.regs .rsp) = env.caller then .returned else .stuck)
  | .jmp l => match labelAt lines l with
    | some k => .go { s with pc := k }
    | none => .stop .stuck
  | .jcc c l => match s.flags, labelAt lines l with
    | some f, some k => .go { s with pc := if f.holds c then k else s.pc + 1 }
    | _, _ => .stop .stuck
  | .callq f =>
    if f = "bx_print_int" then
      .go { env.printer.run s with pc := s.pc + 1, printed := s.printed ++ [s.regs .rdi] }
    else .stop .stuck
  | .idivq src => match read env s src with
    | some v => divide s v
    | none => .stop .stuck
  | line => match effect env s line with
    | some s' => .go { s' with pc := s.pc + 1 }
    | none => .stop .stuck

def machine (lines : List Line) : Machine State where
  next s := match lines[s.pc]? with
    | some line => exec env lines s line
    | none => .stop .stuck
  printed := State.printed

section Memory

variable {m m' : Memory} {a b : Address} {v : BitVec 64}

theorem littleEndian_congr {f g : Nat → Nat} (h : ∀ i < 8, f i = g i) : littleEndian f = littleEndian g := by
  have hfold : ∀ is : List Nat, (∀ i ∈ is, i < 8) →
      is.foldr (fun i n => f i + 256 * n) 0 = is.foldr (fun i n => g i + 256 * n) 0 := by
    intro is his
    induction is with
    | nil => rfl
    | cons i is ih =>
      rw [forall_mem_cons] at his
      rw [foldr_cons, foldr_cons, ih his.2, h i his.1]
  exact hfold (List.range 8) fun i hi => List.mem_range.1 hi

theorem load_congr (h : ∀ i < 8, m (a + BitVec.ofNat 64 i) = m' (a + BitVec.ofNat 64 i)) : load m a = load m' a := by
  rw [load, load, littleEndian_congr fun i hi => by rw [h i hi]]

theorem load_store_self (m : Memory) (a : Address) (v : BitVec 64) : load (store m a v) a = v := by
  have hbyte : ∀ i < 8, (store m a v (a + BitVec.ofNat 64 i)).toNat = v.toNat / 256 ^ i % 256 := by
    intro i hi
    have hsub : (a + BitVec.ofNat 64 i - a).toNat = i := by
      rw [BitVec.add_comm, BitVec.add_sub_cancel, BitVec.toNat_ofNat]
      omega
    rw [store, hsub, if_pos hi, BitVec.toNat_ofNat]
  rw [load, littleEndian_congr hbyte]
  apply BitVec.eq_of_toNat_eq
  have hv := v.isLt
  simp only [littleEndian, List.range, List.range.loop, List.foldr, BitVec.toNat_ofNat]
  omega

theorem store_above (h : a.toNat + 8 ≤ b.toNat) : store m a v b = m b := by
  have hsub : 8 ≤ (b - a).toNat := by
    rw [BitVec.toNat_sub_of_le (by rw [BitVec.le_def]; omega)]
    omega
  rw [store, if_neg (by omega)]

theorem load_store_of_disjoint (ha : a.toNat + 8 ≤ 2 ^ 64) (hb : b.toNat + 8 ≤ 2 ^ 64)
    (h : a.toNat + 8 ≤ b.toNat ∨ b.toNat + 8 ≤ a.toNat) : load (store m a v) b = load m b := by
  refine load_congr fun i hi => ?_
  have hi' : (BitVec.ofNat 64 i).toNat = i := by
    rw [BitVec.toNat_ofNat]
    omega
  rw [store, if_neg]
  rw [BitVec.toNat_sub, BitVec.toNat_add, hi']
  omega

theorem load_congr_above (hb : b.toNat + 8 ≤ 2 ^ 64) (hab : a.toNat ≤ b.toNat)
    (h : ∀ c : Address, a.toNat ≤ c.toNat → m c = m' c) : load m b = load m' b := by
  refine load_congr fun i hi => h _ ?_
  rw [BitVec.toNat_add, BitVec.toNat_ofNat]
  omega

end Memory

section Effects

variable {env : Env} {lines : List Line} {s s' : State} {line : Line}

theorem next_of_effect (h : lines[s.pc]? = some line) (he : effect env s line = some s') :
    (machine env lines).next s = .go { s' with pc := s.pc + 1 } := by
  cases line <;> simp only [machine, h, exec, he] <;> cases he

theorem printed_of_write {d : Operand} {v : BitVec 64} (h : write env s d v = some s') : s'.printed = s.printed := by
  cases d <;> cases h <;> rfl

theorem printed_of_effect (h : effect env s line = some s') : s'.printed = s.printed := by
  cases line <;> simp only [effect, Option.bind_eq_bind, Option.bind_eq_some_iff, Option.pure_def, Option.some.injEq,
    Option.ite_none_left_eq_some, Option.ite_none_right_eq_some, reduceCtorEq] at h
  case movq =>
      obtain ⟨-, v, -, h⟩ := h
      exact printed_of_write h
  case alu =>
      obtain ⟨-, v, -, u, -, s₁, h, rfl⟩ := h
      exact (printed_of_write h : s₁.printed = s.printed)
  case imulq =>
      obtain ⟨v, -, rfl⟩ := h
      rfl
  case salq | sarq | negq =>
      obtain ⟨v, -, s₁, h, rfl⟩ := h
      exact (printed_of_write h : s₁.printed = s.printed)
  case notq =>
      obtain ⟨v, -, h⟩ := h
      exact printed_of_write h
  case pushq =>
      obtain ⟨v, -, rfl⟩ := h
      rfl
  case popq => exact (printed_of_write h).trans rfl
  case leaFormat => exact printed_of_write h
  case cqto | label | blank => exact h ▸ rfl

def effects (env : Env) : List Line → State → Option State
  | [], s => some s
  | line :: rest, s => do
    let s' ← effect env s line
    effects env rest { s' with pc := s.pc + 1 }

theorem effects_append (ls ls' : List Line) (s : State) :
    effects env (ls ++ ls') s = (effects env ls s).bind (effects env ls') := by
  induction ls generalizing s with
  | nil => rfl
  | cons line ls ih =>
    rw [cons_append, effects, effects]
    cases effect env s line with
    | none => rfl
    | some s₁ => exact ih _

theorem slides_of_effects {ls : List Line} (hat : StandsAt lines s.pc ls) (h : effects env ls s = some s') :
    (machine env lines).Slides ls.length s s' := by
  induction ls generalizing s with
  | nil =>
    cases h
    exact .refl _
  | cons line ls ih =>
    obtain ⟨hline, hat⟩ := standsAt_cons.1 hat
    obtain ⟨s₁, he, h⟩ := Option.bind_eq_some_iff.1 h
    exact .step (next_of_effect hline he) (printed_of_effect he) (ih hat h)

end Effects

end Bx.Asm.X64
