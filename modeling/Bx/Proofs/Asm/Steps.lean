import Bx.Proofs.Asm.Body
import Bx.Proofs.Asm.X64

namespace Bx.Asm.X64

open Tac.Body (Operators quotient?)

variable (env : Env) {s s' : State} {x y d : Place} {u v w : BitVec 64}

def slot (s : State) (k : Nat) : Address := s.regs .rbp - BitVec.ofNat 64 (8 * k)

theorem slot_congr (h : s'.regs .rbp = s.regs .rbp) (k : Nat) : slot s' k = slot s k := by
  rw [slot, slot, h]

theorem address_congr (h : s'.regs .rbp = s.regs .rbp) (p : Place) : address env s' p = address env s p := by
  cases p <;> simp only [address, h]

structure Stores (n : Nat) (s : State) (d : Place) (v : BitVec 64) (s' : State) : Prop where
  pc : s'.pc = s.pc + n
  rbp : s'.regs .rbp = s.regs .rbp
  rsp : s'.regs .rsp = s.regs .rsp
  mem : s'.mem = store s.mem (address env s d) v
  printed : s'.printed = s.printed

structure Works (n : Nat) (s s' : State) : Prop where
  pc : s'.pc = s.pc + n
  rbp : s'.regs .rbp = s.regs .rbp
  rsp : s'.regs .rsp = s.regs .rsp
  mem : s'.mem = s.mem
  printed : s'.printed = s.printed

theorem effects_const {n : Int} (h : -Word.half ≤ n ∧ n < Word.size) :
    ∃ s', effects env [.movq (.imm (.int n)) (.at d)] s = some s' ∧ Stores env 1 s d (BitVec.ofInt 64 n) s' := by
  refine ⟨{ s with pc := s.pc + 1, mem := store s.mem (address env s d) (BitVec.ofInt 64 n) }, ?_, rfl, rfl, rfl, rfl, rfl⟩
  simp [effects, effect, read, write, h]

theorem effects_copy : ∃ s', effects env (copy x d) s = some s' ∧ Stores env 2 s d (load s.mem (address env s x)) s' :=
  ⟨_, rfl, rfl, rfl, rfl, rfl, rfl⟩

theorem effects_unop (op : Word.Unop) : ∃ s', effects env (unop op x d) s = some s' ∧
    Stores env 3 s d (Operators.words.unop op (load s.mem (address env s x))) s' := by
  cases op <;> exact ⟨_, rfl, rfl, rfl, rfl, rfl, rfl⟩

section

variable (hu : load s.mem (address env s x) = u) (hv : load s.mem (address env s y) = v)
include hu hv

theorem effects_through (a : Alu) :
    ∃ s', effects env [.movq (.at x) Reg.r11, .alu a (.at y) Reg.r11, .movq Reg.r11 (.at d)] s = some s' ∧
      Stores env 3 s d (Alu.apply a u v).1 s' := by
  subst hu hv
  exact ⟨_, rfl, rfl, rfl, rfl, rfl, rfl⟩

theorem effects_shift :
    (∃ s', effects env (binop .shl x y d) s = some s' ∧ Stores env 4 s d (u <<< (v.toNat % 64)) s') ∧
      ∃ s', effects env (binop .shr x y d) s = some s' ∧ Stores env 4 s d (u.sshiftRight (v.toNat % 64)) s' := by
  subst hu hv
  exact ⟨⟨_, rfl, rfl, rfl, rfl, rfl, rfl⟩, _, rfl, rfl, rfl, rfl, rfl, rfl⟩

theorem effects_mul :
    ∃ s', effects env (binop .mul x y d) s = some s' ∧ Stores env 3 s d (BitVec.ofInt 64 (u.toInt * v.toInt)) s' := by
  subst hu hv
  exact ⟨_, rfl, rfl, rfl, rfl, rfl, rfl⟩

omit hu hv in
theorem ofInt_toInt_mul (u v : BitVec 64) : BitVec.ofInt 64 (u.toInt * v.toInt) = u * v := by
  rw [BitVec.ofInt_mul, BitVec.ofInt_toInt, BitVec.ofInt_toInt]

theorem effects_binop {op : Word.Binop} (hd : op ≠ .div) (hm : op ≠ .mod) (hw : Operators.words.binop op u v = some w) :
    ∃ s', effects env (binop op x y d) s = some s' ∧ Stores env (binop op x y d).length s d w s' := by
  cases op with
  | div => exact absurd rfl hd
  | mod => exact absurd rfl hm
  | mul =>
    cases hw
    rw [← ofInt_toInt_mul]
    exact effects_mul env hu hv
  | add | sub | and | or | xor =>
    cases hw
    exact effects_through env hu hv _
  | shl =>
    cases hw
    exact (effects_shift env hu hv).1
  | shr =>
    cases hw
    exact (effects_shift env hu hv).2

end

theorem signed_wide (u : BitVec 64) : (if u.msb then -1 else 0 : BitVec 64).toInt * Word.size + u.toNat = u.toInt := by
  have hu := BitVec.toInt_eq_msb_cond u
  have hone : (-1 : BitVec 64).toInt = -1 := by decide
  cases h : u.msb with
  | false => simp_all
  | true =>
    rw [h] at hu
    simp only [if_true, hone, Word.size] at hu ⊢
    omega

theorem effects_dividend (hu : load s.mem (address env s x) = u) :
    ∃ s', effects env [.movq (.at x) Reg.rax, .cqto] s = some s' ∧ Works 2 s s' ∧ wide s' = u.toInt := by
  subst hu
  exact ⟨_, rfl, ⟨rfl, rfl, rfl, rfl, rfl⟩, signed_wide _⟩

theorem divide_eq (hw : wide s = u.toInt) : divide s v = match quotient? u v with
    | some q => .go { setWide s q (u.toInt - v.toInt * q) with pc := s.pc + 1 }
    | none => .stop .trapped := by
  simp only [divide, quotient?, hw]
  split
  · rfl
  · rfl

theorem effects_result (s : State) (d : Place) (r : Reg) : ∃ s', effects env [.movq (.reg r) (.at d)] s = some s' ∧ Stores env 1 s d (s.regs r) s' :=
  ⟨_, rfl, rfl, rfl, rfl, rfl, rfl⟩

theorem effects_test (hu : load s.mem (address env s x) = u) :
    ∃ s', effects env [.movq (.at x) Reg.r11, .alu .cmp (.imm (.int 0)) Reg.r11] s = some s' ∧ Works 2 s s' ∧
      s'.flags = some (flagsOf (u - 0) (u.toInt - 0)) := by
  subst hu
  exact ⟨_, rfl, ⟨rfl, rfl, rfl, rfl, rfl⟩, rfl⟩

theorem holds_flagsOf (c : Cond) (u : BitVec 64) : (flagsOf (u - 0) (u.toInt - 0)).holds c = Tac.Body.holds c u := by
  have hzero : (u == 0#64) = decide (u.toInt = 0) := by
    rw [Bool.eq_iff_iff, beq_iff_eq, decide_eq_true_iff, ← BitVec.toInt_inj]
    rfl
  have hsign : u.msb = decide (u.toInt < 0) := BitVec.msb_eq_toInt
  have hflags : flagsOf (u - 0) (u.toInt - 0) = ⟨decide (u.toInt = 0), decide (u.toInt < 0), false⟩ := by
    simp [flagsOf, hzero, hsign]
  rw [hflags]
  cases c <;> simp only [Flags.holds, Tac.Body.holds] <;> grind

variable {env} {lines : List Line}

theorem Works.next_stores {n m : Nat} {s₁ : State} (h : Works n s s₁) (h' : Stores env m s₁ d v s') : Stores env (n + m) s d v s' where
  pc := by rw [h'.pc, h.pc, Nat.add_assoc]
  rbp := h'.rbp.trans h.rbp
  rsp := h'.rsp.trans h.rsp
  mem := by rw [h'.mem, h.mem, address_congr env h.rbp]
  printed := h'.printed.trans h.printed

theorem runs_division {r : Reg} (hr : r = .rax ∨ r = .rdx)
    (hat : StandsAt lines s.pc [.movq (.at x) Reg.rax, .cqto, .idivq (.at y), .movq (.reg r) (.at d)])
    (hu : load s.mem (address env s x) = u) (hv : load s.mem (address env s y) = v) :
    (∀ q, quotient? u v = some q → ∃ s', (machine env lines).Slides 4 s s' ∧
      Stores env 4 s d (BitVec.ofInt 64 (if r = .rax then q else u.toInt - v.toInt * q)) s') ∧
    (quotient? u v = none → ∃ s', (machine env lines).Slides 2 s s' ∧ (machine env lines).next s' = .stop .trapped) := by
  obtain ⟨hmov, hrest⟩ := standsAt_cons.1 hat
  obtain ⟨hcqto, hrest⟩ := standsAt_cons.1 hrest
  obtain ⟨hdiv, hrest⟩ := standsAt_cons.1 hrest
  obtain ⟨s₁, he, hworks, hwide⟩ := effects_dividend env hu
  have hslides : (machine env lines).Slides 2 s s₁ :=
    slides_of_effects (standsAt_cons.2 ⟨hmov, standsAt_singleton.2 hcqto⟩) he
  have hread : read env s₁ (.at y) = some v := by
    rw [← hv, ← hworks.mem, ← address_congr env hworks.rbp]
    rfl
  have hnext : (machine env lines).next s₁ = divide s₁ v := by
    have hline : lines[s₁.pc]? = some (.idivq (.at y)) := by
      rw [hworks.pc]
      exact hdiv
    simp only [machine, hline, exec, hread]
  rw [divide_eq hwide] at hnext
  refine ⟨fun q hq => ?_, fun hq => ?_⟩
  · rw [hq] at hnext
    have hworks₂ : Works 3 s { setWide s₁ q (u.toInt - v.toInt * q) with pc := s₁.pc + 1 } :=
      ⟨by rw [hworks.pc], hworks.rbp, hworks.rsp, hworks.mem, hworks.printed⟩
    obtain ⟨s', he', hstores⟩ := effects_result env { setWide s₁ q (u.toInt - v.toInt * q) with pc := s₁.pc + 1 } d r
    have hslides' : (machine env lines).Slides 1 _ s' := slides_of_effects (by rw [hworks₂.pc]; exact hrest) he'
    have hvalue : BitVec.ofInt 64 (if r = .rax then q else u.toInt - v.toInt * q) =
        (setWide s₁ q (u.toInt - v.toInt * q)).regs r := by
      rcases hr with rfl | rfl <;> rfl
    exact ⟨s', hslides.trans (.step hnext rfl hslides'), hvalue ▸ hworks₂.next_stores hstores⟩
  · rw [hq] at hnext
    exact ⟨s₁, hslides, hnext⟩

theorem runs_binop {op : Word.Binop} (hat : StandsAt lines s.pc (binop op x y d))
    (hu : load s.mem (address env s x) = u) (hv : load s.mem (address env s y) = v) :
    (∀ w, Operators.words.binop op u v = some w → ∃ s',
      (machine env lines).Slides (binop op x y d).length s s' ∧ Stores env (binop op x y d).length s d w s') ∧
    (Operators.words.binop op u v = none → ∃ k < (binop op x y d).length, ∃ s', (machine env lines).Slides k s s' ∧
      (machine env lines).next s' = .stop .trapped) := by
  by_cases hdiv : op = .div
  · subst hdiv
    obtain ⟨hvalue, htrap⟩ := runs_division (.inl rfl) hat hu hv
    refine ⟨fun w hw => ?_, fun hw => ⟨2, by simp [binop], htrap (Option.map_eq_none_iff.1 hw)⟩⟩
    obtain ⟨q, hq, rfl⟩ := Option.map_eq_some_iff.1 hw
    exact hvalue q hq
  by_cases hmod : op = .mod
  · subst hmod
    obtain ⟨hvalue, htrap⟩ := runs_division (.inr rfl) hat hu hv
    refine ⟨fun w hw => ?_, fun hw => ⟨2, by simp [binop], htrap (Option.map_eq_none_iff.1 hw)⟩⟩
    obtain ⟨q, hq, rfl⟩ := Option.map_eq_some_iff.1 hw
    exact hvalue q hq
  refine ⟨fun w hw => ?_, fun hw => ?_⟩
  · obtain ⟨s', he, hs⟩ := effects_binop env hu hv hdiv hmod hw
    exact ⟨s', slides_of_effects hat he, hs⟩
  · cases op <;> simp_all [Operators.words]

theorem runs_unop {op : Word.Unop} (hat : StandsAt lines s.pc (unop op x d)) (hu : load s.mem (address env s x) = u) :
    ∃ s', (machine env lines).Slides 3 s s' ∧ Stores env 3 s d (Operators.words.unop op u) s' := by
  subst hu
  obtain ⟨s', he, hs⟩ := effects_unop env op
  exact ⟨s', by simpa [unop] using slides_of_effects hat he, hs⟩

theorem runs_test {c : Cond} {l : String} {k : Nat} (hat : StandsAt lines s.pc (test c x l))
    (hu : load s.mem (address env s x) = u) (hl : labelAt lines l = some k) :
    ∃ s', (machine env lines).Slides 3 s s' ∧ s'.pc = (if Tac.Body.holds c u then k else s.pc + 3) ∧
      s'.regs .rbp = s.regs .rbp ∧ s'.regs .rsp = s.regs .rsp ∧ s'.mem = s.mem ∧ s'.printed = s.printed := by
  obtain ⟨hmov, hrest⟩ := standsAt_cons.1 hat
  obtain ⟨hcmp, hjcc⟩ := standsAt_cons.1 hrest
  obtain ⟨s₁, he, hworks, hflags⟩ := effects_test env hu
  have hslides : (machine env lines).Slides 2 s s₁ :=
    slides_of_effects (standsAt_cons.2 ⟨hmov, standsAt_singleton.2 hcmp⟩) he
  have hline : lines[s₁.pc]? = some (.jcc c l) := by
    rw [hworks.pc]
    exact standsAt_singleton.1 hjcc
  have hnext : (machine env lines).next s₁ = .go { s₁ with pc := if Tac.Body.holds c u then k else s₁.pc + 1 } := by
    simp only [machine, hline, exec, hflags, hl, holds_flagsOf]
  exact ⟨_, hslides.trans (.step hnext rfl (.refl _)), by rw [hworks.pc], hworks.rbp, hworks.rsp, hworks.mem, hworks.printed⟩

structure Returns (n : Nat) (s s' : State) : Prop where
  pc : s'.pc = s.pc + n
  rbp : s'.regs .rbp = s.regs .rbp
  rsp : s'.regs .rsp = s.regs .rsp
  above : ∀ a : Address, (s.regs .rsp).toNat ≤ a.toNat → s'.mem a = s.mem a

theorem toNat_sub_of_room {a : Address} {n : Nat} (h : n ≤ a.toNat) : (a - BitVec.ofNat 64 n).toNat = a.toNat - n := by
  have ha := a.isLt
  have hn : (BitVec.ofNat 64 n).toNat = n := by
    rw [BitVec.toNat_ofNat]
    omega
  rw [BitVec.toNat_sub_of_le (by rw [BitVec.le_def]; omega), hn]

theorem toNat_sub_eight {a : Address} (h : 8 ≤ a.toNat) : (a - 8).toNat = a.toNat - 8 :=
  toNat_sub_of_room (show (8 : Nat) ≤ a.toNat from h)

theorem effects_push_push (env : Env) (s : State) (x : Nat) : ∃ s', effects env [.pushq Reg.rdi, .pushq Reg.rax, .movq (.at (.slot x)) Reg.rdi] s = some s' ∧
    s'.pc = s.pc + 3 ∧ s'.regs .rbp = s.regs .rbp ∧ s'.regs .rsp = s.regs .rsp - 8 - 8 ∧
    s'.regs .rdi = load s'.mem (slot s x) ∧ s'.printed = s.printed ∧
    s'.mem = store (store s.mem (s.regs .rsp - 8) (s.regs .rdi)) (s.regs .rsp - 8 - 8) (s.regs .rax) :=
  ⟨_, rfl, rfl, rfl, rfl, rfl, rfl, rfl⟩

theorem effects_pop_pop (env : Env) (s : State) : ∃ s', effects env [.popq Reg.rax, .popq Reg.rdi] s = some s' ∧ s'.pc = s.pc + 2 ∧
    s'.regs .rbp = s.regs .rbp ∧ s'.regs .rsp = s.regs .rsp + 8 + 8 ∧ s'.mem = s.mem ∧ s'.printed = s.printed :=
  ⟨_, rfl, rfl, rfl, rfl, rfl, rfl⟩

theorem runs_print {x : Nat} (hat : StandsAt lines s.pc (Body.printLines .structured (.slot x))) (hroom : 16 ≤ (s.regs .rsp).toNat)
    (hlow : (s.regs .rsp).toNat ≤ (slot s x).toNat) (hhigh : (slot s x).toNat + 8 ≤ 2 ^ 64) (hu : load s.mem (slot s x) = u) :
    ∃ s', (machine env lines).Covers 6 s s' ∧ Returns 6 s s' ∧ s'.printed = s.printed ++ [u] := by
  obtain ⟨hpush₁, hrest⟩ := standsAt_cons.1 hat
  obtain ⟨hpush₂, hrest⟩ := standsAt_cons.1 hrest
  obtain ⟨hmov, hrest⟩ := standsAt_cons.1 hrest
  obtain ⟨hcall, hpops⟩ := standsAt_cons.1 hrest
  obtain ⟨s₁, he₁, hpc₁, hrbp₁, hrsp₁, hrdi, hprinted₁, hmem₁⟩ := effects_push_push env s x
  have htop : (s.regs .rsp - 8).toNat = (s.regs .rsp).toNat - 8 := toNat_sub_eight (by omega)
  have htop' : (s.regs .rsp - 8 - 8).toNat = (s.regs .rsp).toNat - 8 - 8 := by rw [toNat_sub_eight (by omega), htop]
  have habove₁ : ∀ a : Address, (s.regs .rsp).toNat ≤ a.toNat → s₁.mem a = s.mem a := by
    intro a ha
    rw [hmem₁, store_above (by omega), store_above (by omega)]
  have hslides₁ : (machine env lines).Slides 3 s s₁ :=
    slides_of_effects (standsAt_cons.2 ⟨hpush₁, standsAt_cons.2 ⟨hpush₂, standsAt_singleton.2 hmov⟩⟩) he₁
  have hword : s₁.regs .rdi = u := by
    rw [hrdi, ← hu]
    exact load_congr_above hhigh hlow habove₁
  have hline : lines[s₁.pc]? = some (.callq "bx_print_int") := by
    rw [hpc₁]
    exact hcall
  have hnext : (machine env lines).next s₁ =
      .go { env.printer.run s₁ with pc := s₁.pc + 1, printed := s₁.printed ++ [s₁.regs .rdi] } := by
    simp only [machine, hline, exec, if_true]
  obtain ⟨s₂, he₂, hpc₂, hrbp₂, hrsp₂, hmem₂, hprinted₂⟩ :=
    effects_pop_pop env { env.printer.run s₁ with pc := s₁.pc + 1, printed := s₁.printed ++ [s₁.regs .rdi] }
  have hslides₂ : (machine env lines).Slides 2 _ s₂ := slides_of_effects (by rw [hpc₁]; exact hpops) he₂
  refine ⟨s₂, hslides₁.covers_step hnext hslides₂, ⟨?_, ?_, ?_, fun a ha => ?_⟩, ?_⟩
  · rw [hpc₂, hpc₁]
  · rw [hrbp₂, env.printer.rbp, hrbp₁]
  · rw [hrsp₂, env.printer.rsp, hrsp₁, BitVec.sub_add_cancel, BitVec.sub_add_cancel]
  · rw [hmem₂, env.printer.above s₁ a (by rw [hrsp₁]; omega), habove₁ a ha]
  · rw [hprinted₂, hprinted₁, hword]

theorem effects_enter (env : Env) (s : State) {n : Nat} (hn : 8 * n < 2147483648) : ∃ s', effects env (enter n) s = some s' ∧ s'.pc = s.pc + 3 ∧
    s'.regs .rbp = s.regs .rsp - 8 ∧ s'.regs .rsp = s.regs .rsp - 8 - BitVec.ofNat 64 (8 * n) ∧
    s'.mem = store s.mem (s.regs .rsp - 8) (s.regs .rbp) ∧ s'.printed = s.printed := by
  have hshort : encodable (.imm (.int (8 * n))) (.reg .rsp) := by
    simp only [encodable, Bool.and_eq_true, decide_eq_true_iff]
    omega
  have hread : ∀ s, read env s (.imm (.int (8 * n))) = some (BitVec.ofNat 64 (8 * n)) := by
    intro s
    rw [read, if_pos (by simp only [Word.half, Word.size]; omega), ← BitVec.ofInt_natCast]
    rfl
  have hsub : ∀ s, effects env [.alu .sub (.imm (.int (8 * n))) Reg.rsp] s =
      some { s.set .rsp (s.regs .rsp - BitVec.ofNat 64 (8 * n)) with
        pc := s.pc + 1, flags := some (Alu.apply .sub (s.regs .rsp) (BitVec.ofNat 64 (8 * n))).2 } := by
    intro s
    simp only [effects, effect, hshort, hread, if_true]
    rfl
  obtain ⟨s₁, he, hpc, hrbp, hrsp, hmem, hprinted⟩ : ∃ s', effects env [.pushq Reg.rbp, .movq Reg.rsp Reg.rbp] s = some s' ∧
      s'.pc = s.pc + 2 ∧ s'.regs .rbp = s.regs .rsp - 8 ∧ s'.regs .rsp = s.regs .rsp - 8 ∧
      s'.mem = store s.mem (s.regs .rsp - 8) (s.regs .rbp) ∧ s'.printed = s.printed := ⟨_, rfl, rfl, rfl, rfl, rfl, rfl⟩
  rw [show enter n = [.pushq Reg.rbp, .movq Reg.rsp Reg.rbp] ++ [.alu .sub (.imm (.int (8 * n))) Reg.rsp] from rfl,
    effects_append, he, Option.bind_some, hsub]
  exact ⟨_, rfl, by rw [hpc], hrbp, by rw [hrsp]; rfl, hmem, hprinted⟩

theorem effects_leave (env : Env) (s : State) : ∃ s', effects env (leave ++ [clear]) s = some s' ∧ s'.pc = s.pc + 3 ∧
    s'.regs .rsp = s.regs .rbp + 8 ∧ s'.mem = s.mem ∧ s'.printed = s.printed :=
  ⟨_, rfl, rfl, rfl, rfl, rfl⟩

end Bx.Asm.X64
