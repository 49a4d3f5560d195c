import Bx.Proofs.Asm.Slots
import Bx.Proofs.Asm.Steps

namespace Bx.Asm.Body

open List
open Tac.Body (Op Operators put)

variable {op : Op} {l : String}

section Layout

variable (temps : Temps) (ops : List Op)

def assembly : List Line := enter (aligned temps.length) ++ ops.flatMap (linesOf temps) ++ (leave ++ [clear, .retq])

def position (i : Nat) : Nat := 3 + ((ops.take i).flatMap (linesOf temps)).length

theorem standsAt_linesOf {i : Nat} (h : ops[i]? = some op) :
    StandsAt (assembly temps ops) (position temps ops i) (linesOf temps op) := by
  obtain ⟨hi, rfl⟩ := List.getElem?_eq_some_iff.1 h
  have hflat : ops.flatMap (linesOf temps) = (ops.take i).flatMap (linesOf temps) ++
      (linesOf temps ops[i] ++ (ops.drop (i + 1)).flatMap (linesOf temps)) := by
    conv_lhs => rw [← take_append_drop i ops, drop_eq_getElem_cons hi]
    rw [flatMap_append, flatMap_cons]
  have hsplit : assembly temps ops = (enter (aligned temps.length) ++ (ops.take i).flatMap (linesOf temps)) ++
      linesOf temps ops[i] ++ ((ops.drop (i + 1)).flatMap (linesOf temps) ++ (leave ++ [clear, .retq])) := by
    rw [assembly, hflat]
    simp only [append_assoc]
  rw [hsplit, position, show 3 = (enter (aligned temps.length)).length from rfl, ← length_append]
  exact standsAt_self

theorem position_succ {i : Nat} (h : ops[i]? = some op) :
    position temps ops (i + 1) = position temps ops i + (linesOf temps op).length := by
  rw [position, position, take_add_one, h, flatMap_append, length_append, Nat.add_assoc]
  simp

theorem standsAt_leave : StandsAt (assembly temps ops) (position temps ops ops.length) (leave ++ [clear, .retq]) := by
  rw [position, take_length, show 3 = (enter (aligned temps.length)).length from rfl, ← length_append]
  have h := standsAt_self (c := enter (aligned temps.length) ++ ops.flatMap (linesOf temps)) (d := leave ++ [clear, .retq]) (p := [])
  rwa [append_nil] at h

theorem label_notMem_linesOf (h : op ≠ .label l) : Line.label l ∉ linesOf temps op := by
  cases op with
  | nop | const | copy | jcc | jmp | print => simp [linesOf, copy, test, printLines, Target.structured]
  | binop op => cases op <;> simp [linesOf, binop]
  | unop op => cases op <;> simp [linesOf, unop]
  | label l' => simpa [linesOf, eq_comm] using h

theorem findIdx?_linesOf {k : Nat} (rest : List Line) (h : Tac.Body.labelAt (ops.map some) l = some k) :
    (ops.flatMap (linesOf temps) ++ rest).findIdx? (· == .label l) = some ((ops.take k).flatMap (linesOf temps)).length := by
  induction ops generalizing k with
  | nil => cases h
  | cons op ops ih =>
    rw [Tac.Body.labelAt, map_cons, List.findIdx?_cons] at h
    by_cases hop : op = .label l
    · subst hop
      simp only [beq_self_eq_true, if_true, Option.some.injEq] at h
      subst h
      simp [linesOf, List.findIdx?_cons]
    · have hne : (some op == some (.label l)) = false := by simpa using hop
      rw [hne] at h
      obtain ⟨k', hk', rfl⟩ := Option.map_eq_some_iff.1 h
      have hnone : (linesOf temps op).findIdx? (· == .label l) = none := by
        rw [List.findIdx?_eq_none_iff]
        intro line hline
        rw [beq_eq_false_iff_ne]
        rintro rfl
        exact label_notMem_linesOf temps hop hline
      rw [flatMap_cons, append_assoc, List.findIdx?_append, hnone, ih hk', Option.none_or, take_succ_cons,
        flatMap_cons, length_append, Option.map_some, Nat.add_comm]

theorem labelAt_assembly {k : Nat} (h : Tac.Body.labelAt (ops.map some) l = some k) :
    X64.labelAt (assembly temps ops) l = some (position temps ops k) := by
  have hnone : (enter (aligned temps.length)).findIdx? (· == .label l) = none := by simp [enter, List.findIdx?_cons]
  rw [X64.labelAt, assembly, append_assoc, List.findIdx?_append, hnone, findIdx?_linesOf temps ops _ h, Option.none_or,
    position, Option.map_some, Nat.add_comm]
  rfl

end Layout

/-- For a frame and two more words, below a base that the caller has left some room above. -/
structure Room (temps : Temps) (base : X64.Address) : Prop where
  below : 8 * aligned temps.length + 16 ≤ base.toNat
  above : base.toNat + 16 ≤ 2 ^ 64

/-- The machine mirrors temporaries in a frame, above which memory is as it was. -/
structure Mirrors (temps : Temps) (base : X64.Address) (mem : X64.Memory) (σ : String → Option (BitVec 64)) (t : X64.State) :
    Prop where
  rbp : t.regs .rbp = base
  rsp : t.regs .rsp = base - BitVec.ofNat 64 (8 * aligned temps.length)
  above : ∀ a : X64.Address, base.toNat ≤ a.toNat → t.mem a = mem a
  kept : ∀ x v, σ x = some v → x ∈ temps ∧ X64.load t.mem (X64.slot t (temps.idxOf x + 1)) = v

section Mirrors

variable {temps : Temps} {base : X64.Address} {mem : X64.Memory} {σ : String → Option (BitVec 64)} {t t' : X64.State}
  {n : Nat} {x d : String} {v : BitVec 64}

theorem length_le_aligned (n : Nat) : n ≤ aligned n := Nat.le_add_right n (n % 2)

variable (h : Mirrors temps base mem σ t)
include h

theorem Mirrors.toNat_slot (hroom : Room temps base) (hx : x ∈ temps) :
    (X64.slot t (temps.idxOf x + 1)).toNat = base.toNat - 8 * (temps.idxOf x + 1) ∧
      temps.idxOf x + 1 ≤ aligned temps.length := by
  have hidx : temps.idxOf x < temps.length := idxOf_lt_length_iff.2 hx
  have hle := length_le_aligned temps.length
  have hbelow := hroom.below
  refine ⟨?_, by omega⟩
  rw [X64.slot, h.rbp, X64.toNat_sub_of_room (by omega)]

theorem Mirrors.toNat_rsp (hroom : Room temps base) :
    (t.regs .rsp).toNat = base.toNat - 8 * aligned temps.length := by
  have hbelow := hroom.below
  rw [h.rsp, X64.toNat_sub_of_room (by omega)]

theorem Mirrors.stores {env : X64.Env} (hroom : Room temps base) (hd : d ∈ temps)
    (hs : X64.Stores env n t (.slot (temps.idxOf d + 1)) v t') : Mirrors temps base mem (put σ d v) t' := by
  obtain ⟨hslot, hle⟩ := h.toNat_slot hroom hd
  have hbelow := hroom.below
  have habove := hroom.above
  have hstored : t'.mem = X64.store t.mem (X64.slot t (temps.idxOf d + 1)) v := hs.mem
  refine ⟨hs.rbp.trans h.rbp, hs.rsp.trans h.rsp, fun a ha => ?_, fun x w hx => ?_⟩
  · rw [hstored, X64.store_above (by omega), h.above a ha]
  · by_cases hxd : x = d
    · subst hxd
      rw [Tac.Body.put_self] at hx
      cases hx
      refine ⟨hd, ?_⟩
      rw [hstored, X64.slot_congr hs.rbp, X64.load_store_self]
    · rw [Tac.Body.put_of_ne hxd] at hx
      obtain ⟨hmem, hload⟩ := h.kept x w hx
      obtain ⟨hslot', hle'⟩ := h.toNat_slot hroom hmem
      have hne : temps.idxOf x ≠ temps.idxOf d := fun he => hxd ((idxOf_inj hmem).1 he)
      refine ⟨hmem, ?_⟩
      rw [hstored, X64.slot_congr hs.rbp, X64.load_store_of_disjoint (by omega) (by omega) (by omega), hload]

theorem Mirrors.returns (hroom : Room temps base) (hr : X64.Returns n t t') :
    Mirrors temps base mem σ t' := by
  have hrsp := h.toNat_rsp hroom
  refine ⟨hr.rbp.trans h.rbp, hr.rsp.trans h.rsp, fun a ha => ?_, fun x w hx => ?_⟩
  · rw [hr.above a (by omega), h.above a ha]
  · obtain ⟨hmem, hload⟩ := h.kept x w hx
    obtain ⟨hslot, hle⟩ := h.toNat_slot hroom hmem
    have hbelow := hroom.below
    have habove := hroom.above
    refine ⟨hmem, ?_⟩
    rw [X64.slot_congr hr.rbp, ← hload]
    exact X64.load_congr_above (by omega) (by omega) hr.above

theorem Mirrors.same (hrbp : t'.regs .rbp = t.regs .rbp) (hrsp : t'.regs .rsp = t.regs .rsp)
    (hmem : t'.mem = t.mem) : Mirrors temps base mem σ t' := by
  refine ⟨hrbp.trans h.rbp, hrsp.trans h.rsp, fun a ha => ?_, fun x w hx => ?_⟩
  · rw [hmem, h.above a ha]
  · rw [hmem, X64.slot_congr hrbp]
    exact h.kept x w hx

end Mirrors

section Related

variable (env : X64.Env) (temps : Temps) (ops : List Op) (base : X64.Address) (mem : X64.Memory)

abbrev source : Machine Tac.Body.State := Tac.Body.machine .words (ops.map some)

abbrev target : Machine X64.State := X64.machine env (assembly temps ops)

structure Related (s : Tac.Body.State) (t : X64.State) : Prop where
  pc : t.pc = position temps ops s.pc
  inside : s.pc ≤ ops.length
  mirrors : Mirrors temps base mem s.temps t
  printed : s.printed = t.printed
  safe : ∀ n u, (source ops).Reaches n s u → (source ops).next u ≠ .stop .stuck

def Follows (s s' : Tac.Body.State) (t : X64.State) : Prop :=
  ∃ k t', (target env temps ops).Covers k t t' ∧ Related temps ops base mem s' t' ∧ (k = 0 → ops.length - s'.pc < ops.length - s.pc)

variable {env temps ops base mem} {s s' : Tac.Body.State} {t t' : X64.State} {op : Op} {d : String} {v : BitVec 64} {k : Nat}
section

variable (h : Related temps ops base mem s t)
include h

theorem Related.goes (hs : (source ops).next s = .go s') (hpc : t'.pc = position temps ops s'.pc)
    (hin : s'.pc ≤ ops.length) (hm : Mirrors temps base mem s'.temps t') (hp : s'.printed = t'.printed) :
    Related temps ops base mem s' t' :=
  ⟨hpc, hin, hm, hp, fun n u hu => h.safe (n + 1) u (.step hs hu)⟩

theorem Related.stored (hroom : Room temps base) (hop : ops[s.pc]? = some op) (hd : d ∈ temps)
    (hs : (source ops).next s = .go ⟨s.pc + 1, put s.temps d v, s.printed⟩)
    (hslides : (target env temps ops).Slides (linesOf temps op).length t t')
    (hstores : X64.Stores env (linesOf temps op).length t (.slot (temps.idxOf d + 1)) v t') :
    Follows env temps ops base mem s ⟨s.pc + 1, put s.temps d v, s.printed⟩ t := by
  have hlt : s.pc < ops.length := (List.getElem?_eq_some_iff.1 hop).1
  refine ⟨_, t', hslides.covers, h.goes hs ?_ hlt (h.mirrors.stores hroom hd hstores) (h.printed.trans hstores.printed.symm),
    fun _ => Nat.sub_succ_lt_self _ _ hlt⟩
  rw [hstores.pc, h.pc, position_succ temps ops hop]

theorem Related.jumped {n : Nat} (hs : (source ops).next s = .go { s with pc := k })
    (hk : k ≤ ops.length) (hslides : (target env temps ops).Slides (n + 1) t t') (hpc : t'.pc = position temps ops k)
    (hrbp : t'.regs .rbp = t.regs .rbp) (hrsp : t'.regs .rsp = t.regs .rsp) (hmem : t'.mem = t.mem) :
    Follows env temps ops base mem s { s with pc := k } t :=
  ⟨n + 1, t', hslides.covers, h.goes hs hpc hk (h.mirrors.same hrbp hrsp hmem) (h.printed.trans hslides.printed.symm), by simp⟩

omit h in
theorem labelAt_le (h : Tac.Body.labelAt (ops.map some) l = some k) : k ≤ ops.length := by
  have hlt := Tac.Body.labelAt_lt h
  rw [length_map] at hlt
  exact Nat.le_of_lt hlt

theorem Related.follows (hroom : Room temps base) (hknown : mentioned op ⊆ temps)
    (hconst : ∀ n d, op = .const n d → ∃ k, n = .int k ∧ -Word.half ≤ k ∧ k < Word.size)
    (hop : ops[s.pc]? = some op) (hs : (source ops).next s = .go s') : Follows env temps ops base mem s s' t := by
  have hget : (ops.map some)[s.pc]? = some (some op) := by simp [hop]
  have hlt : s.pc < ops.length := (List.getElem?_eq_some_iff.1 hop).1
  have hsucc : position temps ops (s.pc + 1) = t.pc + (linesOf temps op).length := h.pc ▸ position_succ temps ops hop
  have hat : StandsAt (assembly temps ops) t.pc (linesOf temps op) := h.pc ▸ standsAt_linesOf temps ops hop
  obtain ⟨hreads, htarget⟩ := Tac.Body.needs_of_not_stuck hget (h.safe 0 s (.refl s))
  cases op with
  | nop =>
    cases hs.symm.trans (Tac.Body.next_of_getElem? hget)
    exact ⟨0, t, (Machine.Slides.refl t).covers, h.goes hs hsucc.symm hlt h.mirrors h.printed, fun _ => Nat.sub_succ_lt_self _ _ hlt⟩
  | label l =>
    cases hs.symm.trans (Tac.Body.next_label hget)
    have hslides : (target env temps ops).Slides 1 t { t with pc := t.pc + 1 } := X64.slides_of_effects hat rfl
    exact h.jumped hs hlt hslides hsucc.symm rfl rfl rfl
  | const n d =>
    obtain ⟨k, rfl, hk⟩ := hconst n d rfl
    cases hs.symm.trans (Tac.Body.next_const hget)
    obtain ⟨t', he, hstores⟩ := X64.effects_const env hk
    exact h.stored hroom hop (hknown (by simp [mentioned])) hs (X64.slides_of_effects hat he) hstores
  | copy x d =>
    obtain ⟨v, hv⟩ := hreads x (by simp [Op.reads])
    cases hs.symm.trans (Tac.Body.next_copy hget hv)
    obtain ⟨t', he, hstores⟩ := X64.effects_copy env
    obtain ⟨-, hload⟩ := h.mirrors.kept x v hv
    exact h.stored hroom hop (hknown (by simp [mentioned])) hs (X64.slides_of_effects hat he) (hload ▸ hstores)
  | unop op x d =>
    obtain ⟨v, hv⟩ := hreads x (by simp [Op.reads])
    cases hs.symm.trans (Tac.Body.next_unop hget hv)
    obtain ⟨-, hload⟩ := h.mirrors.kept x v hv
    obtain ⟨t', hslides, hstores⟩ := X64.runs_unop hat hload
    exact h.stored hroom hop (hknown (by simp [mentioned])) hs hslides hstores
  | binop op x y d =>
    obtain ⟨u, hu⟩ := hreads x (by simp [Op.reads])
    obtain ⟨v, hv⟩ := hreads y (by simp [Op.reads])
    obtain ⟨-, hloadu⟩ := h.mirrors.kept x u hu
    obtain ⟨-, hloadv⟩ := h.mirrors.kept y v hv
    cases hw : Operators.words.binop op u v with
    | none => cases hs.symm.trans (Tac.Body.next_binop_trapped hget hu hv hw)
    | some w =>
      cases hs.symm.trans (Tac.Body.next_binop hget hu hv hw)
      obtain ⟨t', hslides, hstores⟩ := (X64.runs_binop hat hloadu hloadv).1 w hw
      exact h.stored hroom hop (hknown (by simp [mentioned])) hs hslides hstores
  | jcc c x l =>
    obtain ⟨v, hv⟩ := hreads x (by simp [Op.reads])
    obtain ⟨k, hk⟩ := htarget l rfl
    obtain ⟨-, hload⟩ := h.mirrors.kept x v hv
    cases hs.symm.trans (Tac.Body.next_jcc hget hv hk)
    obtain ⟨t', hslides, hpc, hrbp, hrsp, hmem, -⟩ := X64.runs_test hat hload (labelAt_assembly temps ops hk)
    refine h.jumped hs ?_ hslides ?_ hrbp hrsp hmem
    · split
      · exact labelAt_le hk
      · exact hlt
    · rw [hpc, apply_ite (position temps ops), hsucc]
      rfl
  | jmp l =>
    obtain ⟨k, hk⟩ := htarget l rfl
    cases hs.symm.trans (Tac.Body.next_jmp hget hk)
    have hnext : (target env temps ops).next t = .go { t with pc := position temps ops k } := by
      simp only [target, X64.machine, standsAt_singleton.1 hat, X64.exec, labelAt_assembly temps ops hk]
    exact h.jumped hs (labelAt_le hk) (.step hnext rfl (.refl _)) rfl rfl rfl rfl
  | print x =>
    obtain ⟨v, hv⟩ := hreads x (by simp [Op.reads])
    cases hs.symm.trans (Tac.Body.next_print hget hv)
    obtain ⟨hx, hload⟩ := h.mirrors.kept x v hv
    obtain ⟨hslot, hle⟩ := h.mirrors.toNat_slot hroom hx
    have hrsp := h.mirrors.toNat_rsp hroom
    have hbelow := hroom.below
    have habove := hroom.above
    obtain ⟨t', hc, hr, hp⟩ := X64.runs_print hat (by omega) (by omega) (by omega) hload
    exact ⟨6, t', hc, h.goes hs (hr.pc.trans hsucc.symm) hlt (h.mirrors.returns hroom hr) (by rw [hp, h.printed]), by simp⟩

theorem Related.stops {e : Stop} (hroom : Room temps base)
    (hcaller : X64.load mem (base + 8) = env.caller) (hs : (source ops).next s = .stop e) :
    ∃ k t', (target env temps ops).Slides k t t' ∧ (target env temps ops).next t' = .stop e := by
  cases hop : ops[s.pc]? with
  | none =>
    have hend : s.pc = ops.length := Nat.le_antisymm h.inside (List.getElem?_eq_none_iff.1 hop)
    have hreturned : (source ops).next s = .stop .returned := by simp [source, Tac.Body.machine, hop]
    cases hs.symm.trans hreturned
    have hat : StandsAt (assembly temps ops) t.pc (leave ++ [clear] ++ [.retq]) := by
      rw [h.pc, hend]
      exact standsAt_leave temps ops
    obtain ⟨hleave, hret⟩ := standsAt_append.1 hat
    obtain ⟨t', he, hpc, hrsp, hmem, -⟩ := X64.effects_leave env t
    have hload : X64.load t'.mem (t'.regs .rsp) = env.caller := by
      have habove := hroom.above
      have htop : (base + 8).toNat = base.toNat + 8 := by
        rw [BitVec.toNat_add]
        exact Nat.mod_eq_of_lt (show base.toNat + 8 < 2 ^ 64 by omega)
      rw [hmem, hrsp, h.mirrors.rbp, ← hcaller]
      exact X64.load_congr_above (by omega) (by omega) h.mirrors.above
    refine ⟨_, t', X64.slides_of_effects hleave he, ?_⟩
    have hline : (assembly temps ops)[t'.pc]? = some .retq := by
      rw [hpc]
      exact standsAt_singleton.1 hret
    simp only [target, X64.machine, hline, X64.exec, hload, if_true]
  | some op =>
    have hget : (ops.map some)[s.pc]? = some (some op) := by simp [hop]
    have hat : StandsAt (assembly temps ops) t.pc (linesOf temps op) := h.pc ▸ standsAt_linesOf temps ops hop
    have hsafe : e ≠ .stuck := fun he => h.safe 0 s (.refl s) (he ▸ hs)
    obtain ⟨rfl, o, x, y, d, u, v, rfl, hu, hv, hw⟩ := Tac.Body.trapped_of_stop hget hs hsafe
    obtain ⟨k, -, t', ht'⟩ := (X64.runs_binop hat (h.mirrors.kept x u hu).2 (h.mirrors.kept y v hv).2).2 hw
    exact ⟨k, t', ht'⟩

end

def refinement (hroom : Room temps base) (hcaller : X64.load mem (base + 8) = env.caller)
    (hknown : ∀ op ∈ ops, mentioned op ⊆ temps)
    (hconst : ∀ n d, .const n d ∈ ops → ∃ k, n = .int k ∧ -Word.half ≤ k ∧ k < Word.size) :
    Machine.Refinement (source ops) (target env temps ops) where
  rel := Related temps ops base mem
  rank s := ops.length - s.pc
  printed h := h.printed
  step {s t s'} h hs := by
    cases hop : ops[s.pc]? with
    | none => simp [source, Tac.Body.machine, hop] at hs
    | some op =>
      have hmem : op ∈ ops := mem_of_getElem? hop
      exact h.follows hroom (hknown op hmem) (fun n d he => hconst n d (he ▸ hmem)) hop hs
  stop h hs := h.stops hroom hcaller hs

end Related

/-- A caller has just called code that prints with a routine of its environment. The stack has room for the frame, the frame
pointer and two words more. -/
structure X64.Called (env : X64.Env) (lines : List Line) (t : X64.State) : Prop where
  pc : t.pc = 0
  printed : t.printed = []
  caller : X64.load t.mem (t.regs .rsp) = env.caller
  top : (t.regs .rsp).toNat + 8 ≤ 2 ^ 64
  room : ∃ n : Nat, reserved? lines = some n ∧ n < 2147483648 ∧ n + 24 ≤ (t.regs .rsp).toNat

section Start

abbrev start : Tac.Body.State := ⟨0, fun _ => none, []⟩

variable {env : X64.Env} {temps : Temps} {ops : List Op} {t : X64.State}

theorem slides_enter (env : X64.Env) (temps : Temps) (ops : List Op) (hpc : t.pc = 0) (hshort : 8 * aligned temps.length < 2147483648) :
    ∃ t', (target env temps ops).Slides 3 t t' ∧ t'.pc = 3 ∧ t'.regs .rbp = t.regs .rsp - 8 ∧
      t'.regs .rsp = t.regs .rsp - 8 - BitVec.ofNat 64 (8 * aligned temps.length) ∧
      t'.mem = X64.store t.mem (t.regs .rsp - 8) (t.regs .rbp) ∧ t'.printed = t.printed := by
  obtain ⟨t', he, hpc', hrest⟩ := X64.effects_enter env t hshort
  refine ⟨t', X64.slides_of_effects ?_ he, by rw [hpc', hpc], hrest⟩
  rw [hpc]
  exact ⟨_, (append_assoc _ _ _).symm⟩

theorem assembly_alike (hcalled : X64.Called env (assembly temps ops) t) (hknown : ∀ op ∈ ops, mentioned op ⊆ temps)
    (hconst : ∀ n d, .const n d ∈ ops → ∃ k, n = .int k ∧ -Word.half ≤ k ∧ k < Word.size)
    (hsafe : ∀ n u, (source ops).Reaches n start u → (source ops).next u ≠ .stop .stuck) :
    (source ops).Alike start (target env temps ops) t := by
  obtain ⟨n, hn, hshort, hbelow⟩ := hcalled.room
  have htop := hcalled.top
  obtain rfl : 8 * aligned temps.length = n := by
    simpa [assembly, enter, reserved?, ← Int.natCast_inj] using hn
  obtain ⟨t', hslides, hpc, hrbp, hrsp, hmem, hp⟩ := slides_enter env temps ops hcalled.pc hshort
  have hbase : (t.regs .rsp - 8).toNat = (t.regs .rsp).toNat - 8 := X64.toNat_sub_eight (by omega)
  have hroom : Room temps (t.regs .rsp - 8) := ⟨by omega, by omega⟩
  have hcaller : X64.load t'.mem (t.regs .rsp - 8 + 8) = env.caller := by
    rw [BitVec.sub_add_cancel, ← hcalled.caller, hmem]
    exact X64.load_store_of_disjoint (by omega) (by omega) (by omega)
  have hrel : Related temps ops (t.regs .rsp - 8) t'.mem start t' :=
    ⟨hpc, Nat.zero_le _, ⟨hrbp, hrsp, fun _ _ => rfl, fun _ _ h => by cases h⟩, by rw [hp, hcalled.printed], hsafe⟩
  exact ((refinement hroom hcaller hknown hconst).alike hrel).of_slides hslides

end Start

/-- Called with room on the stack, the assembly of a body prints what the body prints, and returns, traps or runs on as it
does. -/
theorem compile_alike {env : X64.Env} {body : List Tac.Record} {lines : List Line} {t : X64.State}
    (h : compile .structured body = .ok lines) (hclosed : Tac.Body.Closed (Tac.Body.code body))
    (hconst : Tac.Body.WordConstants (Tac.Body.code body))
    (hreads : Tac.Body.ReadsWritten .words (Tac.Body.code body) start) (hcalled : X64.Called env lines t) :
    (Tac.Body.machine .words (Tac.Body.code body)).Alike start (X64.machine env lines) t := by
  obtain ⟨ops, hops⟩ := hclosed.exists_ops
  obtain ⟨temps, -, hknown, rfl⟩ := compile_eq hops h
  have hsafe : ∀ n u, (Tac.Body.machine .words (Tac.Body.code body)).Reaches n start u →
      (Tac.Body.machine .words (Tac.Body.code body)).next u ≠ .stop .stuck :=
    fun n u hu => hclosed.not_stuck fun op hop x hx => hreads n u op hu hop x hx
  rw [hops] at hsafe hconst ⊢
  exact assembly_alike hcalled hknown (fun n d hmem => hconst n d (mem_map_of_mem hmem)) hsafe

section Examples

def forever : List Op := [.const (.int 5) "%0", .label ".L0", .print "%0", .jmp ".L0"]

def idle : X64.Env where
  symbols _ := 0
  printer := ⟨id, fun _ => rfl, fun _ => rfl, fun _ _ _ => rfl⟩
  caller := 0

def fresh : X64.State where
  pc := 0
  regs r := if r = .rsp then 4096 else 0
  mem _ := 0
  flags := none
  printed := []

theorem compile_alike_forever : compile .structured (forever.map Op.record) = .ok (assembly ["%0"] forever) ∧
    X64.Called idle (assembly ["%0"] forever) fresh ∧ (source forever).Alike start (target idle ["%0"] forever) fresh ∧
    (target idle ["%0"] forever).Prints fresh [5, 5] := by
  have hcode : Tac.Body.code (forever.map Op.record) = forever.map some := Tac.Body.code_records forever
  have hclosed : Tac.Body.Closed (forever.map some) := ⟨by decide, by decide⟩
  have hconst : Tac.Body.WordConstants (forever.map some) := by
    intro n d hmem
    simp only [forever, map_cons, map_nil, mem_cons, Option.some.injEq, reduceCtorEq, not_mem_nil, or_false] at hmem
    cases hmem
    exact ⟨5, rfl, by decide⟩
  have hreads : Tac.Body.ReadsWritten .words (forever.map some) start :=
    Tac.Body.readsWritten_of_const (n := .int 5) (d := "%0") rfl (by decide) _ _
  have hcalled : X64.Called idle (assembly ["%0"] forever) fresh := ⟨rfl, rfl, by decide, by decide, 16, rfl, by decide, by decide⟩
  have halike := compile_alike rfl (hcode ▸ hclosed) (hcode ▸ hconst) (hcode ▸ hreads) hcalled
  rw [hcode] at halike
  refine ⟨rfl, hcalled, halike, (halike.prints _).1 ?_⟩
  exact ⟨6, _, .step rfl (.step rfl (.step rfl (.step rfl (.step rfl (.step rfl (.refl _)))))), rfl⟩

def constant (n : Tac.Numeral) : List Op := [.const n "%0", .print "%0"]

theorem constant_ends (n : Tac.Numeral) : (source (constant n)).Ends start .returned [BitVec.ofInt 64 n.value] :=
  ⟨2, _, .step rfl (.step rfl (.refl _)), rfl, rfl⟩

theorem constant_stuck {env : X64.Env} {n : Tac.Numeral} {t : X64.State} (hn : ∀ s, X64.read env s (.imm n) = none)
    (hcalled : X64.Called env (assembly ["%0"] (constant n)) t) : (target env ["%0"] (constant n)).Ends t .stuck [] := by
  obtain ⟨t', hslides, hpc, -, -, -, hp⟩ := slides_enter env ["%0"] (constant n) hcalled.pc (by decide)
  refine ⟨3, t', hslides.reaches, ?_, hp.trans hcalled.printed⟩
  have hline : (assembly ["%0"] (constant n))[t'.pc]? = some (.movq (.imm n) (.at (.slot 1))) := by
    rw [hpc]
    rfl
  simp [target, X64.machine, hline, X64.exec, X64.effect, hn]

theorem constant_not_alike {n : Tac.Numeral} (hn : ∀ env s, X64.read env s (.imm n) = none) :
    compile .structured ((constant n).map Op.record) = .ok (assembly ["%0"] (constant n)) ∧
      Tac.Body.Closed ((constant n).map some) ∧ Tac.Body.ReadsWritten .words ((constant n).map some) start ∧
      ∀ env t, X64.Called env (assembly ["%0"] (constant n)) t →
        ¬ (source (constant n)).Alike start (target env ["%0"] (constant n)) t := by
  have hclosed : Tac.Body.Closed ((constant n).map some) := ⟨by simp, by simp [constant, Op.target?]⟩
  have hreads : Tac.Body.ReadsWritten .words ((constant n).map some) start :=
    Tac.Body.readsWritten_of_const (n := n) (d := "%0") rfl (by simp [constant, Op.reads]) _ _
  refine ⟨by cases n <;> rfl, hclosed, hreads, fun env t hcalled halike => ?_⟩
  have hstuck := (halike.ends _ _).2 (constant_stuck (hn env) hcalled)
  cases (hstuck.det (constant_ends n)).1

/-- A truth value as a constant is written by its name, and a number that is too large in full: neither is a word. -/
theorem not_alike_constant :
    (compile .structured ((constant (.bool true)).map Op.record) = .ok (assembly ["%0"] (constant (.bool true))) ∧
      Tac.Body.Closed ((constant (.bool true)).map some) ∧ Tac.Body.ReadsWritten .words ((constant (.bool true)).map some) start ∧
      ∀ env t, X64.Called env (assembly ["%0"] (constant (.bool true))) t →
        ¬ (source (constant (.bool true))).Alike start (target env ["%0"] (constant (.bool true))) t) ∧
    compile .structured ((constant (.int 18446744073709551621)).map Op.record) =
        .ok (assembly ["%0"] (constant (.int 18446744073709551621))) ∧
      Tac.Body.Closed ((constant (.int 18446744073709551621)).map some) ∧
      Tac.Body.ReadsWritten .words ((constant (.int 18446744073709551621)).map some) start ∧
      ∀ env t, X64.Called env (assembly ["%0"] (constant (.int 18446744073709551621))) t →
        ¬ (source (constant (.int 18446744073709551621))).Alike start (target env ["%0"] (constant (.int 18446744073709551621))) t :=
  ⟨constant_not_alike fun _ _ => rfl, constant_not_alike fun _ _ => rfl⟩

end Examples

end Bx.Asm.Body
