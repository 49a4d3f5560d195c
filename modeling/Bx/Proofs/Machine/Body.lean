import Bx.Asm.Basic
import Bx.Proofs.Machine.Basic
import Bx.Tac.Record

namespace Bx.Tac.Body

open List Asm

variable {op : Op} {l x d : String} {p : Code} {ops : Operators} {s : State}

inductive Op
  | nop
  | const (n : Numeral) (d : String)
  | copy (x d : String)
  | binop (op : Word.Binop) (x y d : String)
  | unop (op : Word.Unop) (x d : String)
  | jcc (c : Cond) (x l : String)
  | jmp (l : String)
  | label (l : String)
  | print (x : String)
  deriving DecidableEq

def operands : Datum → List Datum
  | .list xs | .tuple xs => xs
  | .str s => s.toList.map fun c => .str c.toString
  | _ => []

def branch? (r : Record) : Option Op :=
  match Branch.ofOpcode? r.opcode, operands r.args, r.result with
  | .ok (some (.jcc c)), [.str x, .str l], .null => some (.jcc c x l)
  | .ok (some .jmp), [.str l], .null => some (.jmp l)
  | .ok (some .label), [.str l], .null => some (.label l)
  | .ok none, [.str x], .null => if r.opcode.is "print" then some (.print x) else none
  | _, _, _ => none

def Op.ofRecord? (r : Record) : Option Op :=
  match Form.ofOpcode r.opcode with
  | .ok .nop => some .nop
  | .ok (.other _) => branch? r
  | .ok form => match form, operands r.args, r.result with
    | .const, [.int n], .str d => some (.const (.int n) d)
    | .const, [.bool b], .str d => some (.const (.bool b) d)
    | .copy, [.str x], .str d => some (.copy x d)
    | .binop op, [.str x, .str y], .str d => some (.binop op x y d)
    | .unop op, [.str x], .str d => some (.unop op x d)
    | _, _, _ => none
  | .error _ => none

def Op.record : Op → Record
  | .nop => .of "nop" [] .null
  | .const n d => .of "const" [n.toDatum] (.str d)
  | .copy x d => .of "copy" [.str x] (.str d)
  | .binop op x y d => .of op.name [.str x, .str y] (.str d)
  | .unop op x d => .of op.name [.str x] (.str d)
  | .jcc c x l => .of c.text [.str x, .str l] .null
  | .jmp l => .of "jmp" [.str l] .null
  | .label l => .of "label" [.str l] .null
  | .print x => .of "print" [.str x] .null

abbrev Code := List (Option Op)

def code (body : List Record) : Code := body.map Op.ofRecord?

theorem ofRecord?_record (op : Op) : Op.ofRecord? op.record = some op := by
  cases op with
  | const n d => cases n <;> rfl
  | binop op => cases op <;> rfl
  | unop op => cases op <;> rfl
  | jcc c => cases c <;> rfl
  | nop | copy | jmp | label | print => rfl

theorem code_records (ops : List Op) : code (ops.map Op.record) = ops.map some := by
  simp [code, Function.comp_def, ofRecord?_record]

structure Operators where
  binop : Word.Binop → BitVec 64 → BitVec 64 → Option (BitVec 64)
  unop : Word.Unop → BitVec 64 → BitVec 64

def quotient? (u v : BitVec 64) : Option Int :=
  let q := u.toInt.tdiv v.toInt
  if v = 0 ∨ q < -Word.half ∨ Word.half ≤ q then none else some q

def Operators.words : Operators where
  binop op u v := match op with
    | .add => some (u + v)
    | .sub => some (u - v)
    | .mul => some (u * v)
    | .div => (quotient? u v).map (BitVec.ofInt 64)
    | .mod => (quotient? u v).map fun q => BitVec.ofInt 64 (u.toInt - v.toInt * q)
    | .and => some (u &&& v)
    | .or => some (u ||| v)
    | .xor => some (u ^^^ v)
    | .shl => some (u <<< (v.toNat % 64))
    | .shr => some (u.sshiftRight (v.toNat % 64))
  unop op v := match op with
    | .neg => -v
    | .not => ~~~v

def holds (c : Cond) (v : BitVec 64) : Bool :=
  match c with
  | .e | .z => v.toInt = 0
  | .ne | .nz => v.toInt ≠ 0
  | .l | .nge => v.toInt < 0
  | .le | .ng => v.toInt ≤ 0
  | .g | .nle => 0 < v.toInt
  | .ge | .nl => 0 ≤ v.toInt

structure State where
  pc : Nat
  temps : String → Option (BitVec 64)
  printed : List (BitVec 64)

def put (temps : String → Option (BitVec 64)) (d : String) (v : BitVec 64) : String → Option (BitVec 64) :=
  fun x => if x = d then some v else temps x

@[simp]
theorem put_self (temps : String → Option (BitVec 64)) (d : String) (v : BitVec 64) : put temps d v d = some v := if_pos rfl

theorem put_of_ne (h : x ≠ d) (temps : String → Option (BitVec 64)) (v : BitVec 64) : put temps d v x = temps x := if_neg h

def State.set (s : State) (d : String) (v : BitVec 64) : State :=
  { s with pc := s.pc + 1, temps := put s.temps d v }

def labelAt (p : Code) (l : String) : Option Nat := p.findIdx? (· == some (.label l))

def exec (ops : Operators) (p : Code) (s : State) : Op → Next State
  | .nop | .label _ => .go { s with pc := s.pc + 1 }
  | .const n d => .go (s.set d (BitVec.ofInt 64 n.value))
  | .copy x d => match s.temps x with
    | some v => .go (s.set d v)
    | none => .stop .stuck
  | .binop op x y d => match s.temps x, s.temps y with
    | some u, some v => match ops.binop op u v with
      | some w => .go (s.set d w)
      | none => .stop .trapped
    | _, _ => .stop .stuck
  | .unop op x d => match s.temps x with
    | some v => .go (s.set d (ops.unop op v))
    | none => .stop .stuck
  | .jcc c x l => match s.temps x, labelAt p l with
    | some v, some k => .go { s with pc := if holds c v then k else s.pc + 1 }
    | _, _ => .stop .stuck
  | .jmp l => match labelAt p l with
    | some k => .go { s with pc := k }
    | none => .stop .stuck
  | .print x => match s.temps x with
    | some v => .go { s with pc := s.pc + 1, printed := s.printed ++ [v] }
    | none => .stop .stuck

def machine (ops : Operators) (p : Code) : Machine State where
  next s := match p[s.pc]? with
    | none => .stop .returned
    | some none => .stop .stuck
    | some (some op) => exec ops p s op
  printed := State.printed

def Op.label? : Op → Option String
  | .label l => some l
  | _ => none

def labels (p : Code) : List String := p.filterMap fun op => op.bind Op.label?

theorem Op.label?_eq_some : op.label? = some l ↔ op = .label l := by
  cases op <;> simp [Op.label?]

theorem labelAt_eq_some {k : Nat} (hp : (labels p).Nodup) (h : p[k]? = some (some (.label l))) : labelAt p l = some k := by
  induction p generalizing k with
  | nil => simp at h
  | cons op p ih =>
    rw [labelAt, List.findIdx?_cons]
    cases k with
    | zero =>
      obtain rfl : op = some (.label l) := by simpa using h
      simp
    | succ k =>
      rw [List.getElem?_cons_succ] at h
      have hmem : l ∈ (labels p) := mem_filterMap.2 ⟨_, mem_of_getElem? h, rfl⟩
      have hne : op ≠ some (.label l) := by
        rintro rfl
        exact (nodup_cons.1 hp).1 hmem
      have hp' : (labels p).Nodup := hp.sublist ((sublist_cons_self op p).filterMap _)
      have := ih hp' h
      rw [labelAt] at this
      simp [hne, this]

def Op.reads : Op → List String
  | .copy x _ | .unop _ x _ | .jcc _ x _ | .print x => [x]
  | .binop _ x y _ => [x, y]
  | .nop | .const _ _ | .jmp _ | .label _ => []

def Op.target? : Op → Option String
  | .jcc _ _ l | .jmp l => some l
  | _ => none

/-- Every jump goes to a label of the same body. A jump to anything but a name is no instruction. -/
structure Closed (p : Code) : Prop where
  instructions : none ∉ p
  jumps : ∀ o ∈ p, ∀ op ∈ o, ∀ l ∈ op.target?, l ∈ labels p

def ReadsWritten (ops : Operators) (p : Code) (s : State) : Prop :=
  ∀ n t op, (machine ops p).Reaches n s t → p[t.pc]? = some (some op) → ∀ x ∈ op.reads, (t.temps x).isSome

def WordConstants (p : Code) : Prop := ∀ n d, some (.const n d) ∈ p → ∃ k : Int, n = .int k ∧ -Word.half ≤ k ∧ k < Word.size

theorem Closed.exists_ops (h : Closed p) : ∃ ops : List Op, p = ops.map some := by
  obtain ⟨hsome, -⟩ := h
  induction p with
  | nil => exact ⟨[], rfl⟩
  | cons o p ih =>
    rw [mem_cons, not_or] at hsome
    obtain ⟨ops, rfl⟩ := ih hsome.2
    cases o with
    | none => exact absurd rfl hsome.1
    | some op => exact ⟨op :: ops, rfl⟩

theorem exists_labelAt (h : l ∈ labels p) : ∃ k, labelAt p l = some k := by
  obtain ⟨o, ho, hl⟩ := mem_filterMap.1 h
  obtain ⟨op, rfl, hop⟩ := Option.bind_eq_some_iff.1 hl
  rw [Op.label?_eq_some] at hop
  subst hop
  rw [← Option.isSome_iff_exists, labelAt, List.findIdx?_isSome, any_eq_true]
  exact ⟨_, ho, by simp⟩

theorem Closed.not_stuck (hp : Closed p) (hr : ∀ op, p[s.pc]? = some (some op) → ∀ x ∈ op.reads, (s.temps x).isSome) :
    (machine ops p).next s ≠ .stop .stuck := by
  cases hop : p[s.pc]? with
  | none => simp [machine, hop]
  | some o =>
    cases o with
    | none => exact absurd (mem_of_getElem? hop) hp.instructions
    | some op =>
      have hread : ∀ x ∈ op.reads, ∃ v, s.temps x = some v := fun x hx => Option.isSome_iff_exists.1 (hr op hop x hx)
      have htarget : ∀ l, op.target? = some l → ∃ k, labelAt p l = some k :=
        fun l hl => exists_labelAt (hp.jumps _ (mem_of_getElem? hop) op rfl l hl)
      simp only [machine, hop]
      cases op with
      | nop | label | const => simp [exec]
      | copy x d | unop op x d | print x =>
        obtain ⟨v, hv⟩ := hread x (by simp [Op.reads])
        simp [exec, hv]
      | binop op x y d =>
        obtain ⟨u, hu⟩ := hread x (by simp [Op.reads])
        obtain ⟨v, hv⟩ := hread y (by simp [Op.reads])
        cases hw : ops.binop op u v <;> simp [exec, hu, hv, hw]
      | jcc c x l =>
        obtain ⟨v, hv⟩ := hread x (by simp [Op.reads])
        obtain ⟨k, hk⟩ := htarget l rfl
        simp [exec, hv, hk]
      | jmp l =>
        obtain ⟨k, hk⟩ := htarget l rfl
        simp [exec, hk]

theorem needs_of_not_stuck (hop : p[s.pc]? = some (some op)) (h : (machine ops p).next s ≠ .stop .stuck) :
    (∀ x ∈ op.reads, ∃ v, s.temps x = some v) ∧ ∀ l, op.target? = some l → ∃ k, labelAt p l = some k := by
  simp only [machine, hop] at h
  cases op with
  | nop | label | const => simp [Op.reads, Op.target?]
  | copy x d | unop op x d | print x =>
    cases hx : s.temps x with
    | none => simp [exec, hx] at h
    | some v => simp [Op.reads, Op.target?, hx]
  | binop op x y d =>
    cases hx : s.temps x with
    | none => simp [exec, hx] at h
    | some u =>
      cases hy : s.temps y with
      | none => simp [exec, hx, hy] at h
      | some v => simp [Op.reads, Op.target?, hx, hy]
  | jcc c x l =>
    cases hx : s.temps x with
    | none => simp [exec, hx] at h
    | some v =>
      cases hl : labelAt p l with
      | none => simp [exec, hx, hl] at h
      | some k => simp [Op.reads, Op.target?, hx, hl]
  | jmp l =>
    cases hl : labelAt p l with
    | none => simp [exec, hl] at h
    | some k => simp [Op.reads, Op.target?, hl]

theorem trapped_of_stop {e : Stop} (hop : p[s.pc]? = some (some op)) (h : (machine ops p).next s = .stop e) (he : e ≠ .stuck) :
    e = .trapped ∧ ∃ o x y d u v, op = .binop o x y d ∧ s.temps x = some u ∧ s.temps y = some v ∧ ops.binop o u v = none := by
  obtain ⟨hreads, htarget⟩ := needs_of_not_stuck hop (show (machine ops p).next s ≠ .stop .stuck by simpa [h] using he)
  simp only [machine, hop] at h
  cases op with
  | nop | label | const => cases h
  | copy x d | unop o x d | print x =>
    obtain ⟨v, hv⟩ := hreads x (by simp [Op.reads])
    simp [exec, hv] at h
  | binop o x y d =>
    obtain ⟨u, hu⟩ := hreads x (by simp [Op.reads])
    obtain ⟨v, hv⟩ := hreads y (by simp [Op.reads])
    cases hw : ops.binop o u v with
    | some w => simp [exec, hu, hv, hw] at h
    | none =>
      simp only [exec, hu, hv, hw, Next.stop.injEq] at h
      exact ⟨h.symm, o, x, y, d, u, v, rfl, hu, hv, hw⟩
  | jcc c x l =>
    obtain ⟨v, hv⟩ := hreads x (by simp [Op.reads])
    obtain ⟨k, hk⟩ := htarget l rfl
    simp [exec, hv, hk] at h
  | jmp l =>
    obtain ⟨k, hk⟩ := htarget l rfl
    simp [exec, hk] at h

theorem labelAt_lt {k : Nat} (h : labelAt p l = some k) : k < p.length := by
  obtain ⟨hk, -⟩ := List.findIdx?_eq_some_iff_getElem.1 h
  exact hk

section Next

variable {ops : Operators} {p : Code} {pc k : Nat} {temps : String → Option (BitVec 64)} {printed : List (BitVec 64)}
  {x y d l : String} {u v w : BitVec 64}

theorem next_of_getElem? (h : p[s.pc]? = some (some op)) : (machine ops p).next s = exec ops p s op := by
  simp only [machine, h]

theorem next_label (h : p[pc]? = some (some (.label l))) :
    (machine ops p).next ⟨pc, temps, printed⟩ = .go ⟨pc + 1, temps, printed⟩ := by
  rw [next_of_getElem? h]
  rfl

theorem next_const {n : Numeral} (h : p[pc]? = some (some (.const n d))) :
    (machine ops p).next ⟨pc, temps, printed⟩ = .go ⟨pc + 1, put temps d (BitVec.ofInt 64 n.value), printed⟩ := by
  rw [next_of_getElem? h]
  rfl

theorem next_copy (h : p[pc]? = some (some (.copy x d))) (hx : temps x = some v) :
    (machine ops p).next ⟨pc, temps, printed⟩ = .go ⟨pc + 1, put temps d v, printed⟩ := by
  rw [next_of_getElem? h]
  simp only [exec, hx, State.set]

theorem next_unop {op : Word.Unop} (h : p[pc]? = some (some (.unop op x d))) (hx : temps x = some v) :
    (machine ops p).next ⟨pc, temps, printed⟩ = .go ⟨pc + 1, put temps d (ops.unop op v), printed⟩ := by
  rw [next_of_getElem? h]
  simp only [exec, hx, State.set]

theorem next_binop {op : Word.Binop} (h : p[pc]? = some (some (.binop op x y d))) (hx : temps x = some u)
    (hy : temps y = some v) (hw : ops.binop op u v = some w) :
    (machine ops p).next ⟨pc, temps, printed⟩ = .go ⟨pc + 1, put temps d w, printed⟩ := by
  rw [next_of_getElem? h]
  simp only [exec, hx, hy, hw, State.set]

theorem next_binop_trapped {op : Word.Binop} (h : p[pc]? = some (some (.binop op x y d))) (hx : temps x = some u)
    (hy : temps y = some v) (hw : ops.binop op u v = none) :
    (machine ops p).next ⟨pc, temps, printed⟩ = .stop .trapped := by
  rw [next_of_getElem? h]
  simp only [exec, hx, hy, hw]

theorem next_jcc {c : Cond} (h : p[pc]? = some (some (.jcc c x l))) (hx : temps x = some v) (hl : labelAt p l = some k) :
    (machine ops p).next ⟨pc, temps, printed⟩ = .go ⟨if holds c v then k else pc + 1, temps, printed⟩ := by
  rw [next_of_getElem? h]
  simp only [exec, hx, hl]

theorem next_jmp (h : p[pc]? = some (some (.jmp l))) (hl : labelAt p l = some k) :
    (machine ops p).next ⟨pc, temps, printed⟩ = .go ⟨k, temps, printed⟩ := by
  rw [next_of_getElem? h]
  simp only [exec, hl]

theorem next_print (h : p[pc]? = some (some (.print x))) (hx : temps x = some v) :
    (machine ops p).next ⟨pc, temps, printed⟩ = .go ⟨pc + 1, temps, printed ++ [v]⟩ := by
  rw [next_of_getElem? h]
  simp only [exec, hx]

end Next

theorem isSome_of_next {t : State} (hs : (s.temps x).isSome) (h : (machine ops p).next s = .go t) : (t.temps x).isSome := by
  have hput : ∀ d v, (put s.temps d v x).isSome := by
    intro d v
    by_cases hx : x = d
    · rw [hx, put_self, Option.isSome_some]
    · rw [put_of_ne hx]
      exact hs
  simp only [machine] at h
  split at h
  · cases h
  · cases h
  · rename_i op _
    cases op <;> simp only [exec] at h
    all_goals (repeat' split at h) <;> cases h
    all_goals first | exact hs | exact hput _ _

theorem readsWritten_of_const {n : Numeral} (hp : p[0]? = some (some (.const n d)))
    (hr : ∀ o ∈ p, ∀ op ∈ o, ∀ x ∈ op.reads, x = d) (temps : String → Option (BitVec 64)) (printed : List (BitVec 64)) :
    ReadsWritten ops p ⟨0, temps, printed⟩ := by
  intro m t op hm hop x hx
  obtain rfl := hr _ (mem_of_getElem? hop) op rfl x hx
  have hinv : t.pc = 0 ∨ (t.temps x).isSome := by
    refine hm.invariant (I := fun t => t.pc = 0 ∨ (t.temps x).isSome) (fun {s t} hs h => ?_) (.inl rfl)
    rcases hs with hpc | hsome
    · cases h.symm.trans (next_const (hpc ▸ hp))
      right
      simp
    · exact .inr (isSome_of_next hsome h)
  rcases hinv with hpc | hsome
  · rw [hpc, hp] at hop
    cases hop
    cases hx
  · exact hsome

section Printed

variable {ops : Operators} {p : Code} {s t u : State} {n m : Nat} {ws : List (BitVec 64)}

theorem printed_of_next (h : (machine ops p).next s = .go t) : t.printed = s.printed ∨ ∃ w, t.printed = s.printed ++ [w] := by
  simp only [machine] at h
  split at h
  · cases h
  · cases h
  · rename_i op _
    cases op <;> simp only [exec] at h
    all_goals (repeat' split at h) <;> cases h <;> simp [State.set]

theorem printed_mono (h : (machine ops p).Reaches n s t) : s.printed <+: t.printed := by
  induction h with
  | refl s => exact prefix_refl _
  | step h _ ih =>
    refine List.IsPrefix.trans ?_ ih
    rcases printed_of_next h with he | ⟨w, he⟩
    · exact he ▸ prefix_refl _
    · exact he ▸ prefix_append _ _

theorem printed_le (hnm : n ≤ m) (h : (machine ops p).Reaches n s t) (h' : (machine ops p).Reaches m s u) :
    t.printed <+: u.printed := by
  obtain ⟨k, rfl⟩ := Nat.exists_eq_add_of_le hnm
  exact printed_mono (h.rest h')

theorem prints_of_between (h : (machine ops p).Reaches n s t) (hs : s.printed <+: ws) (ht : ws <+: t.printed) :
    (machine ops p).Prints s ws := by
  induction h with
  | refl s => exact ⟨0, s, .refl s, hs.eq_of_length_le ht.length_le⟩
  | @step n s t u h hr ih =>
    by_cases hst : t.printed <+: ws
    · obtain ⟨m, v, hv, hws⟩ := ih hst ht
      exact ⟨m + 1, v, .step h hv, hws⟩
    · refine ⟨0, s, .refl s, ?_⟩
      rcases printed_of_next h with he | ⟨w, he⟩
      · exact absurd (he ▸ hs) hst
      · -- of two prefixes of what is printed in the end, one is a prefix of the other
        have hlen := ( prefix_or_prefix_of_prefix (printed_mono hr) ht).resolve_left hst
        rw [he] at hlen
        rcases prefix_concat_iff.1 hlen with hw | hw
        · exact absurd (hw ▸ he ▸ prefix_refl _) hst
        · exact hs.eq_of_length_le hw.length_le

end Printed

end Bx.Tac.Body
