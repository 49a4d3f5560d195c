import Bx.Asm.Basic
import Bx.Proofs.Basic
import Bx.Source.Op
import Bx.Tac.Record
import Mathlib.Data.List.Nodup
import Mathlib.Data.List.Range

namespace Bx.Source

open List Tac

variable {σ ε α β : Type} {ls o o' : List Datum} {lo mid hi : Nat} {c d : List Record} {r : Record} {p q : Prop}

section Code

def marks (c : List Record) : List Datum := (c.filter (·.opcode.is "label")).map (·.arg 0)

def destination? (r : Record) : Option Datum :=
  if r.opcode.is "jmp" then some (r.arg 0)
  else if (r.opcode.string?.bind Asm.Cond.ofText?).isSome then some (r.arg 1) else none

structure WellLabelled (c : List Record) : Prop where
  nodup : (marks c).Nodup
  jumps : ∀ r ∈ c, ∀ d ∈ destination? r, d ∈ marks c

theorem marks_append : marks (c ++ d) = marks c ++ marks d := by
  rw [marks, filter_append, map_append]
  rfl

def numbered (lo hi : Nat) : List Datum := (List.range' lo (hi - lo)).map fun k => .str (".L" ++ toString k)

/-- Code that sets what it owes and the labels of these numbers, each once, and jumps only to these and some given ones. -/
structure Spans (ls owed : List Datum) (lo hi : Nat) (c : List Record) : Prop where
  le : lo ≤ hi
  sets : (marks c).Perm (owed ++ numbered lo hi)
  jumps : ∀ r ∈ c, ∀ d ∈ destination? r, d ∈ ls ∨ d ∈ marks c

theorem Spans.nil : Spans ls [] lo lo [] := ⟨Nat.le_refl lo, by simp [marks, numbered], nofun⟩

theorem Spans.single (h : ∀ d ∈ destination? r, d ∈ ls) : Spans ls (marks [r]) lo lo [r] := by
  refine ⟨Nat.le_refl lo, by simp [numbered], fun r' hr d hd => .inl (h d ?_)⟩
  rwa [mem_singleton.1 hr] at hd

theorem Spans.append (hc : Spans ls o lo mid c) (hd : Spans ls o' mid hi d) : Spans ls (o ++ o') lo hi (c ++ d) := by
  have hle := hc.le
  have hle' := hd.le
  have hsplit : numbered lo hi = numbered lo mid ++ numbered mid hi := by
    rw [numbered, show hi - lo = (mid - lo) + (hi - mid) by omega, ← List.range'_append_1, map_append, Nat.add_sub_cancel' hle]
    rfl
  refine ⟨Nat.le_trans hle hle', ?_, ?_⟩
  · rw [marks_append, hsplit, append_assoc]
    refine (hc.sets.append hd.sets).trans ?_
    rw [append_assoc]
    exact (perm_append_comm_assoc _ _ _).append_left o
  · rw [marks_append, forall_mem_append]
    exact ⟨fun r hr x hx => (hc.jumps r hr x hx).imp_right (mem_append_left _),
      fun r hr x hx => (hd.jumps r hr x hx).imp_right (mem_append_right _)⟩

theorem Spans.taken (h : Spans (.str (".L" ++ toString lo) :: ls) (o ++ [.str (".L" ++ toString lo)]) (lo + 1) hi c) :
    Spans ls o lo hi c := by
  have hle := h.le
  have hcons : numbered lo hi = .str (".L" ++ toString lo) :: numbered (lo + 1) hi := by
    rw [numbered, show hi - lo = (hi - (lo + 1)) + 1 by omega, List.range'_succ]
    rfl
  have hsets : (marks c).Perm (o ++ numbered lo hi) := by
    rw [hcons, ← singleton_append, ← append_assoc]
    exact h.sets
  refine ⟨by omega, hsets, fun r hr d hd => ?_⟩
  rcases h.jumps r hr d hd with hd | hd
  · rcases mem_cons.1 hd with rfl | hd
    · exact .inr (hsets.mem_iff.2 (by simp [hcons]))
    · exact .inl hd
  · exact .inr hd

theorem Spans.wellLabelled (h : Spans [] [] lo hi c) : WellLabelled c where
  nodup := by
    refine h.sets.nodup_iff.2 ((nodup_range' 1).map fun m n hmn => ?_)
    exact append_toString_inj.1 (Datum.str.inj hmn)
  jumps r hr d hd := (h.jumps r hr d hd).resolve_left not_mem_nil

end Code

section Marks

/-- A result is given just if something holds, never refused for one reason, and the code sets what it owes. -/
structure Marks (view : σ → List Record × Nat) (bad : ε) (p : Prop) (ls owed : List Datum) (x : StateT σ (Except ε) α) : Prop where
  decides : ∀ s, (∃ r, x.run s = .ok r) ↔ p
  allowed : ∀ s, x.run s ≠ .error bad
  spans : ∀ s a s', x.run s = .ok (a, s') → ∃ c, (view s').1 = (view s).1 ++ c ∧ Spans ls owed (view s).2 (view s').2 c

namespace Marks

variable {view : σ → List Record × Nat} {bad e : ε} {x : StateT σ (Except ε) α} {f : α → StateT σ (Except ε) β}

theorem error (h : ∀ s, x.run s = .error e) (he : e ≠ bad) : Marks view bad False ls o x where
  decides s := by simp [h]
  allowed s hs := he (Except.error.inj ((h s).symm.trans hs))
  spans s a s' hs := by cases (h s).symm.trans hs

theorem adds (h : ∀ s, ∃ a s', x.run s = .ok (a, s') ∧ (view s').1 = (view s).1 ++ c ∧ Spans ls o (view s).2 (view s').2 c) :
    Marks view bad True ls o x where
  decides s := by
    obtain ⟨a, s', h, -⟩ := h s
    exact iff_true_intro ⟨_, h⟩
  allowed s hs := by
    obtain ⟨a, s', h, -⟩ := h s
    cases h.symm.trans hs
  spans s b t hs := by
    obtain ⟨a, s', h, hspans⟩ := h s
    cases h.symm.trans hs
    exact ⟨c, hspans⟩

theorem quiet (h : ∀ s, ∃ a s', x.run s = .ok (a, s') ∧ view s' = view s) : Marks view bad True ls [] x := by
  refine adds (c := []) fun s => ?_
  obtain ⟨a, s', hs, hview⟩ := h s
  exact ⟨a, s', hs, by simp [hview], hview ▸ .nil⟩

theorem congr (hx : Marks view bad p ls o x) (h : p ↔ q) : Marks view bad q ls o x :=
  ⟨fun s => (hx.decides s).trans h, hx.allowed, hx.spans⟩

theorem bind (hx : Marks view bad p ls o x) (hf : ∀ a, Marks view bad q ls o' (f a)) :
    Marks view bad (p ∧ q) ls (o ++ o') (x >>= f) where
  decides s := by
    simp only [Prod.exists, run_bind_eq_ok]
    constructor
    · rintro ⟨b, s₂, a, s₁, ha, hb⟩
      exact ⟨(hx.decides s).1 ⟨_, ha⟩, ((hf a).decides s₁).1 ⟨_, hb⟩⟩
    · rintro ⟨hp, hq⟩
      obtain ⟨⟨a, s₁⟩, ha⟩ := (hx.decides s).2 hp
      obtain ⟨⟨b, s₂⟩, hb⟩ := ((hf a).decides s₁).2 hq
      exact ⟨b, s₂, a, s₁, ha, hb⟩
  allowed s hs := by
    rw [StateT.run_bind] at hs
    cases hrun : x.run s with
    | error e =>
      rw [hrun] at hs
      exact hx.allowed s (Except.error.inj hs ▸ hrun)
    | ok r =>
      rw [hrun] at hs
      exact (hf r.1).allowed r.2 hs
  spans s b t hs := by
    obtain ⟨a, s', ha, hb⟩ := run_bind_eq_ok.1 hs
    obtain ⟨c, hc, hspans⟩ := hx.spans s a s' ha
    obtain ⟨d, hd, hspans'⟩ := (hf a).spans s' b t hb
    exact ⟨c ++ d, by rw [hd, hc, append_assoc], hspans.append hspans'⟩

theorem both (hx : Marks view bad p ls [] x) (hf : ∀ a, Marks view bad q ls o (f a)) : Marks view bad (p ∧ q) ls o (x >>= f) :=
  hx.bind hf

theorem after (hx : Marks view bad True ls [] x) (hf : ∀ a, Marks view bad q ls o (f a)) : Marks view bad q ls o (x >>= f) :=
  (hx.both hf).congr (iff_of_eq (true_and q))

theorem before (hx : Marks view bad p ls [] x) (hf : ∀ a, Marks view bad True ls o (f a)) : Marks view bad p ls o (x >>= f) :=
  (hx.both hf).congr (iff_of_eq (and_true p))

theorem pays {l : Datum} (hx : Marks view bad True ls [l] x) (hf : ∀ a, Marks view bad q ls o (f a)) :
    Marks view bad q ls (l :: o) (x >>= f) :=
  (hx.bind hf).congr (iff_of_eq (true_and q))

theorem take {x : StateT σ (Except ε) String} {f : String → StateT σ (Except ε) β}
    (h : ∀ s, ∃ s', x.run s = .ok (".L" ++ toString (view s).2, s') ∧ view s' = ((view s).1, (view s).2 + 1))
    (hf : ∀ l, Marks view bad p (.str l :: ls) (o ++ [.str l]) (f l)) : Marks view bad p ls o (x >>= f) := by
  have hrun : ∀ s, ∃ s', (x >>= f).run s = (f (".L" ++ toString (view s).2)).run s' ∧ view s' = ((view s).1, (view s).2 + 1) := by
    intro s
    obtain ⟨s', hs', hview⟩ := h s
    exact ⟨s', by rw [StateT.run_bind, hs', ok_bind], hview⟩
  refine ⟨fun s => ?_, fun s => ?_, fun s b t hs => ?_⟩
  · obtain ⟨s', hs', -⟩ := hrun s
    rw [hs']
    exact (hf _).decides s'
  · obtain ⟨s', hs', -⟩ := hrun s
    rw [hs']
    exact (hf _).allowed s'
  · obtain ⟨s', hs', hview⟩ := hrun s
    obtain ⟨c, hc, hspans⟩ := (hf _).spans s' b t (hs' ▸ hs)
    rw [hview] at hc hspans
    exact ⟨c, hc, hspans.taken⟩

theorem wellLabelled (h : Marks view bad p [] [] x) {s s' : σ} {a : α} (hs : (view s).1 = []) (hrun : x.run s = .ok (a, s')) :
    WellLabelled (view s').1 := by
  obtain ⟨c, hc, hspans⟩ := h.spans s a s' hrun
  rw [hc, hs, nil_append]
  exact hspans.wellLabelled

end Marks

theorem still_of_opcode {op : Op} {name : String} (h : op.opcode? = some name) (args : List Datum) (t : Datum) :
    marks [.of name args t] = [] ∧ destination? (.of name args t) = none := by
  cases op <;> cases h <;> exact ⟨rfl, rfl⟩

theorem isBoolean_eq (op : Op) : op.isBoolean = op.opcode?.isNone := by cases op <;> rfl

end Marks

end Bx.Source
