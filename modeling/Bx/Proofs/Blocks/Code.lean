import Bx.Blocks.Basic
import Bx.Proofs.Run.Loose
import Mathlib.Data.List.Chain

namespace Bx.Blocks

open List hiding after
open Tac Run.Loose

def code (ls : List Line) : List Record := ls.map Line.record

theorem code_append (ls ms : List Line) : code (ls ++ ms) = code ls ++ code ms := map_append

def isTest (r : Record) : Bool := r.opcode.string?.any conditionals.contains

def isEnd (r : Record) : Bool := r.opcode.is "jmp" || r.opcode.is "ret"

def targetOf? (r : Record) : Option Datum :=
  if r.opcode.is "jmp" then some (r.arg 0) else if isTest r then some (r.arg 1) else none

def Inward (b : List Record) : Prop := ∀ r ∈ b, ∀ y ∈ targetOf? r, ∃ x ∈ labelNames b, y = .str x

/-- Labels are distinct, jumps lead to these only, and control never gets behind the last instruction. -/
structure Body (b : List Record) : Prop where
  labelled : Labelled b
  args : ∀ r ∈ b, ∃ xs, r.args = .list xs
  closed : Inward b
  ends : ∃ r, b.getLast? = some r ∧ isEnd r = true

section Records

variable {r : Record}

theorem isTest_of_test? {q : Word.Cond} (h : r.test? = some q) : isTest r := by
  obtain ⟨op, hop, hq⟩ := Option.bind_eq_some_iff.1 h
  have hname : q.name = op := by simpa using List.find?_some hq
  rw [isTest, hop, ← hname]
  cases q <;> rfl

theorem label?_eq_some {x : String} : r.label? = some x ↔ r.opcode = .str "label" ∧ r.arg 0 = .str x := by
  rw [Record.label?]
  split
  · next h => rw [Datum.string?_eq_some, Datum.is_iff.1 h]; simp
  · next h => simp only [reduceCtorEq, false_iff, not_and]; exact fun hop => absurd (Datum.is_iff.2 hop) h

theorem targetOf?_of_jmp (h : r.opcode = .str "jmp") : targetOf? r = some (r.arg 0) := by
  simp [targetOf?, h, Datum.is]

theorem targetOf?_of_test? {q : Word.Cond} (h : r.test? = some q) : targetOf? r = some (r.arg 1) := by
  have hj : r.opcode.is "jmp" = false := by
    rw [Bool.eq_false_iff]
    intro hj
    rw [Record.test?, Datum.is_iff.1 hj] at h
    exact absurd h (by cases q <;> decide)
  simp [targetOf?, hj, isTest_of_test? h]

end Records

theorem exists_after {b : List Record} (hb : (labelNames b).Nodup) {x : String} (hx : x ∈ labelNames b) :
    ∃ r c, r :: c <:+ b ∧ r.label? = some x ∧ after b x = some c := by
  obtain ⟨r, c, hs, hr⟩ := exists_of_mem_labelNames hx
  exact ⟨r, c, hs, hr, after_of_suffix hb hr hs⟩

/-- Labels were put into code, and jumps to the label that directly follows. -/
inductive Padded : List Record → List Record → Prop
  | nil : Padded [] []
  | same {r b c} (h : Padded b c) : Padded (r :: b) (r :: c)
  | label {r x b c} (hr : r.label? = some x) (h : Padded b c) : Padded b (r :: c)
  | jump {r j x b c} (hr : r.label? = some x) (hj : j.opcode = .str "jmp") (hx : j.arg 0 = .str x) (h : Padded b c) :
      Padded (r :: b) (j :: r :: c)

namespace Padded

variable {b c : List Record}

theorem label?_of_jmp {j : Record} (hj : j.opcode = .str "jmp") : j.label? = none := by
  simp [Record.label?, hj, Datum.is]

theorem labels_sublist (h : Padded b c) : (labelNames b).Sublist (labelNames c) := by
  induction h with
  | nil => exact List.Sublist.slnil
  | @same r b c _ ih =>
    rw [labelNames, labelNames, filterMap_cons, filterMap_cons]
    cases r.label? with
    | none => exact ih
    | some x => exact ih.cons_cons x
  | @label r x b c hr _ ih =>
    rw [labelNames, labelNames, filterMap_cons, hr]
    exact ih.cons x
  | @jump r j x b c hr hj _ _ ih =>
    rw [labelNames, labelNames, filterMap_cons, filterMap_cons, filterMap_cons, label?_of_jmp hj, hr]
    exact ih.cons_cons x

theorem after (h : Padded b c) (hc : (labelNames c).Nodup) {x : String} {d : List Record} (hd : after b x = some d) :
    ∃ d', Run.Loose.after c x = some d' ∧ Padded d d' := by
  induction h with
  | nil => cases hd
  | @same r b c h ih =>
    rw [Run.Loose.after] at hd ⊢
    split at hd
    · cases hd
      exact ⟨c, by rw [if_pos ‹_›], h⟩
    · rw [if_neg ‹_›]
      exact ih ((List.Sublist.filterMap _ (sublist_cons_self r c)).nodup hc) hd
  | @label r y b c hr h ih =>
    rw [labelNames, filterMap_cons, hr, nodup_cons] at hc
    have hmem : x ∈ labelNames b := by
      by_contra hx
      have hnone := after_append_of_notMem (c := []) hx
      rw [append_nil, hd] at hnone
      cases hnone
    have hne : y ≠ x := fun hxy => hc.1 (h.labels_sublist.subset (hxy ▸ hmem))
    rw [Run.Loose.after, hr, if_neg (by simpa using hne)]
    exact ih hc.2 hd
  | @jump r j y b c hr hj _ h ih =>
    rw [labelNames, filterMap_cons, filterMap_cons, label?_of_jmp hj, hr, nodup_cons] at hc
    rw [Run.Loose.after, label?_of_jmp hj, if_neg (by simp), Run.Loose.after]
    rw [Run.Loose.after] at hd
    split at hd
    · cases hd
      exact ⟨c, by rw [if_pos ‹_›], h⟩
    · rw [if_neg ‹_›]
      exact ih hc.2 hd

theorem sameCode (h : Padded b c) (hb : Labelled b) (hj : Inward b) (hc : Labelled c) : SameCode b c := by
  refine ⟨hb, hc, fun n _ s s' => Padded s s' ∧ s <:+ b ∧ s' <:+ c ∧ n = s'.length, ?_, fun t => ⟨_, h, suffix_rfl, suffix_rfl, rfl⟩⟩
  rintro n t s s' ⟨hp, hs, hs', rfl⟩
  -- Where a jump of the body leads, both codes go on alike.
  have lead : ∀ {r y}, r ∈ b → targetOf? r = some y → ∃ x d d', y = .str x ∧ Run.Loose.after b x = some d ∧ Run.Loose.after c x = some d' ∧
      Padded d d' := by
    intro r y hr hy
    obtain ⟨x, hx, rfl⟩ := hj r hr y hy
    obtain ⟨-, d, -, -, hd⟩ := exists_after hb.nodup hx
    obtain ⟨d', hd', hpd⟩ := h.after hc.nodup hd
    exact ⟨x, d, d', rfl, hd, hd', hpd⟩
  cases hp with
  | nil => exact .inr (.inr .ended)
  | @same r s s' hp =>
    have hmem : r ∈ b := hs.subset mem_cons_self
    have hs₁ := (suffix_cons r s).trans hs
    have hs₁' := (suffix_cons r s').trans hs'
    right; right
    by_cases hj : r.opcode = .str "jmp"
    · obtain ⟨x, d, d', hx, hd, hd', hpd⟩ := lead hmem (targetOf?_of_jmp hj)
      exact .both (.jmp hj hx hd) (.jmp hj hx hd') ⟨_, hpd, after_suffix hd, after_suffix hd', rfl⟩
    · cases hq : r.test? with
      | none => exact .plain hj hq fun _ _ _ => ⟨_, hp, hs₁, hs₁', rfl⟩
      | some q =>
        obtain ⟨x, d, d', hx, hd, hd', hpd⟩ := lead hmem (targetOf?_of_test? hq)
        exact .test hq hx hd hd' (fun _ => ⟨_, hpd, after_suffix hd, after_suffix hd', rfl⟩) ⟨_, hp, hs₁, hs₁', rfl⟩
  | @label r x s s' hr hp =>
    exact .inr (.inl ⟨s', s'.length, Nat.lt_succ_self _, .pass (.inl (label?_eq_some.1 hr).1), hp, hs,
      (suffix_cons r s').trans hs', rfl⟩)
  | @jump r j x s s' hr hj hx hp =>
    have hr' : r :: s' <:+ c := (suffix_cons j _).trans hs'
    refine .inr (.inr (.both (.pass (.inl (label?_eq_some.1 hr).1)) (.jmp hj hx (after_of_suffix hc.nodup hr hr')) ?_))
    exact ⟨_, hp, (suffix_cons r s).trans hs, (suffix_cons r s').trans hr', rfl⟩

end Padded

end Bx.Blocks
