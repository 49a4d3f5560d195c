import Bx.Flow.Canonical
import Bx.Proofs.Run.SameCode
import Mathlib.Data.List.Chain
import Mathlib.Data.List.Nodup
import Mathlib.Data.List.TakeWhile

namespace Bx.Flow

open List hiding after
open Tac Run.Checked

variable {i i' : Instr} {b c b' c' d : List Instr} {R : List Instr → List Instr → Prop} {k fresh : Nat}
variable {ls out : List Line} {x name l : String} {ρ : Renaming}

def code (ls : List Line) : List Instr := ls.map (·.instr)

@[simp]
theorem code_nil : code [] = [] := rfl

@[simp]
theorem code_cons (l : Line) (ls : List Line) : code (l :: ls) = l.instr :: code ls := rfl

theorem isLabel_of_isConditional (h : isConditional i) : i.isLabel = false := by
  cases i <;> simp_all [isConditional, Instr.isLabel]

theorem isLabel_of_isFinal (h : isFinal i) : i.isLabel = false := by
  cases i <;> simp_all [isFinal, Instr.isLabel]

theorem ne_label_of_isLabel (h : i.isLabel = false) (l : String) : i ≠ .label l := by
  rintro rfl
  cases h

theorem labelNames_cons_of_isLabel (h : i.isLabel = false) (c : List Instr) : labelNames (i :: c) = labelNames c := by
  cases i <;> simp_all [labelNames, filterMap_cons, Instr.label?, Instr.isLabel]

theorem eq_label_of_isLabel (h : i.isLabel) : ∃ l, i = .label l := by
  cases i <;> simp_all [Instr.isLabel]

theorem labelNames_cons (i : Instr) (c : List Instr) : labelNames (i :: c) = labelNames [i] ++ labelNames c :=
  filterMap_append (l := [i])

@[simp]
theorem labelNames_cons_label (l : String) (c : List Instr) : labelNames (.label l :: c) = l :: labelNames c := rfl

def lastCode (b : List Instr) : Option Instr := (b.filter fun i => !i.isLabel).getLast?

@[simp]
theorem lastCode_cons_label (l : String) (c : List Instr) : lastCode (.label l :: c) = lastCode c := rfl

theorem lastCode_cons_of_isLabel (hi : i.isLabel = false) (c : List Instr) : lastCode (i :: c) = some ((lastCode c).getD i) := by
  rw [lastCode, filter_cons_of_pos (by simp [hi]), List.getLast?_cons]
  rfl

def EndsFinal (b : List Instr) : Prop := ∃ i, lastCode b = some i ∧ isFinal i = true

/-- No phis, distinct labels, jumps that lead to some code, and an end that is never passed. -/
structure Sound (b : List Instr) : Prop where
  phiFree : ∀ i ∈ b, i.isPhi = false
  labels : (labelNames b).Nodup
  jumps : ∀ i ∈ b, ∀ l ∈ i.target?, ∃ d, after b l = some d ∧ d ≠ []
  ends : EndsFinal b

theorem EndsFinal.dropWhile_ne_nil (hb : EndsFinal b) (h : i :: c <:+ b) (hi : i.isLabel = false) (hf : isFinal i = false) :
    c.dropWhile Instr.isLabel ≠ [] := by
  intro hc
  obtain ⟨a, rfl⟩ := h
  obtain ⟨j, hj, hfj⟩ := hb
  have hcf : c.filter (fun i => !i.isLabel) = [] := by
    rw [filter_eq_nil_iff]
    simpa [dropWhile_eq_nil_iff] using hc
  rw [lastCode, filter_append, filter_cons_of_pos (by simp [hi]), hcf, List.getLast?_concat] at hj
  cases hj
  simp [hf] at hfj

theorem pairs_of_target {m : String → String} (hl : i.isLabel = false) (hp : i.isPhi = false)
    (htarget : ∀ l ∈ i.target?, ∃ d d', after b l = some d ∧ after b' (m l) = some d' ∧ R d d')
    (hc : isFinal i = false → R c c') : Pairs b b' R (i :: c) (i.retarget m :: c') := by
  cases i with
  | label => cases hl
  | phi | frozenPhi => cases hp
  | jmp l =>
    obtain ⟨d, d', hd, hd', h⟩ := htarget l rfl
    exact .jmp hd hd' h
  | jcc t x l =>
    obtain ⟨d, d', hd, hd', h⟩ := htarget l rfl
    exact .jcc hd hd' h (hc rfl)
  | ret x => exact .ret
  | _ => exact .plain rfl (hc rfl)

theorem pairs_retarget {m : String → String} (hb : Sound b)
    (hjump : ∀ l d, after b l = some d → ∃ d', after b' (m l) = some d' ∧ R d d') (hi : i ∈ b) (hl : i.isLabel = false)
    (hc : isFinal i = false → R c c') : Pairs b b' R (i :: c) (i.retarget m :: c') := by
  refine pairs_of_target hl (hb.phiFree i hi) (fun l hil => ?_) hc
  obtain ⟨d, hd, -⟩ := hb.jumps i hi l hil
  obtain ⟨d', hd', h⟩ := hjump l d hd
  exact ⟨d, d', hd, hd', h⟩

theorem pairs_same (hb : Sound b) (hjump : ∀ l d, after b l = some d → ∃ d', after b' l = some d' ∧ R d d') (hi : i ∈ b)
    (hl : i.isLabel = false) (hc : isFinal i = false → R c c') : Pairs b b' R (i :: c) (i :: c') := by
  have h := pairs_retarget (m := fun l => l) hb hjump hi hl hc
  rwa [Instr.retarget_id] at h

section AdminLabels

def adminName (name : String) (k : Nat) : String := "%.L" ++ name ++ toString k

/-- Labels have been put behind runs of jumps. The truth value tells whether such a run is under way. -/
inductive AdminLabels (name : String) : Nat → Bool → List Instr → List Instr → Prop
  | nil {k : _} : AdminLabels name k false [] []
  | branch {k r i c c' : _} (hi : isConditional i = true) (h : AdminLabels name k true c c') :
      AdminLabels name k r (i :: c) (i :: c')
  | keep {k i c c' : _} (hi : isConditional i = false) (h : AdminLabels name k false c c') :
      AdminLabels name k false (i :: c) (i :: c')
  | behind {k i c c' : _} (hi : isFinal i = true) (h : AdminLabels name (k + 1) false c c') :
      AdminLabels name k true (i :: c) (i :: .label (adminName name k) :: c')
  | before {k i c c' : _} (hi : isEnder i = false) (h : AdminLabels name (k + 1) false c c') :
      AdminLabels name k true (i :: c) (.label (adminName name k) :: i :: c')

theorem adminLabels_spec {r : Bool} (h : adminLabels name fresh k r ls = (out, none)) :
    AdminLabels name k r (code ls) (code out) := by
  induction ls generalizing k r out with
  | nil =>
    cases r with
    | true => simp [adminLabels] at h
    | false =>
      obtain rfl : out = [] := by simpa [adminLabels] using h.symm
      exact .nil
  | cons l rest ih =>
    rw [adminLabels] at h
    by_cases hc : isConditional l.instr
    · rcases hr : adminLabels name fresh k true rest with ⟨o, e⟩
      simp only [hc, if_true, hr, Prod.mk.injEq] at h
      obtain ⟨rfl, rfl⟩ := h
      exact .branch hc (ih hr)
    · cases r with
      | false =>
        rcases hr : adminLabels name fresh k false rest with ⟨o, e⟩
        simp only [hc, Bool.not_false, if_true, hr] at h
        obtain ⟨rfl, rfl⟩ := h
        exact .keep (by simpa using hc) (ih hr)
      | true =>
        rcases hr : adminLabels name fresh (k + 1) false rest with ⟨o, e⟩
        simp only [hc, Bool.not_true, if_false, hr, Prod.mk.injEq, Bool.false_eq_true] at h
        obtain ⟨rfl, rfl⟩ := h
        by_cases hf : isFinal l.instr
        · rw [if_pos hf]
          exact .behind hf (ih hr)
        · rw [if_neg hf]
          exact .before (by simp_all [isEnder]) (ih hr)

variable {name : String} {k : Nat} {r : Bool} {b b' : List Instr}

theorem AdminLabels.dropWhile (h : AdminLabels name k false b b') :
    AdminLabels name k false (b.dropWhile Instr.isLabel) (b'.dropWhile Instr.isLabel) := by
  induction b generalizing b' with
  | nil =>
    cases h
    exact .nil
  | cons i c ih =>
    cases hl : i.isLabel with
    | true =>
      cases h with
      | branch hi h => simp [isLabel_of_isConditional hi] at hl
      | keep hi h =>
        rw [dropWhile_cons_of_pos hl, dropWhile_cons_of_pos hl]
        exact ih h
    | false =>
      have hd : ∀ d, (i :: d).dropWhile Instr.isLabel = i :: d := fun d => dropWhile_cons_of_neg (by simp [hl])
      cases h with
      | branch hi h =>
        rw [hd, hd]
        exact .branch hi h
      | keep hi h =>
        rw [hd, hd]
        exact .keep hi h

section

variable (h : AdminLabels name k r b b')
include h

theorem AdminLabels.after (hx : ∀ j, x ≠ adminName name j) (hd : after b x = some d) :
    ∃ j d', Run.Checked.after b' x = some d' ∧ AdminLabels name j false d d' := by
  have old : ∀ {j i c c'}, AdminLabels name j false c c' →
      (Run.Checked.after c x = some d → ∃ j d', Run.Checked.after c' x = some d' ∧ AdminLabels name j false d d') →
      Run.Checked.after (i :: c) x = some d →
      ∃ j d', Run.Checked.after (i :: c') x = some d' ∧ AdminLabels name j false d d' := by
    intro j i c c' h ih hd
    by_cases hi : i = .label x
    · subst hi
      rw [Run.Checked.after, if_pos rfl] at hd
      cases hd
      exact ⟨j, _, by rw [Run.Checked.after, if_pos rfl], h.dropWhile⟩
    · rw [after_cons_of_ne hi] at hd ⊢
      exact ih hd
  have new : ∀ j, Instr.label (adminName name j) ≠ .label x := fun j hj => hx j (Instr.label.inj hj).symm
  induction h with
  | nil => simp [Run.Checked.after] at hd
  | branch hi h ih =>
    have hl := ne_label_of_isLabel (isLabel_of_isConditional hi) x
    rw [after_cons_of_ne hl] at hd ⊢
    exact ih hd
  | keep hi h ih => exact old h ih hd
  | behind hi h ih =>
    have hl := ne_label_of_isLabel (isLabel_of_isFinal hi) x
    rw [after_cons_of_ne hl] at hd
    rw [after_cons_of_ne hl, after_cons_of_ne (new _)]
    exact ih hd
  | before hi h ih =>
    rw [after_cons_of_ne (new _)]
    exact old h ih hd

theorem AdminLabels.mem (hi : i ∈ b') : i ∈ b ∨ ∃ j, i = .label (adminName name j) := by
  induction h with
  | nil => exact .inl hi
  | branch _ _ ih | keep _ _ ih | behind _ _ ih | before _ _ ih => grind

theorem AdminLabels.labels :
    ∃ n, (labelNames b').Perm (labelNames b ++ (List.range' k n).map (adminName name)) := by
  induction h with
  | nil => exact ⟨0, .nil⟩
  | @branch k r i c c' _ _ ih | @keep k i c c' _ _ ih =>
    obtain ⟨n, ih⟩ := ih
    refine ⟨n, ?_⟩
    rw [labelNames_cons, labelNames_cons i c, append_assoc]
    exact ih.append_left _
  | @behind k i c c' _ _ ih =>
    obtain ⟨n, ih⟩ := ih
    refine ⟨n + 1, ?_⟩
    rw [labelNames_cons, labelNames_cons_label, labelNames_cons i c, append_assoc, List.range'_succ, map_cons]
    exact ((ih.cons _).trans perm_middle.symm).append_left _
  | @before k i c c' _ _ ih =>
    obtain ⟨n, ih⟩ := ih
    refine ⟨n + 1, ?_⟩
    rw [labelNames_cons_label, labelNames_cons, labelNames_cons i c, List.range'_succ, map_cons]
    refine ((ih.append_left _).cons _).trans ?_
    rw [← append_assoc]
    exact perm_middle.symm

theorem AdminLabels.jumps (hnew : ∀ j, adminName name j ∉ labelNames b)
    (hd : Run.Checked.after b l = some d) : ∃ j d', Run.Checked.after b' l = some d' ∧ AdminLabels name j false d d' :=
  h.after (fun j hj => hnew j (hj ▸ after_isSome.1 (by simp [hd]))) hd

theorem AdminLabels.lastCode_eq : lastCode b' = lastCode b := by
  have cons : ∀ i {c c'}, lastCode c' = lastCode c → lastCode (i :: c') = lastCode (i :: c) := by
    intro i c c' ih
    cases hi : i.isLabel with
    | false => rw [lastCode_cons_of_isLabel hi, ih, lastCode_cons_of_isLabel hi]
    | true =>
      obtain ⟨x, rfl⟩ := eq_label_of_isLabel hi
      exact ih
  induction h with
  | nil => rfl
  | branch _ _ ih | keep _ _ ih | behind _ _ ih | before _ _ ih => exact cons _ ih

theorem AdminLabels.labels_nodup (hb : (labelNames b).Nodup)
    (hnew : ∀ j, adminName name j ∉ labelNames b) : (labelNames b').Nodup := by
  obtain ⟨n, hl⟩ := h.labels
  refine hl.nodup_iff.2 (nodup_append.2 ⟨hb, ?_, ?_⟩)
  · exact (nodup_range' 1).map fun i j h => append_toString_inj.1 h
  · rintro x hx _ hy rfl
    obtain ⟨j, -, rfl⟩ := mem_map.1 hy
    exact hnew j hx

theorem AdminLabels.sound (hb : Sound b) (hnew : ∀ j, adminName name j ∉ labelNames b) :
    Sound b' := by
  refine ⟨fun i hi => ?_, h.labels_nodup hb.labels hnew, fun i hi l hil => ?_, ?_⟩
  · rcases h.mem hi with hi | ⟨j, rfl⟩
    · exact hb.phiFree i hi
    · rfl
  · rcases h.mem hi with hi | ⟨j, rfl⟩
    · obtain ⟨d, hd, hne⟩ := hb.jumps i hi l hil
      obtain ⟨j, d', hd', h'⟩ := h.jumps hnew hd
      exact ⟨d', hd', by cases h' <;> simp_all⟩
    · simp [Instr.target?] at hil
  · rw [EndsFinal, h.lastCode_eq]
    exact hb.ends

end

theorem AdminLabels.sameCode (h : AdminLabels name 0 false b b') (hb : Sound b)
    (hnew : ∀ j, adminName name j ∉ labelNames b) : SameCode b b' := by
  let R := fun n c c' => ∃ k r, (r = true → 0 < n) ∧ c ⊆ b ∧ AdminLabels name k r c c'
  have hjump : ∀ l d, Run.Checked.after b l = some d → ∃ d', Run.Checked.after b' l = some d' ∧ ∃ n, R n d d' := by
    intro l d hd
    obtain ⟨j, d', hd', h'⟩ := h.jumps hnew hd
    exact ⟨d', hd', 0, j, false, by simp, (after_suffix hd).subset, h'⟩
  refine ⟨hb.labels, (h.sound hb hnew).labels, R, ?_, 0, 0, false, by simp, List.Subset.refl b, h⟩
  rintro n c c' ⟨k, r, hn, hc, h⟩
  cases h with
  | nil => exact .inr (.inr .ended)
  | branch hi h =>
    obtain ⟨hib, hcb⟩ := cons_subset.1 hc
    exact .inr (.inr (pairs_same hb hjump hib (isLabel_of_isConditional hi) fun _ => ⟨1, k, true, by simp, hcb, h⟩))
  | @keep _ i c c' hi h =>
    obtain ⟨hib, hcb⟩ := cons_subset.1 hc
    have hR : ∃ n, R n c c' := ⟨0, k, false, by simp, hcb, h⟩
    cases hl : i.isLabel with
    | false => exact .inr (.inr (pairs_same hb hjump hib hl fun _ => hR))
    | true =>
      obtain ⟨x, rfl⟩ := eq_label_of_isLabel hl
      exact .inr (.inr (.label hR))
  | behind hi h =>
    obtain ⟨hib, hcb⟩ := cons_subset.1 hc
    exact .inr (.inr (pairs_same hb hjump hib (isLabel_of_isFinal hi) fun hf => by simp [hi] at hf))
  | before hi h =>
    -- Only here does the new code run through a label of its own.
    refine .inr (.inl ⟨_, 0, hn rfl, .label, k + 1, false, by simp, hc, .keep ?_ h⟩)
    simp only [isEnder, Bool.or_eq_false_iff] at hi
    exact hi.1

end AdminLabels

section ExplicitJumps

/-- Code before and after jumps have been put where it runs into a label. -/
inductive ExplicitJumps : List Instr → List Instr → Prop
  | nil : ExplicitJumps [] []
  | keep {i c c' : _} (hi : i.isLabel = true ∨ isFinal i = true ∨ ∀ j ∈ c.head?, j.isLabel = false) (h : ExplicitJumps c c') :
      ExplicitJumps (i :: c) (i :: c')
  | jump {i x c c' : _} (hi : i.isLabel = false) (hf : isFinal i = false) (h : ExplicitJumps (.label x :: c) c') :
      ExplicitJumps (i :: .label x :: c) (i :: .jmp x :: c')

theorem explicitJumps_spec (fresh : Nat) (ls : List Line) : ExplicitJumps (code ls) (code (explicitJumps fresh ls)) := by
  induction ls generalizing fresh with
  | nil => exact .nil
  | cons l rest ih =>
    unfold explicitJumps
    split
    · next hl =>
        simp only [Bool.or_eq_false_iff] at hl
        exact .jump hl.1 hl.2 (ih _)
    · next rest _ _ hl =>
        refine .keep ?_ (ih _)
        by_cases h : (l.instr.isLabel || isFinal l.instr)
        · simp only [Bool.or_eq_true] at h
          exact h.imp_right .inl
        · refine .inr (.inr ?_)
          cases rest with
          | nil => simp
          | cons m rest =>
            rintro j ⟨⟩
            cases hm : m.instr.isLabel with
            | false => rfl
            | true =>
              obtain ⟨x, hx⟩ := eq_label_of_isLabel hm
              exact (hl m.id x rest (by simpa using h) (by rw [← hx])).elim

variable {b b' : List Instr}
variable (h : ExplicitJumps b b')
include h

theorem ExplicitJumps.dropWhile :
    ExplicitJumps (b.dropWhile Instr.isLabel) (b'.dropWhile Instr.isLabel) := by
  induction h with
  | nil => exact .nil
  | @keep i c c' hi h ih =>
    cases hl : i.isLabel with
    | true => rwa [dropWhile_cons_of_pos hl, dropWhile_cons_of_pos hl]
    | false =>
      rw [dropWhile_cons_of_neg (by simp [hl]), dropWhile_cons_of_neg (by simp [hl])]
      exact .keep hi h
  | jump hi hf h ih =>
    rw [dropWhile_cons_of_neg (by simp [hi]), dropWhile_cons_of_neg (by simp [hi])]
    exact .jump hi hf h

theorem ExplicitJumps.after (hd : after b x = some d) :
    ∃ d', Run.Checked.after b' x = some d' ∧ ExplicitJumps d d' := by
  induction h with
  | nil => simp [Run.Checked.after] at hd
  | @keep i c c' hi h ih =>
    by_cases hx : i = .label x
    · subst hx
      rw [Run.Checked.after, if_pos rfl] at hd
      cases hd
      exact ⟨_, by rw [Run.Checked.after, if_pos rfl], h.dropWhile⟩
    · rw [after_cons_of_ne hx] at hd ⊢
      exact ih hd
  | jump hi hf h ih =>
    have hx := ne_label_of_isLabel hi x
    rw [after_cons_of_ne hx] at hd
    rw [after_cons_of_ne hx, after_cons_of_ne (by simp)]
    exact ih hd

theorem ExplicitJumps.labels : labelNames b' = labelNames b := by
  induction h with
  | nil => rfl
  | @keep i c c' hi h ih => rw [labelNames_cons, ih, labelNames_cons i c]
  | @jump i x c c' hi hf h ih =>
    rw [labelNames_cons, labelNames_cons_of_isLabel (i := .jmp x) rfl, ih, labelNames_cons i (.label x :: c)]

theorem ExplicitJumps.mem {j : Instr} (hj : j ∈ b') :
    j ∈ b ∨ ∃ i x c, i :: .label x :: c <:+ b ∧ i.isLabel = false ∧ isFinal i = false ∧ j = .jmp x := by
  induction h with
  | nil => exact .inl hj
  | @keep i c c' _ _ ih =>
    rcases mem_cons.1 hj with rfl | hj
    · exact .inl mem_cons_self
    · rcases ih hj with hj | ⟨i', x, d, hd, hi⟩
      · exact .inl (mem_cons_of_mem _ hj)
      · exact .inr ⟨i', x, d, hd.trans (suffix_cons i c), hi⟩
  | @jump i x c c' hi hf _ ih =>
    rcases mem_cons.1 hj with rfl | hj
    · exact .inl mem_cons_self
    rcases mem_cons.1 hj with rfl | hj
    · exact .inr ⟨i, x, c, suffix_refl _, hi, hf, rfl⟩
    · rcases ih hj with hj | ⟨i', x', d, hd, hi⟩
      · exact .inl (mem_cons_of_mem _ hj)
      · exact .inr ⟨i', x', d, hd.trans (suffix_cons i _), hi⟩

theorem ExplicitJumps.endsFinal (hb : EndsFinal b) : EndsFinal b' := by
  suffices key : lastCode b' = lastCode b ∨ EndsFinal b' by
    obtain ⟨i, hi, hf⟩ := hb
    exact key.elim (fun h => ⟨i, h.trans hi, hf⟩) id
  clear hb
  induction h with
  | nil => exact .inl rfl
  | @keep i c c' hi h ih =>
    cases hl : i.isLabel with
    | true =>
      obtain ⟨x, rfl⟩ := eq_label_of_isLabel hl
      exact ih
    | false =>
      rw [EndsFinal, lastCode_cons_of_isLabel hl, lastCode_cons_of_isLabel hl]
      rcases ih with ih | ⟨j, hj, hf⟩
      · exact .inl (by rw [ih])
      · exact .inr ⟨j, by rw [hj]; rfl, hf⟩
  | @jump i x c c' hi hf h ih =>
    rw [EndsFinal, lastCode_cons_of_isLabel hi, lastCode_cons_of_isLabel (i := .jmp x) rfl, lastCode_cons_of_isLabel hi]
    rcases hc : lastCode c' with _ | j
    · exact .inr ⟨_, rfl, rfl⟩
    · rcases ih with ih | ⟨j', hj, hf⟩
      · exact .inl (by rw [← ih, hc]; rfl)
      · rw [hc] at hj
        cases hj
        exact .inr ⟨j, rfl, hf⟩

theorem ExplicitJumps.sound (hb : Sound b) : Sound b' := by
  have leads : ∀ l d, Run.Checked.after b l = some d → d ≠ [] → ∃ d', Run.Checked.after b' l = some d' ∧ d' ≠ [] := by
    intro l d hd hne
    obtain ⟨d', hd', h'⟩ := h.after hd
    exact ⟨d', hd', by cases h' <;> simp_all⟩
  refine ⟨fun i hi => ?_, h.labels ▸ hb.labels, fun i hi l hil => ?_, h.endsFinal hb.ends⟩
  · rcases h.mem hi with hi | ⟨_, _, _, -, -, -, rfl⟩
    · exact hb.phiFree i hi
    · rfl
  · rcases h.mem hi with hi | ⟨j, x, c, hc, hj, hf, rfl⟩
    · obtain ⟨d, hd, hne⟩ := hb.jumps i hi l hil
      exact leads l d hd hne
    · cases hil
      have hne := hb.ends.dropWhile_ne_nil hc hj hf
      exact leads _ _ (after_of_suffix hb.labels ((suffix_cons j _).trans hc)) hne

end ExplicitJumps

section Numbered

def numberName (k : Nat) : String := "%.L" ++ toString k

/-- Labels have been numbered by a renaming. The name is that of the labels just passed, if there are any. -/
inductive Numbered (ρ : Renaming) : Nat → Option String → List Instr → List Instr → Prop
  | nil {k r : _} : Numbered ρ k r [] []
  | more {k x y c c' : _} (hx : x ∉ labelNames c → ρ.lookup x = some y) (h : Numbered ρ k (some y) c c') :
      Numbered ρ k (some y) (.label x :: c) c'
  | first {k x c c' : _} (hx : x ∉ labelNames c → ρ.lookup x = some (numberName k))
      (h : Numbered ρ (k + 1) (some (numberName k)) c c') :
      Numbered ρ k none (.label x :: c) (.label (numberName k) :: c')
  | keep {k r i i' c c' : _} (hi : i.isLabel = false) (hr : relabel ρ i = some i') (h : Numbered ρ k none c c') :
      Numbered ρ k r (i :: c) (i' :: c')

section

variable (h : relabel ρ i = some i')
include h

theorem isLabel_relabel : i'.isLabel = i.isLabel := by
  cases i <;> cases h <;> rfl

theorem isFinal_relabel : isFinal i' = isFinal i := by
  cases i <;> cases h <;> rfl

theorem isPhi_relabel : i'.isPhi = i.isPhi := by
  cases i <;> cases h <;> rfl

theorem dest_relabel : i'.dest = i.dest := by
  cases i <;> cases h <;> rfl

def lastRead? : Instr → Option String
  | .binop _ _ _ y => some y
  | .param _ x => some x
  | _ => none

theorem relabel_eq_retarget (hp : i.isPhi = false) (hy : ∀ y ∈ lastRead? i, ρ.lookup y = none) :
    i' = i.retarget ρ.apply := by
  cases i with
  | binop op d x y => simpa [relabel, Instr.retarget, Renaming.apply, hy y rfl, eq_comm] using h
  | param n x => simpa [relabel, Instr.retarget, Renaming.apply, hy x rfl, eq_comm] using h
  | phi | frozenPhi => simp [Instr.isPhi] at hp
  | _ => simpa [relabel, Instr.retarget, eq_comm] using h

end

theorem numberLabels_cons_of_isLabel {l : Line} (hl : l.instr.isLabel = false) (fresh k : Nat) (y : Option String)
    (ρ : Renaming) (rest : List Line) :
    numberLabels fresh k y ρ (l :: rest) =
      (l :: (numberLabels fresh k none ρ rest).1, (numberLabels fresh k none ρ rest).2) := by
  obtain ⟨id, i⟩ := l
  cases i <;> simp_all [numberLabels, Instr.isLabel]

theorem numberLabels_lookup (fresh k : Nat) (y : Option String) (ρ₀ : Renaming) (hx : x ∉ labelNames (code ls)) :
    (numberLabels fresh k y ρ₀ ls).2.1.lookup x = ρ₀.lookup x := by
  induction ls generalizing k y ρ₀ with
  | nil => simp [numberLabels]
  | cons l rest ih =>
    cases hl : l.instr.isLabel with
    | false =>
      rw [code_cons, labelNames_cons_of_isLabel hl] at hx
      rw [numberLabels_cons_of_isLabel hl, ih _ _ _ hx]
    | true =>
      obtain ⟨z, hz⟩ := eq_label_of_isLabel hl
      rw [code_cons, hz, labelNames_cons_label, mem_cons, not_or] at hx
      cases y with
      | some y =>
        simp only [numberLabels, hz]
        rw [ih _ _ _ hx.2, lookup_put_ne hx.1]
      | none =>
        simp only [numberLabels, hz]
        split
        · rfl
        · simp only []
          rw [ih _ _ _ hx.2, lookup_put_ne hx.1]

theorem relabelAll_cons {l : Line} (h : relabelAll ρ (l :: ls) = (out, none)) :
    ∃ i o, relabel ρ l.instr = some i ∧ relabelAll ρ ls = (o, none) ∧ out = ⟨l.id, i⟩ :: o := by
  rw [relabelAll] at h
  cases hi : relabel ρ l.instr with
  | none => simp [hi] at h
  | some i =>
    rcases ho : relabelAll ρ ls with ⟨o, e⟩
    simp only [hi, ho, Prod.mk.injEq] at h
    obtain ⟨rfl, rfl⟩ := h
    exact ⟨i, o, rfl, rfl, rfl⟩

theorem numberLabels_spec {y : Option String} {ρ₀ : Renaming} {out' : List Line}
    (h : numberLabels fresh k y ρ₀ ls = (out, ρ, none)) (h' : relabelAll ρ out = (out', none)) :
    Numbered ρ k y (code ls) (code out') := by
  induction ls generalizing k y ρ₀ out out' with
  | nil =>
    simp only [numberLabels, Prod.mk.injEq] at h
    obtain ⟨rfl, rfl, -⟩ := h
    simp only [relabelAll, Prod.mk.injEq] at h'
    obtain ⟨rfl, -⟩ := h'
    exact .nil
  | cons l rest ih =>
    cases hl : l.instr.isLabel with
    | false =>
      rw [numberLabels_cons_of_isLabel hl] at h
      rcases hr : numberLabels fresh k none ρ₀ rest with ⟨o, ρ', e⟩
      simp only [hr, Prod.mk.injEq] at h
      obtain ⟨rfl, rfl, rfl⟩ := h
      obtain ⟨i, o', hi, ho, rfl⟩ := relabelAll_cons h'
      exact .keep hl hi (ih hr ho)
    | true =>
      obtain ⟨x, hx⟩ := eq_label_of_isLabel hl
      rw [code_cons, hx]
      cases y with
      | some y =>
        simp only [numberLabels, hx] at h
        refine .more (fun hn => ?_) (ih h h')
        have hlook := numberLabels_lookup fresh k (some y) (Datum.put x y ρ₀) hn
        rwa [h, lookup_put_self] at hlook
      | none =>
        simp only [numberLabels, hx] at h
        split at h
        · simp at h
        · rcases hr : numberLabels fresh (k + 1) (some ("%.L" ++ toString k)) (Datum.put x ("%.L" ++ toString k) ρ₀) rest
            with ⟨o, ρ', e⟩
          simp only [hr, Prod.mk.injEq] at h
          obtain ⟨rfl, rfl, rfl⟩ := h
          obtain ⟨i, o', hi, ho, rfl⟩ := relabelAll_cons h'
          cases hi
          refine .first (fun hn => ?_) (ih hr ho)
          have hlook := numberLabels_lookup fresh (k + 1) (some ("%.L" ++ toString k))
            (Datum.put x ("%.L" ++ toString k) ρ₀) hn
          rwa [hr, lookup_put_self] at hlook

variable {ρ : Renaming} {k : Nat} {r : Option String} {b b' : List Instr}

theorem Numbered.dropWhile {y : String} (h : Numbered ρ k (some y) b b') :
    Numbered ρ k none (b.dropWhile Instr.isLabel) b' ∧ b'.dropWhile Instr.isLabel = b' := by
  generalize hr : some y = r at h
  induction h with
  | nil => exact ⟨.nil, rfl⟩
  | more hx h ih => exact ih hr
  | first hx h ih => simp at hr
  | keep hi hi' h ih =>
    rw [dropWhile_cons_of_neg (by simp [hi])]
    exact ⟨.keep hi hi' h, dropWhile_cons_of_neg (by simp [isLabel_relabel hi', hi])⟩

section

variable (h : Numbered ρ k r b b')
include h

theorem Numbered.after (hb : (labelNames b).Nodup) (hd : after b x = some d) :
    ∃ z j d', ρ.lookup x = some z ∧ Numbered ρ j none d d' ∧
      ((∃ n, k ≤ n ∧ z = numberName n) ∧ Run.Checked.after b' z = some d' ∨ r = some z ∧ d' = b') := by
  induction h with
  | nil => simp [Run.Checked.after] at hd
  | @more k x' y c c' hx h ih =>
    rw [labelNames_cons_label, nodup_cons] at hb
    by_cases hxx : x' = x
    · subst hxx
      rw [Run.Checked.after, if_pos rfl] at hd
      cases hd
      exact ⟨y, k, c', hx hb.1, h.dropWhile.1, .inr ⟨rfl, rfl⟩⟩
    · rw [after_cons_of_ne (fun h => hxx (Instr.label.inj h))] at hd
      exact ih hb.2 hd
  | @first k x' c c' hx h ih =>
    rw [labelNames_cons_label, nodup_cons] at hb
    have here : Run.Checked.after (.label (numberName k) :: c') (numberName k) = some c' := by
      rw [Run.Checked.after, if_pos rfl, h.dropWhile.2]
    by_cases hxx : x' = x
    · subst hxx
      rw [Run.Checked.after, if_pos rfl] at hd
      cases hd
      exact ⟨_, k + 1, c', hx hb.1, h.dropWhile.1, .inl ⟨⟨k, Nat.le_refl k, rfl⟩, here⟩⟩
    · rw [after_cons_of_ne (fun h => hxx (Instr.label.inj h))] at hd
      obtain ⟨z, j, d', hz, hd', ⟨⟨n, hn, rfl⟩, ha⟩ | ⟨hz', rfl⟩⟩ := ih hb.2 hd
      · refine ⟨_, j, d', hz, hd', .inl ⟨⟨n, by omega, rfl⟩, ?_⟩⟩
        rwa [after_cons_of_ne]
        intro he
        have := append_toString_inj.1 (Instr.label.inj he)
        omega
      · cases hz'
        exact ⟨_, j, _, hz, hd', .inl ⟨⟨k, Nat.le_refl k, rfl⟩, here⟩⟩
  | @keep k r i i' c c' hi hi' h ih =>
    rw [labelNames_cons_of_isLabel hi] at hb
    rw [after_cons_of_ne (ne_label_of_isLabel hi x)] at hd
    obtain ⟨z, j, d', hz, hd', ⟨hn, ha⟩ | ⟨hz', -⟩⟩ := ih hb hd
    · refine ⟨z, j, d', hz, hd', .inl ⟨hn, ?_⟩⟩
      rwa [after_cons_of_ne (ne_label_of_isLabel ((isLabel_relabel hi').trans hi) z)]
    · cases hz'

def labelRuns : Bool → List Instr → Nat
  | _, [] => 0
  | r, i :: b => (if i.isLabel && !r then 1 else 0) + labelRuns i.isLabel b

theorem Numbered.labels : labelNames b' = (List.range' k (labelRuns r.isSome b)).map numberName := by
  induction h with
  | nil => rfl
  | more hx h ih => simpa [labelRuns, Instr.isLabel] using ih
  | first hx h ih =>
    rw [labelNames_cons_label, ih]
    simp [labelRuns, Nat.add_comm 1, List.range'_succ, Instr.isLabel]
  | keep hi hi' h ih =>
    rw [labelNames_cons_of_isLabel ((isLabel_relabel hi').trans hi), ih]
    simp [labelRuns, hi]

theorem Numbered.labels_nodup : (labelNames b').Nodup := by
  rw [h.labels]
  exact (nodup_range' 1).map fun i j h => append_toString_inj.1 h

theorem Numbered.mem (hi : i' ∈ b') :
    i'.isLabel ∨ ∃ i ∈ b, i.isLabel = false ∧ relabel ρ i = some i' := by
  induction h with
  | nil => simp at hi
  | more _ _ ih => grind
  | first _ _ ih =>
    rcases mem_cons.1 hi with rfl | hi
    · exact .inl rfl
    · grind
  | keep hi' hr _ ih =>
    rcases mem_cons.1 hi with rfl | hi
    · exact .inr ⟨_, mem_cons_self, hi', hr⟩
    · grind

theorem Numbered.lastCode_rel :
    Option.Rel (fun i i' => relabel ρ i = some i') (lastCode b) (lastCode b') := by
  induction h with
  | nil => exact .none
  | more _ _ ih | first _ _ ih => exact ih
  | @keep _ _ i i' c c' hi hr h ih =>
    rw [lastCode_cons_of_isLabel hi, lastCode_cons_of_isLabel ((isLabel_relabel hr).trans hi)]
    generalize lastCode c = last, lastCode c' = last' at ih
    cases ih with
    | none => exact .some hr
    | some hj => exact .some hj

theorem Numbered.endsFinal (hb : EndsFinal b) : EndsFinal b' := by
  obtain ⟨i, hi, hf⟩ := hb
  have hl := h.lastCode_rel
  rw [hi] at hl
  generalize hi' : lastCode b' = j at hl
  cases hl with
  | some hr => exact ⟨_, hi', (isFinal_relabel hr).trans hf⟩

end

theorem Numbered.jumps (h : Numbered ρ k none b b') (hb : (labelNames b).Nodup) (hd : Run.Checked.after b l = some d) :
    ∃ j d', Run.Checked.after b' (ρ.apply l) = some d' ∧ Numbered ρ j none d d' := by
  obtain ⟨z, j, d', hz, hd', ⟨-, ha⟩ | ⟨hn, -⟩⟩ := h.after hb hd
  · exact ⟨j, d', by simpa [Renaming.apply, hz] using ha, hd'⟩
  · cases hn

section

variable (hb : Sound b) (hρ : ∀ i ∈ b, ∀ y ∈ lastRead? i, ρ.lookup y = none)
include hb hρ

theorem Numbered.sound (h : Numbered ρ k none b b') : Sound b' := by
  refine ⟨fun i' hi' => ?_, h.labels_nodup, fun i' hi' l hil => ?_, h.endsFinal hb.ends⟩
  · rcases h.mem hi' with hl | ⟨i, hi, -, hr⟩
    · obtain ⟨x, rfl⟩ := eq_label_of_isLabel hl
      rfl
    · exact (isPhi_relabel hr).trans (hb.phiFree i hi)
  · rcases h.mem hi' with hl | ⟨i, hi, -, hr⟩
    · obtain ⟨x, rfl⟩ := eq_label_of_isLabel hl
      cases hil
    · rw [relabel_eq_retarget hr (hb.phiFree i hi) (hρ i hi)] at hil
      obtain ⟨l₀, hl₀, rfl⟩ : ∃ l₀ ∈ i.target?, ρ.apply l₀ = l := by
        cases i <;> simp_all [Instr.retarget, Instr.target?]
      obtain ⟨d, hd, hne⟩ := hb.jumps i hi l₀ hl₀
      obtain ⟨j, d', hd', h'⟩ := h.jumps hb.labels hd
      exact ⟨d', hd', by cases h' <;> simp_all⟩

theorem Numbered.sameCode (h : Numbered ρ 0 none b b') : SameCode b b' := by
  let R := fun n c c' => c.length = n ∧ c ⊆ b ∧ ∃ k r, Numbered ρ k r c c'
  have hjump : ∀ l d, Run.Checked.after b l = some d → ∃ d', Run.Checked.after b' (ρ.apply l) = some d' ∧ ∃ n, R n d d' := by
    intro l d hd
    obtain ⟨j, d', hd', h'⟩ := h.jumps hb.labels hd
    exact ⟨d', hd', _, rfl, (after_suffix hd).subset, j, none, h'⟩
  refine ⟨hb.labels, h.labels_nodup, R, ?_, _, rfl, List.Subset.refl b, 0, none, h⟩
  rintro n c c' ⟨hn, hc, k, r, h⟩
  cases h with
  | nil => exact .inr (.inr .ended)
  | more hx h =>
    -- A label that was joined to the one before it is passed by the old code alone.
    exact .inl ⟨_, n - 1, by simp at hn; omega, .label, by simp at hn; omega, (cons_subset.1 hc).2, k, _, h⟩
  | first hx h => exact .inr (.inr (.label ⟨_, rfl, (cons_subset.1 hc).2, k + 1, _, h⟩))
  | @keep _ _ i i' c c' hi hr h =>
    obtain ⟨hib, hcb⟩ := cons_subset.1 hc
    rw [relabel_eq_retarget hr (hb.phiFree i hib) (hρ i hib)]
    exact .inr (.inr (pairs_retarget hb hjump hib hi fun _ => ⟨_, rfl, hcb, k, none, h⟩))

end

end Numbered

section Guarded

def Guarded (b : List Instr) : Prop := b.IsChain fun i j => j.isLabel = true → isFinal i = true

def Walled (b : List Instr) : Prop := b.IsChain fun i j => j.isLabel = true → i.isLabel = true ∨ isFinal i = true

theorem ExplicitJumps.head (h : ExplicitJumps b b') : b'.head? = b.head? := by
  cases h <;> rfl

theorem ExplicitJumps.walled (h : ExplicitJumps b b') : Walled b' := by
  induction h with
  | nil => exact .nil
  | keep hi h ih =>
    refine ih.cons fun j hj hl => ?_
    rw [h.head] at hj
    rcases hi with hi | hi | hi
    · exact .inl hi
    · exact .inr hi
    · simp [hi j hj] at hl
  | jump hi hf h ih => exact (ih.cons fun j _ _ => .inr rfl).cons fun j hj hl => by cases hj; cases hl

theorem Numbered.guarded {r : Option String} (h : Numbered ρ k r b b') (hb : Walled b) : Guarded b' := by
  induction h with
  | nil => exact .nil
  | more hx h ih => exact ih hb.tail
  | @first k x c c' hx h ih =>
    refine (ih hb.tail).cons fun j hj hl => ?_
    cases c' with
    | nil => cases hj
    | cons i c' =>
      cases hj
      have hd := h.dropWhile.2
      rw [dropWhile_cons_of_pos hl] at hd
      have := (dropWhile_suffix (l := c') Instr.isLabel).length_le
      simp only [hd, length_cons] at this
      omega
  | @keep k r i i' c c' hi hr h ih =>
    refine (ih hb.tail).cons fun j hj hl => ?_
    rw [isFinal_relabel hr]
    cases h with
    | nil => cases hj
    | first hx h =>
      have := hb.rel_head? rfl rfl
      simpa [hi] using this
    | keep hj' hr' h =>
      cases hj
      simp [isLabel_relabel hr', hj'] at hl

end Guarded

theorem normalizeLabels_spec {taken : Nat} (h : normalizeLabels taken ls = (out, none)) :
    ∃ ρ, Numbered ρ 0 none (code ls) (code out) ∧ ∀ x, x ∉ labelNames (code ls) → ρ.lookup x = none := by
  rw [normalizeLabels] at h
  rcases hn : numberLabels (freshId taken ls) 0 none [] ls with ⟨o, ρ, _ | e⟩
  · rw [hn] at h
    refine ⟨ρ, numberLabels_spec hn h, fun x hx => ?_⟩
    have hlook := numberLabels_lookup (freshId taken ls) 0 none [] hx
    rwa [hn] at hlook
  · simp [hn] at h

theorem canonical_spec {taken : Nat} {lines : List Line} (h : canonical taken name lines = (out, none)) :
    ∃ b₁ b₂ ρ, AdminLabels name 0 false (code lines) b₁ ∧ ExplicitJumps b₁ b₂ ∧ Numbered ρ 0 none b₂ (code out) ∧
      ∀ x, x ∉ labelNames b₂ → ρ.lookup x = none := by
  rw [canonical] at h
  rcases h₁ : addAdminLabels taken name lines with ⟨o₁, _ | e⟩
  · rw [h₁] at h
    obtain ⟨ρ, hρ⟩ := normalizeLabels_spec h
    exact ⟨_, _, ρ, adminLabels_spec h₁, explicitJumps_spec _ _, hρ⟩
  · simp [h₁] at h

end Bx.Flow
