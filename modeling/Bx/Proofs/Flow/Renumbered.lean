import Bx.Proofs.Flow.Inferred
import Mathlib

namespace Bx.Flow

open List hiding after
open Tac Run.Checked

variable {ρ : Renaming} {i i' : Instr} {k : Nat} {r : Option String} {b b' d : List Instr} {x : String} {ls lines out : List Line}

section Passes

def passes (i : Instr) : Bool :=
  (Instr.ofParts (Instr.optional i.dest) (.str i.opcode) (.tuple [i.operands.1, i.operands.2])).isOk

theorem passes_eq (i : Instr) {k k₁ k₂ : Kind} (hk : Instr.kinds? i.opcode = some (k, k₁, k₂)) :
    passes i = (k.accepts (Instr.optional i.dest) && k₁.accepts i.operands.1 && k₂.accepts i.operands.2) := by
  have h₁ : (Instr.argument (.tuple [i.operands.1, i.operands.2]) 0).mapError LoadError.shape = .ok i.operands.1 := rfl
  have h₂ : (Instr.argument (.tuple [i.operands.1, i.operands.2]) 1).mapError LoadError.shape = .ok i.operands.2 := rfl
  rw [passes, Instr.ofParts, h₁, h₂]
  simp only [ok_bind, Datum.isKey, Datum.string?, Option.bind_some, hk, Option.map_some]
  cases k.accepts (Instr.optional i.dest) <;> cases k₁.accepts i.operands.1 <;> cases k₂.accepts i.operands.2 <;> rfl

@[simp]
theorem passes_label (l : String) : passes (.label l) = isLabelName l :=
  (passes_eq (.label l) rfl).trans (Bool.and_true _)

@[simp]
theorem passes_jmp (l : String) : passes (.jmp l) = isLabelName l :=
  (passes_eq (.jmp l) rfl).trans (Bool.and_true _)

@[simp]
theorem passes_jcc (c : Word.Cond) (x l : String) : passes (.jcc c x l) = (isVarName x && isLabelName l) := by
  have hk : Instr.kinds? (Instr.jcc c x l).opcode = some (.nothing, .var, .label) := by cases c <;> rfl
  exact passes_eq (.jcc c x l) hk

@[simp]
theorem passes_binop (op : Word.Binop) (d x y : String) : passes (.binop op d x y) = (isVarName d && isVarName x && isVarName y) := by
  have hk : Instr.kinds? (Instr.binop op d x y).opcode = some (.var, .var, .var) := by cases op <;> rfl
  exact passes_eq (.binop op d x y) hk

@[simp]
theorem passes_param (n : Numeral) (x : String) : passes (.param n x) = isVarName x := by
  have hn : Kind.int.accepts n.toDatum := by cases n <;> rfl
  rw [passes_eq (.param n x) rfl, Instr.operands, hn]
  rfl

@[simp]
theorem passes_frozenPhi (d : String) (s : List (String × String)) : passes (.frozenPhi d s) = false := by
  have hk : Instr.kinds? (Instr.frozenPhi d s).opcode = some (.var, .phi, .nothing) := rfl
  rw [passes_eq _ hk]
  simp [Kind.accepts, Instr.operands, Operand.isPhiArgs]

theorem isFrozen_of_passes (h : passes i) : i.isFrozen = false := by
  cases i <;> simp_all [Instr.isFrozen]

variable (hρ : ∀ x z, ρ.lookup x = some z → isLabelName z)
include hρ

theorem isLabelName_apply (h : isLabelName x) : isLabelName (ρ.apply x) := by
  rw [Renaming.apply]
  cases hz : ρ.lookup x with
  | none => exact h
  | some z => exact hρ x z hz

theorem isVarName_apply (h : isVarName x) : isVarName (ρ.apply x) := by
  rw [Renaming.apply]
  cases hz : ρ.lookup x with
  | none => exact h
  | some z =>
    have hlabel := hρ x z hz
    simp only [isLabelName, isVarName, Bool.or_eq_true, String.startsWith_string_iff] at hlabel ⊢
    exact .inl ((by decide : "%".toList <+: "%.L".toList).trans hlabel)

theorem passes_relabel (hr : relabel ρ i = some i') (h : passes i) : passes i' = !i.isPhi := by
  cases i with
  | phi d s =>
    cases hr
    exact passes_frozenPhi d _
  | frozenPhi => cases hr
  | jmp l =>
    cases hr
    rw [passes_jmp] at h ⊢
    exact isLabelName_apply hρ h
  | jcc c x l =>
    cases hr
    rw [passes_jcc, Bool.and_eq_true] at h
    rw [passes_jcc, h.1, isLabelName_apply hρ h.2]
    rfl
  | binop op d x y =>
    cases hr
    rw [passes_binop, Bool.and_eq_true] at h
    rw [passes_binop, h.1, isVarName_apply hρ h.2]
    rfl
  | param n x =>
    cases hr
    rw [passes_param] at h ⊢
    exact isVarName_apply hρ h
  | _ =>
    cases hr
    exact h

end Passes

section Renumbered

def behind : List Line → String → Option (List Line)
  | [], _ => none
  | l :: ls, x => if l.instr = .label x then some (unlabelled ls) else behind ls x

/-- Jumps lead to the new names, a phi has its sources under them and is frozen, and anything else is as it was, unless it
reads a name that is a label as well. -/
structure Line.Renamed (f : String → String) (xs : List String) (l l' : Line) : Prop where
  id : l'.id = l.id
  target : l'.instr.target? = l.instr.target?.map f
  sources : ∀ d s, l.instr = .phi d s → l'.instr = .frozenPhi d (s.map fun a => (f a.1, a.2))
  rest : l.instr.isPhi = false → (∀ y ∈ lastRead? l.instr, y ∉ xs) → l'.instr = l.instr.retarget f

/-- One label is left of each run, only labels of the body are renamed, and what stands behind a label stands behind the one
it has become. -/
structure Renumbered (f : String → String) (lines out : List Line) : Prop where
  labels : labelNames (code out) = (List.range (labelRuns false (code lines))).map numberName
  others : ∀ x, x ∉ labelNames (code lines) → f x = x
  each : List.Forall₂ (Line.Renamed f (labelNames (code lines))) (unlabelled lines) (unlabelled out)
  behind : ∀ x ∈ labelNames (code lines), ∃ ls ls', behind lines x = some ls ∧ behind out (f x) = some ls' ∧
    List.Forall₂ (Line.Renamed f (labelNames (code lines))) ls ls'

def unlabelledCode (b : List Instr) : List Instr := b.filter fun i => !i.isLabel

theorem code_unlabelled (ls : List Line) : code (unlabelled ls) = unlabelledCode (code ls) := by
  rw [unlabelledCode, code, code, filter_map]
  rfl

theorem unlabelledCode_dropWhile (b : List Instr) : unlabelledCode (b.dropWhile Instr.isLabel) = unlabelledCode b := by
  induction b with
  | nil => rfl
  | cons i b ih =>
    rw [dropWhile_cons]
    split
    · next hi => rw [ih, unlabelledCode, unlabelledCode, filter_cons_of_neg (by simp [hi])]
    · rfl

theorem exists_behind (h : after (code ls) x = some d) :
    ∃ ms, behind ls x = some ms ∧ ms <:+ unlabelled ls ∧ code ms = unlabelledCode d := by
  induction ls with
  | nil => cases h
  | cons l ls ih =>
    rw [code_cons, after] at h
    rw [behind]
    split at h
    · next hl =>
        cases h
        rw [if_pos hl, unlabelledCode_dropWhile, ← code_unlabelled]
        exact ⟨_, rfl, by rw [unlabelled_cons]; exact suffix_append .., rfl⟩
    · next hl =>
        obtain ⟨ms, hms, hsuffix, hcode⟩ := ih h
        rw [if_neg hl, unlabelled_cons]
        exact ⟨ms, hms, hsuffix.trans (suffix_append ..), hcode⟩

theorem Numbered.forall₂ (h : Numbered ρ k r b b') :
    List.Forall₂ (fun i i' => relabel ρ i = some i') (unlabelledCode b) (unlabelledCode b') := by
  induction h with
  | nil => exact .nil
  | more hx h ih | first hx h ih => exact ih
  | keep hi hr h ih =>
    rw [unlabelledCode, unlabelledCode, filter_cons_of_pos (by simp [hi]),
      filter_cons_of_pos (by simp [isLabel_relabel hr, hi])]
    exact .cons hr ih

theorem renamed_of_code {xs : List String} (hρ : ∀ x, x ∉ xs → ρ.lookup x = none) (hid : out.map Line.id = ls.map Line.id)
    (h : List.Forall₂ (fun i i' => relabel ρ i = some i') (code ls) (code out)) :
    List.Forall₂ (Line.Renamed ρ.apply xs) ls out := by
  induction ls generalizing out with
  | nil =>
    cases map_eq_nil_iff.1 hid
    exact .nil
  | cons l ls ih =>
    obtain ⟨l', out, rfl, hl, hout⟩ := map_eq_cons_iff.1 hid
    cases h with
    | cons hr h =>
      refine .cons ⟨hl, target?_relabel hr, fun d s hs => ?_, fun hp hy => ?_⟩ (ih hout h)
      · simp only [hs] at hr
        exact (Option.some.inj hr).symm
      · exact relabel_eq_retarget hr hp fun y hmem => hρ y (hy y hmem)

theorem eq_of_suffix {α : Type} {as bs cs : List α} (ha : as <:+ cs) (hb : bs <:+ cs) (h : as.length = bs.length) : as = bs :=
  (suffix_of_suffix_length_le ha hb h.le).eq_of_length h

theorem Numbered.renumbered (h : Numbered ρ 0 none (code lines) (code out))
    (hρ : ∀ x, x ∉ labelNames (code lines) → ρ.lookup x = none) (hn : (labelNames (code lines)).Nodup)
    (hids : (unlabelled out).map Line.id = (unlabelled lines).map Line.id) : Renumbered ρ.apply lines out := by
  refine ⟨?_, fun x hx => by simp [Renaming.apply, hρ x hx], ?_, fun x hx => ?_⟩
  · rw [h.labels, range_eq_range']
    rfl
  · refine renamed_of_code hρ hids ?_
    rw [code_unlabelled, code_unlabelled]
    exact h.forall₂
  · obtain ⟨d, hd⟩ := Option.isSome_iff_exists.1 (after_isSome.2 hx)
    obtain ⟨j, d', hd', h'⟩ := h.jumps hn hd
    obtain ⟨ms, hms, hsuffix, hcode⟩ := exists_behind hd
    obtain ⟨ms', hms', hsuffix', hcode'⟩ := exists_behind hd'
    have hall := h'.forall₂
    rw [← hcode, ← hcode'] at hall
    refine ⟨ms, ms', hms, hms', renamed_of_code hρ ?_ hall⟩
    -- Both are what is left of the same identities, and there are as many of them.
    refine eq_of_suffix (hids ▸ hsuffix'.map Line.id) (hsuffix.map Line.id) ?_
    simpa [code] using hall.length_eq.symm

theorem Numbered.passes_iff (h : Numbered ρ k none b b') (hρ : ∀ x, x ∉ labelNames b → ρ.lookup x = none)
    (hv : ∀ i ∈ b, passes i) : (∀ i ∈ b', passes i) ↔ ∀ i ∈ b, i.isPhi = false := by
  have hlabels : ∀ x z, ρ.lookup x = some z → isLabelName z := by
    intro x z hz
    by_cases hx : x ∈ labelNames b
    · obtain ⟨z', hz', hr | hmem⟩ := h.lookup_mem hx
      · cases hr
      · rw [hz] at hz'
        cases hz'
        exact h.named hmem
    · rw [hρ x hx] at hz
      cases hz
  constructor
  · intro hall i hi
    cases hl : i.isLabel with
    | true =>
      obtain ⟨x, rfl⟩ := eq_label_of_isLabel hl
      rfl
    | false =>
      obtain ⟨i', hi', hr⟩ := forall₂_exists_right h.forall₂ (mem_filter.2 ⟨hi, by simp [hl]⟩)
      have hp := passes_relabel hlabels hr (hv i hi)
      rw [hall i' (mem_filter.1 hi').1] at hp
      simpa using hp.symm
  · intro hall i' hi'
    rcases h.mem hi' with hl | ⟨i, hi, -, hr⟩
    · obtain ⟨x, rfl⟩ := eq_label_of_isLabel hl
      rw [passes_label]
      exact h.named (mem_filterMap.2 ⟨_, hi', rfl⟩)
    · rw [passes_relabel hlabels hr (hv i hi), hall i hi]
      rfl

/-- Numbering the labels of instructions that pass never fails and keeps where jumps lead and what phis are made of. The new
body passes just if it has no phi, and jumps that led nowhere still do just if none was to the name of a new label. -/
theorem normalizeLabels_renumbers {lines : List Line} (taken : Nat) (hv : ∀ i ∈ code lines, passes i = true)
    (hn : (labelNames (code lines)).Nodup) :
    ∃ out f, normalizeLabels taken lines = (out, none) ∧ Renumbered f lines out ∧
      ((∀ i ∈ code out, passes i = true) ↔ ∀ i ∈ code lines, i.isPhi = false) ∧
      ((∀ i ∈ code lines, ∀ x ∈ i.target?, x ∉ labelNames (code lines) → f x ∉ labelNames (code out)) ↔
        ∀ i ∈ code lines, ∀ x ∈ i.target?, x ∉ labelNames (code lines) → ∀ k < labelRuns false (code lines), x ≠ numberName k) := by
  obtain ⟨out, h⟩ := exists_normalizeLabels hn (fun i hi => isFrozen_of_passes (hv i hi)) taken
  obtain ⟨ρ, hnum, hρ⟩ := normalizeLabels_spec h
  have hren := hnum.renumbered hρ hn (map_id_normalizeLabels h)
  refine ⟨out, ρ.apply, h, hren, hnum.passes_iff hρ hv, ?_⟩
  refine forall₂_congr fun i hi => forall₂_congr fun x hx => forall_congr' fun hnot => ?_
  rw [hren.others x hnot, hren.labels]
  simp [eq_comm]

def twinned : List Instr :=
  [.label "%.La", .label "%.L1", .phi "%x" [("%.L1", "%y")], .jcc .z "%x" "%.La", .label "%.L0", .jmp "%.L9"]

theorem normalizeLabels_renumbers_twinned : (∀ i ∈ twinned, passes i = true) ∧ (labelNames twinned).Nodup ∧
    ∃ out f, normalizeLabels 6 (linesOf twinned) = (out, none) ∧ Renumbered f (linesOf twinned) out ∧
      (∃ i ∈ code out, passes i = false) ∧ f "%.L9" ∉ labelNames (code out) := by
  have hv : ∀ i ∈ twinned, passes i = true := by decide +kernel
  have hn : (labelNames twinned).Nodup := by decide
  have hcode := code_linesOf twinned
  obtain ⟨out, f, h, hren, hpass, htarget⟩ := normalizeLabels_renumbers 6 (hcode.symm ▸ hv) (hcode.symm ▸ hn)
  rw [hcode] at hpass htarget
  refine ⟨hv, hn, out, f, h, hren, ?_, ?_⟩
  · by_contra hne
    have := hpass.1 fun i hi => by simpa using fun hi' => hne ⟨i, hi, hi'⟩
    exact absurd this (by decide)
  · refine htarget.2 ?_ (.jmp "%.L9") (by decide) "%.L9" rfl (by decide)
    decide +kernel

/-- A phi that does not pass any more, and a jump that led nowhere and leads to itself. -/
theorem normalizeLabels_caught : ∃ b out, (∀ i ∈ b, passes i = true) ∧ (labelNames b).Nodup ∧ "%.L0" ∉ labelNames b ∧
    .jmp "%.L0" ∈ b ∧ normalizeLabels 3 (linesOf b) = (out, none) ∧ (∃ i ∈ code out, passes i = false) ∧
    .jmp "%.L0" ∈ code out ∧ "%.L0" ∈ labelNames (code out) :=
  ⟨[.label "%.La", .phi "%x" [("%.La", "%y")], .jmp "%.L0"],
    [⟨3, .label "%.L0"⟩, ⟨1, .frozenPhi "%x" [("%.L0", "%y")]⟩, ⟨2, .jmp "%.L0"⟩], by decide +kernel, by decide, by decide,
    by decide, by cbv, ⟨_, .tail _ (.head _), passes_frozenPhi _ _⟩, by decide, by decide⟩

end Renumbered

end Bx.Flow
