import Bx.Proofs.Flow.Renumbered
import Bx.Proofs.Flow.Ssa
import Bx.Proofs.Run.Agreement
import Bx.Tac.View
import Mathlib

namespace Bx.Flow

open List Tac Instr

variable {dest op args d : Datum} {i : Instr} {x : String} {f : String → Datum}

theorem isFrozen_assemble (s : String) (dest a b : Datum) : (assemble s dest a b).isFrozen = false := by
  unfold assemble
  split <;> first | rfl | (split <;> rfl)

theorem passes_of_ofParts (h : ofParts dest op args = .ok i) : passes i = true ∧ i.isPhi = false ∨ ∃ d s, i = .phi d s := by
  obtain ⟨r, -, hr⟩ := Record.check_of_ofParts h
  cases hphi : i.isPhi with
  | false =>
    have hs := Record.spells_of_check hr hphi
    rw [Record.check, hs.result, hs.opcode, hs.left, hs.right] at hr
    exact .inl ⟨by rw [passes, hr]; rfl, rfl⟩
  | true =>
    obtain ⟨s, -, -, -, -, -, -, -, -, hi⟩ := ofParts_eq_ok hr
    have hfrozen := hi ▸ isFrozen_assemble s _ _ _
    cases i with
    | phi d s => exact .inr ⟨d, s, rfl⟩
    | frozenPhi => cases hfrozen
    | _ => cases hphi

def others : Instr → List String
  | .label l | .jmp l | .jcc _ _ l => [l]
  | .call _ g _ => [g]
  | _ => []

theorem kinds_of_passes (h : passes i = true) (hphi : i.isPhi = false) :
    (∀ x ∈ i.reads, isVarName x = true) ∧ ∀ x ∈ others i, isGlobalName x = true ∨ isLabelName x = true := by
  cases i with
  | unop o d x =>
    have hk : kinds? (unop o d x).opcode = some (.var, .var, .nothing) := by cases o <;> rfl
    rw [passes_eq _ hk] at h
    simp_all [reads, others, Kind.accepts, operands, Operand.isVar, Datum.string?]
  | copy | call =>
    rw [passes_eq _ rfl] at h
    simp_all [reads, others, Kind.accepts, operands, Operand.isVar, Operand.isGlobal, Datum.string?]
  | ret x =>
    rw [passes_eq _ rfl] at h
    cases x <;> simp_all [reads, others, Kind.accepts, operands, Instr.optional, Operand.isVar, Datum.string?, Datum.isNull]
  | phi | frozenPhi => cases hphi
  | _ => simp_all [reads, others]

theorem mem_names (hphi : i.isPhi = false) : x ∈ i.names ↔ x ∈ i.reads ∨ x ∈ others i := by
  cases i with
  | phi | frozenPhi => cases hphi
  | _ => simp [names, reads, others]

theorem isTempName_eq_false (h : isGlobalName x = true ∨ isLabelName x = true) : isTempName x = false := by
  rw [Bool.eq_false_iff]
  intro ht
  simp only [isTempName, Bool.and_eq_true, Bool.not_eq_true'] at ht
  simp [isGlobalName_of_percent ht.1, ht.2] at h

theorem fixed_of_isVarName (h : isVarName x = true) (ht : isTempName x = false) : isGlobalName x = true ∨ isLabelName x = true := by
  simp only [isVarName, isTempName, isGlobalName, Bool.or_eq_true, Bool.and_eq_false_iff, Bool.not_eq_false'] at *
  grind

section Replaced

def replaced (f : String → Datum) (i : Instr) (d : Datum) : Datum :=
  d.string?.elim d fun x => if .plain x ∈ i.uses then f x else d

theorem replaced_numeral (n : Numeral) : replaced f i n.toDatum = n.toDatum := by
  cases n <;> rfl

variable (hf : ∀ x, isGlobalName x = true ∨ isLabelName x = true → f x = .str x)
include hf

theorem replaced_other (h : isGlobalName x = true ∨ isLabelName x = true) : replaced f i (.str x) = .str x := by
  simp [replaced, Datum.string?, hf x h]

variable (hphi : i.isPhi = false)
include hphi

theorem replaced_read (hx : x ∈ i.reads) (hv : isVarName x = true) : replaced f i (.str x) = f x := by
  cases ht : isTempName x with
  | true => simp [replaced, Datum.string?, uses_eq hphi, (mem_names hphi).2 (.inl hx), ht]
  | false =>
    have hfixed := fixed_of_isVarName hv ht
    rw [replaced_other hf hfixed, hf x hfixed]

theorem onReads_eq (h : passes i = true) :
    i.pieces.onReads f = { i.pieces with first := replaced f i i.pieces.first, second := replaced f i i.pieces.second } := by
  obtain ⟨hreads, hothers⟩ := kinds_of_passes h hphi
  have hread : ∀ x ∈ i.reads, replaced f i (.str x) = f x := fun x hx => replaced_read hf hphi hx (hreads x hx)
  have hother : ∀ x ∈ others i, replaced f i (.str x) = .str x := fun x hx => replaced_other hf (hothers x hx)
  cases i with
  | phi | frozenPhi => cases hphi
  | nop => rfl
  | const _ n | label l | jmp l | copy _ x | param _ x | call _ g n =>
    simp only [reads, others, forall_mem_singleton] at hread hother
    simp only [pieces, operands, replaced_numeral, hread, hother]
    rfl
  | jcc o x l | unop o _ x | binop o _ x y =>
    simp only [reads, others, forall_mem_cons] at hread hother
    simp only [pieces, operands, hread, hother]
    cases o <;> rfl
  | ret x =>
    cases x with
    | none => rfl
    | some x =>
      simp only [pieces, operands, Instr.optional, hread x (by simp [reads])]
      rfl

end Replaced

theorem pieces_renameReads (g : String → String) (i : Instr) : (i.renameReads g).pieces = i.pieces.onReads fun x => .str (g x) := by
  cases i with
  | jcc c => cases c <;> rfl
  | binop o => cases o <;> rfl
  | unop o => cases o <;> rfl
  | const _ n | param n | call _ _ n => cases n <;> rfl
  | ret x => cases x <;> rfl
  | _ => rfl

theorem mem_uses (h : passes i = true) (hphi : i.isPhi = false) :
    (∃ u ∈ i.uses, u.temp = x) ↔ x ∈ i.reads ∧ isTempName x = true := by
  have hothers : x ∈ others i → isTempName x = false := fun hx => isTempName_eq_false ((kinds_of_passes h hphi).2 x hx)
  simp only [uses_eq hphi, mem_map, mem_filter, mem_names hphi]
  constructor
  · rintro ⟨_, ⟨y, ⟨hy, ht⟩, rfl⟩, rfl⟩
    exact ⟨hy.resolve_right fun hx => Bool.false_ne_true ((hothers hx).symm.trans ht), ht⟩
  · rintro ⟨hx, ht⟩
    exact ⟨.plain x, ⟨x, ⟨.inl hx, ht⟩, rfl⟩, rfl⟩

/-- Of every instruction that passes the checks. A function that keeps globals and labels changes, where it is used on what
is read, just the temporaries that are used. -/
theorem uses_agree (h : ofParts dest op args = .ok i) :
    (∀ x, (∃ u ∈ i.uses, u.temp = x) ↔ x ∈ i.reads ∧ isTempName x = true) ∧
    (∀ x, x ∈ i.defs ↔ x ∈ i.writes ∧ isTempName x = true) ∧
    (∀ f : String → Datum, (∀ x, isGlobalName x = true ∨ isLabelName x = true → f x = .str x) →
      i.pieces.onReads f = if i.isPhi then i.pieces
        else { i.pieces with first := replaced f i i.pieces.first, second := replaced f i i.pieces.second }) ∧
    ∀ g : String → String, (i.renameReads g).pieces = i.pieces.onReads fun x => .str (g x) := by
  have hdefs : ∀ x, x ∈ i.defs ↔ x ∈ i.writes ∧ isTempName x = true := fun x => by simp [writes, defs]
  obtain ⟨hi, hphi⟩ | ⟨d, s, rfl⟩ := passes_of_ofParts h
  · refine ⟨fun x => mem_uses hi hphi, hdefs, fun f hf => ?_, fun g => pieces_renameReads g i⟩
    rw [hphi, onReads_eq hf hphi hi]
    rfl
  · exact ⟨fun x => by simp [reads, uses, Use.temp], hdefs, fun _ _ => rfl, fun _ => rfl⟩

theorem uses_agree_testing :
    ofParts .null (.str "jz") (.tuple [.str "%x", .str "%.Lx"]) = .ok (.jcc .z "%x" "%.Lx") ∧
      (∃ u ∈ (jcc .z "%x" "%.Lx").uses, u.temp = "%x") ∧
      (jcc .z "%x" "%.Lx").pieces.onReads (fun x => if x = "%x" then .str "%x.1" else .str x) =
        ⟨"jz", .null, .str "%x.1", .str "%.Lx"⟩ := by
  have h : ofParts .null (.str "jz") (.tuple [.str "%x", .str "%.Lx"]) = .ok (.jcc .z "%x" "%.Lx") :=
    eq_ok_of_toOption (by decide +kernel)
  obtain ⟨huses, -, hrename, -⟩ := uses_agree h
  refine ⟨h, (huses "%x").2 (by decide +kernel), (hrename _ fun x hx => if_neg ?_).trans (by cbv)⟩
  rintro rfl
  revert hx
  decide +kernel

end Bx.Flow
