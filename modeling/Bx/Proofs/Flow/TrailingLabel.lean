import Bx.Proofs.Flow.Inferred
import Bx.Proofs.Flow.Liveness
import Mathlib

namespace Bx.Flow

open List Tac Run.Checked

variable {ρ : Renaming} {i : Instr} {k : Nat} {r q : Bool} {b b' : List Instr} {name : String} {bs : List Block}

def Trailing (r q : Bool) (b : List Instr) : Prop :=
  b.getLast?.elim q Instr.isLabel = true ∨ b.getLast?.any isFinal = true ∧ b.dropLast.getLast?.elim r isConditional = true

theorem trailing_cons : Trailing r q (i :: b) ↔ Trailing (isConditional i) (i.isLabel || (r && isFinal i)) b := by
  cases b with
  | nil => simp [Trailing, and_comm]
  | cons c b =>
    rw [Trailing, Trailing, dropLast_cons_cons, List.getLast?_cons_cons, getLast?_cons_elim, getLast?_cons_elim,
      getLast?_cons_elim]

theorem trailing_iff : Trailing false false b ↔
    (∃ l, b.getLast? = some (.label l)) ∨ ∃ a i j, b = a ++ [i, j] ∧ isConditional i ∧ isFinal j := by
  rw [Trailing]
  rcases eq_nil_or_concat b with rfl | ⟨b, j, rfl⟩
  · simp
  · rw [concat_eq_append, List.getLast?_concat, dropLast_concat]
    refine or_congr ⟨fun h => ?_, ?_⟩ ⟨fun h => ?_, ?_⟩
    · obtain ⟨l, rfl⟩ := eq_label_of_isLabel h
      exact ⟨l, rfl⟩
    · rintro ⟨l, h⟩
      cases h
      rfl
    · rcases eq_nil_or_concat b with rfl | ⟨a, i, rfl⟩
      · cases h.2
      · rw [concat_eq_append, List.getLast?_concat] at h
        exact ⟨a, i, j, by simp, h.2, h.1⟩
    · rintro ⟨a, i, j', h, hi, hj⟩
      obtain ⟨rfl, hjj⟩ := append_inj' (h.trans (append_assoc a [i] [j']).symm) rfl
      cases hjj
      exact ⟨hj, by simpa using hi⟩

theorem AdminLabels.trailing (h : AdminLabels name k r b b') : b'.getLast?.elim q Instr.isLabel ↔ Trailing r q b := by
  induction h generalizing q with
  | nil => simp [Trailing]
  | branch hi h ih =>
    rw [getLast?_cons_elim, trailing_cons, ih, isLabel_of_isConditional hi, hi, isFinal_of_isConditional hi, Bool.and_false,
      Bool.or_false]
  | keep hi h ih => rw [getLast?_cons_elim, trailing_cons, ih, hi, Bool.false_and, Bool.or_false]
  | @behind k i c c' hi h ih =>
    have hc : isConditional i = false := by
      cases i <;> simp_all [isFinal, isConditional]
    rw [getLast?_cons_elim, getLast?_cons_elim, trailing_cons, ih, hc, hi, Bool.true_and, Bool.or_true]
    rfl
  | before hi h ih =>
    rw [isEnder, Bool.or_eq_false_iff] at hi
    rw [getLast?_cons_elim, getLast?_cons_elim, trailing_cons, ih, hi.1, hi.2, Bool.and_false, Bool.or_false]

theorem ExplicitJumps.getLast? (h : ExplicitJumps b b') : b'.getLast? = b.getLast? := by
  induction h with
  | nil => rfl
  | keep hi h ih => rw [List.getLast?_cons, List.getLast?_cons, ih]
  | jump hi hf h ih => simp [List.getLast?_cons, ih]

theorem Numbered.trailing {r : Option String} (h : Numbered ρ k r b b') :
    b'.getLast?.elim r.isSome Instr.isLabel = b.getLast?.elim r.isSome Instr.isLabel := by
  induction h with
  | nil => rfl
  | more hx h ih =>
    rw [getLast?_cons_elim]
    exact ih
  | first hx h ih =>
    rw [getLast?_cons_elim, getLast?_cons_elim]
    exact ih
  | keep hi hr h ih =>
    rw [getLast?_cons_elim, getLast?_cons_elim, isLabel_relabel hr, hi]
    exact ih

theorem canonical_trailing {taken : Nat} {lines out : List Line} (h : canonical taken name lines = (out, none)) :
    (code out).getLast?.elim false Instr.isLabel ↔ Trailing false false (code lines) := by
  obtain ⟨b₁, b₂, ρ, h₁, h₂, h₃, -⟩ := canonical_spec h
  have hnumber := h₃.trailing
  rw [Option.isSome_none] at hnumber
  rw [hnumber, h₂.getLast?, h₁.trailing]

theorem exists_lines_eq_nil (hg : Guarded (bs.flatMap Block.instrs)) (hcut : ∀ b ∈ bs, b.Cut) :
    (∃ b ∈ bs, b.lines = []) ↔ (bs.flatMap Block.instrs).getLast?.elim false Instr.isLabel := by
  constructor
  · rintro ⟨b, hb, hnil⟩
    obtain ⟨as, cs, rfl⟩ := append_of_mem hb
    obtain rfl := eq_nil_of_guarded hg hnil
    rw [flatMap_append, flatMap_singleton, Block.instrs, hnil, code_nil, List.getLast?_concat]
    rfl
  · rcases eq_nil_or_concat bs with rfl | ⟨as, b, rfl⟩
    · intro h
      cases h
    · rw [concat_eq_append] at hcut ⊢
      intro h
      refine ⟨b, mem_append_right _ (mem_singleton_self b), ?_⟩
      rcases eq_nil_or_concat b.lines with hnil | ⟨ls, l, hl⟩
      · exact hnil
      · have hlast : b.instrs.getLast? = some l.instr := by
          rw [Block.instrs, List.getLast?_cons, code, List.getLast?_map, hl, concat_eq_append, List.getLast?_concat]
          rfl
        have hlabel : l.instr.isLabel = false :=
          (hcut b (mem_append_right _ (mem_singleton_self b))).isLabel_eq (by simp [hl])
        rw [flatMap_append, flatMap_singleton, List.getLast?_append, hlast, Option.some_or] at h
        simp [hlabel] at h

/-- Just for code that ends with a label, or with a conditional jump and a jump or return right behind it. -/
theorem liveness_fails_iff {p : Proc Instr} {u : Routine} (hp : ∀ i ∈ p.body, i.isPhi = false) (hu : inferProc p = .ok u) :
    (∃ e, liveness u.graph = .error e) ↔ (∃ l, p.body.getLast? = some (.label l)) ∨
      ∃ a i j, p.body = a ++ [i, j] ∧ isConditional i = true ∧ isFinal j = true := by
  have hphi := inferProc_phiFree hp hu
  obtain ⟨out, ho, rfl⟩ := inferProc_eq_ok hu
  obtain ⟨hc, hcut, entry, bs, hbs, hof, -⟩ := infer_blocks ho
  have hguard := canonical_guarded hc
  obtain ⟨hcode, hall, -⟩ := blocksOf_spec hbs hguard
  have hempty : (∃ e, liveness u.graph = .error e) ↔ ∃ b ∈ bs, b.lines = [] := by
    have hblocks : (∃ b ∈ bs, b.lines = []) ↔ ∃ e ∈ u.graph.blocks, e.2.lines = [] := by simp [hof.blocks]
    rw [hblocks]
    constructor
    · rintro ⟨f, hf⟩
      by_contra hne
      obtain ⟨v, hv⟩ := exists_liveness hphi hcut fun e he hnil => hne ⟨e, he, hnil⟩
      rw [hf] at hv
      cases hv
    · rintro ⟨e, he, hnil⟩
      rcases hv : liveness u.graph with f | v
      · exact ⟨f, rfl⟩
      · obtain ⟨ps, -, hps, -⟩ := liveness_eq_ok hv
        exact absurd hnil (lines_ne_nil_of_pairs hps he)
  rw [hempty, exists_lines_eq_nil (hcode ▸ hguard) fun b hb => (hall b hb).2, ← hcode, canonical_trailing hc, code_linesOf,
    trailing_iff]

/-- A loop that is left by returning right behind its conditional jump. -/
theorem liveness_fails_of_return :
    ∃ p u, inferProc p = .ok u ∧ p.body = [.label "%.La", .jcc .nz "%x" "%.La", .ret none] ∧ ∃ e, liveness u.graph = .error e := by
  obtain ⟨p, u, hu, hb⟩ : ∃ p u, inferProc p = .ok u ∧ p.body = [.label "%.La", .jcc .nz "%x" "%.La", .ret none] :=
    ⟨⟨"@main", [.str "%x"], [.label "%.La", .jcc .nz "%x" "%.La", .ret none]⟩, _, by cbv, rfl⟩
  refine ⟨p, u, hu, hb, (liveness_fails_iff ?_ hu).2 (.inr ?_)⟩
  · rw [hb]
    decide
  · exact ⟨[.label "%.La"], _, _, hb, rfl, rfl⟩

end Bx.Flow
