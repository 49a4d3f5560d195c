import Bx.Proofs.Basic
import Bx.Proofs.Parser.Runs
import Mathlib.Data.List.Induction

open List

namespace Bx.Lalr

theorem Table.mem_defaulted? {t : Table} {ds : List (Nat × Nat)} (h : t.defaulted? = some ds) {k n : Nat} (hk : (k, n) ∈ ds) :
    ∃ a, t.actions[k]? = some [(a, .reduce n)] := by
  suffices ∃ a, ([(a, .reduce n)], k) ∈ t.actions.toList.zipIdx by
    obtain ⟨a, ha⟩ := this
    rw [mk_mem_zipIdx_iff_getElem?, Array.getElem?_toList] at ha
    exact ⟨a, ha⟩
  unfold Table.defaulted? at h
  generalize t.actions.toList.zipIdx = rows at h ⊢
  -- from the last row backwards: what is there by then came from the rows before it
  induction rows using List.reverseRecOn generalizing ds with
  | nil =>
    cases h
    cases hk
  | append_singleton rows row ih =>
    rw [foldlM_append, Option.bind_eq_bind, Option.bind_eq_some_iff] at h
    obtain ⟨acc, hacc, h⟩ := h
    have hbefore (hmem : (k, n) ∈ acc) : ∃ a, ([(a, .reduce n)], k) ∈ rows ++ [row] := by
      obtain ⟨a, ha⟩ := ih hmem hacc
      exact ⟨a, mem_append_left _ ha⟩
    obtain ⟨row, j⟩ := row
    rw [foldlM_cons, Option.bind_eq_bind, Option.bind_eq_some_iff] at h
    obtain ⟨acc', hacc', h⟩ := h
    cases h
    dsimp only at hacc'
    split at hacc'
    · cases hacc'
      rcases mem_append.1 hk with hmem | hmem
      · exact hbefore hmem
      · cases mem_singleton.1 hmem
        exact ⟨_, mem_append_right _ mem_cons_self⟩
    · cases hacc'
    · cases hacc'
      exact hbefore hk

end Bx.Lalr

namespace Bx.Parser

open Lalr

theorem Tables.consistent_none : Tables.none.Consistent := by
  intro k n h
  cases h

theorem Tables.ofRules_consistent (tokens : List String) (levels : List Level) (start : String) (rules : List (String × List String)) :
    (Tables.ofRules tokens levels start rules).Consistent := by
  rw [Tables.ofRules]
  split
  · exact consistent_none
  · split
    · next t g m hb =>
        intro k n h a act hact
        cases hd : t.defaulted? with
        | none => simp [hd] at h
        | some ds =>
          simp only [hd, Option.getD_some] at h
          obtain ⟨b, hb⟩ := Table.mem_defaulted? hd (mem_of_lookup h)
          simp only [Tables.action?, hb, Option.getD_some, lookup_cons, lookup_nil] at hact
          split at hact
          · cases hact
          · cases hact
          · next heq =>
              cases hact
              split at heq <;> cases heq
              rfl
    · exact consistent_none

end Bx.Parser
