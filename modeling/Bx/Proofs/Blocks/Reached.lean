import Bx.Proofs.Blocks.Wiring

namespace Bx.Blocks

open List hiding after
open Tac Run.Loose

variable {x : String} {b : Block} {fuel : Nat}

theorem has_str {seen : LabelSet} : seen.has (.str x) ↔ .str x ∈ seen := by
  simp [LabelSet.has, same_str]

section Walk

variable {ls : List Line} {blocks : List (Label × Block)} {seen seen' seen'' : LabelSet} {bs cs : List Block}

/-- Blocks that were not seen before are met, each once, and all their successors are seen. -/
structure Met (ls : List Line) (blocks : List (Label × Block)) (seen : LabelSet) (bs : List Block) (seen' : LabelSet) : Prop where
  stored : ∀ b ∈ bs, ∃ x, Stored ls blocks x b
  nodup : (bs.map Block.label).Nodup
  fresh : ∀ b ∈ bs, b.label ∉ seen
  mem_seen : ∀ t, t ∈ seen' ↔ t ∈ seen ∨ t ∈ bs.map Block.label
  succs : ∀ b ∈ bs, ∀ t ∈ b.succs, t ∈ seen'

namespace Met

theorem nil : Met ls blocks seen [] seen := ⟨by simp, by simp, by simp, by simp, by simp⟩

theorem subset (h : Met ls blocks seen bs seen') : seen ⊆ seen' := fun t ht => (h.mem_seen t).2 (.inl ht)

theorem append (h : Met ls blocks seen bs seen') (h' : Met ls blocks seen' cs seen'') : Met ls blocks seen (bs ++ cs) seen'' := by
  refine ⟨?_, ?_, ?_, fun t => ?_, ?_⟩
  · exact forall_mem_append.2 ⟨h.stored, h'.stored⟩
  · rw [map_append, nodup_append]
    refine ⟨h.nodup, h'.nodup, ?_⟩
    rintro t ht _ ht' rfl
    obtain ⟨c, hc, rfl⟩ := mem_map.1 ht'
    exact h'.fresh c hc ((h.mem_seen _).2 (.inr ht))
  · exact forall_mem_append.2 ⟨h.fresh, fun c hc hmem => h'.fresh c hc (h.subset hmem)⟩
  · rw [h'.mem_seen, h.mem_seen, map_append, mem_append, or_assoc]
  · exact forall_mem_append.2 ⟨fun b hb t ht => h'.subset (h.succs b hb t ht), h'.succs⟩

theorem cons (hb : Stored ls blocks x b) (hx : .str x ∉ seen) (h : Met ls blocks (seen.insert (.str x)) bs seen')
    (hs : ∀ t ∈ b.succs, t ∈ seen') : Met ls blocks seen (b :: bs) seen' := by
  have hfresh : ∀ c ∈ bs, c.label ≠ .str x ∧ c.label ∉ seen := by
    intro c hc
    have hnew := h.fresh c hc
    rwa [mem_insert_str, not_or] at hnew
  refine ⟨forall_mem_cons.2 ⟨⟨x, hb⟩, h.stored⟩, ?_, ?_, fun t => ?_, forall_mem_cons.2 ⟨hs, h.succs⟩⟩
  · refine nodup_cons.2 ⟨fun hmem => ?_, h.nodup⟩
    obtain ⟨c, hc, he⟩ := mem_map.1 hmem
    exact (hfresh c hc).1 (he.trans hb.label)
  · exact forall_mem_cons.2 ⟨hb.label ▸ hx, fun c hc => (hfresh c hc).2⟩
  · rw [h.mem_seen, mem_insert_str, map_cons, mem_cons, hb.label]
    tauto

end Met

def Enough (names : List String) (seen : LabelSet) (fuel : Nat) : Prop :=
  ∀ xs : List String, xs.Nodup → (∀ x ∈ xs, x ∈ names ∧ .str x ∉ seen) → xs.length ≤ fuel

theorem Enough.mono {names : List String} (h : Enough names seen fuel) (hsub : seen ⊆ seen') : Enough names seen' fuel :=
  fun xs hn hxs => h xs hn fun x hx => ⟨(hxs x hx).1, fun hmem => (hxs x hx).2 (hsub hmem)⟩

theorem Enough.insert {names : List String} (h : Enough names seen (fuel + 1)) (hx : x ∈ names) (hseen : .str x ∉ seen) :
    Enough names (seen.insert (.str x)) fuel := by
  intro xs hn hxs
  simp only [mem_insert_str, not_or, Datum.str.injEq] at hxs
  have hlen := h (x :: xs) (nodup_cons.2 ⟨fun hmem => (hxs x hmem).2.1 rfl, hn⟩)
    (forall_mem_cons.2 ⟨⟨hx, hseen⟩, fun y hy => ⟨(hxs y hy).1, (hxs y hy).2.2⟩⟩)
  simpa using hlen

def Walks (ls : List Line) (blocks : List (Label × Block)) (fuel : Nat) : Prop :=
  ∀ ⦃seen x⦄, x ∈ labelNames (code ls) → Enough (labelNames (code ls)) seen fuel →
    ∃ bs seen', visit blocks fuel seen (.str x) = .ok (bs, seen') ∧ Met ls blocks seen bs seen' ∧ .str x ∈ seen'

theorem Walks.visitAll (hv : Walks ls blocks fuel) {todo : LabelSet} (ht : ∀ t ∈ todo, ∃ y ∈ labelNames (code ls), t = .str y)
    (he : Enough (labelNames (code ls)) seen fuel) :
    ∃ bs seen', visitAll blocks fuel seen todo = .ok (bs, seen') ∧ Met ls blocks seen bs seen' ∧ ∀ t ∈ todo, t ∈ seen' := by
  induction todo generalizing seen with
  | nil => exact ⟨[], seen, by rw [Blocks.visitAll], .nil, by simp⟩
  | cons t todo ih =>
    rw [forall_mem_cons] at ht
    obtain ⟨⟨y, hy, rfl⟩, ht⟩ := ht
    obtain ⟨bs, seen₁, hbs, hmet, hseen⟩ := hv hy he
    obtain ⟨cs, seen₂, hcs, hmet', hall⟩ := ih ht (he.mono hmet.subset)
    refine ⟨bs ++ cs, seen₂, ?_, hmet.append hmet', forall_mem_cons.2 ⟨hmet'.subset hseen, hall⟩⟩
    rw [Blocks.visitAll]
    simp only [hbs, hcs, ok_bind]
    rfl

theorem Wired.walks (hw : Wired ls blocks) (fuel : Nat) : Walks ls blocks fuel := by
  induction fuel with
  | zero =>
    intro seen x hx he
    have hseen : .str x ∈ seen := by
      by_contra hseen
      have hlen := he [x] (nodup_singleton x) (by simpa using ⟨hx, hseen⟩)
      simp at hlen
    exact ⟨[], seen, by rw [visit, if_pos (has_str.2 hseen)], .nil, hseen⟩
  | succ fuel ih =>
    intro seen x hx he
    by_cases hseen : .str x ∈ seen
    · exact ⟨[], seen, by rw [visit, if_pos (has_str.2 hseen)], .nil, hseen⟩
    · obtain ⟨b, hb⟩ := hw x hx
      obtain ⟨bs, seen', hbs, hmet, hall⟩ := Walks.visitAll ih hb.succs (he.insert hx hseen)
      refine ⟨b :: bs, seen', ?_, .cons hb hseen hmet hall, hmet.subset (mem_insert_str.2 (.inl rfl))⟩
      rw [visit, if_neg (by rwa [has_str])]
      simp only [hb.found, hbs, ok_bind]
      rfl

/-- Blocks of some code, with all their successors. -/
structure Laid (ls : List Line) (blocks : List (Label × Block)) (bs : List Block) : Prop where
  stored : ∀ b ∈ bs, ∃ x, Stored ls blocks x b
  nodup : (bs.map Block.label).Nodup
  succs : ∀ b ∈ bs, ∀ t ∈ b.succs, t ∈ bs.map Block.label

theorem Wired.reached (hw : Wired ls blocks) (hn : (labelNames (code ls)).Nodup) (hx : x ∈ labelNames (code ls)) (name : String) :
    ∃ b bs, reached ⟨name, .str x, blocks⟩ = .ok (b :: bs) ∧ Stored ls blocks x b ∧ Laid ls blocks (b :: bs) := by
  obtain ⟨b, hb⟩ := hw x hx
  have henough : Enough (labelNames (code ls)) [.str x] blocks.length := fun xs hxs hmem =>
    ((List.Nodup.subperm hxs fun y hy => (hmem y hy).1).length_le).trans (hw.length_le hn)
  obtain ⟨bs, seen, hbs, hmet, hall⟩ := (hw.walks _).visitAll hb.succs henough
  have hlaid : Met ls blocks [] (b :: bs) seen := .cons hb (by simp) hmet hall
  refine ⟨b, bs, ?_, hb, hlaid.stored, hlaid.nodup, fun c hc t ht => ?_⟩
  · simp only [Blocks.reached, hb.found, hbs, ok_bind]
    rfl
  · exact ((hlaid.mem_seen t).1 (hlaid.succs c hc t ht)).resolve_left (by simp)

end Walk

namespace Laid

variable {ls : List Line} {blocks : List (Label × Block)} {bs : List Block} (h : Laid ls blocks bs)
include h

theorem subset : bs.flatMap Block.lines ⊆ ls := by
  intro l hl
  obtain ⟨b, hb, hl⟩ := mem_flatMap.1 hl
  obtain ⟨x, hx⟩ := h.stored b hb
  obtain ⟨rest, hrest⟩ := hx.stands
  exact hrest.subset (mem_append_left _ hl)

variable (hc : Complete ls)
include hc

theorem labelNames_eq : (labelNames (code (bs.flatMap Block.lines))).map Datum.str = bs.map Block.label := by
  have hstored := h.stored
  clear h
  induction bs with
  | nil => rfl
  | cons b bs ih =>
    rw [forall_mem_cons] at hstored
    obtain ⟨⟨x, hx⟩, hstored⟩ := hstored
    obtain ⟨rest, hrest⟩ := hx.stands
    have hflush : b.lines.IsChain Flush := hc.flush.infix ((prefix_append _ _).isInfix.trans hrest.isInfix)
    rw [flatMap_cons, code_append, labelNames_append, hx.segment.labelNames_eq hflush hx.begins, map_append, ih hstored]
    exact congrArg (· :: bs.map Block.label) hx.label.symm

theorem labelled : Labelled (code (bs.flatMap Block.lines)) := by
  refine ⟨fun r hr hop => ?_, List.Nodup.of_map Datum.str (h.labelNames_eq hc ▸ h.nodup)⟩
  obtain ⟨l, hl, rfl⟩ := mem_map.1 hr
  exact hc.named _ (h.subset hl) hop

theorem lead (hb : b ∈ bs) {l : Line} (hl : l ∈ b.lines) {y : Datum} (hy : targetOf? l.record = some y) :
    ∃ x, y = .str x ∧ x ∈ labelNames (code (bs.flatMap Block.lines)) ∧
      ∃ c ∈ bs, ∃ t, t <:+ c.lines ∧ Segment t ∧ ∃ rest rest', after (code ls) x = some (code (t ++ rest)) ∧
        after (code (bs.flatMap Block.lines)) x = some (code (t ++ rest')) := by
  obtain ⟨z, hz⟩ := h.stored b hb
  have hjump : y ∈ jumpsOf b.lines := mem_filterMap.2 ⟨l.record, mem_map_of_mem hl, hy⟩
  obtain ⟨c, hcs, hlabel⟩ := mem_map.1 (h.succs b hb y (hz.jumps y hjump))
  obtain ⟨x, hx⟩ := h.stored c hcs
  obtain rfl : y = .str x := hlabel.symm.trans hx.label
  have hmem : x ∈ labelNames (code (bs.flatMap Block.lines)) := by
    have hmap : Datum.str x ∈ (labelNames (code (bs.flatMap Block.lines))).map Datum.str :=
      h.labelNames_eq hc ▸ mem_map.2 ⟨c, hcs, hlabel⟩
    obtain ⟨x', hx', he⟩ := mem_map.1 hmap
    exact Datum.str.inj he ▸ hx'
  refine ⟨x, rfl, hmem, c, hcs, ?_⟩
  obtain ⟨rest, hrest⟩ := hx.stands
  obtain ⟨as, ds, rfl⟩ := append_of_mem hcs
  have hrest' : c.lines ++ ds.flatMap Block.lines <:+ (as ++ c :: ds).flatMap Block.lines := ⟨as.flatMap Block.lines, by simp⟩
  have hbegins := hx.begins
  have hsegment := hx.segment
  -- A label ends nothing, so that there is more of the block behind it.
  cases hlines : c.lines with
  | nil => simp [hlines, labelOf] at hbegins
  | cons k t =>
    rw [hlines] at hrest hrest' hbegins hsegment
    have hk : k.record.label? = some x := hbegins
    cases t with
    | nil =>
      have hend := hsegment.isEnd_of_singleton
      rw [isEnd, (label?_eq_some.1 hk).1] at hend
      cases hend
    | cons m t =>
      exact ⟨m :: t, suffix_cons k _, hsegment.tail.2, rest, ds.flatMap Block.lines,
        after_of_suffix hc.nodup hk (code_suffix hrest), after_of_suffix (h.labelled hc).nodup hk (code_suffix hrest')⟩

theorem inward : Inward (code (bs.flatMap Block.lines)) := by
  intro r hr y hy
  obtain ⟨l, hl, rfl⟩ := mem_map.1 hr
  obtain ⟨b, hb, hl⟩ := mem_flatMap.1 hl
  obtain ⟨x, rfl, hx, -⟩ := h.lead hc hb hl hy
  exact ⟨x, hx, rfl⟩

theorem sameCode {cs : List Block} (hbs : bs = b :: cs) {rest : List Line} (hls : ls = b.lines ++ rest) :
    SameCode (code ls) (code (bs.flatMap Block.lines)) := by
  have hb : b ∈ bs := hbs ▸ mem_cons_self
  obtain ⟨_, hstored⟩ := h.stored b hb
  refine ⟨hc.labelled, h.labelled hc, fun _ _ c c' => ∃ b ∈ bs, ∃ s, s <:+ b.lines ∧ Segment s ∧ ∃ rest rest',
    c = code (s ++ rest) ∧ c' = code (s ++ rest'), ?_, fun _ => ⟨0, b, hb, b.lines, suffix_rfl, hstored.segment, rest,
    cs.flatMap Block.lines, by rw [← hls], by rw [hbs, flatMap_cons]⟩⟩
  rintro - t _ _ ⟨b, hb, s, hs, hsegment, rest, rest', rfl, rfl⟩
  right; right
  obtain ⟨l, s, rfl⟩ := hsegment.exists_cons
  have hl : l ∈ b.lines := hs.subset mem_cons_self
  have hnext : isEnd l.record = false → Segment s := by
    intro hend
    cases s with
    | nil => exact absurd hsegment.isEnd_of_singleton (by simp [hend])
    | cons m s => exact hsegment.tail.2
  have hs' := (suffix_cons l s).trans hs
  change Pairs _ _ _ t (l.record :: code (s ++ rest)) (l.record :: code (s ++ rest'))
  by_cases hj : l.record.opcode = .str "jmp"
  · obtain ⟨x, hx, -, c, hcs, d, hd, hdseg, k, k', hafter, hafter'⟩ := h.lead hc hb hl (targetOf?_of_jmp hj)
    exact .both (.jmp hj hx hafter) (.jmp hj hx hafter') ⟨0, c, hcs, d, hd, hdseg, k, k', rfl, rfl⟩
  · have hend : l.record.opcode ≠ .str "ret" → isEnd l.record = false := by
      intro hr
      rw [isEnd_eq_false, Bool.eq_false_iff, Bool.eq_false_iff, Ne, Ne, Datum.is_iff, Datum.is_iff]
      exact ⟨hj, hr⟩
    cases hq : l.record.test? with
    | none => exact .plain hj hq fun hr _ _ => ⟨0, b, hb, s, hs', hnext (hend hr), rest, rest', rfl, rfl⟩
    | some q =>
      obtain ⟨x, hx, -, c, hcs, d, hd, hdseg, k, k', hafter, hafter'⟩ := h.lead hc hb hl (targetOf?_of_test? hq)
      have hr : l.record.opcode ≠ .str "ret" := by
        intro hr
        have htest := isTest_of_test? hq
        rw [isTest_of_ret (Datum.is_iff.2 hr)] at htest
        cases htest
      exact .test hq hx hafter hafter' (fun _ => ⟨0, c, hcs, d, hd, hdseg, k, k', rfl, rfl⟩)
        ⟨0, b, hb, s, hs', hnext (hend hr), rest, rest', rfl, rfl⟩

end Laid

end Bx.Blocks
