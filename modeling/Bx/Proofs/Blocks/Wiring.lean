import Bx.Proofs.Blocks.Graph
import Mathlib.Data.List.Nodup
import Mathlib.Data.List.Perm.Subperm

namespace Bx.Blocks

open List Tac Run.Loose

variable {ls s : List Line} {x : String}

theorem mem_labelNames_code : x ∈ labelNames (code ls) ↔ ∃ l ∈ ls, l.record.label? = some x := by
  simp [labelNames, code]

namespace Segment

variable {s : List Line} {l m : Line}

theorem exists_cons (h : Segment s) : ∃ l s', s = l :: s' := by
  obtain ⟨_ | ⟨l, ls⟩, e, rfl, -, -⟩ := h
  · exact ⟨e, [], rfl⟩
  · exact ⟨l, ls ++ [e], rfl⟩

theorem tail (h : Segment (l :: m :: s)) : isEnd l.record = false ∧ Segment (m :: s) := by
  obtain ⟨_ | ⟨k, ls⟩, e, he, hls, hend⟩ := h
  · cases he
  · rw [cons_append, List.cons.injEq] at he
    obtain ⟨rfl, he⟩ := he
    rw [forall_mem_cons] at hls
    exact ⟨hls.1, ls, e, he, hls.2, hend⟩

theorem isEnd_of_singleton (h : Segment [l]) : isEnd l.record := by
  obtain ⟨ls, e, he, -, hend⟩ := h
  obtain ⟨-, rfl⟩ : ls = [] ∧ e = l := by simpa using (append_eq_singleton_iff.1 he.symm).resolve_right (by simp)
  exact hend

theorem label?_tail (h : Segment (l :: s)) (hf : (l :: s).IsChain Flush) : ∀ m ∈ s, m.record.label? = none := by
  induction s generalizing l with
  | nil => simp
  | cons m s ih =>
    obtain ⟨hend, hs⟩ := h.tail
    rw [isChain_cons_cons] at hf
    -- Labels stand behind jumps only.
    have hm : isOp "label" m = false := hf.1.symm.trans (isEnd_eq_false.1 hend).1
    exact forall_mem_cons.2 ⟨label?_of_isOp hm, ih hs hf.2⟩

theorem labelNames_eq (h : Segment s) (hf : s.IsChain Flush) (hx : labelOf s = some x) : labelNames (code s) = [x] := by
  obtain ⟨l, s, rfl⟩ := h.exists_cons
  have hl : l.record.label? = some x := hx
  have hnone : labelNames (code s) = [] := by
    refine eq_nil_iff_forall_not_mem.2 fun y hy => ?_
    obtain ⟨m, hm, hy⟩ := mem_labelNames_code.1 hy
    rw [h.label?_tail hf m hm] at hy
    cases hy
  rw [code, map_cons, labelNames, filterMap_cons, hl]
  exact congrArg (x :: ·) hnone

end Segment

/-- The segment that the label begins, followed by labels of the code only and by all that it jumps to. -/
structure Stored (ls : List Line) (blocks : List (Label × Block)) (x : String) (b : Block) : Prop where
  found : find blocks (.str x) = .ok b
  label : b.label = .str x
  segment : Segment b.lines
  begins : labelOf b.lines = some x
  stands : ∃ rest, b.lines ++ rest <:+ ls
  succs : ∀ t ∈ b.succs, ∃ y ∈ labelNames (code ls), t = .str y
  jumps : ∀ t ∈ jumpsOf b.lines, t ∈ b.succs

theorem Stored.exists_append {l : Line} {blocks : List (Label × Block)} {b : Block} (h : Stored (l :: ls) blocks x b)
    (hn : (labelNames (code (l :: ls))).Nodup) (hl : l.record.label? = some x) : ∃ rest, l :: ls = b.lines ++ rest := by
  obtain ⟨rest, hrest⟩ := h.stands
  obtain ⟨k, s, hs⟩ := h.segment.exists_cons
  have hk : k.record.label? = some x := by
    have hbegins := h.begins
    rwa [hs] at hbegins
  rw [hs] at hrest
  have hafter : after (code (l :: ls)) x = some (code (s ++ rest)) := after_of_suffix hn hk (code_suffix hrest)
  rw [after_of_suffix hn hl suffix_rfl] at hafter
  have hlen : ls.length = (s ++ rest).length := by simpa [code] using congrArg List.length (Option.some.inj hafter)
  exact ⟨rest, by rw [hs, ← hrest.eq_of_length (by simp [hlen])]⟩

def Wired (ls : List Line) (blocks : List (Label × Block)) : Prop := ∀ x ∈ labelNames (code ls), ∃ b, Stored ls blocks x b

theorem suffix_flatten {as bs : List (List Line)} : s ++ bs.flatten <:+ (as ++ s :: bs).flatten :=
  ⟨as.flatten, by simp⟩

theorem titleOf_of_labelOf (h : labelOf s = some x) : titleOf s = .str x := by
  cases s with
  | nil => cases h
  | cons l s => exact (label?_eq_some.1 h).2

def linked (ss : List (List Line)) : List (Label × Block) :=
  (tabled ss []).map fun e => (e.1, (ss.flatMap edgesOf).foldl (joined e.1) e.2)

theorem find_linked {ss : List (List Line)} {b : Block} (h : find (tabled ss []) (.str x) = .ok b) :
    find (linked ss) (.str x) = .ok ((ss.flatMap edgesOf).foldl (joined (.str x)) b) := by
  rw [find] at h
  split at h
  case h_2 => cases h
  case h_1 e he =>
    obtain ⟨k, b⟩ := e
    cases h
    obtain rfl : k = .str x := (same_str _ _).1 (by simpa using List.find?_some he)
    rw [linked, find_map, he]

theorem Addressed.arg_target (hc : Addressed ls) {l : Line} (hl : l ∈ ls) {k : Nat}
    (ht : targetOf? l.record = some (l.record.arg k)) : arg l k = .ok (l.record.arg k) := by
  obtain ⟨x, -, hx⟩ := hc.closed _ (mem_map_of_mem hl) _ ht
  rw [hx]
  exact arg_eq_str (hc.args l hl) hx

namespace Filled

variable {ls : List Line} (hc : Filled ls)
include hc

theorem segment (hs : s ∈ segments ls) : Segment s := by
  refine segment_of_mem_segments (fun l hl => ?_) s hs
  obtain ⟨m, hm, hend⟩ := hc.ends
  rw [hm] at hl
  cases hl
  exact hend

theorem flush_segment (hs : s ∈ segments ls) : s.IsChain Flush := by
  obtain ⟨as, bs, hss⟩ := append_of_mem hs
  have hflat := flatten_segments ls
  rw [hss] at hflat
  exact hc.flush.infix (hflat ▸ ⟨as.flatten, bs.flatten, by simp⟩)

theorem cuttable (hs : s ∈ segments ls) (htitle : nameOf s = .ok (titleOf s)) (hkey : (titleOf s).isKey) : Cuttable s := by
  have hmem : ∀ m ∈ s, m ∈ ls := fun m hm => flatten_segments ls ▸ mem_flatten_of_mem hs hm
  refine ⟨hc.segment hs, htitle, hkey, fun m hm hj => ?_, fun m hm ht => ?_⟩
  · exact hc.arg_target (hmem m hm) (targetOf?_of_jmp (Datum.is_iff.1 hj))
  · refine hc.arg_target (hmem m hm) ?_
    have hj : m.record.opcode.is "jmp" = false := by
      rw [Bool.eq_false_iff]
      intro hj
      rw [isTest, Datum.is_iff.1 hj] at ht
      cases ht
    rw [targetOf?, hj, ht]
    rfl

theorem exists_labelOf (hx : x ∈ labelNames (code ls)) : ∃ s ∈ segments ls, labelOf s = some x := by
  obtain ⟨m, hm, hmx⟩ := mem_labelNames_code.1 hx
  rw [← flatten_segments ls, mem_flatten] at hm
  obtain ⟨s, hs, hm⟩ := hm
  obtain ⟨l, s, rfl⟩ := (hc.segment hs).exists_cons
  refine ⟨l :: s, hs, ?_⟩
  rcases mem_cons.1 hm with rfl | hm
  · exact hmx
  · rw [(hc.segment hs).label?_tail (hc.flush_segment hs) m hm] at hmx
    cases hmx

theorem mem_edges {a : Label × Label} (ha : a ∈ (segments ls).flatMap edgesOf) :
    (∃ s ∈ segments ls, titleOf s = a.1) ∧ ∃ y ∈ labelNames (code ls), a.2 = .str y := by
  obtain ⟨s, hs, ha⟩ := mem_flatMap.1 ha
  obtain ⟨t, ht, rfl⟩ := mem_map.1 ha
  obtain ⟨r, hr, ht⟩ := mem_filterMap.1 ht
  obtain ⟨l, hl, rfl⟩ := mem_map.1 hr
  have hmem : l ∈ ls := flatten_segments ls ▸ mem_flatten_of_mem hs hl
  exact ⟨⟨s, hs, rfl⟩, hc.closed _ (mem_map_of_mem hmem) t ht⟩

theorem blocksOf_eq (hcut : ∀ s ∈ segments ls, Cuttable s) (name : String) (entry : Label) :
    blocksOf name entry ls = .ok ⟨name, entry, linked (segments ls)⟩ := by
  have hkeys := fun s hs => (hcut s hs).key
  have hknown : ∀ a ∈ (segments ls).flatMap edgesOf,
      Known (tabled (segments ls) []) a.1 ∧ a.2.isKey ∧ Known (tabled (segments ls) []) a.2 := by
    intro a ha
    obtain ⟨hfrom, y, hy, hto⟩ := hc.mem_edges ha
    obtain ⟨s, hs, hlabel⟩ := hc.exists_labelOf hy
    exact ⟨known_tabled hkeys (.inr hfrom), by rw [hto]; rfl, known_tabled hkeys (.inr ⟨s, hs, (titleOf_of_labelOf hlabel).trans hto.symm⟩)⟩
  have hcuts := cut_segments hcut [] []
  rw [flatten_segments] at hcuts
  simp only [blocksOf, hcuts, ok_bind, nil_append, foldlM_link hknown]
  rfl

theorem foldl_joined (k : Label) (b : Block) :
    (((segments ls).flatMap edgesOf).foldl (joined k) b).label = b.label ∧ (((segments ls).flatMap edgesOf).foldl (joined k) b).lines = b.lines ∧
      ∀ t, t ∈ (((segments ls).flatMap edgesOf).foldl (joined k) b).succs ↔
        t ∈ b.succs ∨ ∃ s ∈ segments ls, k.same (titleOf s) ∧ t ∈ jumpsOf s := by
  obtain ⟨hl, hlines, hsuccs⟩ := Blocks.foldl_joined (fun a ha => (hc.mem_edges ha).2.imp fun _ h => h.2) k b
  refine ⟨hl, hlines, fun t => (hsuccs t).trans (or_congr_right ?_)⟩
  simp only [mem_flatMap, edgesOf, mem_map]
  constructor
  · rintro ⟨_, ⟨s, hs, y, hy, rfl⟩, hk, rfl⟩
    exact ⟨s, hs, hk, hy⟩
  · rintro ⟨s, hs, hk, ht⟩
    exact ⟨_, ⟨s, hs, t, ht, rfl⟩, hk, rfl⟩

end Filled

namespace Complete

variable {ls : List Line} (hc : Complete ls)
include hc

section Segments

variable {as bs : List (List Line)} {s : List Line} (hss : segments ls = as ++ s :: bs)
include hss

theorem starts : ∃ l s', s = l :: s' ∧ ∃ d xs, l.record.args = .list (d :: xs) ∧ d.isKey ∧
    ∀ x ∈ labelNames (code ls), d = .str x → x ∈ labelNames (code (s ++ bs.flatten)) := by
  have hseg : ∀ s' ∈ as ++ s :: bs, Segment s' := fun s' hs' => hc.segment (hss ▸ hs')
  have hls : ls = (as ++ s :: bs).flatten := hss ▸ (flatten_segments ls).symm
  obtain ⟨l, s', rfl⟩ := (hseg s (by simp)).exists_cons
  have hsuf : l :: s' ++ bs.flatten <:+ ls := hls ▸ suffix_flatten
  have named : (∃ x, l.record.label? = some x) → ∃ d xs, l.record.args = .list (d :: xs) ∧ d.isKey ∧
      ∀ x ∈ labelNames (code ls), d = .str x → x ∈ labelNames (code (l :: s' ++ bs.flatten)) := by
    rintro ⟨x, hx⟩
    obtain ⟨xs, hxs⟩ := hc.args l (hsuf.subset mem_cons_self)
    have harg := (label?_eq_some.1 hx).2
    rw [Record.arg, hxs] at harg
    cases xs with
    | nil => cases harg
    | cons d xs =>
      obtain rfl : d = .str x := harg
      refine ⟨_, xs, hxs, rfl, fun y _ hy => ?_⟩
      cases hy
      exact mem_labelNames_code.2 ⟨l, by simp, hx⟩
  refine ⟨l, s', rfl, ?_⟩
  rcases eq_nil_or_concat as with rfl | ⟨as, a, rfl⟩
  · obtain ⟨m, rest, x, hm, hx⟩ := hc.head
    obtain rfl : l = m := by
      rw [hls] at hm
      exact (List.cons.inj hm).1
    exact named ⟨x, hx⟩
  · obtain ⟨ms, e, rfl, -, hend⟩ := hseg a (by simp)
    have hbehind : e :: l :: (s' ++ bs.flatten) <:+ ls := hls ▸ ⟨as.flatten ++ ms, by simp⟩
    rcases Bool.or_eq_true_iff.1 hend with hj | hr
    · have hflush := isChain_cons_cons.1 (hc.flush.suffix hbehind)
      exact named (hc.named l (hsuf.subset mem_cons_self) (hflush.1.symm.trans hj))
    · obtain ⟨d, xs, hargs, hkey, hd⟩ := hc.dead _ _ _ hbehind hr
      refine ⟨d, xs, hargs, hkey, fun x hx he => ?_⟩
      obtain ⟨m, hm, hl⟩ := mem_labelNames_code.1 (hd x hx he)
      exact mem_labelNames_code.2 ⟨m, mem_cons_of_mem l hm, hl⟩

theorem cuttable : Cuttable s := by
  obtain ⟨l, s', rfl, d, xs, hargs, hkey, -⟩ := hc.starts hss
  have htitle : titleOf (l :: s') = d := by simp [titleOf, Record.arg, hargs]
  refine hc.toFilled.cuttable (by simp [hss]) ?_ (htitle ▸ hkey)
  rw [htitle]
  exact arg_of_list hargs rfl

theorem title_ne (hx : x ∈ labelNames (code s)) : ∀ s' ∈ bs, titleOf s' ≠ .str x := by
  intro s' hs' htitle
  obtain ⟨cs, ds, rfl⟩ := append_of_mem hs'
  have hss' : segments ls = (as ++ s :: cs) ++ s' :: ds := by simpa using hss
  obtain ⟨l, t, rfl, d, xs, hargs, -, hd⟩ := hc.starts hss'
  have hsplit : labelNames (code ls) = labelNames (code as.flatten) ++ (labelNames (code s) ++
      (labelNames (code cs.flatten) ++ labelNames (code (l :: t ++ ds.flatten)))) := by
    rw [← flatten_segments ls, hss']
    simp [code_append, labelNames_append]
  have hbelow : x ∈ labelNames (code (l :: t ++ ds.flatten)) := by
    refine hd x (by simp [hsplit, hx]) ?_
    rw [← htitle]
    simp [titleOf, Record.arg, hargs]
  have hnodup := hc.nodup
  rw [hsplit] at hnodup
  exact (nodup_append.1 (nodup_append.1 hnodup).2.1).2.2 x hx x (mem_append_right _ hbelow) rfl

end Segments

theorem wired (name : String) (entry : Label) : ∃ blocks, blocksOf name entry ls = .ok ⟨name, entry, blocks⟩ ∧ Wired ls blocks := by
  have hcut : ∀ s ∈ segments ls, Cuttable s := by
    intro s hs
    obtain ⟨as, bs, hss⟩ := append_of_mem hs
    exact hc.cuttable hss
  refine ⟨linked (segments ls), hc.blocksOf_eq hcut name entry, fun x hx => ?_⟩
  obtain ⟨s, hs, hlabel⟩ := hc.exists_labelOf hx
  have htitle := titleOf_of_labelOf hlabel
  have hnames := (hc.segment hs).labelNames_eq (hc.flush_segment hs) hlabel
  obtain ⟨as, bs, hss⟩ := append_of_mem hs
  have hfound : find (tabled (segments ls) []) (.str x) = _ :=
    hss ▸ find_tabled htitle (hc.title_ne hss (hnames ▸ mem_singleton_self x)) []
  obtain ⟨hl, hlines, hsuccs⟩ := hc.foldl_joined (.str x) ⟨.str x, s, [], []⟩
  refine ⟨_, find_linked hfound, hl, hlines ▸ hc.segment hs, hlines ▸ hlabel, ⟨bs.flatten, ?_⟩, fun t ht => ?_, fun t ht => ?_⟩
  · rw [hlines, ← flatten_segments ls, hss]
    exact suffix_flatten
  · obtain ⟨s', hs', -, ht⟩ := ((hsuccs t).1 ht).resolve_left (by simp)
    exact (hc.mem_edges (mem_flatMap.2 ⟨s', hs', mem_map_of_mem ht⟩)).2
  · rw [hlines] at ht
    exact (hsuccs t).2 (.inr ⟨s, hs, str_same.2 htitle, ht⟩)

end Complete

theorem Wired.length_le {blocks : List (Label × Block)} (hw : Wired ls blocks) (hn : (labelNames (code ls)).Nodup) :
    (labelNames (code ls)).length ≤ blocks.length := by
  have hsub : (labelNames (code ls)).map Datum.str ⊆ blocks.map Prod.fst := by
    intro d hd
    obtain ⟨x, hx, rfl⟩ := mem_map.1 hd
    obtain ⟨b, hb⟩ := hw x hx
    obtain ⟨e, he, hsame, -⟩ := known_of_find hb.found
    exact mem_map.2 ⟨e, he, (same_str _ _).1 hsame⟩
  have hlen := (List.Nodup.subperm (List.Nodup.map (fun _ _ h => Datum.str.inj h) hn) hsub).length_le
  simpa using hlen

end Bx.Blocks
