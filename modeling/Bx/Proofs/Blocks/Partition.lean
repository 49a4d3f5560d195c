import Bx.Proofs.Blocks.Rebuilt

namespace Bx.Blocks

open List Tac Run.Loose

variable {ss : List (List Line)} {e : Label × Block} {x name : String} {s t ls : List Line}
variable {blocks : List (Label × Block)}

def built (name : String) (b : List Record) : Except Fault Graph := ((build name (linesOf b)).run.run ⟨#[], []⟩).1

def isLabelled (s : List Line) : Bool := (labelOf s).isSome

/-- Every block stands under the label that begins it, ends with a jump or a return and is followed by the blocks that it
jumps to. Together they hold every instruction once, except behind a return that no label follows. -/
structure Partitions (ls : List Line) (g : Graph) : Prop where
  keyed : ∀ e ∈ g.blocks, ∃ x, e.1 = .str x ∧ labelOf e.2.lines = some x
  held : (g.blocks.flatMap fun e => e.2.lines).Perm ((segments ls).filter isLabelled).flatten
  ended : ∀ e ∈ g.blocks, ∃ l, e.2.lines.getLast? = some l ∧ isEnd l.record = true
  succs : ∀ e ∈ g.blocks, ∀ t, t ∈ e.2.succs ↔ t ∈ jumpsOf e.2.lines
  preds : ∀ e ∈ g.blocks, ∀ t, t ∈ e.2.preds ↔ ∃ e' ∈ g.blocks, e'.1 = t ∧ e.1 ∈ e'.2.succs

def Overlaid (ss : List (List Line)) : Prop :=
  ∀ s bs, s :: bs <:+ ss → labelOf s = none → ∃ t ∈ bs, ∃ x, titleOf s = .str x ∧ labelOf t = some x ∧ jumpsOf s ⊆ jumpsOf t

section Keys

variable {blocks : List (Label × Block)}

theorem keys_putBlock (b : Block) (blocks : List (Label × Block)) : (putBlock b blocks).map Prod.fst = blocks.map Prod.fst ∨
    (putBlock b blocks).map Prod.fst = blocks.map Prod.fst ++ [b.label] ∧ ∀ k ∈ blocks.map Prod.fst, k.same b.label = false := by
  induction blocks with
  | nil => exact .inr ⟨rfl, by simp⟩
  | cons c blocks ih =>
    rw [putBlock]
    split
    · exact .inl rfl
    · next hc =>
        rcases ih with ih | ⟨ih, hne⟩
        · exact .inl (congrArg (c.1 :: ·) ih)
        · exact .inr ⟨congrArg (c.1 :: ·) ih, forall_mem_cons.2 ⟨Bool.eq_false_iff.2 hc, hne⟩⟩

def Apart (blocks : List (Label × Block)) : Prop := (blocks.map Prod.fst).Pairwise fun k k' => k.same k' = false

theorem Apart.tabled (h : Apart blocks) (ss : List (List Line)) : Apart (tabled ss blocks) := by
  induction ss generalizing blocks with
  | nil => exact h
  | cons s ss ih =>
    apply ih
    rw [Apart]
    rcases keys_putBlock ⟨titleOf s, s, [], []⟩ blocks with hkeys | ⟨hkeys, hne⟩
    · rwa [hkeys]
    · rw [hkeys, pairwise_append]
      exact ⟨h, pairwise_singleton _ _, fun k hk k' hk' => mem_singleton.1 hk' ▸ hne k hk⟩

theorem mem_keys_tabled {k : Label} (hk : k ∈ (tabled ss blocks).map Prod.fst) :
    k ∈ blocks.map Prod.fst ∨ ∃ s ∈ ss, titleOf s = k := by
  induction ss generalizing blocks with
  | nil => exact .inl hk
  | cons s ss ih =>
    rcases ih hk with hold | ⟨t, ht, htk⟩
    · rcases keys_putBlock ⟨titleOf s, s, [], []⟩ blocks with hkeys | ⟨hkeys, -⟩
      · exact .inl (hkeys ▸ hold)
      · rw [hkeys, mem_append, mem_singleton] at hold
        exact hold.imp_right fun hnew => ⟨s, mem_cons_self, hnew.symm⟩
    · exact .inr ⟨t, mem_cons_of_mem s ht, htk⟩

theorem apart_tabled (ss : List (List Line)) : Apart (tabled ss []) := Apart.tabled (show Apart [] from .nil) ss

theorem Apart.find (h : Apart blocks) (he : e ∈ blocks) (hx : e.1 = .str x) : find blocks (.str x) = .ok e.2 := by
  induction blocks with
  | nil => cases he
  | cons c blocks ih =>
    rw [Apart, map_cons, pairwise_cons] at h
    rcases mem_cons.1 he with rfl | he
    · simp [Blocks.find, hx, Datum.same]
    · have hne : c.1.same (.str x) = false := hx ▸ h.1 e.1 (mem_map_of_mem he)
      have ih := ih h.2 he
      rw [Blocks.find] at ih ⊢
      rwa [List.find?_cons, hne]

theorem Apart.nodup (h : Apart blocks) (hkeys : ∀ e ∈ blocks, ∃ x, e.1 = .str x) : (blocks.map Prod.fst).Nodup := by
  refine List.Pairwise.imp_of_mem (fun {k k'} hk _ hne he => ?_) h
  obtain ⟨e, hmem, rfl⟩ := mem_map.1 hk
  obtain ⟨x, hx⟩ := hkeys e hmem
  rw [← he, hx] at hne
  simp [Datum.same] at hne

end Keys

section Last

variable {ss : List (List Line)}

def IsLast (ss : List (List Line)) (x : String) (s : List Line) : Prop :=
  ∃ as bs, ss = as ++ s :: bs ∧ titleOf s = .str x ∧ ∀ s' ∈ bs, titleOf s' ≠ .str x

theorem exists_isLast (h : ∃ s ∈ ss, titleOf s = .str x) : ∃ t, IsLast ss x t := by
  induction ss with
  | nil => simp at h
  | cons c ss ih =>
    by_cases hmore : ∃ t ∈ ss, titleOf t = .str x
    · obtain ⟨t, as, bs, rfl, hx, hbs⟩ := ih hmore
      exact ⟨t, c :: as, bs, rfl, hx, hbs⟩
    · obtain ⟨s, hs, hx⟩ := h
      rcases mem_cons.1 hs with rfl | hs
      · exact ⟨s, [], ss, rfl, hx, fun t ht htx => hmore ⟨t, ht, htx⟩⟩
      · exact absurd ⟨s, hs, hx⟩ hmore

theorem IsLast.append (h : IsLast ss x s) (cs : List (List Line)) : IsLast (cs ++ ss) x s := by
  obtain ⟨as, bs, rfl, hx, hbs⟩ := h
  exact ⟨cs ++ as, bs, by simp, hx, hbs⟩

theorem IsLast.mem (h : IsLast ss x s) : s ∈ ss := by
  obtain ⟨as, bs, rfl, -, -⟩ := h
  simp

theorem IsLast.find (h : IsLast ss x s) : find (tabled ss []) (.str x) = .ok ⟨.str x, s, [], []⟩ := by
  obtain ⟨as, bs, rfl, hx, hbs⟩ := h
  exact find_tabled hx hbs []

theorem IsLast.unique (hs : IsLast ss x s) (ht : IsLast ss x t) : s = t := by
  have h := hs.find.symm.trans ht.find
  simpa using h

theorem isLast_of_mem_tabled (he : e ∈ tabled ss []) (hx : e.1 = .str x) : ∃ s, IsLast ss x s ∧ e.2 = ⟨.str x, s, [], []⟩ := by
  have hfound := (apart_tabled ss).find he hx
  have hsome : ∃ s ∈ ss, titleOf s = .str x := by
    by_contra hnone
    have hlost := find_tabled_of_ne (fun s (hs : s ∈ ss) hsx => hnone ⟨s, hs, hsx⟩) []
    rw [hfound] at hlost
    cases hlost
  obtain ⟨s, hs⟩ := exists_isLast hsome
  exact ⟨s, hs, Except.ok.inj (hfound.symm.trans hs.find)⟩

end Last

theorem mem_linked :
    e ∈ linked ss ↔ ∃ e₀ ∈ tabled ss [], (e₀.1, (ss.flatMap edgesOf).foldl (joined e₀.1) e₀.2) = e := mem_map

theorem keys_linked (ss : List (List Line)) : (linked ss).map Prod.fst = (tabled ss []).map Prod.fst := by
  simp [linked, Function.comp_def]

theorem apart_linked (ss : List (List Line)) : Apart (linked ss) := by
  rw [Apart, keys_linked]
  exact apart_tabled ss

theorem map_str_labelOf (h : ∀ e ∈ blocks, ∃ x, e.1 = .str x ∧ labelOf e.2.lines = some x) :
    ((blocks.map fun e => e.2.lines).filterMap labelOf).map Datum.str = blocks.map Prod.fst := by
  induction blocks with
  | nil => rfl
  | cons e blocks ih =>
    rw [forall_mem_cons] at h
    obtain ⟨⟨x, hx, hlabel⟩, h⟩ := h
    rw [map_cons, filterMap_cons_some hlabel, map_cons, ih h, map_cons, hx]

namespace Overlaid

variable {ss : List (List Line)} (ho : Overlaid ss)
include ho

theorem exists_titleOf (hs : s ∈ ss) : ∃ x, titleOf s = .str x ∧ ∃ t ∈ ss, labelOf t = some x ∧ jumpsOf s ⊆ jumpsOf t := by
  cases hl : labelOf s with
  | some x => exact ⟨x, titleOf_of_labelOf hl, s, hs, hl, List.Subset.refl _⟩
  | none =>
    obtain ⟨as, bs, rfl⟩ := append_of_mem hs
    obtain ⟨t, ht, x, hx, htx, hsub⟩ := ho s bs (suffix_append as _) hl
    exact ⟨x, hx, t, by simp [ht], htx, hsub⟩

theorem labelOf_eq (h : IsLast ss x s) : labelOf s = some x := by
  obtain ⟨as, bs, rfl, hx, hbs⟩ := h
  cases hl : labelOf s with
  | some y => rw [← Datum.str.inj (hx.symm.trans (titleOf_of_labelOf hl))]
  | none =>
    obtain ⟨t, ht, y, hy, hty, -⟩ := ho s bs (suffix_append as _) hl
    obtain rfl : y = x := Datum.str.inj (hy.symm.trans hx)
    exact absurd (titleOf_of_labelOf hty) (hbs t ht)

theorem exists_key (he : e ∈ linked ss) : ∃ x, e.1 = .str x := by
  have hkey : e.1 ∈ (tabled ss []).map Prod.fst := keys_linked ss ▸ mem_map_of_mem he
  obtain ⟨s, hs, hk⟩ := (mem_keys_tabled hkey).resolve_left (by simp)
  obtain ⟨x, hx, -⟩ := ho.exists_titleOf hs
  exact ⟨x, hk ▸ hx⟩

theorem nodup_keys : ((linked ss).map Prod.fst).Nodup := (apart_linked ss).nodup fun _ he => ho.exists_key he

theorem mem_preds (he : e ∈ linked ss) (hx : e.1 = .str x) (t : Label) :
    t ∈ e.2.preds ↔ ∃ s ∈ ss, titleOf s = t ∧ .str x ∈ jumpsOf s := by
  have hfrom : ∀ a ∈ ss.flatMap edgesOf, ∃ y, a.1 = .str y := by
    intro a ha
    obtain ⟨s, hs, ha⟩ := mem_flatMap.1 ha
    obtain ⟨u, -, rfl⟩ := mem_map.1 ha
    exact (ho.exists_titleOf hs).imp fun _ h => h.1
  obtain ⟨⟨k, b⟩, he₀, rfl⟩ := mem_linked.1 he
  obtain ⟨s, -, hb⟩ := isLast_of_mem_tabled he₀ hx
  obtain rfl : k = .str x := hx
  obtain rfl : b = _ := hb
  rw [foldl_joined_preds hfrom]
  simp only [not_mem_nil, false_or, mem_flatMap, edgesOf, mem_map, str_same]
  constructor
  · rintro ⟨_, ⟨s, hs, u, hu, rfl⟩, rfl, rfl⟩
    exact ⟨s, hs, rfl, hu⟩
  · rintro ⟨s, hs, rfl, hjump⟩
    exact ⟨_, ⟨s, hs, _, hjump, rfl⟩, rfl, rfl⟩

end Overlaid

section Cut

theorem arg_eq_ok {l : Line} (h : ∃ xs, l.record.args = .list xs) {k : Nat} {d : Datum} (hd : arg l k = .ok d) : l.record.arg k = d := by
  obtain ⟨xs, hxs⟩ := h
  rw [Record.arg, hxs]
  cases hk : xs[k]? with
  | some c =>
    rw [arg_of_list hxs hk] at hd
    simpa [hk] using Except.ok.inj hd
  | none =>
    have hlt : ¬k < xs.length := Nat.not_lt.2 (List.getElem?_eq_none_iff.1 hk)
    simp [arg, hxs, Datum.item, Datum.pick, Datum.position?, hlt, Except.mapError] at hd

theorem finish_eq_ok {lines : List Line} {r : Label × List (Label × Block)} (h : finish lines blocks = .ok r) :
    nameOf lines = .ok r.1 ∧ r.1.isKey := by
  obtain ⟨d, hd, h⟩ := bind_eq_ok.1 h
  cases hkey : d.isKey with
  | false =>
    rw [hkey] at h
    cases h
  | true =>
    rw [hkey] at h
    cases h
    exact ⟨hd, hkey⟩

theorem nameOf_of_cut_segment {e : Line} (hls : ∀ l ∈ ls, isEnd l.record = false) (he : isEnd e.record)
    {begun rest : List Line} {edges : Edges} {r : List (Label × Block) × Edges}
    (h : cut begun blocks edges (ls ++ e :: rest) = .ok r) :
    (∃ d, nameOf (begun ++ ls ++ [e]) = .ok d ∧ d.isKey) ∧ ∃ blocks' edges', cut [] blocks' edges' rest = .ok r := by
  induction ls generalizing begun edges with
  | nil =>
    rw [nil_append, cut] at h
    rw [append_nil]
    split at h
    · obtain ⟨f, hf, h⟩ := bind_eq_ok.1 h
      obtain ⟨y, -, h⟩ := bind_eq_ok.1 h
      exact ⟨⟨f.1, finish_eq_ok hf⟩, _, _, h⟩
    · next hj =>
        have hr : isOp "ret" e := (Bool.or_eq_true_iff.1 he).resolve_left hj
        rw [if_pos hr] at h
        obtain ⟨f, hf, h⟩ := bind_eq_ok.1 h
        exact ⟨⟨f.1, finish_eq_ok hf⟩, _, _, h⟩
  | cons l ls ih =>
    rw [forall_mem_cons] at hls
    obtain ⟨hj, hr⟩ := isEnd_eq_false.1 hls.1
    have hshape : begun ++ (l :: ls) ++ [e] = begun ++ [l] ++ ls ++ [e] := by simp
    rw [cons_append, cut] at h
    simp only [isOp, hj, hr, Bool.false_eq_true, if_false] at h
    rw [hshape]
    split at h
    · obtain ⟨d, -, h⟩ := bind_eq_ok.1 h
      obtain ⟨y, -, h⟩ := bind_eq_ok.1 h
      exact ih hls.2 h
    · exact ih hls.2 h

theorem nameOf_of_cut (hss : ∀ s ∈ ss, Segment s) {edges : Edges} {r : List (Label × Block) × Edges}
    (h : cut [] blocks edges ss.flatten = .ok r) : ∀ s ∈ ss, ∃ d, nameOf s = .ok d ∧ d.isKey := by
  induction ss generalizing blocks edges with
  | nil => simp
  | cons s ss ih =>
    rw [forall_mem_cons] at hss
    obtain ⟨⟨ls, e, rfl, hls, he⟩, hss⟩ := hss
    rw [flatten_cons, append_assoc, singleton_append] at h
    obtain ⟨hname, _, _, hrest⟩ := nameOf_of_cut_segment hls he h
    exact forall_mem_cons.2 ⟨hname, ih hss hrest⟩

end Cut

namespace Filled

variable {ls : List Line} (hf : Filled ls)
include hf

theorem labelNames_segment (hs : s ∈ segments ls) : labelNames (code s) = (labelOf s).toList := by
  obtain ⟨l, s', rfl⟩ := (hf.segment hs).exists_cons
  cases hl : labelOf (l :: s') with
  | some x => exact (hf.segment hs).labelNames_eq (hf.flush_segment hs) hl
  | none =>
    refine eq_nil_iff_forall_not_mem.2 fun y hy => ?_
    obtain ⟨m, hm, hmy⟩ := mem_labelNames_code.1 hy
    rcases mem_cons.1 hm with rfl | hm
    · rw [labelOf, List.head?_cons, Option.bind_some, hmy] at hl
      cases hl
    · rw [(hf.segment hs).label?_tail (hf.flush_segment hs) m hm] at hmy
      cases hmy

theorem labelNames_flatten (h : ∀ s ∈ ss, s ∈ segments ls) : labelNames (code ss.flatten) = ss.filterMap labelOf := by
  induction ss with
  | nil => rfl
  | cons s ss ih =>
    rw [forall_mem_cons] at h
    rw [flatten_cons, code_append, labelNames_append, ih h.2, hf.labelNames_segment h.1, filterMap_cons]
    cases labelOf s <;> rfl

theorem labelNames_eq : labelNames (code ls) = (segments ls).filterMap labelOf := by
  rw [← hf.labelNames_flatten fun s hs => hs, flatten_segments]

theorem nodup_labelOf (hn : (labelNames (code ls)).Nodup) : (((segments ls).filter isLabelled).map labelOf).Nodup := by
  have hlabels : ((segments ls).filter isLabelled).map labelOf = (labelNames (code ls)).map some := by
    rw [hf.labelNames_eq, map_filterMap_some_eq_filter_map_isSome, filter_map]
    rfl
  rw [hlabels]
  exact hn.map (Option.some_injective _)

theorem eq_of_labelOf (hn : (labelNames (code ls)).Nodup) (hs : s ∈ segments ls) (ht : t ∈ segments ls)
    (hsx : labelOf s = some x) (htx : labelOf t = some x) : s = t := by
  refine inj_on_of_nodup_map (hf.nodup_labelOf hn) ?_ ?_ (hsx.trans htx.symm)
  · exact mem_filter.2 ⟨hs, by rw [isLabelled, hsx]; rfl⟩
  · exact mem_filter.2 ⟨ht, by rw [isLabelled, htx]; rfl⟩

theorem of_mem_linked (he : e ∈ linked (segments ls)) (hx : e.1 = .str x) :
    IsLast (segments ls) x e.2.lines ∧ ∀ t, t ∈ e.2.succs ↔ ∃ s ∈ segments ls, titleOf s = .str x ∧ t ∈ jumpsOf s := by
  obtain ⟨⟨k, b⟩, he₀, rfl⟩ := mem_linked.1 he
  obtain ⟨s, hs, hb⟩ := isLast_of_mem_tabled he₀ hx
  obtain rfl : k = .str x := hx
  obtain rfl : b = _ := hb
  obtain ⟨-, hlines, hsuccs⟩ := hf.foldl_joined (.str x) ⟨.str x, s, [], []⟩
  refine ⟨hlines ▸ hs, fun t => (hsuccs t).trans ?_⟩
  simp only [not_mem_nil, false_or, str_same]

theorem cuttable_of_blocksOf {entry : Label} {g : Graph} (h : blocksOf name entry ls = .ok g) :
    ∀ s ∈ segments ls, Cuttable s := by
  intro s hs
  obtain ⟨r, hr, -⟩ := bind_eq_ok.1 h
  rw [← flatten_segments ls] at hr
  obtain ⟨d, hd, hkey⟩ := nameOf_of_cut (fun s hs => hf.segment hs) hr s hs
  obtain ⟨l, s', rfl⟩ := (hf.segment hs).exists_cons
  have hl : l ∈ ls := flatten_segments ls ▸ mem_flatten_of_mem hs mem_cons_self
  obtain rfl : titleOf (l :: s') = d := arg_eq_ok (hf.args l hl) hd
  exact hf.cuttable hs hd hkey

theorem cuttable_of_overlaid (ho : Overlaid (segments ls)) : ∀ s ∈ segments ls, Cuttable s := by
  intro s hs
  obtain ⟨x, hx, -⟩ := ho.exists_titleOf hs
  obtain ⟨l, s', rfl⟩ := (hf.segment hs).exists_cons
  have hl : l ∈ ls := flatten_segments ls ▸ mem_flatten_of_mem hs mem_cons_self
  refine hf.cuttable hs ?_ (by rw [hx]; rfl)
  rw [hx]
  exact arg_eq_str (hf.args l hl) hx

section Divided

variable (hn : (labelNames (code ls)).Nodup) (ho : Overlaid (segments ls))
include hn ho

theorem mem_jumpsOf {s' : List Line} (hs : IsLast (segments ls) x s) (hs' : s' ∈ segments ls) (hx : titleOf s' = .str x) :
    jumpsOf s' ⊆ jumpsOf s := by
  obtain ⟨y, hy, t, ht, hty, hsub⟩ := ho.exists_titleOf hs'
  obtain rfl : y = x := Datum.str.inj (hy.symm.trans hx)
  rwa [hf.eq_of_labelOf hn hs.mem ht (ho.labelOf_eq hs) hty]

omit hn in
theorem exists_mem_linked (hs : s ∈ segments ls) : ∃ e ∈ linked (segments ls), e.1 = titleOf s := by
  obtain ⟨x, hx, -⟩ := ho.exists_titleOf hs
  obtain ⟨e, he, hsame⟩ : Known (tabled (segments ls) []) (.str x) :=
    known_tabled (fun s hs => (hf.cuttable_of_overlaid ho s hs).key) (.inr ⟨s, hs, hx⟩)
  exact ⟨_, mem_linked.2 ⟨e, he, rfl⟩, ((same_str _ _).1 hsame).trans hx.symm⟩

theorem of_mem_linked_overlaid (he : e ∈ linked (segments ls)) : ∃ x, e.1 = .str x ∧ e.2.lines ∈ segments ls ∧
    labelOf e.2.lines = some x ∧ ∀ t, t ∈ e.2.succs ↔ t ∈ jumpsOf e.2.lines := by
  obtain ⟨x, hx⟩ := ho.exists_key he
  obtain ⟨hlast, hsuccs⟩ := hf.of_mem_linked he hx
  have hlabel := ho.labelOf_eq hlast
  refine ⟨x, hx, hlast.mem, hlabel, fun t => (hsuccs t).trans ⟨?_, fun ht => ⟨_, hlast.mem, titleOf_of_labelOf hlabel, ht⟩⟩⟩
  rintro ⟨s, hs, hsx, ht⟩
  exact hf.mem_jumpsOf hn ho hlast hs hsx ht

theorem perm_linked : ((linked (segments ls)).map fun e => e.2.lines).Perm ((segments ls).filter isLabelled) := by
  have hkeys := ho.nodup_keys
  refine (perm_ext_iff_of_nodup ?_ (List.Nodup.of_map _ (hf.nodup_labelOf hn))).2 fun s => ?_
  · refine (List.Nodup.of_map _ hkeys).map_on fun e he e' he' hlines => inj_on_of_nodup_map hkeys he he' ?_
    obtain ⟨x, hx, -, hex, -⟩ := hf.of_mem_linked_overlaid hn ho he
    obtain ⟨x', hx', -, hex', -⟩ := hf.of_mem_linked_overlaid hn ho he'
    rw [hlines, hex'] at hex
    rw [hx, hx', Option.some.inj hex]
  · rw [mem_map, mem_filter]
    constructor
    · rintro ⟨e, he, rfl⟩
      obtain ⟨x, -, hmem, hx, -⟩ := hf.of_mem_linked_overlaid hn ho he
      exact ⟨hmem, by rw [isLabelled, hx]; rfl⟩
    · rintro ⟨hs, hsome⟩
      obtain ⟨y, hy⟩ := Option.isSome_iff_exists.1 hsome
      obtain ⟨e, he, hkey⟩ := hf.exists_mem_linked ho hs
      obtain ⟨x, hx, hmem, hex, -⟩ := hf.of_mem_linked_overlaid hn ho he
      obtain rfl : x = y := Datum.str.inj (hx.symm.trans (hkey.trans (titleOf_of_labelOf hy)))
      exact ⟨e, he, hf.eq_of_labelOf hn hmem hs hex hy⟩

theorem partitions (name : String) (entry : Label) : Partitions ls ⟨name, entry, linked (segments ls)⟩ := by
  have hblock := fun e he => hf.of_mem_linked_overlaid hn ho (e := e) he
  refine ⟨fun e he => ?_, ?_, fun e he => ?_, fun e he t => ?_, fun e he t => ?_⟩
  · obtain ⟨x, hx, -, hlabel, -⟩ := hblock e he
    exact ⟨x, hx, hlabel⟩
  · rw [flatMap_def]
    exact (hf.perm_linked hn ho).flatten
  · obtain ⟨x, -, hmem, -, -⟩ := hblock e he
    obtain ⟨ms, m, hms, -, hend⟩ := hf.segment hmem
    exact ⟨m, by rw [hms, List.getLast?_concat], hend⟩
  · obtain ⟨x, -, -, -, hsuccs⟩ := hblock e he
    exact hsuccs t
  · obtain ⟨x, hx, -⟩ := hblock e he
    rw [ho.mem_preds he hx, hx]
    constructor
    · rintro ⟨s, hs, rfl, hjump⟩
      obtain ⟨e', he', hkey⟩ := hf.exists_mem_linked ho hs
      obtain ⟨y, hy, -⟩ := hblock e' he'
      exact ⟨e', he', hkey, ((hf.of_mem_linked he' hy).2 _).2 ⟨s, hs, hkey.symm.trans hy, hjump⟩⟩
    · rintro ⟨e', he', rfl, hjump⟩
      obtain ⟨y, hy, -⟩ := hblock e' he'
      obtain ⟨s, hs, hsy, hjump⟩ := ((hf.of_mem_linked he' hy).2 _).1 hjump
      exact ⟨s, hs, hsy.trans hy.symm, hjump⟩

end Divided

section Only

variable (hcut : ∀ s ∈ segments ls, Cuttable s) {name : String} {entry : Label} (hp : Partitions ls ⟨name, entry, linked (segments ls)⟩)
include hcut hp

omit hcut in
theorem nodup_of_partitions : (labelNames (code ls)).Nodup := by
  have hlines : ∀ s ∈ (linked (segments ls)).map fun e => e.2.lines, s ∈ segments ls := by
    intro s hs
    obtain ⟨e, he, rfl⟩ := mem_map.1 hs
    obtain ⟨x, hx, -⟩ := hp.keyed e he
    exact (hf.of_mem_linked he hx).1.mem
  have hperm := (hp.held.map Line.record).filterMap Record.label?
  change (labelNames (code _)).Perm (labelNames (code _)) at hperm
  rw [flatMap_def, hf.labelNames_flatten hlines, hf.labelNames_flatten fun s hs => (mem_filter.1 hs).1,
    filterMap_filter] at hperm
  have hall : (fun s => if isLabelled s = true then labelOf s else none) = labelOf := by
    funext s
    rw [isLabelled]
    cases labelOf s <;> rfl
  rw [hall, ← hf.labelNames_eq] at hperm
  -- The labels are those of the table's blocks, whose keys no two blocks share.
  refine hperm.nodup_iff.1 (List.Nodup.of_map Datum.str ?_)
  rw [map_str_labelOf hp.keyed]
  exact (apart_linked _).nodup fun e he => (hp.keyed e he).imp fun _ h => h.1

theorem overlaid_of_partitions : Overlaid (segments ls) := by
  rintro s bs ⟨as, hss⟩ hnone
  have hs : s ∈ segments ls := by simp [← hss]
  obtain ⟨e₀, he₀, hsame⟩ : Known (tabled (segments ls) []) (titleOf s) := known_tabled (fun s hs => (hcut s hs).key) (.inr ⟨s, hs, rfl⟩)
  have he := mem_linked.2 ⟨e₀, he₀, rfl⟩
  obtain ⟨x, hx, hlabel⟩ := hp.keyed _ he
  obtain ⟨hlast, hsuccs⟩ := hf.of_mem_linked he hx
  have htitle : titleOf s = .str x := by
    rw [show e₀.1 = .str x from hx] at hsame
    exact str_same.1 hsame
  -- The block under the title of s is that of the last piece with this title. It has a label, so it is not s itself.
  by_cases hmore : ∃ t ∈ bs, titleOf t = .str x
  · obtain ⟨t, ht⟩ := exists_isLast hmore
    have ht' : IsLast (segments ls) x t := by
      rw [← hss, append_cons]
      exact ht.append _
    rw [hlast.unique ht'] at hlabel
    refine ⟨t, ht.mem, x, htitle, hlabel, fun u hu => ?_⟩
    have := (hp.succs _ he u).1 ((hsuccs u).2 ⟨s, hs, htitle, hu⟩)
    rwa [hlast.unique ht'] at this
  · have hs' : IsLast (segments ls) x s := ⟨as, bs, hss.symm, htitle, fun t ht htx => hmore ⟨t, ht, htx⟩⟩
    rw [hlast.unique hs', hnone] at hlabel
    cases hlabel

end Only

theorem exists_partitions_iff (name : String) (entry : Label) :
    (∃ g, blocksOf name entry ls = .ok g ∧ Partitions ls g) ↔ (labelNames (code ls)).Nodup ∧ Overlaid (segments ls) := by
  constructor
  · rintro ⟨g, hg, hp⟩
    have hcut := hf.cuttable_of_blocksOf hg
    obtain rfl : g = _ := Except.ok.inj (hg.symm.trans (hf.blocksOf_eq hcut name entry))
    exact ⟨hf.nodup_of_partitions hp, hf.overlaid_of_partitions hcut hp⟩
  · rintro ⟨hn, ho⟩
    exact ⟨_, hf.blocksOf_eq (hf.cuttable_of_overlaid ho) name entry, hf.partitions hn ho name entry⟩

end Filled

theorem built_eq {b : List Record} {entry : Label} (h : completed name (free (linesOf b)) (linesOf b) = .ok (entry, ls)) :
    built name b = blocksOf name entry ls := by
  have h' : completed name (free (note (linesOf b) [])) (linesOf b) = .ok (entry, ls) := by rwa [note_nil]
  cases hg : blocksOf name entry ls with
  | ok g => rw [built, run_build ⟨#[], []⟩ h' hg]
  | error f =>
    rw [built, build, run_bind_ok (show (get : Work Desk).run.run ⟨#[], []⟩ = (.ok ⟨#[], []⟩, ⟨#[], []⟩) from rfl), h',
      run_bind_ok (run_lift _ _)]
    simp only [hg]
    rfl

/-- Just if the labels stay distinct on completion, and whatever follows a return without a label is overlaid. -/
theorem built_partitions_iff (name : String) {b : List Record} (hb : b ≠ []) (ha : Addressed (linesOf b)) :
    ∃ x ls, completed name (free (linesOf b)) (linesOf b) = .ok (.str x, ls) ∧
      ((∃ g, built name b = .ok g ∧ Partitions ls g) ↔ (labelNames (code ls)).Nodup ∧ Overlaid (segments ls)) := by
  have hne : linesOf b ≠ [] := by
    intro h
    exact hb (by rw [← code_linesOf b, h]; rfl)
  obtain ⟨x, ls, hls, hf⟩ := ha.exists_completed name (free (linesOf b)) hne
  refine ⟨x, ls, hls, ?_⟩
  rw [built_eq hls]
  exact hf.exists_partitions_iff name (.str x)

def spinning : List Record :=
  [.of "const" [.int 3] (.str "%n"), .of "jz" [.str "%n", .str ".Lspin"] .null, .of "ret" [] .null, .of "label" [.str ".Lspin"] .null,
    .of "jmp" [.str ".Lspin"] .null]

theorem built_partitions_iff_spinning : spinning ≠ [] ∧ Addressed (linesOf spinning) ∧
    ∃ x ls, completed "f" (free (linesOf spinning)) (linesOf spinning) = .ok (.str x, ls) ∧
      ((∃ g, built "f" spinning = .ok g ∧ Partitions ls g) ↔ (labelNames (code ls)).Nodup ∧ Overlaid (segments ls)) := by
  have hb : spinning ≠ [] := cons_ne_nil _ _
  have ha : Addressed (linesOf spinning) := by
    refine ⟨?_, ?_, ?_⟩
    · simp [linesOf, spinning, isOp, Record.of, Datum.is, Record.label?, Record.arg, Datum.string?]
    · simp [linesOf, spinning, Record.of]
    · simp [code_linesOf, Inward, spinning, Record.of, targetOf?, isTest, Datum.is, Record.arg, Datum.string?, conditionals, labelNames,
        Record.label?]
  exact ⟨hb, ha, built_partitions_iff "f" hb ha⟩

def returns : List Record :=
  [.of "label" [.str ".L0"] .null, .of "ret" [] .null, .of "label" [.str ".L1"] .null, .of "ret" [] .null]

/-- The second of two returning blocks follows itself, and a jump behind a return replaces the block it leads to. -/
theorem not_partitions_returns : Body returns ∧ (∀ ls g, built "f" returns = .ok g → ¬Partitions ls g) ∧
    (built "f" returns).map (fun g => g.blocks.map fun e => (e.1, code e.2.lines, e.2.succs, e.2.preds)) =
      .ok [(.str ".L0", returns.take 2, [], []), (.str ".L1", returns.drop 2, [.str ".L1"], [.str ".L1"])] ∧
    (built "f" (returns.take 2 ++ [.of "jmp" [.str ".L0"] .null])).map (fun g => g.blocks.map fun e => (e.1, code e.2.lines)) =
      .ok [(.str ".L0", [.of "jmp" [.str ".L0"] .null])] := by
  have hblocks : (built "f" returns).map (fun g => g.blocks.map fun e => (e.1, code e.2.lines, e.2.succs, e.2.preds)) =
      .ok [(.str ".L0", returns.take 2, [], []), (.str ".L1", returns.drop 2, [.str ".L1"], [.str ".L1"])] := by cbv
  refine ⟨⟨⟨?_, by decide⟩, ?_, ?_, _, rfl, rfl⟩, fun ls g hg hp => ?_, hblocks, by cbv⟩
  · simp [returns, Record.of, Datum.is, Record.label?, Record.arg, Datum.string?]
  · simp [returns, Record.of]
  · simp [Inward, returns, Record.of, targetOf?, isTest, Datum.is, Datum.string?, conditionals]
  · rw [hg] at hblocks
    have hmem : (Datum.str ".L1", returns.drop 2, [Datum.str ".L1"], [Datum.str ".L1"]) ∈
        g.blocks.map fun e => (e.1, code e.2.lines, e.2.succs, e.2.preds) := by simp [Except.ok.inj hblocks]
    obtain ⟨e, he, hblock⟩ := mem_map.1 hmem
    simp only [Prod.mk.injEq] at hblock
    have hjump := (hp.succs e he (.str ".L1")).1 (by simp [hblock])
    rw [jumpsOf, hblock.2.1] at hjump
    simp [returns, Record.of, targetOf?, isTest, Datum.is, Datum.string?, conditionals] at hjump

end Bx.Blocks
