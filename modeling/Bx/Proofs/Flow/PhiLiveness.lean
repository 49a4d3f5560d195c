import Bx.Proofs.Flow.Lines
import Bx.Proofs.Flow.LivePaths
import Bx.Proofs.Flow.Ssa
import Mathlib

namespace Bx.Flow

open List Tac
open Instr (Use)

variable {g : Graph} {x : String} {u : Use} {i j : Line} {ls ls' : List Line} {e e' : Label × Block}

section Paths

def Ahead (u : Use) (ls : List Line) : Prop :=
  ∃ as m ms, ls = as ++ m :: ms ∧ u ∈ m.instr.uses ∧ ∀ l ∈ as, u.temp ∉ l.instr.defs

theorem ahead_cons : Ahead u (i :: ls) ↔ u ∈ i.instr.uses ∨ u.temp ∉ i.instr.defs ∧ Ahead u ls := by
  constructor
  · rintro ⟨_ | ⟨a, as⟩, m, ms, h, hu, hd⟩
    · cases h
      exact .inl hu
    · cases h
      rw [forall_mem_cons] at hd
      exact .inr ⟨hd.1, as, m, ms, rfl, hu, hd.2⟩
  · rintro (hu | ⟨hd, as, m, ms, rfl, hu, hds⟩)
    · exact ⟨[], i, ls, rfl, hu, by simp⟩
    · exact ⟨i :: as, m, ms, rfl, hu, forall_mem_cons.2 ⟨hd, hds⟩⟩

namespace Graph

def Departs (g : Graph) (x : String) (i : Line) : Prop :=
  ∃ ls, (i :: ls).IsChain g.Next ∧ (∀ l ∈ i :: ls, x ∉ l.instr.defs) ∧ ∃ e ∈ g.blocks, e.2.lines.getLast? = (i :: ls).getLast? ∧
    ∃ e' ∈ g.blocks, e'.1 ∈ g.succsOf e.1 ∧ ∃ l ∈ e'.2.lines, .along e.1.text x ∈ l.instr.uses

theorem Departs.back (h : g.Departs x j) (hn : g.Next i j) (hd : x ∉ i.instr.defs) : g.Departs x i := by
  obtain ⟨ls, hchain, hdefs, e, he, hlast, h⟩ := h
  exact ⟨j :: ls, hchain.cons_cons hn, forall_mem_cons.2 ⟨hd, hdefs⟩, e, he, by rwa [List.getLast?_cons_cons], h⟩

def Round (g : Graph) (u : Use) (e : Label × Block) (ls : List Line) : Prop :=
  e.1 ∈ g.succsOf e.1 ∧ Ahead u e.2.lines ∧ ∀ l ∈ ls, u.temp ∉ l.instr.defs

def Circles (g : Graph) (x : String) (i : Line) : Prop :=
  ∃ e ∈ g.blocks, ∃ ls l, i :: ls <:+ e.2.lines ∧ l ≠ e.1.text ∧ g.Round (.along l x) e (i :: ls)

def Wanted (g : Graph) (i : Line) : Use → Prop
  | .plain x => g.Reaches x i ∨ g.Departs x i
  | .along l x => ∃ e ∈ g.blocks, ∃ ls, i :: ls <:+ e.2.lines ∧ (Ahead (.along l x) (i :: ls) ∨ g.Round (.along l x) e (i :: ls))

theorem Wanted.back (h : g.Wanted j (.plain x)) (hn : g.Next i j) (hd : x ∉ i.instr.defs) : g.Wanted i (.plain x) :=
  h.imp (fun h => h.back hn hd) fun h => h.back hn hd

theorem isChain_of_suffix (he : e ∈ g.blocks) (hs : ls <:+ e.2.lines) : ls.IsChain g.Next := by
  induction ls with
  | nil => exact .nil
  | cons i ls ih =>
    have hrest := ih ((suffix_cons i ls).trans hs)
    cases ls with
    | nil => exact .singleton i
    | cons j ls => exact hrest.cons_cons (.inside he hs)

variable (hids : (g.lines.map Line.id).Nodup)
include hids
variable (he : e ∈ g.blocks)
include he

theorem place_unique (he' : e' ∈ g.blocks) (hs : i :: ls <:+ e.2.lines) (hs' : i :: ls' <:+ e'.2.lines) :
    e = e' ∧ ls = ls' := by
  obtain ⟨hnodup, hdisj⟩ := nodup_flatMap.1 (List.Nodup.of_map _ hids)
  obtain rfl : e = e' := by
    by_contra hne
    have : Std.Symm (Function.onFun List.Disjoint fun e : Label × Block => e.2.lines) := ⟨fun _ _ h => h.symm⟩
    exact hdisj.forall he he' hne (hs.subset mem_cons_self) (hs'.subset mem_cons_self)
  refine ⟨rfl, ?_⟩
  have hcons : ∀ ms ms', i :: ms <:+ i :: ms' → i :: ms' <:+ e.2.lines → ms = ms' := by
    intro ms ms' h h'
    rcases suffix_cons_iff.1 h with h | h
    · exact (List.cons.inj h).2
    · exact absurd (h.subset mem_cons_self) (nodup_cons.1 (h'.sublist.nodup (hnodup e he))).1
  rcases suffix_or_suffix_of_suffix hs hs' with h | h
  · exact hcons _ _ h hs'
  · exact (hcons _ _ h hs).symm

theorem block_unique (he' : e' ∈ g.blocks) (hi : i ∈ e.2.lines) (hi' : i ∈ e'.2.lines) : e = e' := by
  obtain ⟨as, ls, hls⟩ := append_of_mem hi
  obtain ⟨as', ls', hls'⟩ := append_of_mem hi'
  exact (place_unique hids he he' ⟨as, hls.symm⟩ ⟨as', hls'.symm⟩).1

omit he in
theorem mem_lines_of_isChain (hg : g.Keyed) (he : e ∈ g.blocks) (hsucc : g.succsOf e.1 = [e.1]) (hi : i ∈ e.2.lines)
    (h : (i :: ls).IsChain g.Next) : ∀ l ∈ i :: ls, l ∈ e.2.lines := by
  refine h.induction (· ∈ e.2.lines) (i :: ls) (fun l m hn hl => ?_) fun _ => hi
  cases hn with
  | inside he' hs =>
    obtain rfl := block_unique hids he he' hl (hs.subset mem_cons_self)
    exact hs.subset (.tail _ (.head _))
  | across he₁ he₂ hd hlast hhead =>
    obtain rfl := block_unique hids he he₁ hl (mem_of_getLast? hlast)
    rw [hsucc, mem_singleton] at hd
    obtain rfl := inj_on_of_nodup_map hg.labels he₂ he hd
    exact mem_of_mem_head? hhead

theorem Wanted.inside (hs : i :: j :: ls <:+ e.2.lines) (h : g.Wanted j u) (hd : u.temp ∉ i.instr.defs) :
    g.Wanted i u := by
  cases u with
  | plain x => exact h.back (.inside he hs) hd
  | along l x =>
    obtain ⟨e', he', ls', hs', h⟩ := h
    obtain ⟨rfl, rfl⟩ := place_unique hids he he' ((suffix_cons i _).trans hs) hs'
    refine ⟨e, he, j :: ls, hs, h.imp (fun h => ahead_cons.2 (.inr ⟨hd, h⟩)) ?_⟩
    rintro ⟨hself, hahead, hdefs⟩
    exact ⟨hself, hahead, forall_mem_cons.2 ⟨hd, hdefs⟩⟩

theorem Wanted.ahead {l : String} (hj : e.2.lines.head? = some j) (h : g.Wanted j (.along l x)) :
    Ahead (.along l x) e.2.lines := by
  obtain ⟨ls, hls⟩ := List.head?_eq_some_iff.1 hj
  obtain ⟨e', he', ls', hs', h⟩ := h
  have hs : j :: ls <:+ e.2.lines := by rw [hls]
  obtain ⟨rfl, rfl⟩ := place_unique hids he he' hs hs'
  rcases h with h | ⟨-, h, -⟩
  · rwa [hls]
  · exact h

theorem Wanted.circle (hself : e.1 ∈ g.succsOf e.1) (hi : e.2.lines.getLast? = some i)
    (hj : e.2.lines.head? = some j) (h : g.Wanted j u) (hd : u.temp ∉ i.instr.defs) : g.Wanted i u := by
  cases u with
  | plain x => exact h.back (.across he he hself hi hj) hd
  | along l x =>
    obtain ⟨as, has⟩ := List.getLast?_eq_some_iff.1 hi
    exact ⟨e, he, [], has ▸ suffix_append as [i], .inr ⟨hself, h.ahead hids he hj, forall_mem_singleton.2 hd⟩⟩

theorem Wanted.across (he' : e' ∈ g.blocks) (hsucc : e'.1 ∈ g.succsOf e.1) (hi : e.2.lines.getLast? = some i)
    (hj : e'.2.lines.head? = some j) (h : g.Wanted j (.plain x) ∨ g.Wanted j (.along e.1.text x)) (hd : x ∉ i.instr.defs) :
    g.Wanted i (.plain x) := by
  rcases h with h | h
  · exact h.back (.across he he' hsucc hi hj) hd
  · obtain ⟨as, m, ms, hm, hu, -⟩ := h.ahead hids he' hj
    exact .inr ⟨[], .singleton i, forall_mem_singleton.2 hd, e, he, hi, e', he', hsucc, m, by simp [hm], hu⟩

end Graph

end Paths

section Exact

variable {ps : List Succession} {m : LiveMap} {v : Liveness} (hg : g.Keyed)
include hg

theorem Grown.mem_inside (hm : Grown ps (allUses g) (firstUses g) m) (hps : g.pairs = .ok ps) (he : e ∈ g.blocks)
    (hs : i :: j :: ls <:+ e.2.lines) (hu : u ∈ m.liveAt j.id) (hd : u.temp ∉ i.instr.defs) : u ∈ m.liveAt i.id := by
  have hp := (mem_pairs_iff hg hps).2 (.inl ⟨e, he, i, j, ls, hs, rfl⟩)
  have hi : i ∈ g.lines := mem_flatMap.2 ⟨e, he, hs.subset mem_cons_self⟩
  exact hm.passed_subset hp (mem_keys_firstUses hi) (mem_passed.2 ⟨hd, by rwa [if_pos rfl]⟩)

variable (hids : (g.lines.map Line.id).Nodup)
include hids

theorem carried_wanted (hps : g.pairs = .ok ps) :
    Carried ps (fun k u => ∀ l ∈ g.lines, l.id = k → g.Wanted l u) (firstUses g) := by
  have hident := Graph.identified_of_nodup hids
  have hnext : ∀ p ∈ ps, p.line ∈ g.lines ∧ p.next ∈ g.lines := fun p hp =>
    ((exists_pair_iff hg hps).1 ⟨p, hp, rfl, rfl⟩).mem_lines
  refine ⟨?_, fun p hp hlabel u hu hd l hl hid => ?_, fun p hp hlabel x hx hd l hl hid => ?_⟩
  · rintro _ u hu l hl rfl
    rw [firstUses_liveAt hident hl, mem_eraseDups] at hu
    cases u with
    | plain x => exact .inl (.here hu)
    | along k x =>
      obtain ⟨e, he, hl⟩ := mem_flatMap.1 hl
      obtain ⟨as, ls, hls⟩ := append_of_mem hl
      exact ⟨e, he, ls, ⟨as, hls.symm⟩, .inl (ahead_cons.2 (.inl hu))⟩
  · obtain rfl := hident l hl p.line (hnext p hp).1 hid
    have hu := hu p.next (hnext p hp).2 rfl
    rcases (mem_pairs_iff hg hps).1 hp with ⟨e, he, i, j, ls, hs, rfl⟩ | ⟨e, he, e', he', i, j, hsucc, hi, hj, rfl⟩
    · exact hu.inside hids he hs hd
    · obtain rfl : e = e' := inj_on_of_nodup_map hg.labels he he' hlabel
      exact hu.circle hids he hsucc hi hj hd
  · obtain rfl := hident l hl p.line (hnext p hp).1 hid
    have hx := hx.imp (fun h => h p.next (hnext p hp).2 rfl) fun h => h p.next (hnext p hp).2 rfl
    rcases (mem_pairs_iff hg hps).1 hp with ⟨e, he, i, j, ls, hs, rfl⟩ | ⟨e, he, e', he', i, j, hsucc, hi, hj, rfl⟩
    · exact absurd rfl hlabel
    · exact .across hids he he' hsucc hi hj hx hd

theorem reaches_of_livein_phi (h : liveness g = .ok v)
    (hfirst : ∀ e ∈ g.blocks, e.2.lines.Pairwise fun l m => l.instr.isPhi = false → m.instr.isPhi = false)
    (hi : i ∈ g.lines) (hphi : i.instr.isPhi = false) (hx : x ∈ v.livein i.id) : g.Reaches x i ∨ g.Departs x i ∨ g.Circles x i := by
  obtain ⟨ps, m, hps, hm, hin, -⟩ := liveness_eq_ok h
  obtain ⟨u, hu, rfl⟩ := (hin i.id x).1 hx
  have hwanted := (hm.least _ (carried_wanted hg hids hps)).holds i.id u hu i hi rfl
  cases u with
  | plain x => exact or_assoc.1 (.inl hwanted)
  | along k x =>
    obtain ⟨e, he, ls, hs, h | hround⟩ := hwanted
    · -- A phi can not come behind a line that is none.
      obtain ⟨as, l, ms, hl, hu, -⟩ := h
      have hfree := pairwise_cons.1 ((hfirst e he).sublist hs.sublist)
      have hnot : ∀ l ∈ i :: ls, l.instr.isPhi = false := forall_mem_cons.2 ⟨hphi, fun l hl => hfree.1 l hl hphi⟩
      rw [uses_eq (hnot l (by simp [hl]))] at hu
      simp at hu
    · by_cases hk : k = e.1.text
      · obtain ⟨hself, ⟨as, l, ms, hl, hu, -⟩, hdefs⟩ := hround
        obtain ⟨bs, hbs⟩ := hs
        refine .inr (.inl ⟨ls, Graph.isChain_of_suffix he ⟨bs, hbs⟩, hdefs, e, he, ?_, e, he, hself, l, by simp [hl], hk ▸ hu⟩)
        rw [← hbs, List.getLast?_append_of_ne_nil _ (cons_ne_nil i ls)]
      · exact .inr (.inr ⟨e, he, ls, k, hs, hk, hround⟩)

theorem Grown.mem_of_ahead (hm : Grown ps (allUses g) (firstUses g) m) (hps : g.pairs = .ok ps) (he : e ∈ g.blocks)
    (hs : i :: ls <:+ e.2.lines) (h : Ahead u (i :: ls)) : u ∈ m.liveAt i.id := by
  induction ls generalizing i with
  | nil =>
    rcases ahead_cons.1 h with h | ⟨-, as, l, ms, h, -⟩
    · exact hm.mem_of_uses (Graph.identified_of_nodup hids) (mem_flatMap.2 ⟨e, he, hs.subset mem_cons_self⟩) h
    · simp at h
  | cons j ls ih =>
    rcases ahead_cons.1 h with h | ⟨hd, h⟩
    · exact hm.mem_of_uses (Graph.identified_of_nodup hids) (mem_flatMap.2 ⟨e, he, hs.subset mem_cons_self⟩) h
    · exact hm.mem_inside hg hps he hs (ih ((suffix_cons i _).trans hs) h) hd

theorem Grown.mem_of_round (hm : Grown ps (allUses g) (firstUses g) m) (hps : g.pairs = .ok ps) (he : e ∈ g.blocks)
    (hs : i :: ls <:+ e.2.lines) (h : g.Round u e (i :: ls)) : u ∈ m.liveAt i.id := by
  obtain ⟨hself, hahead, hdefs⟩ := h
  induction ls generalizing i with
  | nil =>
    obtain ⟨as, has⟩ := hs
    obtain ⟨j, ms, hls⟩ := exists_cons_of_ne_nil (has ▸ concat_ne_nil i as)
    have hlast : e.2.lines.getLast? = some i := by rw [← has, List.getLast?_concat]
    have hu := hm.mem_of_ahead hg hids hps he (by rw [hls]) (hls ▸ hahead)
    have hp := (mem_pairs_iff hg hps).2 (.inr ⟨e, he, e, he, i, j, hself, hlast, by rw [hls]; rfl, rfl⟩)
    have hi : i ∈ g.lines := mem_flatMap.2 ⟨e, he, mem_of_getLast? hlast⟩
    exact hm.passed_subset hp (mem_keys_firstUses hi) (mem_passed.2 ⟨hdefs i mem_cons_self, by rwa [if_pos rfl]⟩)
  | cons j ls ih =>
    rw [forall_mem_cons] at hdefs
    exact hm.mem_inside hg hps he hs (ih ((suffix_cons i _).trans hs) hdefs.2) hdefs.1

theorem livein_of_circles (h : liveness g = .ok v) (hx : g.Circles x i) : x ∈ v.livein i.id := by
  obtain ⟨ps, m, hps, hm, hin, -⟩ := liveness_eq_ok h
  obtain ⟨e, he, ls, k, hs, -, hround⟩ := hx
  exact (hin _ _).2 ⟨.along k x, hm.mem_of_round hg hids hps he hs hround, rfl⟩

end Exact

section Outline

variable {v : Liveness}

def mark (l : Line) : Nat × Bool × Bool := (l.id, l.instr.isPhi, l.instr.isFrozen)

theorem mark_renameDest (id : Nat) (f : String → String) (i : Instr) : mark ⟨id, i.renameDest f⟩ = mark ⟨id, i⟩ := by
  cases i <;> rfl

theorem mark_renameReads (id : Nat) (f : String → String) (i : Instr) : mark ⟨id, i.renameReads f⟩ = mark ⟨id, i⟩ := by
  cases i <;> rfl

theorem map_mark_versionLines (k : Nat) (ls : List Line) : (versionLines k ls).1.map mark = ls.map mark := by
  induction ls generalizing k with
  | nil => rfl
  | cons l ls ih =>
    have hl : mark (versionLine k l).1 = mark l := by
      rw [versionLine]
      split
      · exact mark_renameDest ..
      · rfl
    simp only [versionLines, map_cons, hl, ih]

theorem map_mark_renameUses (r : Renaming) (ls : List Line) : (renameUses r ls).1.map mark = ls.map mark := by
  induction ls generalizing r with
  | nil => rfl
  | cons l ls ih => simp only [renameUses, map_cons, mark_renameReads, ih]

theorem map_mark_renamePhis (ends : List (String × Renaming)) (ls : List Line) : (renamePhis ends ls).1.map mark = ls.map mark := by
  induction ls with
  | nil => rfl
  | cons l ls ih =>
    rw [renamePhis]
    split
    · next hi =>
        split
        · simp [mark, hi, Instr.isPhi, Instr.isFrozen]
        · simp [mark, hi, Instr.isPhi, Instr.isFrozen] at ih ⊢
          exact ih
    · simp only [map_cons, ih]

def outline (es : List (Label × Block)) : List (Label × List (Nat × Bool × Bool)) :=
  es.map fun e => (e.1, e.2.body.map mark ++ e.2.jumps.map mark)

theorem outline_cons (e : Label × Block) (es : List (Label × Block)) :
    outline (e :: es) = (e.1, e.2.body.map mark ++ e.2.jumps.map mark) :: outline es := rfl

theorem outline_versionBlocks (k : Nat) (es : List (Label × Block)) : outline (versionBlocks k es) = outline es := by
  induction es generalizing k with
  | nil => rfl
  | cons e es ih => simp only [versionBlocks, outline_cons, map_mark_versionLines, ih]

theorem outline_renameBlock (es : List (Label × Block)) : outline (es.map fun e => (e.1, (renameBlock e.2).1)) = outline es := by
  induction es with
  | nil => rfl
  | cons e es ih =>
    rw [map_cons, outline_cons, ih, outline_cons]
    simp only [renameBlock, map_mark_renameUses]

theorem outline_renamePhiBlocks (ends : List (String × Renaming)) (es : List (Label × Block)) :
    outline (renamePhiBlocks ends es).1 = outline es := by
  induction es with
  | nil => rfl
  | cons e es ih =>
    have hbody := map_mark_renamePhis ends e.2.body
    have hjumps := map_mark_renamePhis ends e.2.jumps
    rw [renamePhiBlocks]
    split
    · next h => rw [h] at hbody; simp only [outline_cons, hbody]
    · next h =>
        rw [h] at hbody
        split
        · next h => rw [h] at hjumps; simp only [outline_cons, hbody, hjumps]
        · next h => rw [h] at hjumps; simp only [outline_cons, hbody, hjumps, ih]

theorem ssa_outline {taken : Nat} {params : List Datum} {g' : Graph} (h : ssa taken params g = (g', none)) :
    ∃ v, liveness g = .ok v ∧ g' = { g with blocks := g'.blocks } ∧
      outline g'.blocks = outline (insertPhis g v (freshId taken g.lines) g.blocks) := by
  rw [ssa] at h
  rcases hv : liveness g with f | v
  · simp [hv] at h
  · simp only [hv] at h
    split at h
    · simp at h
    · simp only [Prod.mk.injEq] at h
      obtain ⟨rfl, -⟩ := h
      refine ⟨v, rfl, rfl, ?_⟩
      rw [outline_renamePhiBlocks, map_map]
      exact (outline_renameBlock _).trans (outline_versionBlocks _ _)

theorem map_id_phisOf (g : Graph) (v : Liveness) (fresh : Nat) (b : Block) :
    (phisOf g v fresh b).map Line.id = List.range' fresh (phisOf g v fresh b).length := by
  rw [phisOf_eq, map_map, length_map, length_zipIdx]
  have h := congrArg (List.map (fresh + ·)) (zipIdx_map_snd 0 (liveHead v b))
  rw [map_map, map_add_range'] at h
  exact h

theorem phisOf_isPhi {fresh : Nat} {b : Block} (h : i ∈ phisOf g v fresh b) : i.instr.isPhi ∧ i.instr.isFrozen = false := by
  rw [phisOf_eq] at h
  obtain ⟨t, -, rfl⟩ := mem_map.1 h
  exact ⟨rfl, rfl⟩

theorem map_id_insertPhis (g : Graph) (v : Liveness) (fresh : Nat) (es : List (Label × Block)) :
    ∃ n, ((insertPhis g v fresh es).flatMap fun e => e.2.lines.map Line.id).Perm
      ((es.flatMap fun e => e.2.lines.map Line.id) ++ List.range' fresh n) := by
  induction es generalizing fresh with
  | nil => exact ⟨0, .nil⟩
  | cons e es ih =>
    obtain ⟨n, hn⟩ := ih (fresh + (phisOf g v fresh e.2).length)
    refine ⟨(phisOf g v fresh e.2).length + n, ?_⟩
    have hlines : (phisOf g v fresh e.2 ++ e.2.body ++ e.2.jumps).map Line.id =
        List.range' fresh (phisOf g v fresh e.2).length ++ e.2.lines.map Line.id := by
      rw [append_assoc, map_append, map_id_phisOf, Block.lines]
    rw [insertPhis, flatMap_cons, flatMap_cons, ← List.range'_append_1]
    refine ((List.Perm.of_eq hlines).append hn).trans (perm_iff_count.2 fun k => ?_)
    simp only [count_append]
    omega

theorem mem_insertPhis {fresh : Nat} {es : List (Label × Block)} (he : e' ∈ insertPhis g v fresh es) :
    ∃ e ∈ es, ∃ k, e'.1 = e.1 ∧ e'.2.lines = phisOf g v k e.2 ++ e.2.lines := by
  induction es generalizing fresh with
  | nil => cases he
  | cons e es ih =>
    rcases mem_cons.1 he with rfl | he
    · exact ⟨e, mem_cons_self, fresh, rfl, append_assoc ..⟩
    · obtain ⟨e, he, h⟩ := ih he
      exact ⟨e, mem_cons_of_mem _ he, h⟩

theorem mem_of_outline {es es' : List (Label × Block)} (h : outline es' = outline es) (he : e' ∈ es') :
    ∃ e ∈ es, e'.1 = e.1 ∧ e'.2.lines.map mark = e.2.lines.map mark := by
  have hmem := mem_map_of_mem (f := fun e : Label × Block => (e.1, e.2.body.map mark ++ e.2.jumps.map mark)) he
  rw [outline, outline] at h
  rw [h] at hmem
  obtain ⟨e, he, heq⟩ := mem_map.1 hmem
  obtain ⟨hlabel, hmarks⟩ := Prod.mk.inj heq
  exact ⟨e, he, hlabel.symm, by rw [Block.lines, Block.lines, map_append, map_append, hmarks]⟩

theorem map_id_of_outline {es es' : List (Label × Block)} (h : outline es' = outline es) :
    (es'.flatMap fun e => e.2.lines.map Line.id) = es.flatMap fun e => e.2.lines.map Line.id := by
  have hids : ∀ es, (es.flatMap fun e => e.2.lines.map Line.id) = (outline es).flatMap fun a => a.2.map Prod.fst := by
    intro es
    rw [outline, flatMap_map]
    simp [Block.lines, mark, Function.comp_def]
  rw [hids, hids, h]

theorem map_fst_of_outline {es es' : List (Label × Block)} (h : outline es' = outline es) : es'.map Prod.fst = es.map Prod.fst := by
  have := congrArg (List.map Prod.fst) h
  simpa [outline, Function.comp_def] using this

theorem map_fst_insertPhis (fresh : Nat) (es : List (Label × Block)) : (insertPhis g v fresh es).map Prod.fst = es.map Prod.fst := by
  induction es generalizing fresh with
  | nil => rfl
  | cons e es ih => rw [insertPhis, map_cons, map_cons, ih]

/-- A graph with phis put in front of its blocks, and other names in them. -/
structure Opened (g : Graph) (v : Liveness) (g' : Graph) : Prop where
  rest : g' = { g with blocks := g'.blocks }
  labels : g'.labels = g.labels
  ids : ∃ k n, (∀ l ∈ g.lines, l.id < k) ∧ (g'.lines.map Line.id).Perm (g.lines.map Line.id ++ List.range' k n)
  blocks : ∀ e' ∈ g'.blocks, ∃ e ∈ g.blocks, ∃ k, e'.1 = e.1 ∧ e'.2.lines.map mark = (phisOf g v k e.2 ++ e.2.lines).map mark

theorem ssa_opened {taken : Nat} {params : List Datum} {g' : Graph} (h : ssa taken params g = (g', none)) :
    ∃ v, liveness g = .ok v ∧ Opened g v g' := by
  obtain ⟨v, hv, hg', hout⟩ := ssa_outline h
  refine ⟨v, hv, hg', (map_fst_of_outline hout).trans (map_fst_insertPhis ..), ?_, fun e' he' => ?_⟩
  · obtain ⟨n, hn⟩ := map_id_insertPhis g v (freshId taken g.lines) g.blocks
    refine ⟨_, n, fun l hl => lt_freshId taken hl, ?_⟩
    rw [Graph.lines, Graph.lines, map_flatMap, map_flatMap, map_id_of_outline hout]
    exact hn
  · obtain ⟨e₁, he₁, hlabel, hmarks⟩ := mem_of_outline hout he'
    obtain ⟨e, he, k, hlabel₁, hlines⟩ := mem_insertPhis he₁
    exact ⟨e, he, k, hlabel.trans hlabel₁, hlines ▸ hmarks⟩

namespace Opened

variable {g' : Graph} (h : Opened g v g')
include h

theorem keyed (hg : g.Cut) : g'.Keyed :=
  ⟨h.labels ▸ hg.nodup, by rw [h.rest, hg.succKeys]; exact hg.nodup⟩

theorem nodup_ids (hids : (g.lines.map Line.id).Nodup) : (g'.lines.map Line.id).Nodup := by
  obtain ⟨k, n, hlt, hperm⟩ := h.ids
  refine hperm.nodup_iff.2 (nodup_append.2 ⟨hids, nodup_range' 1, ?_⟩)
  rintro _ hm _ hm' rfl
  obtain ⟨l, hl, rfl⟩ := mem_map.1 hm
  exact absurd (mem_range'_1.1 hm').1 (Nat.not_le.2 (hlt l hl))

theorem lines_ne_nil (hv : liveness g = .ok v) (he : e' ∈ g'.blocks) : e'.2.lines ≠ [] := by
  intro hnil
  obtain ⟨ps, -, hps, -⟩ := liveness_eq_ok hv
  obtain ⟨e, he, k, -, hmarks⟩ := h.blocks e' he
  rw [hnil] at hmarks
  exact lines_ne_nil_of_pairs hps he (append_eq_nil_iff.1 (map_eq_nil_iff.1 hmarks.symm)).2

theorem not_frozen (hv : liveness g = .ok v) (hj : j ∈ g'.lines) : j.instr.isFrozen = false := by
  obtain ⟨e', he', hj⟩ := mem_flatMap.1 hj
  obtain ⟨e, he, k, -, hmarks⟩ := h.blocks e' he'
  obtain ⟨i, hi, hmark⟩ := mem_map.1 (hmarks ▸ mem_map_of_mem (f := mark) hj)
  have hfrozen : i.instr.isFrozen = j.instr.isFrozen := congrArg (fun a => a.2.2) hmark
  rw [← hfrozen]
  rcases mem_append.1 hi with hi | hi
  · exact (phisOf_isPhi hi).2
  · exact isFrozen_of_liveness hv i (mem_flatMap.2 ⟨e, he, hi⟩)

theorem exists_liveness (hg : g.Cut) (hv : liveness g = .ok v) : ∃ v', liveness g' = .ok v' := by
  have hedges : ∀ e ∈ g'.edges, e.1 ∈ g'.labels ∧ e.2 ∈ g'.labels := by
    rw [h.labels, show g'.edges = g.edges by rw [h.rest]; rfl]
    exact hg.edges
  obtain ⟨ps, hps⟩ := (exists_pairs_iff (h.keyed hg) fun _ he => h.lines_ne_nil hv he).2 hedges
  exact exists_liveness_of_pairs (fun l hl => h.not_frozen hv hl) hps

theorem phis_first (hphi : ∀ l ∈ g.lines, l.instr.isPhi = false) :
    ∀ e ∈ g'.blocks, e.2.lines.Pairwise fun l m => l.instr.isPhi = false → m.instr.isPhi = false := by
  intro e' he'
  obtain ⟨e, he, k, -, hmarks⟩ := h.blocks e' he'
  have hfree : ∀ l ∈ e.2.lines, l.instr.isPhi = false := fun l hl => hphi l (mem_flatMap.2 ⟨e, he, hl⟩)
  have hpair : ((phisOf g v k e.2 ++ e.2.lines).map mark).Pairwise fun a b => a.2.1 = false → b.2.1 = false := by
    rw [pairwise_map, pairwise_append]
    refine ⟨pairwise_of_forall_mem_list fun l hl m hm hl' => ?_, pairwise_of_forall_mem_list fun l hl m hm _ => hfree m hm,
      fun l hl m hm _ => hfree m hm⟩
    simp [mark, (phisOf_isPhi hl).1] at hl'
  rwa [← hmarks, pairwise_map] at hpair

end Opened

end Outline

section Procedures

variable {p : Proc Instr} {r r' : Routine}

theorem isFrozen_relabel {ρ : Renaming} {i i' : Instr} (h : relabel ρ i = some i') : i'.isFrozen = i'.isPhi := by
  cases i <;> cases h <;> rfl

theorem inferProc_phiFree_of_liveness {v : Liveness} (hr : inferProc p = .ok r) (hv : liveness r.graph = .ok v) :
    ∀ l ∈ r.graph.lines, l.instr.isPhi = false := by
  obtain ⟨-, -, -, -, ρ, -, hmem⟩ := inferProc_lines hr
  intro l hl
  rcases hmem l hl with ⟨y, hy⟩ | ⟨i, -, -, hi⟩
  · rw [hy]
    rfl
  · rw [← isFrozen_relabel hi]
    exact isFrozen_of_liveness hv l hl

theorem ssaProc_graph (hr : inferProc p = .ok r) (hr' : ssaProc r = .ok r') :
    r'.graph.Keyed ∧ (r'.graph.lines.map Line.id).Nodup ∧ (∃ v, liveness r'.graph = .ok v) ∧
      ∀ e ∈ r'.graph.blocks, e.2.lines.Pairwise fun l m => l.instr.isPhi = false → m.instr.isPhi = false := by
  obtain ⟨rfl, -, hg, hids, -⟩ := inferProc_lines hr
  obtain ⟨g', hssa, rfl⟩ : ∃ g', ssa (freshId r.proc.body.length r.graph.lines) r.proc.params r.graph = (g', none) ∧
      r' = { r with graph := g' } := by
    rw [ssaProc] at hr'
    split at hr'
    · next g' hssa => exact ⟨g', hssa, (Except.ok.inj hr').symm⟩
    · cases hr'
  obtain ⟨v, hv, h⟩ := ssa_opened hssa
  exact ⟨h.keyed hg, h.nodup_ids hids, h.exists_liveness hg hv, h.phis_first (inferProc_phiFree_of_liveness hr hv)⟩

/-- In single assignment form a temporary is live at a line other than a phi only if a path without a definition leads to a
use other than in a phi, or to an edge along which a phi reads it; or if the line is in a block that leads to itself and a
phi of that block reads it, along whatever edge. In the first and the last case it is live indeed. -/
theorem ssaProc_livein {p : Proc Instr} {r r' : Routine} (hr : inferProc p = .ok r) (hr' : ssaProc r = .ok r') :
    ∃ v, liveness r'.graph = .ok v ∧ ∀ i ∈ r'.graph.lines, i.instr.isPhi = false → ∀ x,
      (x ∈ v.livein i.id → r'.graph.Reaches x i ∨ r'.graph.Departs x i ∨ r'.graph.Circles x i) ∧
      (r'.graph.Reaches x i ∨ r'.graph.Circles x i → x ∈ v.livein i.id) := by
  obtain ⟨hg, hids, ⟨v, hv⟩, hfirst⟩ := ssaProc_graph hr hr'
  refine ⟨v, hv, fun i hi hphi x => ⟨reaches_of_livein_phi hg hids hv hfirst hi hphi, ?_⟩⟩
  rintro (hx | hx)
  · exact livein_of_reaches hg (Graph.identified_of_nodup hids) hv hi hx
  · exact livein_of_circles hg hids hv hx

def circling : Proc Instr :=
  ⟨"@main", [.str "%x"], [.label "%.La", .jmp "%.Lb", .label "%.Lb", .copy "%y" "%x", .jmp "%.Lb"]⟩

theorem exists_circling : ∃ r r' e l₁ l₂ l₃, inferProc circling = .ok r ∧ ssaProc r = .ok r' ∧ e ∈ r'.graph.blocks ∧
    e.1.text = "%.L1" ∧ r'.graph.succsOf e.1 = [e.1] ∧ e.2.lines = [l₁, l₂, l₃] ∧
    l₁.instr = .phi "%x.1" [("%.L0", "%x.0"), ("%.L1", "%x.1")] ∧ l₂.instr = .copy "%y.2" "%x.1" ∧ l₃.instr = .jmp "%.L1" := by
  have hall : ((inferProc circling).toOption.any fun r => (ssaProc r).toOption.any fun r' => r'.graph.blocks.any fun e =>
      decide (e.1.text = "%.L1") && decide (r'.graph.succsOf e.1 = [e.1]) && decide (code e.2.lines =
        [.phi "%x.1" [("%.L0", "%x.0"), ("%.L1", "%x.1")], .copy "%y.2" "%x.1", .jmp "%.L1"])) := by decide +kernel
  simp only [Option.any_eq_true, Bool.and_eq_true, any_eq_true, decide_eq_true_eq] at hall
  obtain ⟨r, hr, r', hr', e, he, ⟨htext, hsucc⟩, hcode⟩ := hall
  simp only [code, map_eq_cons_iff, map_eq_nil_iff] at hcode
  obtain ⟨l₁, _, hlines, h₁, l₂, _, rfl, h₂, l₃, _, rfl, h₃, rfl⟩ := hcode
  exact ⟨r, r', e, l₁, l₂, l₃, eq_ok_of_toOption hr, eq_ok_of_toOption hr', he, htext, hsucc, hlines, h₁, h₂, h₃⟩

theorem circles_circling {g : Graph} {l₁ l₂ l₃ : Line} (he : e ∈ g.blocks) (htext : e.1.text = "%.L1") (hsucc : g.succsOf e.1 = [e.1])
    (hlines : e.2.lines = [l₁, l₂, l₃]) (h₁ : l₁.instr = .phi "%x.1" [("%.L0", "%x.0"), ("%.L1", "%x.1")])
    (h₂ : l₂.instr = .copy "%y.2" "%x.1") (h₃ : l₃.instr = .jmp "%.L1") : g.Circles "%x.0" l₂ := by
  refine ⟨e, he, [l₃], "%.L0", hlines ▸ suffix_cons l₁ _, by rw [htext]; decide, by simp [hsucc], ?_, ?_⟩
  · rw [hlines, ahead_cons, h₁]
    exact .inl (by decide +kernel)
  · simp only [forall_mem_cons, h₂, h₃]
    decide +kernel

/-- Round the loop goes the version that comes from before it. -/
theorem ssaProc_livein_circling : ∃ r r' v, ∃ i : Line, inferProc circling = .ok r ∧ ssaProc r = .ok r' ∧ liveness r'.graph = .ok v ∧
    i.instr = .copy "%y.2" "%x.1" ∧ "%x.0" ∈ v.livein i.id := by
  obtain ⟨r, r', e, l₁, l₂, l₃, hr, hr', he, htext, hsucc, hlines, h₁, h₂, h₃⟩ := exists_circling
  obtain ⟨v, hv, hlive⟩ := ssaProc_livein hr hr'
  have hmem : l₂ ∈ r'.graph.lines := mem_flatMap.2 ⟨e, he, by simp [hlines]⟩
  exact ⟨r, r', v, l₂, hr, hr', hv, h₂, (hlive l₂ hmem (by rw [h₂]; rfl) "%x.0").2
    (.inr (circles_circling he htext hsucc hlines h₁ h₂ h₃))⟩

/-- Though live there, it is not read behind the copy, nor by a phi along the edge round the loop. -/
theorem not_awaited_circling : ∃ r r' v, ∃ i : Line, inferProc circling = .ok r ∧ ssaProc r = .ok r' ∧ liveness r'.graph = .ok v ∧
    i ∈ r'.graph.lines ∧ i.instr.isPhi = false ∧ "%x.0" ∈ v.livein i.id ∧ ¬ (r'.graph.Reaches "%x.0" i ∨ r'.graph.Departs "%x.0" i) := by
  obtain ⟨r, r', e, l₁, l₂, l₃, hr, hr', he, htext, hsucc, hlines, h₁, h₂, h₃⟩ := exists_circling
  obtain ⟨hg, hids, ⟨v, hv⟩, -⟩ := ssaProc_graph hr hr'
  have hl₂ : l₂ ∈ e.2.lines := by simp [hlines]
  refine ⟨r, r', v, l₂, hr, hr', hv, mem_flatMap.2 ⟨e, he, hl₂⟩, by rw [h₂]; rfl,
    livein_of_circles hg hids hv (circles_circling he htext hsucc hlines h₁ h₂ h₃), ?_⟩
  have huses : ∀ l ∈ e.2.lines, .plain "%x.0" ∉ l.instr.uses ∧ .along "%.L1" "%x.0" ∉ l.instr.uses := by
    simp only [hlines, forall_mem_cons, h₁, h₂, h₃]
    decide +kernel
  rintro (⟨ls, hchain, ⟨j, hj, hu⟩, -⟩ | ⟨ls, hchain, -, e₁, he₁, hlast, e₂, he₂, hd, l, hl, hu⟩)
  · have hmem := r'.graph.mem_lines_of_isChain hids hg he hsucc hl₂ hchain j (mem_of_getLast? hj)
    exact (huses j hmem).1 hu
  · obtain ⟨j, hj⟩ := Option.isSome_iff_exists.1 (List.getLast?_isSome.2 (cons_ne_nil l₂ ls))
    have hmem := r'.graph.mem_lines_of_isChain hids hg he hsucc hl₂ hchain j (mem_of_getLast? hj)
    obtain rfl := Graph.block_unique hids he he₁ hmem (mem_of_getLast? (hlast.trans hj))
    rw [hsucc, mem_singleton] at hd
    obtain rfl := inj_on_of_nodup_map hg.labels he₂ he hd
    exact (huses l hl).2 (htext ▸ hu)

end Procedures

end Bx.Flow
