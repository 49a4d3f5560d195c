import Bx.Proofs.Flow.Graph
import Mathlib.Algebra.GroupWithZero.Nat
import Mathlib.Logic.Relation

namespace Bx.Flow

open List hiding after
open Tac Run.Checked

variable {x : Label} {y : String} {b b' : Block} {l : Line}

namespace Graph

variable {g : Graph}

/-- Blocks under labels of their own, with edges that lead from block to block. -/
structure Bounded (g : Graph) : Prop where
  named : ∀ e ∈ g.blocks, e.2.label = e.1 ∧ ∃ s, e.1 = .name s ∧ isLabelName s = true
  nodup : g.labels.Nodup
  succKeys : ∀ x, x ∈ g.succs.map Prod.fst ↔ x ∈ g.labels
  closed : ∀ a b, b ∈ g.succsOf a → b ∈ g.labels

theorem Cut.bounded (hg : g.Cut) : g.Bounded where
  named := hg.named
  nodup := hg.nodup
  succKeys x := by rw [hg.succKeys]
  closed a b hb := by
    obtain ⟨e, he, rfl⟩ := mem_map.1 (hg.succKeys ▸ mem_keys_of_mem hb)
    exact hg.closed e he b ((hg.succ e he b).1 hb)

theorem Bounded.placeable (hg : g.Bounded) (hx : x ∈ g.labels) :
    ∃ b, (x, b) ∈ g.blocks ∧ b.label = x ∧ Flow.placeable g x = .ok (x.text, b) := by
  obtain ⟨⟨y, b⟩, hb, rfl⟩ := mem_map.1 hx
  obtain ⟨hlabel, s, rfl, hs⟩ := hg.named _ hb
  refine ⟨b, hb, hlabel, ?_⟩
  simp only [Flow.placeable, Graph.block, lookup_of_mem hg.nodup hb, ok_bind, hs, if_true]
  rfl

theorem Bounded.successors (hg : g.Bounded) (hx : x ∈ g.labels) : g.successors x = .ok (g.succsOf x) := by
  obtain ⟨s, hs⟩ := Option.isSome_iff_exists.1 (lookup_isSome.2 ((hg.succKeys x).2 hx))
  simp [Graph.successors, succsOf, hs]

def Leads (g : Graph) : Label → Label → Prop := Relation.ReflTransGen fun a b => b ∈ g.succsOf a

theorem Leads.mem_labels (hg : g.Bounded) {y : Label} (h : g.Leads x y) (hx : x ∈ g.labels) : y ∈ g.labels := by
  cases h with
  | refl => exact hx
  | tail _ hy => exact hg.closed _ _ hy

def pending (t : List (Label × LabelSet)) (seen : LabelSet) : Nat :=
  ((t.filter fun e => !seen.contains e.1).map fun e => e.2.length).sum

theorem edges_length (g : Graph) : g.edges.length = pending g.succs [] := by
  simp only [edges, pending, length_flatMap, length_map]
  simp

theorem pending_cons (e : Label × LabelSet) (t : List (Label × LabelSet)) (seen : LabelSet) :
    pending (e :: t) seen = (if e.1 ∈ seen then 0 else e.2.length) + pending t seen := by
  by_cases h : e.1 ∈ seen <;> simp [pending, h]

theorem pending_insert_le (t : List (Label × LabelSet)) (seen : LabelSet) (x : Label) :
    pending t (LabelSet.insert x seen) ≤ pending t seen := by
  induction t with
  | nil => simp [pending]
  | cons e t ih =>
    rw [pending_cons, pending_cons]
    simp only [LabelSet.mem_insert]
    grind

theorem pending_insert {t : List (Label × LabelSet)} {seen : LabelSet} {s : LabelSet} (hs : t.lookup x = some s) (hx : x ∉ seen) :
    pending t (LabelSet.insert x seen) + s.length ≤ pending t seen := by
  induction t with
  | nil => simp at hs
  | cons e t ih =>
    rw [pending_cons, pending_cons]
    simp only [LabelSet.mem_insert]
    rw [lookup_cons] at hs
    by_cases h : x = e.1
    · subst h
      simp only [beq_self_eq_true, Option.some.injEq] at hs
      subst hs
      have := pending_insert_le t seen e.1
      simp only [true_or, if_true, hx, if_false]
      omega
    · rw [beq_eq_false_iff_ne.2 h] at hs
      have := ih hs
      simp only [Ne.symm h, false_or]
      omega

/-- The blocks met in order, those met by now, and those put off. -/
structure Walked (g : Graph) (todo : List Label) (seen : LabelSet) (put order : List Label) (seen' : LabelSet)
    (put' : List Label) : Prop where
  met : ∀ x, x ∈ seen' ↔ x ∈ seen ∨ x ∈ order
  fresh : ∀ x ∈ order, x ∉ seen
  nodup : order.Nodup
  inner : ∀ x ∈ order, g.succsOf x ≠ []
  exits : ∀ x ∈ put', x ∈ put ∨ g.succsOf x = []
  kept : ∀ x ∈ put, x ∈ put'
  done : ∀ x ∈ todo, x ∈ seen' ∨ x ∈ put'
  closed : ∀ x ∈ order, ∀ y ∈ g.succsOf x, y ∈ seen' ∨ y ∈ put'
  reached : ∀ x, x ∈ order ∨ x ∈ put' → x ∈ put ∨ ∃ t ∈ todo, g.Leads t x

section Walked

variable {x : Label} {todo : List Label} {seen : LabelSet} {put order : List Label} {seen' : LabelSet} {put' : List Label}

theorem Walked.stop : Walked g [] seen put [] seen put :=
  ⟨by simp, by simp, nodup_nil, by simp, fun _ hx => .inl hx, fun _ hx => hx, by simp, by simp,
    fun _ hx => .inl (hx.resolve_left (by simp))⟩

theorem Walked.skip (h : Walked g todo seen put order seen' put') (hx : x ∈ seen) :
    Walked g (x :: todo) seen put order seen' put' where
  met := h.met
  fresh := h.fresh
  nodup := h.nodup
  inner := h.inner
  exits := h.exits
  kept := h.kept
  done := forall_mem_cons.2 ⟨.inl ((h.met x).2 (.inl hx)), h.done⟩
  closed := h.closed
  reached y hy := (h.reached y hy).imp_right (Exists.imp fun _ => And.imp_left (mem_cons_of_mem x))

theorem Walked.putOff (h : Walked g todo seen (x :: put) order seen' put') (hs : g.succsOf x = []) :
    Walked g (x :: todo) seen put order seen' put' where
  met := h.met
  fresh := h.fresh
  nodup := h.nodup
  inner := h.inner
  exits y hy := by
    rcases h.exits y hy with (_ | ⟨_, hy⟩) | hy
    · exact .inr hs
    · exact .inl hy
    · exact .inr hy
  kept := fun y hy => h.kept y (mem_cons_of_mem x hy)
  done := forall_mem_cons.2 ⟨.inr (h.kept x mem_cons_self), h.done⟩
  closed := h.closed
  reached y hy := by
    rcases h.reached y hy with (_ | ⟨_, hy⟩) | ⟨t, ht, hty⟩
    · exact .inr ⟨x, mem_cons_self, .refl⟩
    · exact .inl hy
    · exact .inr ⟨t, mem_cons_of_mem x ht, hty⟩

theorem Walked.visit (h : Walked g ((g.succsOf x).reverse ++ todo) (LabelSet.insert x seen) put order seen' put')
    (hs : g.succsOf x ≠ []) (hnew : x ∉ seen) : Walked g (x :: todo) seen put (x :: order) seen' put' where
  met y := by
    rw [h.met, LabelSet.mem_insert, mem_cons]
    tauto
  fresh := forall_mem_cons.2 ⟨hnew, fun y hy hs => h.fresh y hy (LabelSet.mem_insert.2 (.inr hs))⟩
  nodup := nodup_cons.2 ⟨fun hx => h.fresh x hx (LabelSet.mem_insert.2 (.inl rfl)), h.nodup⟩
  inner := forall_mem_cons.2 ⟨hs, h.inner⟩
  exits := h.exits
  kept := h.kept
  done := forall_mem_cons.2 ⟨.inl ((h.met x).2 (.inl (LabelSet.mem_insert.2 (.inl rfl)))),
    fun y hy => h.done y (mem_append_right _ hy)⟩
  closed := forall_mem_cons.2 ⟨fun z hz => h.done z (mem_append_left _ (mem_reverse.2 hz)), h.closed⟩
  reached := by
    have key : ∀ y, y ∈ order ∨ y ∈ put' → y ∈ put ∨ ∃ t ∈ x :: todo, g.Leads t y := by
      intro y hy
      rcases h.reached y hy with hy | ⟨t, ht, hty⟩
      · exact .inl hy
      · rcases mem_append.1 ht with ht | ht
        · exact .inr ⟨x, mem_cons_self, .head (mem_reverse.1 ht) hty⟩
        · exact .inr ⟨t, mem_cons_of_mem x ht, hty⟩
    rintro y ((_ | ⟨_, hy⟩) | hy)
    · exact .inr ⟨x, mem_cons_self, .refl⟩
    · exact key y (.inl hy)
    · exact key y (.inr hy)

end Walked

theorem walk_spec (hg : g.Bounded) {n : Nat} {todo : List Label} (seen : LabelSet) (put : List Label)
    (htodo : ∀ x ∈ todo, x ∈ g.labels) (hn : todo.length + pending g.succs seen ≤ n) :
    ∃ order seen' put', walk g n todo seen put = .ok (order, seen', put') ∧ Walked g todo seen put order seen' put' := by
  induction n generalizing todo seen put with
  | zero =>
    obtain rfl : todo = [] := length_eq_zero_iff.1 (by omega)
    exact ⟨[], seen, put, by rw [walk], .stop⟩
  | succ n ih =>
    cases todo with
    | nil => exact ⟨[], seen, put, by simp [walk], .stop⟩
    | cons x todo =>
      obtain ⟨hx, htodo⟩ := forall_mem_cons.1 htodo
      simp only [length_cons] at hn
      by_cases hseen : x ∈ seen
      · obtain ⟨order, seen', put', hw, h⟩ := ih seen put htodo (by omega)
        exact ⟨order, seen', put', by simpa [walk, hseen] using hw, h.skip hseen⟩
      rw [walk]
      simp only [contains_eq_mem, hseen, decide_false, Bool.false_eq_true, if_false, hg.successors hx, ok_bind]
      rcases hs : g.succsOf x with _ | ⟨y, next⟩
      · obtain ⟨order, seen', put', hw, h⟩ := ih seen (x :: put) htodo (by omega)
        exact ⟨order, seen', put', hw, h.putOff hs⟩
      · have hall : ∀ z ∈ (g.succsOf x).reverse ++ todo, z ∈ g.labels :=
          forall_mem_append.2 ⟨fun z hz => hg.closed x z (mem_reverse.1 hz), htodo⟩
        obtain ⟨s, hs'⟩ := Option.isSome_iff_exists.1 (lookup_isSome.2 ((hg.succKeys x).2 hx))
        have hsx : g.succsOf x = s := by simp [succsOf, hs']
        have := pending_insert hs' hseen
        obtain ⟨order, seen', put', hw, h⟩ := ih (LabelSet.insert x seen) put hall (by
          simp only [length_append, length_reverse, hsx]
          omega)
        obtain ⟨b, -, -, hp⟩ := hg.placeable hx
        rw [hs] at hw
        exact ⟨x :: order, seen', put', by simp only [hp, ok_bind, hw]; rfl, h.visit (by simp [hs]) hseen⟩

theorem mem_putOff {seen : LabelSet} {put : List Label} : x ∈ putOff seen put ↔ x ∈ put ∧ x ∉ seen := by
  induction put generalizing seen with
  | nil => simp [putOff]
  | cons y put ih =>
    rw [putOff]
    by_cases hy : y ∈ seen
    · simp only [contains_eq_mem, hy, decide_true, if_true, ih, mem_cons]
      grind
    · simp only [contains_eq_mem, hy, decide_false, Bool.false_eq_true, if_false, mem_cons, ih, LabelSet.mem_insert]
      grind

theorem nodup_putOff (seen : LabelSet) (put : List Label) : (putOff seen put).Nodup := by
  induction put generalizing seen with
  | nil => exact nodup_nil
  | cons y put ih =>
    rw [putOff]
    split
    · exact ih seen
    · exact nodup_cons.2 ⟨fun hy => (mem_putOff.1 hy).2 (LabelSet.mem_insert.2 (.inl rfl)), ih _⟩

/-- The blocks that can be reached, those without successors last. -/
structure Scheduled (g : Graph) (order : List Label) : Prop where
  nodup : order.Nodup
  head : order.head? = some g.entry
  mem : ∀ x, x ∈ order ↔ g.Leads g.entry x
  exitsLast : order.Pairwise fun x y => g.succsOf x = [] → g.succsOf y = []

theorem schedule_spec (hg : g.Bounded) (he : g.entry ∈ g.labels) : ∃ order, schedule g = .ok order ∧ Scheduled g order := by
  obtain ⟨order, seen, put, hw, h⟩ := walk_spec hg [] [] (by simpa using he)
    (show [g.entry].length + pending g.succs [] ≤ g.edges.length + 2 by rw [edges_length]; simp; omega)
  have seen_iff : ∀ x, x ∈ seen ↔ x ∈ order := by simpa using h.met
  have mem : ∀ x, x ∈ order ++ Flow.putOff seen put ↔ x ∈ order ∨ x ∈ put := by
    intro x
    rw [mem_append, mem_putOff, seen_iff]
    tauto
  have exits : ∀ x ∈ put, g.succsOf x = [] := fun x hx => (h.exits x hx).resolve_left (by simp)
  refine ⟨order ++ Flow.putOff seen put, by simp only [schedule, hw, ok_bind]; rfl, ?_, ?_, fun x => ?_, ?_⟩
  · refine nodup_append.2 ⟨h.nodup, nodup_putOff _ _, ?_⟩
    rintro x hx _ hy rfl
    exact (mem_putOff.1 hy).2 ((seen_iff x).2 hx)
  · -- The walk starts at the entry; if that has no successors, it is all there is.
    rw [walk] at hw
    simp only [contains_nil, Bool.false_eq_true, if_false, hg.successors he, ok_bind] at hw
    rcases hs : g.succsOf g.entry with _ | ⟨y, next⟩
    · rw [hs] at hw
      simp only [walk, Except.ok.injEq, Prod.mk.injEq] at hw
      obtain ⟨rfl, rfl, rfl⟩ := hw
      rfl
    · rw [hs] at hw
      obtain ⟨-, -, hw⟩ := bind_eq_ok.1 hw
      obtain ⟨⟨o, s, p⟩, -, hw⟩ := bind_eq_ok.1 hw
      cases hw
      rfl
  · rw [mem]
    refine ⟨fun hx => by simpa using h.reached x hx, fun hx => ?_⟩
    -- What is met or put off is closed under successors.
    induction hx with
    | refl => simpa [seen_iff] using h.done g.entry
    | tail _ hy ih =>
      rcases ih with ha | ha
      · simpa [seen_iff] using h.closed _ ha _ hy
      · simp [exits _ ha] at hy
  · refine pairwise_append.2 ⟨pairwise_of_forall_mem_list ?_, pairwise_of_forall_mem_list ?_, ?_⟩
    · exact fun x hx _ _ hs => absurd hs (h.inner x hx)
    · exact fun _ _ y hy _ => exits y (mem_putOff.1 hy).1
    · exact fun _ _ y hy _ => exits y (mem_putOff.1 hy).1

end Graph

theorem linearize_ok {g : Graph} (hg : g.Bounded) (he : g.entry ∈ g.labels) (taken : Nat) :
    ∃ out, ∃ bs : List Block, linearize taken g = .ok out ∧ code out = bs.flatMap Block.instrs ∧
      (∀ b ∈ bs, (b.label, b) ∈ g.blocks) ∧ g.Scheduled (bs.map Block.label) := by
  obtain ⟨order, ho, h⟩ := Graph.schedule_spec hg he
  obtain ⟨ps, hps, hall⟩ := exists_mapM (P := fun x (p : String × Block) => (x, p.2) ∈ g.blocks ∧ p.2.label = x ∧ p.1 = x.text)
    fun x (hx : x ∈ order) => by
      obtain ⟨b, hb, hl, hp⟩ := hg.placeable (((h.mem x).1 hx).mem_labels hg he)
      exact ⟨_, hp, hb, hl, rfl⟩
  have hlabels : (ps.map Prod.snd).map Block.label = order := by
    clear ho h hps
    induction hall with
    | nil => rfl
    | cons hp _ ih => rw [map_cons, map_cons, ih, hp.2.1]
  have hmem : ∀ p ∈ ps, (p.2.label, p.2) ∈ g.blocks ∧ p.1 = p.2.label.text := by
    intro p hp
    obtain ⟨x, -, hb, rfl, ht⟩ := forall₂_exists_left hall hp
    exact ⟨hb, ht⟩
  refine ⟨_, ps.map Prod.snd, by simp only [linearize, ho, hps, ok_bind]; rfl, ?_, ?_, hlabels ▸ h⟩
  · rw [code, map_flatMap, flatMap_map]
    calc ps.zipIdx.flatMap (fun p => .label p.1.1 :: code p.1.2.lines)
        = (ps.zipIdx.map Prod.fst).flatMap fun p => .label p.1 :: code p.2.lines := by rw [flatMap_map]
      _ = ps.flatMap fun p => .label p.1 :: code p.2.lines := by rw [zipIdx_map_fst]
      _ = ps.flatMap fun p => p.2.instrs := flatMap_congr fun p hp => by rw [Block.instrs, (hmem p hp).2]
  · intro b hb
    obtain ⟨p, hp, rfl⟩ := mem_map.1 hb
    exact (hmem p hp).1

/-- The entry comes first, and no jump leads out of the blocks. -/
structure Layout (g : Graph) (bs : List Block) : Prop where
  mem : ∀ b ∈ bs, (b.label, b) ∈ g.blocks
  nodup : (bs.map Block.label).Nodup
  entry : (bs.map Block.label).head? = some g.entry
  closed : ∀ b ∈ bs, ∀ y ∈ Graph.destinations b, y ∈ bs.map Block.label

theorem linearize_spec {g : Graph} (hg : g.Formed) (taken : Nat) :
    ∃ out bs, linearize taken g = .ok out ∧ code out = bs.flatMap Block.instrs ∧ Layout g bs ∧ g.Scheduled (bs.map Block.label) := by
  obtain ⟨out, bs, hout, hcode, hmem, hs⟩ := linearize_ok hg.cut.bounded (mem_of_mem_head? hg.entry) taken
  refine ⟨out, bs, hout, hcode, ⟨hmem, hs.nodup, hs.head, fun b hb y hy => ?_⟩, hs⟩
  exact (hs.mem y).2 (((hs.mem _).1 (mem_map_of_mem hb)).tail ((hg.succ _ (hmem b hb) y).2 hy))

theorem ne_empty_of_isLabelName (h : isLabelName y) : y ≠ "" := by
  rintro rfl
  simp [isLabelName] at h

theorem mem_destinations (hl : l ∈ b.jumps) (ht : l.instr.target? = some y) (hne : y ≠ "") : .name y ∈ Graph.destinations b := by
  refine mem_filterMap.2 ⟨l, hl, ?_⟩
  have hd : l.instr.jumpDest = .str y := by
    cases hi : l.instr <;> simp_all [Instr.target?, Instr.jumpDest, Instr.operands]
  simp [hd, Datum.truthy, hne, Label.ofDatum?]

theorem exists_of_mem_destinations (hb : b.Cut) (hx : x ∈ Graph.destinations b) :
    ∃ l ∈ b.jumps, ∃ y, l.instr.target? = some y ∧ x = .name y := by
  obtain ⟨l, hl, hx⟩ := mem_filterMap.1 hx
  have he := hb.jumps l hl
  split at hx
  · next ht =>
      refine ⟨l, hl, ?_⟩
      cases hi : l.instr with
      | jmp y | jcc c z y =>
        rw [hi] at hx
        exact ⟨y, rfl, (Option.some.inj hx).symm⟩
      | ret z =>
        rw [hi] at ht
        cases ht
      | _ =>
        rw [hi] at he
        cases he
  · cases hx

section Layout

variable {g : Graph} {bs : List Block}
variable (h : Layout g bs)
include h

theorem Layout.formed (hg : g.Formed) (hb : b ∈ bs) : b.Formed := hg.blocks _ (h.mem b hb)

theorem Layout.label_eq (hg : g.Formed) (hb : b ∈ bs) :
    b.label = .name b.label.text ∧ isLabelName b.label.text := by
  obtain ⟨-, s, hs, hn⟩ := hg.named _ (h.mem b hb)
  simp only at hs
  rw [hs]
  exact ⟨rfl, hn⟩

theorem Layout.labelNames_eq (hg : g.Formed) :
    labelNames (bs.flatMap Block.instrs) = bs.map fun b => b.label.text :=
  labelNames_flatMap fun _ hb => (h.formed hg hb).cut

theorem Layout.labels_nodup (hg : g.Formed) : (labelNames (bs.flatMap Block.instrs)).Nodup := by
  rw [h.labelNames_eq hg, ← Function.comp_def, ← map_map]
  refine h.nodup.map_on fun x hx y hy hxy => ?_
  obtain ⟨b, hb, rfl⟩ := mem_map.1 hx
  obtain ⟨c, hc, rfl⟩ := mem_map.1 hy
  rw [(h.label_eq hg hb).1, (h.label_eq hg hc).1, hxy]

theorem Layout.after_block (hg : g.Formed) (hb : b ∈ bs) (hne : b.lines ≠ []) :
    ∃ more, after (bs.flatMap Block.instrs) b.label.text = some (code b.lines ++ more) := by
  obtain ⟨as, cs, rfl⟩ := append_of_mem hb
  refine ⟨cs.flatMap Block.instrs, ?_⟩
  have hsuffix : .label b.label.text :: (code b.lines ++ cs.flatMap Block.instrs) <:+ (as ++ b :: cs).flatMap Block.instrs :=
    ⟨as.flatMap Block.instrs, by rw [flatMap_append, flatMap_cons]; rfl⟩
  rw [after_of_suffix (h.labels_nodup hg) hsuffix]
  obtain ⟨l, ls, hl⟩ := exists_cons_of_ne_nil hne
  rw [hl, code_cons, cons_append, dropWhile_cons_of_neg]
  simp [(h.formed hg hb).isLabel_eq (hl ▸ mem_cons_self)]

theorem Layout.of_after (hg : g.Formed) {x : String} {d : List Instr}
    (hd : after (bs.flatMap Block.instrs) x = some d) : ∃ b ∈ bs, b.label = .name x := by
  have hx : x ∈ labelNames (bs.flatMap Block.instrs) := after_isSome.1 (by simp [hd])
  rw [h.labelNames_eq hg] at hx
  obtain ⟨b, hb, rfl⟩ := mem_map.1 hx
  exact ⟨b, hb, (h.label_eq hg hb).1⟩

theorem Layout.target (hb : b ∈ bs) (hl : l ∈ b.jumps) (ht : l.instr.target? = some y)
    (hy : isLabelName y) : ∃ c ∈ bs, c.label = .name y :=
  mem_map.1 (h.closed b hb _ (mem_destinations hl ht (ne_empty_of_isLabelName hy)))

theorem Layout.eq_of_label {bs' : List Block} (h' : Layout g bs') (hg : g.Formed) (hb : b ∈ bs)
    (hb' : b' ∈ bs') (hl : b.label = b'.label) : b = b' := by
  have hlook := lookup_of_mem hg.nodup (h.mem b hb)
  rw [hl, lookup_of_mem hg.nodup (h'.mem b' hb')] at hlook
  exact (Option.some.inj hlook).symm

theorem Layout.exists_entry : ∃ b rest, bs = b :: rest ∧ b.label = g.entry := by
  have he := h.entry
  cases bs with
  | nil => simp at he
  | cons b rest => exact ⟨b, rest, rfl, by simpa using he⟩

omit h

theorem Block.Cut.mem_jumps (hb : b.Cut) (hl : l ∈ b.lines) (ht : l.instr.target?.isSome) : l ∈ b.jumps := by
  rcases mem_append.1 hl with hl | hl
  · have he := (hb.body l hl).2
    cases hi : l.instr <;> simp_all [isEnder, isConditional, isFinal, Instr.target?]
  · exact hl

theorem Block.Formed.mem_jumps (hb : b.Formed) (hl : l ∈ b.lines) (ht : l.instr.target?.isSome) :
    l ∈ b.jumps := hb.cut.mem_jumps hl ht

theorem Block.Formed.tail_ne_nil (hb : b.Formed) {i : Instr} {e : List Instr} (h : i :: e <:+ code b.lines)
    (hi : isFinal i = false) : e ≠ [] := by
  rintro rfl
  obtain ⟨a, ha⟩ := h
  rcases hb.ends with hl | ⟨l, hl, hf⟩
  · rw [hl] at ha
    simp at ha
  · have hlast : (code b.lines).getLast? = some l.instr := by
      rw [code, List.getLast?_map, Block.lines, List.getLast?_append, hl]
      rfl
    rw [← ha, List.getLast?_concat] at hlast
    cases hlast
    simp [hf] at hi

theorem Block.Formed.suffix_jumps (hb : b.Formed) {ls : List Line} (h : l :: ls <:+ b.lines) (hl : isEnder l.instr) :
    l :: ls <:+ b.jumps := by
  obtain ⟨a, ha⟩ := h
  rcases append_eq_append_iff.1 ha with ⟨c, hc, hls⟩ | ⟨c, -, hc⟩
  · cases c with
    | nil => exact ⟨[], hls⟩
    | cons m c =>
      obtain ⟨rfl, -⟩ := List.cons.inj hls
      have := (hb.body l (hc ▸ mem_append_right a mem_cons_self)).2
      simp [hl] at this
  · exact ⟨c, hc.symm⟩

end Layout

structure Facing (R : Block → Block → Prop) (g h : Graph) (bs bs' : List Block) : Prop where
  formed : g.Formed
  formed' : h.Formed
  shape : g.Reshaped R h
  layout : Layout g bs
  layout' : Layout h bs'

namespace Facing

variable {R : Block → Block → Prop} {g h : Graph} {bs bs' : List Block} (F : Facing R g h bs bs')
include F

theorem block (hb : b ∈ bs) (hl : b.label ∈ bs'.map Block.label) :
    ∃ b' ∈ bs', b'.label = b.label ∧ Graph.destinations b' = Graph.destinations b ∧ R b b' := by
  obtain ⟨b', hb', hlabel⟩ := mem_map.1 hl
  obtain ⟨⟨x, c⟩, hc, rfl, -, hd, hR⟩ := F.shape.block (F.layout.mem b hb)
  have hlook := lookup_of_mem F.formed'.nodup (F.layout'.mem b' hb')
  rw [hlabel, lookup_of_mem F.formed'.nodup hc, Option.some.injEq] at hlook
  subst hlook
  exact ⟨_, hb', hlabel, hd, hR⟩

theorem entry :
    ∃ b b' cs cs', bs = b :: cs ∧ bs' = b' :: cs' ∧ b.label = g.entry ∧ b'.label = b.label ∧
      Graph.destinations b' = Graph.destinations b ∧ R b b' := by
  obtain ⟨b, cs, hcs, hb⟩ := F.layout.exists_entry
  obtain ⟨b₁, cs', hcs', hb₁⟩ := F.layout'.exists_entry
  have hlabel : b.label = b₁.label := by rw [hb, hb₁, F.shape.entry]
  have hb₁' : b₁ ∈ bs' := hcs' ▸ mem_cons_self
  obtain ⟨b', hb', hl', hd, hR⟩ := F.block (hcs ▸ mem_cons_self) (hlabel ▸ mem_map_of_mem hb₁')
  obtain rfl := F.layout'.eq_of_label F.layout' F.formed' hb' hb₁' (hl'.trans hlabel)
  exact ⟨b, b', cs, cs', hcs, hcs', hb, hl', hd, hR⟩

theorem jump (hb : b ∈ bs) (hb' : b' ∈ bs') (hd : Graph.destinations b' = Graph.destinations b) (hl : l ∈ b.jumps)
    (ht : l.instr.target? = some y) :
    (after (bs.flatMap Block.instrs) y = none ∧ after (bs'.flatMap Block.instrs) y = none) ∨
      ∃ c ∈ bs, ∃ c' ∈ bs', c.label = .name y ∧ c'.label = .name y ∧ .name y ∈ Graph.destinations b ∧
        Graph.destinations c' = Graph.destinations c ∧ R c c' ∧
        (c.lines ≠ [] → ∃ m, after (bs.flatMap Block.instrs) y = some (code c.lines ++ m)) ∧
        (c'.lines ≠ [] → ∃ m, after (bs'.flatMap Block.instrs) y = some (code c'.lines ++ m)) := by
  rcases eq_or_ne y "" with rfl | hne
  · have hnone : ∀ {k : Graph} {cs}, k.Formed → Layout k cs → after (cs.flatMap Block.instrs) "" = none := by
      intro k cs hk hcs
      rw [← Option.not_isSome_iff_eq_none]
      intro hsome
      obtain ⟨d, hy⟩ := Option.isSome_iff_exists.1 hsome
      obtain ⟨c, hc, hcy⟩ := hcs.of_after hk hy
      have hname := (hcs.label_eq hk hc).2
      rw [hcy] at hname
      exact ne_empty_of_isLabelName hname rfl
    exact .inl ⟨hnone F.formed F.layout, hnone F.formed' F.layout'⟩
  · have hdest := mem_destinations hl ht hne
    obtain ⟨c, hc, hcy⟩ := mem_map.1 (F.layout.closed b hb _ hdest)
    obtain ⟨c', hc', hlabel, hdc, hR⟩ := F.block hc (hcy ▸ F.layout'.closed b' hb' _ (hd ▸ hdest))
    have htext : c.label.text = y := by rw [hcy]; rfl
    have htext' : c'.label.text = y := by rw [hlabel, htext]
    exact .inr ⟨c, hc, c', hc', hcy, hlabel.trans hcy, hdest, hdc, hR, fun h => htext ▸ F.layout.after_block F.formed hc h,
      fun h => htext' ▸ F.layout'.after_block F.formed' hc' h⟩

end Facing

end Bx.Flow
