import Bx.Proofs.Flow.Graph

namespace Bx.Flow.Graph

open List

variable {g g' g₁ : Graph} {t : List (Label × LabelSet)} {k a b l : Label} {s : LabelSet} {p : Label → Label → Prop}
variable {c : Change} {cs : List Change}

/-- Just the blocks have successors and predecessors, edges lead to blocks, and successors are the converse of predecessors.
-/
structure Coherent (g : Graph) : Prop where
  succKeys : ∀ l, l ∈ g.succs.map Prod.fst ↔ l ∈ g.labels
  predKeys : ∀ l, l ∈ g.preds.map Prod.fst ↔ l ∈ g.labels
  closed : ∀ a b, b ∈ g.succsOf a → b ∈ g.labels
  converse : ∀ a b, b ∈ g.succsOf a ↔ a ∈ g.predsOf b

/-- What any editing leaves of coherence: edges may lead to blocks that are gone, and be known only by where they start. -/
structure Backed (g : Graph) : Prop where
  succKeys : ∀ l, l ∈ g.succs.map Prod.fst ↔ l ∈ g.labels
  predKeys : ∀ l ∈ g.labels, l ∈ g.preds.map Prod.fst
  closed : ∀ a b, b ∈ g.succsOf a → b ∈ g.preds.map Prod.fst
  backed : ∀ a b, a ∈ g.predsOf b → b ∈ g.succsOf a

theorem Coherent.toBacked (h : g.Coherent) : g.Backed where
  succKeys := h.succKeys
  predKeys l hl := (h.predKeys l).2 hl
  closed a b hb := (h.predKeys b).2 (h.closed a b hb)
  backed a b := (h.converse a b).2

theorem Linked.coherent {es : List (Label × Label)} (h : Linked g es g') (hg : g.Coherent) : g'.Coherent where
  succKeys l := by rw [h.succKeys, labels, h.blocks]; exact hg.succKeys l
  predKeys l := by rw [h.predKeys, labels, h.blocks]; exact hg.predKeys l
  closed a b hb := by
    rw [labels, h.blocks]
    rcases (h.succ a b).1 hb with hb | hb
    · exact hg.closed a b hb
    · exact (hg.predKeys b).1 (h.known _ hb).2
  converse a b := by rw [h.succ, h.pred, hg.converse]

theorem Linked.backed {es : List (Label × Label)} (h : Linked g es g') (hg : g.Backed) : g'.Backed where
  succKeys l := by rw [h.succKeys, labels, h.blocks]; exact hg.succKeys l
  predKeys l := by rw [h.predKeys, labels, h.blocks]; exact hg.predKeys l
  closed a b hb := by
    rw [h.predKeys]
    exact ((h.succ a b).1 hb).elim (hg.closed a b) fun hb => (h.known _ hb).2
  backed a b ha := (h.succ a b).2 (((h.pred a b).1 ha).imp_left (hg.backed a b))

structure Unlinked (g : Graph) (succs preds : Label → Label → Prop) (g' : Graph) : Prop where
  blocks : g'.blocks = g.blocks
  succKeys : g'.succs.map Prod.fst = g.succs.map Prod.fst
  predKeys : g'.preds.map Prod.fst = g.preds.map Prod.fst
  succ : ∀ a b, b ∈ g'.succsOf a ↔ b ∈ g.succsOf a ∧ ¬ succs a b
  pred : ∀ a b, a ∈ g'.predsOf b ↔ a ∈ g.predsOf b ∧ ¬ preds a b

theorem mem_put_without {x : Label} {s' : LabelSet} (hs : t.lookup k = some s) (hw : without x s = .ok s') (a y : Label) :
    y ∈ ((Datum.put k s' t).lookup a).getD [] ↔ y ∈ (t.lookup a).getD [] ∧ ¬ (a = k ∧ y = x) := by
  have hs' : s' = s.filter (· != x) := by
    unfold without at hw
    split at hw <;> cases hw
    rfl
  rw [lookup_put]
  by_cases h : a = k
  · subst h
    simp [hs, hs']
  · simp [h]

theorem dropSucc_unlinked (h : (dropSucc a b).run.run g = (.ok (), g')) :
    Unlinked g (fun x y => x = a ∧ y = b) (fun _ _ => False) g' := by
  obtain ⟨_, _, h₁, h⟩ := bind_run_ok h
  cases h₁
  rcases hs : g.succs.lookup a with _ | s
  · simp only [successors, hs] at h
    cases h
  · rcases hw : without b s with e | s' <;> simp only [successors, hs, Except.bind, hw] at h <;> cases h
    refine ⟨rfl, keys_put_of_lookup hs _, rfl, fun x y => ?_, by simp [predsOf]⟩
    simpa [succsOf] using mem_put_without hs hw x y

theorem dropPred_unlinked (h : (dropPred a b).run.run g = (.ok (), g')) :
    Unlinked g (fun _ _ => False) (fun x y => x = a ∧ y = b) g' := by
  obtain ⟨_, _, h₁, h⟩ := bind_run_ok h
  cases h₁
  rcases hs : g.preds.lookup b with _ | s
  · simp only [predecessors, hs] at h
    cases h
  · rcases hw : without a s with e | s' <;> simp only [predecessors, hs, Except.bind, hw] at h <;> cases h
    refine ⟨rfl, rfl, keys_put_of_lookup hs _, by simp [succsOf], fun x y => ?_⟩
    simpa [predsOf, and_comm] using mem_put_without hs hw y x

theorem Unlinked.trans {g₂ g₃ : Graph} {s s' p' : Label → Label → Prop} (h : Unlinked g₁ s p g₂) (h' : Unlinked g₂ s' p' g₃) :
    Unlinked g₁ (fun a b => s a b ∨ s' a b) (fun a b => p a b ∨ p' a b) g₃ where
  blocks := h'.blocks.trans h.blocks
  succKeys := h'.succKeys.trans h.succKeys
  predKeys := h'.predKeys.trans h.predKeys
  succ a b := by rw [h'.succ, h.succ, not_or, and_assoc]
  pred a b := by rw [h'.pred, h.pred, not_or, and_assoc]

theorem removeEdge_unlinked (h : (removeEdge a b).run.run g = (.ok (), g')) :
    Unlinked g (fun x y => x = a ∧ y = b) (fun x y => x = a ∧ y = b) g' := by
  obtain ⟨_, g₁, h₁, h₂⟩ := bind_run_ok h
  simpa using (dropSucc_unlinked h₁).trans (dropPred_unlinked h₂)

theorem forM_dropPred_unlinked (h : (s.forM fun b => dropPred l b).run.run g = (.ok (), g')) :
    Unlinked g (fun _ _ => False) (fun a b => a = l ∧ b ∈ s) g' := by
  induction s generalizing g with
  | nil =>
    cases h
    exact ⟨rfl, rfl, rfl, by simp, by simp⟩
  | cons b s ih =>
    obtain ⟨_, g₁, h₁, h₂⟩ := bind_run_ok h
    simpa [← and_or_left] using (dropPred_unlinked h₁).trans (ih h₂)

theorem Unlinked.coherent (h : Unlinked g p p g') (hg : g.Coherent) : g'.Coherent where
  succKeys l := by rw [h.succKeys, labels, h.blocks]; exact hg.succKeys l
  predKeys l := by rw [h.predKeys, labels, h.blocks]; exact hg.predKeys l
  closed a b hb := by rw [labels, h.blocks]; exact hg.closed a b ((h.succ a b).1 hb).1
  converse a b := by rw [h.succ, h.pred, hg.converse]

theorem Unlinked.backed (h : Unlinked g p p g') (hg : g.Backed) : g'.Backed where
  succKeys l := by rw [h.succKeys, labels, h.blocks]; exact hg.succKeys l
  predKeys l := by rw [h.predKeys, labels, h.blocks]; exact hg.predKeys l
  closed a b hb := by rw [h.predKeys]; exact hg.closed a b ((h.succ a b).1 hb).1
  backed a b ha := (h.succ a b).2 (((h.pred a b).1 ha).imp_left (hg.backed a b))

theorem addBlock_linked {b : Block} (h : (addBlock b).run.run g = (.ok (), g')) :
    b.label ∉ g.labels ∧ Linked { g with
      blocks := g.blocks ++ [(b.label, b)]
      succs := Datum.put b.label [] g.succs
      preds := Datum.put b.label [] g.preds } (edgesOf b) g' := by
  obtain ⟨_, _, h₁, h⟩ := bind_run_ok h
  cases h₁
  by_cases hb : (g.blocks.lookup b.label).isSome
  · simp only [hb, if_true] at h
    cases h
  · rw [if_neg hb] at h
    obtain ⟨_, _, h₂, h⟩ := bind_run_ok h
    cases h₂
    exact ⟨fun hl => hb (lookup_isSome.2 hl), linkBlock_linked h⟩

theorem mem_keys_put : l ∈ (Datum.put k s t).map Prod.fst ↔ l ∈ t.map Prod.fst ∨ l = k := by
  rw [← lookup_isSome, lookup_put, ← lookup_isSome]
  by_cases h : l = k <;> simp [h]

theorem mem_put_nil {y : Label} : y ∈ ((Datum.put k [] t).lookup l).getD [] ↔ l ≠ k ∧ y ∈ (t.lookup l).getD [] := by
  rw [lookup_put]
  by_cases h : l = k <;> simp [h]

theorem addBlock_backed {b : Block} (h : (addBlock b).run.run g = (.ok (), g')) (hg : g.Backed) : g'.Backed := by
  obtain ⟨hb, hl⟩ := addBlock_linked h
  refine hl.backed ⟨fun l => ?_, fun l h => ?_, fun x y h => ?_, fun x y h => ?_⟩
  · simp only [mem_keys_put, labels, map_append, mem_append, map_singleton, mem_singleton]
    exact or_congr_left (hg.succKeys l)
  · simp only [mem_keys_put, labels, map_append, mem_append, map_singleton, mem_singleton] at h ⊢
    exact h.imp_left (hg.predKeys l)
  · exact mem_keys_put.2 (.inl (hg.closed x y (mem_put_nil.1 h).2))
  · -- the new block had no successors before, so it was nobody's predecessor
    have hy := hg.backed x y (mem_put_nil.1 h).2
    refine mem_put_nil.2 ⟨?_, hy⟩
    rintro rfl
    exact hb ((hg.succKeys _).1 (mem_keys_of_mem hy))

theorem addBlock_coherent {b : Block} (h : (addBlock b).run.run g = (.ok (), g')) (hg : g.Coherent) : g'.Coherent := by
  obtain ⟨hb, hl⟩ := addBlock_linked h
  have hne : ∀ {x y}, y ∈ g.succsOf x → x ≠ b.label ∧ y ≠ b.label := by
    intro x y hy
    refine ⟨?_, ?_⟩ <;> rintro rfl
    · exact hb ((hg.succKeys _).1 (mem_keys_of_mem hy))
    · exact hb (hg.closed x _ hy)
  refine hl.coherent ⟨fun l => ?_, fun l => ?_, fun x y h => ?_, fun x y => ?_⟩
  · simp only [mem_keys_put, labels, map_append, mem_append, map_singleton, mem_singleton]
    exact or_congr_left (hg.succKeys l)
  · simp only [mem_keys_put, labels, map_append, mem_append, map_singleton, mem_singleton]
    exact or_congr_left (hg.predKeys l)
  · rw [labels, map_append]
    exact mem_append_left _ (hg.closed x y (mem_put_nil.1 h).2)
  · constructor
    · intro h
      have hy := (mem_put_nil.1 h).2
      exact mem_put_nil.2 ⟨(hne hy).2, (hg.converse x y).1 hy⟩
    · intro h
      have hy := (hg.converse x y).2 (mem_put_nil.1 h).2
      exact mem_put_nil.2 ⟨(hne hy).1, hy⟩

/-- No block any more and without successors, but with its predecessors. -/
structure Removed (l : Label) (g g' : Graph) : Prop where
  known : l ∈ g.labels
  labels : ∀ a, a ∈ g'.labels ↔ a ∈ g.labels ∧ a ≠ l
  succKeys : ∀ a, a ∈ g'.succs.map Prod.fst ↔ a ∈ g.succs.map Prod.fst ∧ a ≠ l
  predKeys : g'.preds.map Prod.fst = g.preds.map Prod.fst
  succ : ∀ a b, b ∈ g'.succsOf a ↔ b ∈ g.succsOf a ∧ a ≠ l
  pred : ∀ a b, a ∈ g'.predsOf b ↔ a ∈ g.predsOf b ∧ ¬ (a = l ∧ b ∈ g.succsOf l)
  labelsLeft : g'.labels.Sublist g.labels
  succsLeft : (g'.succs.map Prod.fst).Sublist (g.succs.map Prod.fst)

theorem removeBlock_removed (h : (removeBlock l).run.run g = (.ok (), g')) : Removed l g g' := by
  obtain ⟨_, _, h₁, h⟩ := bind_run_ok h
  cases h₁
  rcases hb : g.blocks.lookup l with _ | b
  · simp only [hb, Option.isNone_none, if_true] at h
    cases h
  simp only [hb, Option.isNone_some, Bool.false_eq_true, if_false] at h
  obtain ⟨_, _, h₂, h⟩ := bind_run_ok h
  cases h₂
  rcases hs : g.succs.lookup l with _ | s
  · simp only [successors, hs] at h
    cases h
  simp only [successors, hs] at h
  obtain ⟨_, g₁, h₃, h⟩ := bind_run_ok h
  have hu := forM_dropPred_unlinked h₃
  cases h
  have hsl : g.succsOf l = s := by simp [succsOf, hs]
  refine ⟨lookup_isSome.1 (by simp [hb]), fun a => ?_, fun a => ?_, hu.predKeys, fun a b => ?_, fun a b => ?_, ?_, ?_⟩
  · simp only [labels, hu.blocks]
    rw [← lookup_isSome, lookup_filter_ne, ← lookup_isSome]
    by_cases ha : a = l <;> simp [ha]
  · show a ∈ (g₁.succs.filter (·.1 != l)).map Prod.fst ↔ _
    have hk : a ∈ g₁.succs.map Prod.fst ↔ a ∈ g.succs.map Prod.fst := by rw [hu.succKeys]
    rw [← lookup_isSome, lookup_filter_ne, ← hk, ← lookup_isSome]
    by_cases ha : a = l <;> simp [ha]
  · have hab := hu.succ a b
    simp only [succsOf, not_false_eq_true, and_true] at hab
    simp only [succsOf, lookup_filter_ne]
    by_cases ha : a = l
    · simp [ha]
    · simpa [ha] using hab
  · rw [hsl]
    exact hu.pred a b
  · simp only [labels, hu.blocks]
    exact filter_sublist.map _
  · rw [← hu.succKeys]
    exact filter_sublist.map _

theorem Removed.backed (h : Removed l g g') (hg : g.Backed) : g'.Backed where
  succKeys a := by rw [h.succKeys, h.labels, hg.succKeys]
  predKeys a ha := by rw [h.predKeys]; exact hg.predKeys a ((h.labels a).1 ha).1
  closed a b hb := by rw [h.predKeys]; exact hg.closed a b ((h.succ a b).1 hb).1
  backed a b ha := by
    obtain ⟨ha, hl⟩ := (h.pred a b).1 ha
    have hb := hg.backed a b ha
    refine (h.succ a b).2 ⟨hb, ?_⟩
    rintro rfl
    exact hl ⟨rfl, hb⟩

theorem Removed.not_coherent (h : Removed l g g') (hg : g.Backed) : ¬ g'.Coherent := by
  intro hc
  have hk : l ∈ g'.preds.map Prod.fst := by
    rw [h.predKeys]
    exact hg.predKeys l h.known
  exact ((h.labels l).1 ((hc.predKeys l).1 hk)).2 rfl

theorem bind_run {α β : Type} {x : Edit α} {f : α → Edit β} {a : α} (h : x.run.run g = (.ok a, g₁)) :
    (x >>= f).run.run g = (f a).run.run g₁ := by
  rw [ExceptT.run_bind, StateT.run_bind, h]
  rfl

inductive Change where
  | addBlock (b : Block)
  | removeBlock (l : Label)
  | addEdge (a b : Label)
  | removeEdge (a b : Label)

def Change.isRemoval : Change → Bool
  | .removeBlock _ => true
  | _ => false

def Change.run : Change → Edit Unit
  | .addBlock b => Graph.addBlock b
  | .removeBlock l => Graph.removeBlock l
  | .addEdge a b => Graph.addEdge a b
  | .removeEdge a b => Graph.removeEdge a b

def Changed (g : Graph) (cs : List Change) (g' : Graph) : Prop := (cs.forM Change.run).run.run g = (.ok (), g')

theorem Change.run_backed (h : c.run.run.run g = (.ok (), g')) (hg : g.Backed) : g'.Backed := by
  cases c with
  | addBlock b => exact addBlock_backed h hg
  | removeBlock l => exact (removeBlock_removed h).backed hg
  | addEdge a b => exact (addEdge_linked h).backed hg
  | removeEdge a b => exact (removeEdge_unlinked h).backed hg

theorem Change.run_coherent_iff (h : c.run.run.run g = (.ok (), g')) (hg : g.Coherent) : g'.Coherent ↔ c.isRemoval = false := by
  cases c with
  | addBlock b => exact iff_of_true (addBlock_coherent h hg) rfl
  | removeBlock l => exact iff_of_false ((removeBlock_removed h).not_coherent hg.toBacked) (by simp [isRemoval])
  | addEdge a b => exact iff_of_true ((addEdge_linked h).coherent hg) rfl
  | removeEdge a b => exact iff_of_true ((removeEdge_unlinked h).coherent hg) rfl

theorem Changed.cons (h : g.Changed (c :: cs) g') : ∃ g₁, c.run.run.run g = (.ok (), g₁) ∧ g₁.Changed cs g' := by
  obtain ⟨_, g₁, h₁, h₂⟩ := bind_run_ok h
  exact ⟨g₁, h₁, h₂⟩

theorem changed_cons (h : c.run.run.run g = (.ok (), g₁)) (h' : g₁.Changed cs g') : g.Changed (c :: cs) g' := by
  rw [Changed, forM_eq_forM, forM_cons, bind_run h]
  exact h'

theorem Changed.backed (h : g.Changed cs g') (hg : g.Backed) : g'.Backed := by
  induction cs generalizing g with
  | nil =>
    cases h
    exact hg
  | cons c cs ih =>
    obtain ⟨g₁, h₁, h₂⟩ := h.cons
    exact ih h₂ (Change.run_backed h₁ hg)

theorem Changed.coherent_iff (h : g.Changed cs g') (hg : g.Coherent) :
    (∀ done ≤ cs.length, ∀ g₁, g.Changed (cs.take done) g₁ → g₁.Coherent) ↔ ∀ c ∈ cs, c.isRemoval = false := by
  induction cs generalizing g with
  | nil =>
    refine iff_of_true (fun done _ g₁ h₁ => ?_) (by simp)
    rw [take_nil] at h₁
    cases h₁
    exact hg
  | cons c cs ih =>
    obtain ⟨g₁, h₁, h₂⟩ := h.cons
    rw [forall_mem_cons, ← Change.run_coherent_iff h₁ hg]
    constructor
    · intro hall
      have hg₁ : g₁.Coherent := hall 1 (by simp) g₁ (changed_cons h₁ rfl)
      refine ⟨hg₁, (ih h₂ hg₁).1 fun done hd g₂ hg₂ => ?_⟩
      exact hall (done + 1) (by simpa using hd) g₂ (changed_cons h₁ hg₂)
    · rintro ⟨hg₁, hcs⟩ (_ | done) hd g₂ hg₂
      · cases hg₂
        exact hg
      · obtain ⟨g₁', h₁', h₂'⟩ := hg₂.cons
        rw [h₁] at h₁'
        cases h₁'
        exact (ih h₂ hg₁).2 hcs done (by simpa using hd) g₂ h₂'

theorem addEdge_ok (ha : a ∈ g.succs.map Prod.fst) (hb : b ∈ g.preds.map Prod.fst) :
    ∃ g', (addEdge a b).run.run g = (.ok (), g') := by
  obtain ⟨s, hs⟩ := Option.isSome_iff_exists.1 (lookup_isSome.2 ha)
  obtain ⟨p, hp⟩ := Option.isSome_iff_exists.1 (lookup_isSome.2 hb)
  rw [addEdge, bind_run (x := get) (a := g) rfl]
  simp only [hs, hp]
  exact ⟨_, rfl⟩

theorem forM_ok {α : Type} {f : α → Edit Unit} (es : α → List (Label × Label))
    (hf : ∀ x g g', (f x).run.run g = (.ok (), g') → Linked g (es x) g')
    (hok : ∀ x g, (∀ e ∈ es x, e.1 ∈ g.succs.map Prod.fst ∧ e.2 ∈ g.preds.map Prod.fst) → ∃ g', (f x).run.run g = (.ok (), g'))
    {xs : List α} (hk : ∀ e ∈ xs.flatMap es, e.1 ∈ g.succs.map Prod.fst ∧ e.2 ∈ g.preds.map Prod.fst) :
    ∃ g', (xs.forM f).run.run g = (.ok (), g') := by
  induction xs generalizing g with
  | nil => exact ⟨g, rfl⟩
  | cons x xs ih =>
    rw [flatMap_cons, forall_mem_append] at hk
    obtain ⟨g₁, h₁⟩ := hok x g hk.1
    have hl := hf x g g₁ h₁
    obtain ⟨g', h'⟩ := ih (g := g₁) (by rw [hl.succKeys, hl.predKeys]; exact hk.2)
    exact ⟨g', (bind_run h₁).trans h'⟩

theorem linkBlock_ok {b : Block} (h : ∀ e ∈ edgesOf b, e.1 ∈ g.succs.map Prod.fst ∧ e.2 ∈ g.preds.map Prod.fst) :
    ∃ g', (linkBlock b).run.run g = (.ok (), g') := by
  rw [edgesOf, map_eq_flatMap] at h
  refine forM_ok (fun y => [(b.label, y)]) (fun y g g' => addEdge_linked) (fun y g h => ?_) h
  exact addEdge_ok (h (b.label, y) (by simp)).1 (h (b.label, y) (by simp)).2

theorem ofBlocks_ok (name : String) (entry : Label) {bs : List Block} (hn : (bs.map Block.label).Nodup)
    (hc : ∀ b ∈ bs, ∀ y ∈ destinations b, y ∈ bs.map Block.label) : ∃ g, ofBlocks name entry bs = .ok g := by
  have keys : (bs.foldl (fun acc b => Datum.put b.label ([] : LabelSet) acc) []).map Prod.fst = bs.map Block.label := by
    rw [foldl_put (v := fun _ => []) (by simpa using hn), nil_append, map_map]
    rfl
  have known : ∀ e ∈ bs.flatMap edgesOf, e.1 ∈ (unlinked name entry bs).succs.map Prod.fst ∧
      e.2 ∈ (unlinked name entry bs).preds.map Prod.fst := by
    simp only [unlinked, keys, mem_flatMap, edgesOf, mem_map]
    rintro _ ⟨b, hb, y, hy, rfl⟩
    exact ⟨⟨b, hb, rfl⟩, mem_map.1 (hc b hb y hy)⟩
  obtain ⟨g, hg⟩ := forM_ok edgesOf (fun b _ _ => linkBlock_linked) (fun b _ => linkBlock_ok) known
  exact ⟨g, by rw [ofBlocks, hg]⟩

theorem OfBlocks.coherent {name : String} {entry : Label} {bs : List Block} (h : g.OfBlocks name entry bs) : g.Coherent := by
  refine ⟨fun l => by rw [h.succKeys, h.labels_eq], fun l => by rw [h.predKeys, h.labels_eq], fun a b hb => ?_, fun a b => ?_⟩
  · obtain ⟨x, hx, -, hb⟩ := (h.succ a b).1 hb
    rw [h.labels_eq]
    exact h.closed x hx b hb
  · rw [h.succ, h.pred]

/-- The graph of blocks with distinct labels whose jumps stay among them is coherent, and stays so up to the first removal of
a block. From then on each edge that a block knows from its end is still known from its start. -/
theorem changed_coherent_iff (name : String) (entry : Label) {bs : List Block} (hn : (bs.map Block.label).Nodup)
    (hc : ∀ b ∈ bs, ∀ y ∈ destinations b, y ∈ bs.map Block.label) :
    ∃ g, ofBlocks name entry bs = .ok g ∧ g.Coherent ∧ ∀ cs g', g.Changed cs g' → g'.Backed ∧
      ((∀ done ≤ cs.length, ∀ g₁, g.Changed (cs.take done) g₁ → g₁.Coherent) ↔ ∀ c ∈ cs, c.isRemoval = false) := by
  obtain ⟨g, hg⟩ := ofBlocks_ok name entry hn hc
  have coherent := (ofBlocks_spec hn hg).coherent
  exact ⟨g, hg, coherent, fun cs g' h => ⟨h.backed coherent.toBacked, h.coherent_iff coherent⟩⟩

def jumping : List Block :=
  [{ label := .name "%.L0", body := [], jumps := [⟨0, .jmp "%.L1"⟩] },
   { label := .name "%.L1", body := [], jumps := [⟨1, .ret none⟩] }]

def looping : List Change :=
  [.addBlock { label := .name "%.L2", body := [], jumps := [⟨2, .jmp "%.L2"⟩] }, .addEdge (.name "%.L1") (.name "%.L2")]

theorem changed_coherent_iff_looping :
    ∃ g g', ofBlocks "@main" (.name "%.L0") jumping = .ok g ∧ g.Changed looping g' ∧ g'.Coherent := by
  obtain ⟨g, hg, -, h⟩ := @changed_coherent_iff "@main" (.name "%.L0") jumping (by decide) (by decide)
  obtain ⟨g', hc⟩ : ∃ g', g.Changed looping g' := by
    obtain rfl : _ = g := Except.ok.inj hg
    exact ⟨_, rfl⟩
  exact ⟨g, g', hg, hc, (h looping g' hc).2.2 (by decide) 2 (by decide) g' hc⟩

/-- Without the second block the edge to it is still there. -/
theorem not_coherent_removed :
    ∃ g g', ofBlocks "@main" (.name "%.L0") jumping = .ok g ∧ g.Changed [.removeBlock (.name "%.L1")] g' ∧
      g'.labels = [.name "%.L0"] ∧ g'.edges = [(.name "%.L0", .name "%.L1")] ∧ ¬ g'.Coherent := by
  refine ⟨_, _, rfl, rfl, rfl, rfl, fun h => ?_⟩
  have := h.closed (.name "%.L0") (.name "%.L1") (by decide)
  revert this
  decide

end Bx.Flow.Graph
