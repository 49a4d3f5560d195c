import Bx.Flow.Graph
import Bx.Proofs.Flow.Canonical

namespace Bx.Flow

open List Tac Run.Checked

variable {s : LabelSet} {g g' : Graph} {t : List (Label × LabelSet)} {k y : Label} {b : Block} {name x : String}
variable {bs : List Block} {i : Instr} {ls lines out tail : List Line} {l : Line} {taken n : Nat}

theorem LabelSet.mem_insert {x : Label} : y ∈ LabelSet.insert x s ↔ y = x ∨ y ∈ s := by
  induction s with
  | nil => simp [LabelSet.insert]
  | cons z s ih =>
    rw [LabelSet.insert]
    split
    · next h =>
        subst h
        simp
    · split
      · simp
      · simp only [mem_cons, ih]
        exact or_left_comm

namespace Graph

def succsOf (g : Graph) (a : Label) : LabelSet := (g.succs.lookup a).getD []

def predsOf (g : Graph) (b : Label) : LabelSet := (g.preds.lookup b).getD []

def labels (g : Graph) : List Label := g.blocks.map Prod.fst

structure Linked (g : Graph) (edges : List (Label × Label)) (g' : Graph) : Prop where
  name : g'.name = g.name
  entry : g'.entry = g.entry
  blocks : g'.blocks = g.blocks
  succKeys : g'.succs.map Prod.fst = g.succs.map Prod.fst
  predKeys : g'.preds.map Prod.fst = g.preds.map Prod.fst
  known : ∀ e ∈ edges, e.1 ∈ g.succs.map Prod.fst ∧ e.2 ∈ g.preds.map Prod.fst
  succ : ∀ a b, b ∈ g'.succsOf a ↔ b ∈ g.succsOf a ∨ (a, b) ∈ edges
  pred : ∀ a b, a ∈ g'.predsOf b ↔ a ∈ g.predsOf b ∨ (a, b) ∈ edges

theorem Linked.refl (g : Graph) : Linked g [] g :=
  ⟨rfl, rfl, rfl, rfl, rfl, by simp, by simp, by simp⟩

theorem Linked.trans {g₁ g₂ g₃ : Graph} {es es' : List (Label × Label)} (h : Linked g₁ es g₂) (h' : Linked g₂ es' g₃) :
    Linked g₁ (es ++ es') g₃ where
  name := h'.name.trans h.name
  entry := h'.entry.trans h.entry
  blocks := h'.blocks.trans h.blocks
  succKeys := h'.succKeys.trans h.succKeys
  predKeys := h'.predKeys.trans h.predKeys
  known := fun e he => (mem_append.1 he).elim (h.known e) fun he => by
    rw [← h.succKeys, ← h.predKeys]
    exact h'.known e he
  succ := fun a b => by rw [h'.succ, h.succ, mem_append, or_assoc]
  pred := fun a b => by rw [h'.pred, h.pred, mem_append, or_assoc]

theorem bind_run_ok {α β : Type} {x : Edit α} {f : α → Edit β} {b : β} (h : (x >>= f).run.run g = (.ok b, g')) :
    ∃ a g₁, x.run.run g = (.ok a, g₁) ∧ (f a).run.run g₁ = (.ok b, g') := by
  rw [ExceptT.run_bind, StateT.run_bind] at h
  rcases hx : x.run.run g with ⟨e | a, g₁⟩
  · rw [hx] at h
    cases h
  · rw [hx] at h
    exact ⟨a, g₁, rfl, h⟩

theorem mem_put_insert (hs : t.lookup k = some s) (x a y : Label) :
    y ∈ ((Datum.put k (LabelSet.insert x s) t).lookup a).getD [] ↔ y ∈ (t.lookup a).getD [] ∨ (a = k ∧ y = x) := by
  rw [lookup_put]
  by_cases h : a = k
  · subst h
    simp [hs, LabelSet.mem_insert, or_comm]
  · simp [h]

theorem mem_keys_of_mem (h : y ∈ (t.lookup k).getD []) : k ∈ t.map Prod.fst := by
  rw [← lookup_isSome]
  cases hk : t.lookup k with
  | none => simp [hk] at h
  | some s => rfl

theorem keys_put_of_lookup (hs : t.lookup k = some s) (s' : LabelSet) : (Datum.put k s' t).map Prod.fst = t.map Prod.fst := by
  rw [keys_put, hs]
  rfl

theorem addEdge_linked {a b : Label} (h : (addEdge a b).run.run g = (.ok (), g')) : Linked g [(a, b)] g' := by
  obtain ⟨_, _, h₁, h⟩ := bind_run_ok h
  cases h₁
  rcases hs : g.succs.lookup a with _ | s <;> simp only [hs] at h
  · cases h
  obtain ⟨_, _, h₂, h⟩ := bind_run_ok h
  cases h₂
  rcases hp : g.preds.lookup b with _ | p <;> simp only [hp] at h <;> cases h
  refine ⟨rfl, rfl, rfl, keys_put_of_lookup hs _, keys_put_of_lookup hp _, ?_, fun a' b' => ?_, fun a' b' => ?_⟩
  · rintro e he
    cases mem_singleton.1 he
    exact ⟨lookup_isSome.1 (by simp [hs]), lookup_isSome.1 (by simp [hp])⟩
  · simpa [succsOf] using mem_put_insert hs b a' b'
  · simpa [predsOf, and_comm] using mem_put_insert hp a b' a'

theorem forM_linked {α : Type} {f : α → Edit Unit} (es : α → List (Label × Label))
    (hf : ∀ x g g', (f x).run.run g = (.ok (), g') → Linked g (es x) g') {xs : List α}
    (h : (xs.forM f).run.run g = (.ok (), g')) : Linked g (xs.flatMap es) g' := by
  induction xs generalizing g with
  | nil =>
    cases h
    exact .refl _
  | cons x xs ih =>
    obtain ⟨_, g₁, h₁, h₂⟩ := bind_run_ok h
    exact (hf x g g₁ h₁).trans (ih h₂)

def edgesOf (b : Block) : List (Label × Label) := (destinations b).map fun y => (b.label, y)

theorem linkBlock_linked (h : (linkBlock b).run.run g = (.ok (), g')) : Linked g (edgesOf b) g' := by
  rw [edgesOf, map_eq_flatMap]
  exact forM_linked (fun y => [(b.label, y)]) (fun y g g' => addEdge_linked) h

/-- Just the jumps of the blocks are edges, and none leads out of the graph. -/
structure OfBlocks (name : String) (entry : Label) (bs : List Block) (g : Graph) : Prop where
  name : g.name = name
  entry : g.entry = entry
  blocks : g.blocks = bs.map fun b => (b.label, b)
  succKeys : g.succs.map Prod.fst = bs.map Block.label
  predKeys : g.preds.map Prod.fst = bs.map Block.label
  closed : ∀ b ∈ bs, ∀ y ∈ destinations b, y ∈ bs.map Block.label
  succ : ∀ a y, y ∈ g.succsOf a ↔ ∃ b ∈ bs, b.label = a ∧ y ∈ destinations b
  pred : ∀ a y, a ∈ g.predsOf y ↔ ∃ b ∈ bs, b.label = a ∧ y ∈ destinations b

theorem ofBlocks_spec {entry : Label} (hn : (bs.map Block.label).Nodup) (h : ofBlocks name entry bs = .ok g) :
    OfBlocks name entry bs g := by
  have empty : bs.foldl (fun acc b => Datum.put b.label ([] : LabelSet) acc) [] = bs.map fun b => (b.label, []) :=
    foldl_put (v := fun _ => []) hn
  have lookup : ∀ a : Label, ((bs.map fun b => (b.label, ([] : LabelSet))).lookup a).getD [] = [] := by
    intro a
    rcases hl : (bs.map fun b => (b.label, ([] : LabelSet))).lookup a with _ | s
    · rw [hl]
      rfl
    · obtain ⟨b, -, hb⟩ := mem_map.1 (mem_of_lookup hl)
      cases hb
      rw [hl]
      rfl
  rw [ofBlocks] at h
  rcases hr : (bs.forM linkBlock).run.run (unlinked name entry bs) with ⟨e | u, g'⟩ <;> rw [hr] at h
  · cases h
  · cases h
    have hl := forM_linked edgesOf (fun b _ _ => linkBlock_linked) hr
    have edge : ∀ a y, (a, y) ∈ bs.flatMap edgesOf ↔ ∃ b ∈ bs, b.label = a ∧ y ∈ destinations b := by
      intro a y
      simp only [mem_flatMap, edgesOf, mem_map, Prod.mk.injEq]
      grind
    constructor
    · exact hl.name
    · exact hl.entry
    · rw [hl.blocks]
      exact foldl_put (v := fun b => b) hn
    · rw [hl.succKeys, unlinked, empty, map_map]
      rfl
    · rw [hl.predKeys, unlinked, empty, map_map]
      rfl
    · intro b hb y hy
      have hk := (hl.known (b.label, y) ((edge _ _).2 ⟨b, hb, rfl, hy⟩)).2
      rwa [unlinked, empty, map_map] at hk
    · intro a y
      rw [hl.succ, edge, succsOf, unlinked, empty, lookup]
      simp
    · intro a y
      rw [hl.pred, edge, predsOf, unlinked, empty, lookup]
      simp

end Graph

def Block.instrs (b : Block) : List Instr := .label b.label.text :: code b.lines

/-- Code without labels, then jumps and returns, the last always taken. Only at the end of the code may nothing be behind the
label. -/
structure Block.Formed (b : Block) : Prop where
  body : ∀ l ∈ b.body, l.instr.isLabel = false ∧ isEnder l.instr = false
  jumps : ∀ l ∈ b.jumps, isEnder l.instr = true
  ends : b.lines = [] ∨ ∃ l, b.jumps.getLast? = some l ∧ isFinal l.instr = true

structure Block.Cut (b : Block) : Prop where
  body : ∀ l ∈ b.body, l.instr.isLabel = false ∧ isEnder l.instr = false
  jumps : ∀ l ∈ b.jumps, isEnder l.instr = true

theorem Block.Formed.cut (hb : b.Formed) : b.Cut := ⟨hb.body, hb.jumps⟩

theorem isLabel_of_isEnder (h : isEnder i) : i.isLabel = false := by
  cases i <;> simp_all [isEnder, isConditional, isFinal, Instr.isLabel]

theorem dest_of_isEnder (hi : isEnder i) : i.dest = none := by
  cases i with
  | jmp | jcc | ret => rfl
  | _ => cases hi

theorem isFinal_of_isPlain (h : i.isPlain) : isFinal i = false := by
  cases i <;> simp_all [Instr.isPlain, isFinal]

theorem isFinal_of_dest {d : String} (h : i.dest = some d) : isFinal i = false := by
  cases i <;> simp_all [Instr.dest, isFinal]

theorem lastCode_append (a c : List Instr) : lastCode (a ++ c) = (lastCode c).or (lastCode a) := by
  rw [lastCode, filter_append, List.getLast?_append]
  rfl

theorem lastCode_eq_getLast? {c : List Instr} (h : ∀ i ∈ c, i.isLabel = false) : lastCode c = c.getLast? := by
  rw [lastCode, filter_eq_self.2 fun i hi => by simp [h i hi]]

theorem Guarded.takeWhile (h : Guarded (i :: code ls)) (hi : isFinal i = false)
    (hl : l ∈ ls.takeWhile fun l => !isEnder l.instr) : l.instr.isLabel = false := by
  induction ls generalizing i with
  | nil => simp at hl
  | cons m ls ih =>
    rw [takeWhile_cons] at hl
    split at hl
    · next hm =>
        rcases mem_cons.1 hl with rfl | hl
        · cases hlab : l.instr.isLabel with
          | false => rfl
          | true =>
            have := h.rel_head? rfl hlab
            simp [hi] at this
        · refine ih h.tail ?_ hl
          simp only [isEnder, Bool.not_or, Bool.and_eq_true, Bool.not_eq_true'] at hm
          exact hm.2
    · simp at hl

theorem blocksOf_cons {rest : List Line} (h : blocksOf n (l :: rest) = .ok bs) :
    ∃ m x b bs' tail, n = m + 1 ∧ l.instr = .label x ∧ bs = b :: bs' ∧ b.label = .name x ∧ blocksOf m tail = .ok bs' ∧
      rest = b.lines ++ tail ∧ (b.body = rest.takeWhile fun l => !isEnder l.instr) ∧ ∀ l ∈ b.jumps, isEnder l.instr := by
  cases n with
  | zero => simp [blocksOf] at h
  | succ m =>
    rw [blocksOf] at h
    split at h
    · next x hx =>
        obtain ⟨bs', hbs, h⟩ := bind_eq_ok.1 h
        cases h
        refine ⟨m, x, _, bs', _, rfl, hx, rfl, rfl, hbs, ?_, rfl, fun l hl => ?_⟩
        · rw [Block.lines, append_assoc, takeWhile_append_dropWhile, takeWhile_append_dropWhile]
        · simpa using mem_takeWhile_imp hl
    · cases h

theorem code_append (ls ms : List Line) : code (ls ++ ms) = code ls ++ code ms := map_append

theorem Block.Cut.isLabel_eq (hb : b.Cut) (hl : l ∈ b.lines) : l.instr.isLabel = false := by
  rcases mem_append.1 hl with hl | hl
  · exact (hb.body l hl).1
  · exact isLabel_of_isEnder (hb.jumps l hl)

theorem Block.Formed.isLabel_eq (hb : b.Formed) (hl : l ∈ b.lines) : l.instr.isLabel = false :=
  hb.cut.isLabel_eq hl

theorem cut_of_guarded (hg : Guarded (.label x :: code (b.lines ++ tail)))
    (hbody : b.body = (b.lines ++ tail).takeWhile fun l => !isEnder l.instr) (hjumps : ∀ l ∈ b.jumps, isEnder l.instr) :
    b.Cut := by
  refine ⟨fun l hl => ?_, hjumps⟩
  rw [hbody] at hl
  exact ⟨hg.takeWhile rfl hl, by simpa using mem_takeWhile_imp hl⟩

theorem Block.Cut.getLast?_jumps (hb : b.Cut) (hl : b.lines.getLast? = some l) (hf : isFinal l.instr) :
    b.jumps.getLast? = some l := by
  rw [Block.lines, List.getLast?_append] at hl
  rcases hj : b.jumps.getLast? with _ | l'
  · rw [hj, Option.none_or] at hl
    have := (hb.body l (mem_of_getLast? hl)).2
    simp [isEnder, hf] at this
  · rwa [hj, Option.some_or] at hl

theorem formed_of_guarded (hg : Guarded (.label x :: code (b.lines ++ tail)))
    (he : ∀ i ∈ lastCode (code (b.lines ++ tail)), isFinal i) (ht : ∀ l ∈ tail.head?, l.instr.isLabel)
    (hb : b.Cut) : b.Formed := by
  refine ⟨hb.body, hb.jumps, ?_⟩
  rcases hlast : b.lines.getLast? with _ | l
  · exact .inl (List.getLast?_eq_none_iff.1 hlast)
  have hcode : (code b.lines).getLast? = some l.instr := by rw [code, List.getLast?_map, hlast]; rfl
  have hfinal : isFinal l.instr := by
    rw [code_append] at he hg
    cases tail with
    | nil =>
      apply he
      rw [code_nil, append_nil, lastCode_eq_getLast?, hcode]
      · rfl
      · intro i hi
        obtain ⟨m, hm, rfl⟩ := mem_map.1 hi
        exact hb.isLabel_eq hm
    | cons m tail => exact (isChain_append.1 hg.tail).2.2 _ hcode m.instr rfl (ht m rfl)
  exact .inr ⟨l, hb.getLast?_jumps hlast hfinal, hfinal⟩

theorem blocksOf_spec (h : blocksOf n ls = .ok bs) (hg : Guarded (code ls)) :
    code ls = bs.flatMap Block.instrs ∧ (∀ b ∈ bs, (∃ x, b.label = .name x) ∧ b.Cut) ∧
      ((∀ i ∈ lastCode (code ls), isFinal i) → ∀ b ∈ bs, b.Formed) := by
  induction bs generalizing n ls with
  | nil =>
    cases ls with
    | nil => simp
    | cons l rest =>
      obtain ⟨_, _, _, _, _, _, _, hbs, _⟩ := blocksOf_cons h
      cases hbs
  | cons b bs ih =>
    cases ls with
    | nil => simp [blocksOf] at h
    | cons l rest =>
      obtain ⟨m, x, b', bs', tail, rfl, hx, hbs, hlabel, htail, rfl, hbody, hjumps⟩ := blocksOf_cons h
      cases hbs
      rw [code_cons, hx] at hg
      have hhead : ∀ l ∈ tail.head?, l.instr.isLabel := by
        intro l hl
        cases tail with
        | nil => cases hl
        | cons t tail =>
          cases hl
          obtain ⟨_, y, _, _, _, _, hy, _⟩ := blocksOf_cons htail
          rw [hy]
          rfl
      have hcut := cut_of_guarded hg hbody hjumps
      have htails : Guarded (code tail) := by
        rw [code_append] at hg
        exact hg.tail.right_of_append
      obtain ⟨hcode, hall, hends⟩ := ih htail htails
      refine ⟨?_, ?_, fun he => ?_⟩
      · rw [flatMap_cons, ← hcode, Block.instrs, hlabel, code_cons, hx, code_append]
        rfl
      · exact forall_mem_cons.2 ⟨⟨⟨x, hlabel⟩, hcut⟩, hall⟩
      · rw [code_cons, hx] at he
        refine forall_mem_cons.2 ⟨formed_of_guarded hg he hhead hcut, hends fun i hi => he i ?_⟩
        rw [code_append]
        simp_all [lastCode_append]

theorem labelNames_code (h : ∀ l ∈ ls, l.instr.isLabel = false) : labelNames (code ls) = [] := by
  induction ls with
  | nil => rfl
  | cons l ls ih =>
    rw [code_cons, labelNames_cons_of_isLabel (h l mem_cons_self), ih fun m hm => h m (mem_cons_of_mem l hm)]

theorem labelNames_append (b c : List Instr) : labelNames (b ++ c) = labelNames b ++ labelNames c := filterMap_append

theorem labelNames_flatMap (h : ∀ b ∈ bs, b.Cut) : labelNames (bs.flatMap Block.instrs) = bs.map fun b => b.label.text := by
  induction bs with
  | nil => rfl
  | cons b bs ih =>
    have hb := labelNames_code fun l => (h b mem_cons_self).isLabel_eq
    rw [flatMap_cons, labelNames_append, ih fun c hc => h c (mem_cons_of_mem b hc), Block.instrs,
      labelNames_cons_label, hb]
    rfl

structure Graph.Formed (g : Graph) : Prop where
  named : ∀ e ∈ g.blocks, e.2.label = e.1 ∧ ∃ s, e.1 = .name s ∧ isLabelName s = true
  nodup : g.labels.Nodup
  entry : g.labels.head? = some g.entry
  succKeys : g.succs.map Prod.fst = g.labels
  predKeys : g.preds.map Prod.fst = g.labels
  closed : ∀ e ∈ g.blocks, ∀ y ∈ Graph.destinations e.2, y ∈ g.labels
  succ : ∀ e ∈ g.blocks, ∀ y, y ∈ g.succsOf e.1 ↔ y ∈ Graph.destinations e.2
  pred : ∀ a y, a ∈ g.predsOf y ↔ y ∈ g.succsOf a
  blocks : ∀ e ∈ g.blocks, e.2.Formed

theorem isLabelName_numberName (k : Nat) : isLabelName (numberName k) := by
  simp [isLabelName, numberName]

theorem Numbered.named {ρ : Renaming} {k : Nat} {r : Option String} {b b' : List Instr} (h : Numbered ρ k r b b')
    (hx : x ∈ labelNames b') : isLabelName x := by
  rw [h.labels] at hx
  obtain ⟨j, -, rfl⟩ := mem_map.1 hx
  exact isLabelName_numberName j

variable (h : canonical taken name lines = (out, none))
include h

theorem canonical_guarded : Guarded (code out) := by
  obtain ⟨b₁, b₂, ρ, -, h₂, h₃, -⟩ := canonical_spec h
  exact h₃.guarded h₂.walled

theorem canonical_endsFinal (he : EndsFinal (code lines)) :
    EndsFinal (code out) := by
  obtain ⟨b₁, b₂, ρ, h₁, h₂, h₃, -⟩ := canonical_spec h
  refine h₃.endsFinal (h₂.endsFinal ?_)
  rwa [EndsFinal, h₁.lastCode_eq]

theorem canonical_labels :
    (labelNames (code out)).Nodup ∧ ∀ x ∈ labelNames (code out), isLabelName x := by
  obtain ⟨b₁, b₂, ρ, -, -, h₃, -⟩ := canonical_spec h
  exact ⟨h₃.labels_nodup, fun x => h₃.named⟩

omit h

/-- Blocks stand under labels of their own, with their jumps for edges. -/
structure Graph.Cut (g : Graph) : Prop where
  named : ∀ e ∈ g.blocks, e.2.label = e.1 ∧ ∃ s, e.1 = .name s ∧ isLabelName s = true
  nodup : g.labels.Nodup
  succKeys : g.succs.map Prod.fst = g.labels
  closed : ∀ e ∈ g.blocks, ∀ y ∈ Graph.destinations e.2, y ∈ g.labels
  succ : ∀ e ∈ g.blocks, ∀ y, y ∈ g.succsOf e.1 ↔ y ∈ Graph.destinations e.2
  pred : ∀ a y, a ∈ g.predsOf y ↔ y ∈ g.succsOf a
  blocks : ∀ e ∈ g.blocks, e.2.Cut

theorem Graph.Formed.cut (hg : g.Formed) : g.Cut where
  named := hg.named
  nodup := hg.nodup
  succKeys := hg.succKeys
  closed := hg.closed
  succ := hg.succ
  pred := hg.pred
  blocks e he := (hg.blocks e he).cut

section OfBlocks

variable {name : String} {entry : Label} {bs : List Block} {g : Graph}

theorem Graph.OfBlocks.labels_eq (h : g.OfBlocks name entry bs) : g.labels = bs.map Block.label := by
  rw [Graph.labels, h.blocks, map_map]
  rfl

theorem Graph.OfBlocks.cut (h : g.OfBlocks name entry bs) (hn : (bs.map Block.label).Nodup)
    (hb : ∀ b ∈ bs, (∃ x, b.label = .name x) ∧ b.Cut) (hl : ∀ b ∈ bs, isLabelName b.label.text) : g.Cut := by
  have mem : ∀ e ∈ g.blocks, e.2 ∈ bs ∧ e.2.label = e.1 := by
    intro e hmem
    rw [h.blocks] at hmem
    obtain ⟨b, hb, rfl⟩ := mem_map.1 hmem
    exact ⟨hb, rfl⟩
  constructor
  · intro e hmem
    obtain ⟨hbs, hlab⟩ := mem e hmem
    obtain ⟨⟨x, hx⟩, -⟩ := hb e.2 hbs
    have hlx := hl e.2 hbs
    rw [hx] at hlx
    exact ⟨hlab, x, hlab.symm.trans hx, hlx⟩
  · rwa [h.labels_eq]
  · rw [h.succKeys, h.labels_eq]
  · intro e hmem y hy
    rw [h.labels_eq]
    exact h.closed e.2 (mem e hmem).1 y hy
  · intro e hmem y
    obtain ⟨hbs, hlab⟩ := mem e hmem
    rw [h.succ]
    constructor
    · rintro ⟨b, hbs', hlab', hy⟩
      rwa [inj_on_of_nodup_map hn hbs hbs' (hlab.trans hlab'.symm)]
    · exact fun hy => ⟨e.2, hbs, hlab, hy⟩
  · intro a y
    rw [h.pred, h.succ]
  · exact fun e hmem => (hb e.2 (mem e hmem).1).2

theorem Graph.OfBlocks.formed (h : g.OfBlocks name entry bs) (hg : g.Cut) (hb : ∀ b ∈ bs, b.Formed)
    (he : (bs.map Block.label).head? = some entry) : g.Formed where
  named := hg.named
  nodup := hg.nodup
  entry := by rw [h.labels_eq, he, h.entry]
  succKeys := hg.succKeys
  predKeys := by rw [h.predKeys, h.labels_eq]
  closed := hg.closed
  succ := hg.succ
  pred := hg.pred
  blocks e hmem := by
    rw [h.blocks] at hmem
    obtain ⟨b, hbs, rfl⟩ := mem_map.1 hmem
    exact hb b hbs

end OfBlocks

theorem canonical_blocks (hc : canonical taken name lines = (out, none)) (hbs : blocksOf out.length out = .ok bs) :
    (∀ b ∈ bs, (∃ x, b.label = .name x) ∧ b.Cut) ∧ (bs.map Block.label).Nodup ∧ ∀ b ∈ bs, isLabelName b.label.text := by
  obtain ⟨hcode, hall, -⟩ := blocksOf_spec hbs (canonical_guarded hc)
  obtain ⟨hnodup, hlabel⟩ := canonical_labels hc
  rw [hcode, labelNames_flatMap fun b hb => (hall b hb).2] at hnodup hlabel
  refine ⟨hall, List.Nodup.of_map Label.text ?_, fun b hb => hlabel _ (mem_map_of_mem hb)⟩
  rwa [map_map]

theorem infer_blocks (h : infer taken name lines = (out, .ok g)) :
    canonical taken (String.ofList (name.toList.drop 1)) lines = (out, none) ∧ g.Cut ∧
      ∃ entry bs, blocksOf out.length out = .ok bs ∧ g.OfBlocks name entry bs ∧ (bs.map Block.label).head? = some entry := by
  rw [infer] at h
  rcases hc : canonical taken (String.ofList (name.toList.drop 1)) lines with ⟨o, _ | e⟩
  · simp only [hc, Prod.mk.injEq] at h
    obtain ⟨rfl, h⟩ := h
    split at h
    · next id entry rest =>
        obtain ⟨bs, hbs, h⟩ := bind_eq_ok.1 h
        obtain ⟨hall, hn, hlabel⟩ := canonical_blocks hc hbs
        have hg := Graph.ofBlocks_spec hn h
        refine ⟨rfl, hg.cut hn hall hlabel, .name entry, bs, hbs, hg, ?_⟩
        obtain ⟨_, x, b, bs', _, _, hx, rfl, hb, _⟩ := blocksOf_cons hbs
        cases hx
        rw [map_cons, List.head?_cons, hb]
    · cases h
  · simp only [hc] at h
    cases h

theorem infer_spec (h : infer taken name lines = (out, .ok g)) (he : EndsFinal (code lines)) :
    canonical taken (String.ofList (name.toList.drop 1)) lines = (out, none) ∧ g.Formed ∧
      code out = g.blocks.flatMap fun e => e.2.instrs := by
  obtain ⟨hc, hcut, entry, bs, hbs, hg, hentry⟩ := infer_blocks h
  obtain ⟨i, hi, hf⟩ := canonical_endsFinal hc he
  have hlast : ∀ j ∈ lastCode (code out), isFinal j := by
    intro j hj
    rw [hi] at hj
    cases hj
    exact hf
  obtain ⟨hcode, -, hformed⟩ := blocksOf_spec hbs (canonical_guarded hc)
  refine ⟨hc, hg.formed hcut (hformed hlast) hentry, ?_⟩
  rw [hg.blocks, hcode, flatMap_map]

structure Graph.Reshaped (R : Block → Block → Prop) (g h : Graph) : Prop where
  entry : h.entry = g.entry
  succs : h.succs = g.succs
  preds : h.preds = g.preds
  blocks : List.Forall₂ (fun e e' => e'.1 = e.1 ∧ e'.2.label = e.2.label ∧ Graph.destinations e'.2 = Graph.destinations e.2 ∧
    R e.2 e'.2) g.blocks h.blocks

namespace Graph.Reshaped

variable {R : Block → Block → Prop} {g h : Graph}

theorem labels_eq (hr : Reshaped R g h) : h.labels = g.labels := by
  rw [Graph.labels, Graph.labels, ← forall₂_eq_eq_eq, forall₂_map_left_iff, forall₂_map_right_iff]
  exact hr.blocks.flip.imp fun _ _ h => h.1

theorem block (hr : Reshaped R g h) {e : Label × Block} (he : e ∈ g.blocks) :
    ∃ e' ∈ h.blocks, e'.1 = e.1 ∧ e'.2.label = e.2.label ∧ Graph.destinations e'.2 = Graph.destinations e.2 ∧ R e.2 e'.2 :=
  forall₂_exists_right hr.blocks he

theorem formed (hr : Reshaped R g h) (hg : g.Formed) (hb : ∀ e ∈ g.blocks, ∀ b', R e.2 b' → b'.Formed) : h.Formed := by
  have back : ∀ e' ∈ h.blocks, ∃ e ∈ g.blocks, e'.1 = e.1 ∧ e'.2.label = e.2.label ∧
      Graph.destinations e'.2 = Graph.destinations e.2 ∧ R e.2 e'.2 := fun e' he' => forall₂_exists_left hr.blocks he'
  have hlabels := hr.labels_eq
  have hsucc : ∀ x, h.succsOf x = g.succsOf x := fun x => by rw [Graph.succsOf, Graph.succsOf, hr.succs]
  have hpred : ∀ x, h.predsOf x = g.predsOf x := fun x => by rw [Graph.predsOf, Graph.predsOf, hr.preds]
  refine ⟨fun e' he' => ?_, hlabels ▸ hg.nodup, by rw [hlabels, hr.entry, hg.entry], by rw [hr.succs, hlabels, hg.succKeys],
    by rw [hr.preds, hlabels, hg.predKeys], fun e' he' y hy => ?_, fun e' he' y => ?_,
    fun a y => by rw [hpred, hsucc, hg.pred], fun e' he' => ?_⟩ <;>
    obtain ⟨e, he, hlab, hbl, hd, hR⟩ := back e' he'
  · rw [hbl, hlab]
    exact hg.named e he
  · rw [hlabels]
    exact hg.closed e he y (hd ▸ hy)
  · rw [hsucc, hlab, hd]
    exact hg.succ e he y
  · exact hb e he _ hR

end Graph.Reshaped

end Bx.Flow
