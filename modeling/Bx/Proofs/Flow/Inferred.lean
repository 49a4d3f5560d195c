import Bx.Proofs.Flow.Editing
import Bx.Proofs.Flow.RoundTrip

namespace Bx.Flow

open List Tac Run.Checked

variable {ρ : Renaming} {i i' : Instr} {k taken : Nat} {b b' : List Instr} {name x : String} {lines ls out : List Line}

theorem target?_relabel (h : relabel ρ i = some i') : i'.target? = i.target?.map ρ.apply := by
  cases i <;> cases h <;> rfl

theorem Numbered.lookup_mem {r : Option String} (h : Numbered ρ k r b b') (hx : x ∈ labelNames b) :
    ∃ z, ρ.lookup x = some z ∧ (r = some z ∨ z ∈ labelNames b') := by
  induction h with
  | nil => cases hx
  | @more k x' y c c' hlast h ih =>
    by_cases hc : x ∈ labelNames c
    · exact ih hc
    · obtain rfl : x = x' := (mem_cons.1 hx).resolve_right hc
      exact ⟨y, hlast hc, .inl rfl⟩
  | @first k x' c c' hlast h ih =>
    rw [labelNames_cons_label]
    by_cases hc : x ∈ labelNames c
    · obtain ⟨z, hz, hr | hmem⟩ := ih hc
      · cases hr
        exact ⟨_, hz, .inr mem_cons_self⟩
      · exact ⟨z, hz, .inr (mem_cons_of_mem _ hmem)⟩
    · obtain rfl : x = x' := (mem_cons.1 hx).resolve_right hc
      exact ⟨_, hlast hc, .inr mem_cons_self⟩
  | keep hi hr h ih =>
    rw [labelNames_cons_of_isLabel hi] at hx
    obtain ⟨z, hz, hn | hmem⟩ := ih hx
    · cases hn
    · rw [labelNames_cons_of_isLabel ((isLabel_relabel hr).trans hi)]
      exact ⟨z, hz, .inr hmem⟩

theorem canonical_target (h : canonical taken name lines = (out, none)) (hi' : i' ∈ code out) {z : String} (hz : z ∈ i'.target?) :
    z ∈ labelNames (code out) ∨ ∃ i ∈ code lines, z ∈ i.target? ∧ z ∉ labelNames (code lines) := by
  obtain ⟨b₁, b₂, ρ, h₁, h₂, h₃, hρ⟩ := canonical_spec h
  rcases h₃.mem hi' with hl | ⟨i, hi, -, hr⟩
  · obtain ⟨x, rfl⟩ := eq_label_of_isLabel hl
    cases hz
  rw [target?_relabel hr] at hz
  obtain ⟨l, hl, rfl⟩ := Option.map_eq_some_iff.1 hz
  by_cases hmem : l ∈ labelNames b₂
  · obtain ⟨z, hlook, hn | hz⟩ := h₃.lookup_mem hmem
    · cases hn
    · exact .inl (by simpa [Renaming.apply, hlook] using hz)
  have hsame : ρ.apply l = l := by simp [Renaming.apply, hρ l hmem]
  rw [hsame]
  rw [h₂.labels] at hmem
  rcases h₂.mem hi with hi | ⟨j, x, c, hc, -, -, rfl⟩
  · rcases h₁.mem hi with hi | ⟨k, rfl⟩
    · obtain ⟨n, hperm⟩ := h₁.labels
      exact .inr ⟨i, hi, hl, fun hx => hmem (hperm.mem_iff.2 (mem_append_left _ hx))⟩
    · cases hl
  · cases hl
    have hlab : Instr.label l ∈ b₁ := hc.subset (.tail _ (.head _))
    exact (hmem (mem_filterMap.2 ⟨_, hlab, rfl⟩)).elim

section Shape

/-- The blocks make up the canonical code in order of their numbers, each but the last is left by a jump or a return, and
edges are the jumps. -/
structure Inferred (out : List Line) (g : Graph) : Prop where
  code : code out = g.blocks.flatMap fun e => e.2.instrs
  lines : g.lines = unlabelled out
  keyed : ∀ e ∈ g.blocks, e.2.label = e.1
  labels : g.labels = (List.range g.blocks.length).map fun k => .name ("%.L" ++ toString k)
  nodup : g.labels.Nodup
  entry : g.entry = .name "%.L0" ∧ g.entry ∈ g.labels
  cut : ∀ e ∈ g.blocks, e.2.Cut
  ends : ∀ e ∈ g.blocks.dropLast, ∃ l, e.2.jumps.getLast? = some l ∧ isFinal l.instr = true
  succ : ∀ e ∈ g.blocks, ∀ y, y ∈ g.succsOf e.1 ↔ ∃ l ∈ e.2.jumps, ∃ x ∈ l.instr.target?, y = .name x
  pred : ∀ a y, a ∈ g.predsOf y ↔ y ∈ g.succsOf a

theorem labels_of_canonical {bs : List Block} (hc : canonical taken name lines = (out, none))
    (hcode : Flow.code out = bs.flatMap Block.instrs) (hall : ∀ b ∈ bs, (∃ x, b.label = .name x) ∧ b.Cut) :
    bs.map Block.label = (List.range bs.length).map fun k => .name ("%.L" ++ toString k) := by
  obtain ⟨b₁, b₂, ρ, -, -, h₃, -⟩ := canonical_spec hc
  have hn := h₃.labels
  generalize labelRuns _ _ = n at hn
  rw [hcode, labelNames_flatMap fun b hb => (hall b hb).2] at hn
  obtain rfl : n = bs.length := by simpa using (congrArg List.length hn).symm
  have htext : (bs.map fun b => b.label.text).map Label.name = bs.map Block.label := by
    rw [map_map]
    refine map_congr_left fun b hb => ?_
    obtain ⟨x, hx⟩ := (hall b hb).1
    simp [hx, Label.text, Label.toDatum, Datum.text]
  rw [← htext, hn, range_eq_range', map_map]
  rfl

theorem ends_of_guarded {bs : List Block} (h : Guarded (bs.flatMap Block.instrs)) {b : Block} (hmem : b ∈ bs.dropLast)
    (hb : b.Cut) : ∃ l, b.jumps.getLast? = some l ∧ isFinal l.instr := by
  obtain ⟨as, cs, hac⟩ := append_of_mem hmem
  have hne : bs ≠ [] := ne_nil_of_mem (dropLast_subset bs hmem)
  obtain ⟨c, cs', hcs⟩ := exists_cons_of_ne_nil (concat_ne_nil (bs.getLast hne) cs)
  have hsplit : bs = as ++ b :: c :: cs' := by
    rw [← hcs, ← cons_append, ← append_assoc, ← hac, dropLast_append_getLast hne]
  rw [hsplit] at h
  rcases hl : b.lines.getLast? with _ | l
  · have := eq_nil_of_guarded h (List.getLast?_eq_none_iff.1 hl)
    cases this
  · rw [flatMap_append, flatMap_cons, flatMap_cons] at h
    have hlast : b.instrs.getLast? = some l.instr := by
      rw [Block.instrs, List.getLast?_cons, Flow.code, List.getLast?_map, hl]
      rfl
    -- The label of the next block stands directly behind `l`.
    have hf := (isChain_append.1 h.right_of_append).2.2 _ hlast _ rfl rfl
    exact ⟨l, hb.getLast?_jumps hl hf, hf⟩

/-- What is inferred from code whose jumps lead to names of labels is of this form. -/
theorem infer_inferred {taken : Nat} {name : String} {lines out : List Line} {g : Graph}
    (hl : ∀ i ∈ code lines, ∀ x ∈ i.target?, isLabelName x = true) (h : infer taken name lines = (out, .ok g)) :
    Inferred out g := by
  obtain ⟨hc, hcut, entry, bs, hbs, hg, hentry⟩ := infer_blocks h
  have hguard := canonical_guarded hc
  obtain ⟨hcode, hall, -⟩ := blocksOf_spec hbs hguard
  have hblocks : g.blocks.map Prod.snd = bs := by
    rw [hg.blocks, map_map]
    exact map_id bs
  have hnames : g.labels = (List.range g.blocks.length).map fun k => .name ("%.L" ++ toString k) := by
    rw [hg.labels_eq, labels_of_canonical hc hcode hall, hg.blocks, length_map]
  refine ⟨?_, infer_lines h, fun e he => (hcut.named e he).1, hnames, hcut.nodup, ?_, hcut.blocks, fun e he => ?_, fun e he y => ?_,
    hcut.pred⟩
  · rw [hcode, ← hblocks, flatMap_map]
  · have hhead : g.labels.head? = some g.entry := by rw [hg.labels_eq, hentry, hg.entry]
    refine ⟨?_, mem_of_mem_head? hhead⟩
    rw [hnames] at hhead
    cases hn : g.blocks.length with
    | zero => simp [hn] at hhead
    | succ n =>
      rw [hn, range_succ_eq_map] at hhead
      exact (Option.some.inj hhead).symm
  · rw [hg.blocks, ← map_dropLast] at he
    obtain ⟨b, hb, rfl⟩ := mem_map.1 he
    exact ends_of_guarded (hcode ▸ hguard) hb (hall b (dropLast_subset bs hb)).2
  · rw [hcut.succ e he]
    constructor
    · exact exists_of_mem_destinations (hcut.blocks e he)
    · rintro ⟨l, hmem, x, hx, rfl⟩
      refine mem_destinations hmem hx (ne_empty_of_isLabelName ?_)
      have hout : l.instr ∈ code out := by
        rw [hcode, ← hblocks, flatMap_map]
        exact mem_flatMap.2 ⟨e, he, .tail _ (mem_map_of_mem (mem_append_right _ hmem))⟩
      rcases canonical_target hc hout hx with hlab | ⟨i, hi, hix, -⟩
      · exact (canonical_labels hc).2 x hlab
      · exact hl i hi x hix

/-- A loop that is run into and left by a conditional jump, with a return behind it. -/
theorem infer_inferred_countdown :
    ∃ out g, infer 11 "@main" (linesOf countdown.body) = (out, .ok g) ∧ g.blocks.length = 4 ∧ Inferred out g := by
  obtain ⟨out, g, h, hlen⟩ : ∃ out g, infer 11 "@main" (linesOf countdown.body) = (out, .ok g) ∧ g.blocks.length = 4 :=
    ⟨_, _, by cbv, rfl⟩
  refine ⟨out, g, h, hlen, infer_inferred ?_ h⟩
  rw [code_linesOf]
  simp [countdown, Instr.target?, isLabelName]

end Shape

section Refused

def isBreak (i : Instr) : Bool := i.isLabel || isEnder i

def Severed (b : List Instr) : Prop := b.IsChain fun i j => isEnder i = true → isBreak j = true

def Stranded (r : Bool) (b : List Instr) : Prop :=
  ∃ a i j c, b = a ++ i :: j :: c ∧ isFinal i = true ∧ a.getLast?.elim r isConditional = false ∧ isBreak j = false

theorem severed_cons : Severed (i :: b) ↔ (isEnder i → ∀ j ∈ b.head?, isBreak j) ∧ Severed b := by
  rw [Severed, isChain_cons]
  exact and_congr_left' ⟨fun h hi j hj => h j hj hi, fun h j hj hi => h hi j hj⟩

theorem severed_cons_label : Severed (.label x :: b) ↔ Severed b :=
  severed_cons.trans (and_iff_right nofun)

theorem getLast?_cons_elim {p : Instr → Bool} (i : Instr) (b : List Instr) (r : Bool) :
    (i :: b).getLast?.elim r p = b.getLast?.elim (p i) p := by
  rw [List.getLast?_cons]
  cases b.getLast? <;> rfl

theorem stranded_cons {r : Bool} :
    Stranded r (i :: b) ↔ (r = false ∧ isFinal i ∧ ∃ j ∈ b.head?, isBreak j = false) ∨ Stranded (isConditional i) b := by
  constructor
  · rintro ⟨_ | ⟨p, a⟩, i', j, c, hb, hf, hr, hj⟩
    · cases hb
      exact .inl ⟨hr, hf, j, rfl, hj⟩
    · cases hb
      exact .inr ⟨a, i', j, c, rfl, hf, by rwa [← getLast?_cons_elim], hj⟩
  · rintro (⟨rfl, hf, j, hj, hbreak⟩ | ⟨a, i', j, c, rfl, hf, hr, hj⟩)
    · obtain ⟨c, rfl⟩ := List.head?_eq_some_iff.1 hj
      exact ⟨[], i, j, c, rfl, hf, rfl, hbreak⟩
    · exact ⟨i :: a, i', j, c, rfl, hf, by rwa [getLast?_cons_elim], hj⟩

theorem isFinal_of_isConditional (h : isConditional i) : isFinal i = false := by
  cases i <;> simp_all [isConditional, isFinal]

theorem AdminLabels.head (h : AdminLabels name k false b b') : b'.head? = b.head? := by
  cases h <;> rfl

theorem AdminLabels.isBreak_head (h : AdminLabels name k true b b') {j : Instr} (hj : j ∈ b'.head?) : isBreak j := by
  cases h <;> cases hj <;> simp_all [isBreak, isEnder, Instr.isLabel]

theorem AdminLabels.severed_iff {r : Bool} (h : AdminLabels name k r b b') : Severed b' ↔ ¬ Stranded r b := by
  induction h with
  | nil => exact iff_of_true .nil (by rintro ⟨_ | _, _, _, _, h, -⟩ <;> cases h)
  | branch hi h ih =>
    rw [severed_cons, stranded_cons, isFinal_of_isConditional hi, hi, ih]
    simpa using fun _ _ j => h.isBreak_head
  | keep hi h ih =>
    rw [severed_cons, stranded_cons, hi, ih, h.head, isEnder, hi]
    simp [not_or]
  | @behind k i c c' hi h ih =>
    have hc : isConditional i = false := by
      cases i <;> simp_all [isFinal, isConditional]
    rw [severed_cons, severed_cons_label, stranded_cons, hc, ih]
    simp [isBreak, Instr.isLabel]
  | @before k i c c' hi h ih =>
    have hc : isConditional i = false := (Bool.or_eq_false_iff.1 hi).1
    rw [severed_cons_label, severed_cons, stranded_cons, hc, hi, ih]
    simp

theorem ExplicitJumps.severed_iff (h : ExplicitJumps b b') : Severed b' ↔ Severed b := by
  induction h with
  | nil => rfl
  | keep hi h ih => rw [severed_cons, severed_cons, h.head, ih]
  | jump hi hf h ih =>
    rw [severed_cons, severed_cons, severed_cons, h.head, ih]
    simp [isBreak, isEnder, Instr.isLabel, isFinal]

theorem isEnder_relabel (h : relabel ρ i = some i') : isEnder i' = isEnder i := by
  cases i <;> cases h <;> rfl

theorem Numbered.head (h : Numbered ρ k none b b') :
    b'.head?.any Instr.isLabel = b.head?.any Instr.isLabel ∧
      ((∀ j ∈ b'.head?, isBreak j) ↔ ∀ j ∈ b.head?, isBreak j) := by
  cases h with
  | nil => exact ⟨rfl, Iff.rfl⟩
  | first => simp [isBreak, Instr.isLabel]
  | keep hi hr h => simp [isBreak, isLabel_relabel hr, isEnder_relabel hr]

theorem Numbered.severed_iff {r : Option String} (h : Numbered ρ k r b b') : Severed b' ↔ Severed b := by
  induction h with
  | nil => rfl
  | more hx h ih => exact ih.trans severed_cons_label.symm
  | first hx h ih => exact severed_cons_label.trans (ih.trans severed_cons_label.symm)
  | @keep k r i i' c c' hi hr h ih =>
    rw [severed_cons, severed_cons, isEnder_relabel hr, h.head.2]
    exact and_congr_right' ih

theorem severed_dropWhile (ls : List Line) : Severed (code (ls.dropWhile fun l => !isEnder l.instr)) ↔ Severed (code ls) := by
  induction ls with
  | nil => rfl
  | cons l ls ih =>
    rw [dropWhile_cons]
    split
    · next hl =>
        rw [Bool.not_eq_true'] at hl
        rw [ih, code_cons, severed_cons, hl]
        simp
    · rfl

theorem severed_of_isEnder {l : Line} (hl : isEnder l.instr) (ls : List Line) : Severed (code (l :: ls)) ↔
    (∀ t ∈ (ls.dropWhile fun l => isEnder l.instr).head?, t.instr.isLabel) ∧
      Severed (code (ls.dropWhile fun l => isEnder l.instr)) := by
  induction ls generalizing l with
  | nil => simp [Severed]
  | cons m ls ih =>
    rw [code_cons, severed_cons, hl]
    cases hm : isEnder m.instr with
    | true =>
      -- A jump behind a jump belongs to the same run, and what follows the run is the same.
      rw [dropWhile_cons_of_pos (by simp [hm]), ← ih hm]
      simp [isBreak, hm]
    | false =>
      rw [dropWhile_cons_of_neg (by simp [hm])]
      simp [isBreak, hm]

theorem severed_iff_behind (ls : List Line) : Severed (code ls) ↔
    (∀ t ∈ ((ls.dropWhile fun l => !isEnder l.instr).dropWhile fun l => isEnder l.instr).head?, t.instr.isLabel) ∧
      Severed (code ((ls.dropWhile fun l => !isEnder l.instr).dropWhile fun l => isEnder l.instr)) := by
  have hhead := List.head?_dropWhile_not (fun l : Line => !isEnder l.instr) ls
  rw [← severed_dropWhile]
  cases hls : ls.dropWhile fun l => !isEnder l.instr with
  | nil => simp [Severed]
  | cons m ms =>
    have hm : isEnder m.instr := by simpa [hls] using hhead
    rw [severed_of_isEnder hm, dropWhile_cons_of_pos (by simp [hm])]

theorem blocksOf_ok_iff {n : Nat} (hn : ls.length ≤ n) :
    (∃ bs, blocksOf n ls = .ok bs) ↔ (∀ l ∈ ls.head?, l.instr.isLabel) ∧ Severed (code ls) := by
  induction n generalizing ls with
  | zero =>
    obtain rfl := length_eq_zero_iff.1 (Nat.le_zero.1 hn)
    simp [blocksOf, Severed]
  | succ n ih =>
    rcases ls with _ | ⟨⟨id, i⟩, rest⟩
    · simp [blocksOf, Severed]
    cases hi : i.isLabel with
    | false =>
      have herr : blocksOf (n + 1) (⟨id, i⟩ :: rest) = .error .assertion := by
        cases i <;> first | rfl | cases hi
      simp [herr, hi]
    | true =>
      obtain ⟨x, rfl⟩ := eq_label_of_isLabel hi
      have htail := (dropWhile_suffix (l := rest.dropWhile fun l => !isEnder l.instr) fun l => isEnder l.instr).length_le
      have hmid := (dropWhile_suffix (l := rest) fun l => !isEnder l.instr).length_le
      -- A block behind its label is never refused: only what is left over can be.
      have hstep : (∃ bs, blocksOf (n + 1) (⟨id, .label x⟩ :: rest) = .ok bs) ↔
          ∃ bs, blocksOf n ((rest.dropWhile fun l => !isEnder l.instr).dropWhile fun l => isEnder l.instr) = .ok bs := by
        constructor
        · rintro ⟨bs, h⟩
          obtain ⟨bs', h', -⟩ := bind_eq_ok.1 h
          exact ⟨bs', h'⟩
        · rintro ⟨bs, h⟩
          exact ⟨_, bind_eq_ok.2 ⟨bs, h, rfl⟩⟩
      rw [hstep, ih (by simp at hn; omega), ← severed_iff_behind, code_cons, severed_cons_label]
      simp [Instr.isLabel]

theorem adminLabels_eq_none_iff (name : String) (fresh k : Nat) (r : Bool) (ls : List Line) :
    (adminLabels name fresh k r ls).2 = none ↔ (code ls).getLast?.elim r isConditional = false := by
  induction ls generalizing k r with
  | nil => cases r <;> simp [adminLabels]
  | cons l rest ih =>
    rw [adminLabels, code_cons, getLast?_cons_elim]
    cases hc : isConditional l.instr <;> cases r <;> simp [ih]

theorem numberLabels_eq_none {fresh : Nat} {y : Option String} (hn : (labelNames (code ls)).Nodup)
    (hρ : ∀ x ∈ labelNames (code ls), ρ.lookup x = none) : (numberLabels fresh k y ρ ls).2.2 = none := by
  induction ls generalizing k y ρ with
  | nil => rfl
  | cons l rest ih =>
    cases hl : l.instr.isLabel with
    | false =>
      rw [code_cons, labelNames_cons_of_isLabel hl] at hn hρ
      rw [numberLabels_cons_of_isLabel hl]
      exact ih hn hρ
    | true =>
      obtain ⟨x, hx⟩ := eq_label_of_isLabel hl
      rw [code_cons, hx, labelNames_cons_label, nodup_cons] at hn
      rw [code_cons, hx, labelNames_cons_label, forall_mem_cons] at hρ
      have hput : ∀ z, ∀ x' ∈ labelNames (code rest), (Datum.put x z ρ).lookup x' = none := by
        intro z x' hx'
        have hne : x' ≠ x := by
          rintro rfl
          exact hn.1 hx'
        rw [lookup_put_ne hne, hρ.2 x' hx']
      cases y with
      | some y => simpa only [numberLabels, hx] using ih hn.2 (hput y)
      | none => simpa [numberLabels, hx, hρ.1] using ih hn.2 (hput _)

theorem relabelAll_eq_none (h : ∀ l ∈ ls, l.instr.isFrozen = false) : (relabelAll ρ ls).2 = none := by
  induction ls with
  | nil => rfl
  | cons l ls ih =>
    rw [forall_mem_cons] at h
    obtain ⟨i, hi⟩ : ∃ i, relabel ρ l.instr = some i := by
      cases hl : l.instr <;> simp_all [relabel, Instr.isFrozen]
    simp [relabelAll, hi, ih h.2]

theorem exists_normalizeLabels (hn : (labelNames (code ls)).Nodup) (hf : ∀ i ∈ code ls, i.isFrozen = false) (taken : Nat) :
    ∃ out, normalizeLabels taken ls = (out, none) := by
  have hnumber : (numberLabels (freshId taken ls) 0 none [] ls).2.2 = none := numberLabels_eq_none hn fun _ _ => rfl
  rcases h : numberLabels (freshId taken ls) 0 none [] ls with ⟨o, ρ, e⟩
  rw [h] at hnumber
  cases hnumber
  have hfrozen : ∀ l ∈ o, l.instr.isFrozen = false := by
    intro l hl
    cases hlab : l.instr.isLabel with
    | true =>
      obtain ⟨x, hx⟩ := eq_label_of_isLabel hlab
      rw [hx]
      rfl
    | false =>
      have hmem : l ∈ unlabelled o := mem_filter.2 ⟨hl, by simp [hlab]⟩
      rw [unlabelled_numberLabels h] at hmem
      exact hf _ (mem_map_of_mem (mem_filter.1 hmem).1)
  refine ⟨(relabelAll ρ o).1, ?_⟩
  rw [normalizeLabels, h]
  exact Prod.ext rfl (relabelAll_eq_none hfrozen)

theorem isFrozen_of_isPhi (h : i.isPhi = false) : i.isFrozen = false := by
  cases i <;> first | rfl | cases h

/-- Bodies without phis, with labels of their own that all jumps lead to. -/
structure Addressed (name : String) (b : List Instr) : Prop where
  phiFree : ∀ i ∈ b, i.isPhi = false
  labels : (labelNames b).Nodup
  unreserved : ∀ k, adminName name k ∉ labelNames b
  jumps : ∀ i ∈ b, ∀ x ∈ i.target?, x ∈ labelNames b

theorem canonical_ok_iff (hb : Addressed name (code lines)) (taken : Nat) :
    (∃ out, canonical taken name lines = (out, none)) ↔ (code lines).getLast?.elim false isConditional = false := by
  rw [← adminLabels_eq_none_iff name (freshId taken lines) 0 false lines]
  rcases h₁ : adminLabels name (freshId taken lines) 0 false lines with ⟨o₁, _ | e⟩
  · refine iff_of_true ?_ rfl
    have hadmin := adminLabels_spec h₁
    have hjumps := explicitJumps_spec (freshId taken o₁) o₁
    have hfrozen : ∀ i ∈ code (fallthroughToJump taken o₁), i.isFrozen = false := by
      intro i hi
      rcases hjumps.mem hi with hi | ⟨_, _, _, -, -, -, rfl⟩
      · rcases hadmin.mem hi with hi | ⟨k, rfl⟩
        · exact isFrozen_of_isPhi (hb.phiFree i hi)
        · rfl
      · rfl
    obtain ⟨out, ho⟩ :=
      exists_normalizeLabels (hjumps.labels ▸ hadmin.labels_nodup hb.labels hb.unreserved) hfrozen taken
    exact ⟨out, by simpa only [canonical, addAdminLabels, h₁] using ho⟩
  · refine iff_of_false ?_ (Option.some_ne_none e)
    rintro ⟨out, h⟩
    simp [canonical, addAdminLabels, h₁] at h

theorem infer_ok_iff (hb : Addressed (String.ofList (name.toList.drop 1)) (code lines)) (taken : Nat) :
    (∃ g, (infer taken name lines).2 = .ok g) ↔ (code lines).head?.any Instr.isLabel ∧
      (code lines).getLast?.elim false isConditional = false ∧ ¬ Stranded false (code lines) := by
  rw [← canonical_ok_iff hb taken]
  rcases hc : canonical taken (String.ofList (name.toList.drop 1)) lines with ⟨out, _ | e⟩
  · obtain ⟨b₁, b₂, ρ, h₁, h₂, h₃, -⟩ := canonical_spec hc
    have hsevered : Severed (code out) ↔ ¬ Stranded false (code lines) :=
      (h₃.severed_iff.trans h₂.severed_iff).trans h₁.severed_iff
    have hhead : (code out).head?.any Instr.isLabel = (code lines).head?.any Instr.isLabel := by
      rw [h₃.head.1, h₂.head, h₁.head]
    have hblocks := blocksOf_ok_iff (Nat.le_refl out.length)
    rw [← hhead, ← hsevered]
    constructor
    · rintro ⟨g, hg⟩
      have hi : infer taken name lines = (out, .ok g) := by
        rw [infer, hc] at hg ⊢
        exact Prod.ext rfl hg
      obtain ⟨-, -, entry, bs, hbs, -, hentry⟩ := infer_blocks hi
      obtain ⟨hlabel, hsev⟩ := hblocks.1 ⟨bs, hbs⟩
      refine ⟨?_, ⟨out, rfl⟩, hsev⟩
      cases out with
      | nil =>
        cases hbs
        cases hentry
      | cons l out => exact hlabel l rfl
    · rintro ⟨hlabel, -, hsev⟩
      rcases out with _ | ⟨⟨id, i⟩, rest⟩
      · cases hlabel
      obtain ⟨x, rfl⟩ := eq_label_of_isLabel hlabel
      obtain ⟨bs, hbs⟩ := hblocks.2 ⟨fun l hl => by cases hl; rfl, hsev⟩
      obtain ⟨hall, hn, -⟩ := canonical_blocks hc hbs
      have hcode := (blocksOf_spec hbs (canonical_guarded hc)).1
      have hclosed : ∀ b ∈ bs, ∀ y ∈ Graph.destinations b, y ∈ bs.map Block.label := by
        intro b hmem y hy
        obtain ⟨l, hl, z, hz, rfl⟩ := exists_of_mem_destinations (hall b hmem).2 hy
        have hline : l.instr ∈ bs.flatMap Block.instrs :=
          mem_flatMap.2 ⟨b, hmem, .tail _ (mem_map_of_mem (mem_append_right _ hl))⟩
        rcases canonical_target hc (hcode ▸ hline) hz with hout | ⟨i, hi, hiz, hnot⟩
        · rw [hcode, labelNames_flatMap fun b hb => (hall b hb).2] at hout
          obtain ⟨c, hc, rfl⟩ := mem_map.1 hout
          obtain ⟨w, hw⟩ := (hall c hc).1
          exact mem_map.2 ⟨c, hc, by rw [hw]; rfl⟩
        · exact absurd (hb.jumps i hi z hiz) hnot
      obtain ⟨g, hg⟩ := Graph.ofBlocks_ok name (.name x) hn hclosed
      refine ⟨g, ?_⟩
      simp only [infer, hc, hbs, ok_bind, hg]
  · refine iff_of_false ?_ ?_
    · rintro ⟨g, hg⟩
      rw [infer, hc] at hg
      cases hg
    · rintro ⟨-, ⟨out', h⟩, -⟩
      cases h

def Refused (b : List Instr) : Prop :=
  b = [] ∨ b.head?.any Instr.isLabel = false ∨ b.getLast?.any isConditional = true ∨ Stranded false b

/-- Of addressed bodies, no graph can be inferred from just those that are refused. -/
theorem infer_fails_iff {name : String} {lines : List Line} (hb : Addressed (String.ofList (name.toList.drop 1)) (code lines))
    (taken : Nat) : (∃ e, (infer taken name lines).2 = .error e) ↔ Refused (code lines) := by
  have hnot : (∃ e, (infer taken name lines).2 = .error e) ↔ ¬ ∃ g, (infer taken name lines).2 = .ok g := by
    cases (infer taken name lines).2 <;> simp
  have hlast : (code lines).getLast?.elim false isConditional = (code lines).getLast?.any isConditional := by
    cases (code lines).getLast? <;> rfl
  rw [hnot, infer_ok_iff hb taken, hlast, Refused]
  by_cases hnil : code lines = []
  · simp [hnil]
  · simp only [hnil, false_or]
    cases (code lines).head?.any Instr.isLabel <;> cases (code lines).getLast?.any isConditional <;> simp

def spinning : List Instr := [.label "%.La", .jcc .z "%x" "%.La", .jmp "%.La", .jmp "%.La", .nop]

theorem infer_fails_iff_spinning : Addressed "main" spinning ∧ Stranded false spinning ∧
    ∃ e, (infer 5 "@main" (linesOf spinning)).2 = .error e := by
  have hname : String.ofList ("@main".toList.drop 1) = "main" := by decide
  have hb : Addressed "main" spinning := by
    refine ⟨by decide, by decide, fun k hk => ?_, by decide⟩
    simp [spinning, labelNames, Instr.label?, adminName, String.ext_iff] at hk
  have hs : Stranded false spinning := ⟨[.label "%.La", .jcc .z "%x" "%.La", .jmp "%.La"], .jmp "%.La", .nop, [], rfl, rfl, rfl, rfl⟩
  rw [← code_linesOf spinning, ← hname] at hb
  refine ⟨by rwa [hname, code_linesOf] at hb, hs, (infer_fails_iff hb 5).2 (.inr (.inr (.inr ?_)))⟩
  rwa [code_linesOf]

end Refused

end Bx.Flow
