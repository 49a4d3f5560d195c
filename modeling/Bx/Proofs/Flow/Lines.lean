import Bx.Flow.Optimize
import Bx.Proofs.Flow.Linearize

namespace Bx.Flow

open List Tac Run.Checked

variable {ls out lines : List Line} {taken : Nat} {name : String} {p : Proc Instr} {u : Routine}

def unlabelled (ls : List Line) : List Line := ls.filter fun l => !l.instr.isLabel

theorem unlabelled_cons_of_isLabel {l : Line} (hl : l.instr.isLabel = false) (ls : List Line) :
    unlabelled (l :: ls) = l :: unlabelled ls := filter_cons_of_pos (by simp [hl])

theorem unlabelled_cons_label (id : Nat) (x : String) (ls : List Line) : unlabelled (⟨id, .label x⟩ :: ls) = unlabelled ls := rfl

theorem unlabelled_cons (l : Line) (ls : List Line) : unlabelled (l :: ls) = unlabelled [l] ++ unlabelled ls :=
  filter_append [l] ls

theorem unlabelled_adminLabels (name : String) (fresh k : Nat) (r : Bool) (ls : List Line) :
    unlabelled (adminLabels name fresh k r ls).1 = unlabelled ls := by
  induction ls generalizing k r with
  | nil => cases r <;> rfl
  | cons l rest ih =>
    rw [adminLabels]
    split
    · rw [unlabelled_cons, ih, ← unlabelled_cons]
    · split
      · rw [unlabelled_cons, ih, ← unlabelled_cons]
      · simp only []
        split
        · rw [unlabelled_cons, unlabelled_cons_label, ih, ← unlabelled_cons]
        · rw [unlabelled_cons_label, unlabelled_cons, ih, ← unlabelled_cons]

theorem unlabelled_numberLabels {fresh k : Nat} {y : Option String} {ρ₀ ρ : Renaming}
    (h : numberLabels fresh k y ρ₀ ls = (out, ρ, none)) : unlabelled out = unlabelled ls := by
  induction ls generalizing k y ρ₀ out with
  | nil =>
    simp only [numberLabels, Prod.mk.injEq] at h
    rw [← h.1]
  | cons l rest ih =>
    cases hl : l.instr.isLabel with
    | false =>
      rw [numberLabels_cons_of_isLabel hl] at h
      rcases hr : numberLabels fresh k none ρ₀ rest with ⟨o, ρ', e⟩
      simp only [hr, Prod.mk.injEq] at h
      obtain ⟨rfl, rfl, rfl⟩ := h
      rw [unlabelled_cons, ih hr, ← unlabelled_cons]
    | true =>
      obtain ⟨id, i⟩ := l
      obtain ⟨x, rfl⟩ := eq_label_of_isLabel hl
      rw [unlabelled_cons_label]
      cases y with
      | some y => exact ih h
      | none =>
        simp only [numberLabels] at h
        split at h
        · cases h
        · rcases hr : numberLabels fresh (k + 1) (some ("%.L" ++ toString k)) (Datum.put x ("%.L" ++ toString k) ρ₀) rest
            with ⟨o, ρ', e⟩
          simp only [hr, Prod.mk.injEq] at h
          obtain ⟨rfl, rfl, rfl⟩ := h
          exact (unlabelled_cons_label _ _ _).trans (ih hr)

theorem map_id_relabelAll {ρ : Renaming} (h : relabelAll ρ ls = (out, none)) :
    (unlabelled out).map Line.id = (unlabelled ls).map Line.id := by
  induction ls generalizing out with
  | nil =>
    cases h
    rfl
  | cons l ls ih =>
    obtain ⟨i, o, hi, ho, rfl⟩ := relabelAll_cons h
    have hl := isLabel_relabel hi
    cases hlab : l.instr.isLabel with
    | false =>
      rw [unlabelled_cons_of_isLabel (hl.trans hlab), unlabelled_cons_of_isLabel hlab, map_cons, map_cons, ih ho]
    | true =>
      rw [unlabelled, unlabelled, filter_cons_of_neg (by simp [hl, hlab]), filter_cons_of_neg (by simp [hlab])]
      exact ih ho

theorem map_id_explicitJumps (fresh : Nat) (ls : List Line) :
    ∃ n, ((unlabelled (explicitJumps fresh ls)).map Line.id).Perm ((unlabelled ls).map Line.id ++ List.range' fresh n) := by
  induction ls generalizing fresh with
  | nil => exact ⟨0, .nil⟩
  | cons l rest ih =>
    unfold explicitJumps
    split
    · next x _ hl =>
        obtain ⟨n, hn⟩ := ih (fresh + 1)
        refine ⟨n + 1, ?_⟩
        simp only [Bool.or_eq_false_iff] at hl
        rw [unlabelled_cons_of_isLabel hl.1, unlabelled_cons_of_isLabel rfl, unlabelled_cons_of_isLabel hl.1, map_cons,
          map_cons, map_cons, cons_append, List.range'_succ]
        exact ((hn.cons _).trans perm_middle.symm).cons _
    · next rest _ _ _ =>
        obtain ⟨n, hn⟩ := ih fresh
        refine ⟨n, ?_⟩
        rw [unlabelled_cons, unlabelled_cons l rest, map_append, map_append, append_assoc]
        exact hn.append_left _

theorem lt_freshId (taken : Nat) {l : Line} (hl : l ∈ ls) : l.id < freshId taken ls := (lt_foldl_max Line.id ls taken).2 l hl

theorem map_id_normalizeLabels (h : normalizeLabels taken ls = (out, none)) :
    (unlabelled out).map Line.id = (unlabelled ls).map Line.id := by
  rw [normalizeLabels] at h
  rcases hn : numberLabels (freshId taken ls) 0 none [] ls with ⟨o, ρ, _ | e⟩
  · rw [hn] at h
    rw [map_id_relabelAll h, unlabelled_numberLabels hn]
  · simp [hn] at h

theorem canonical_ids (h : canonical taken name lines = (out, none)) (hids : (lines.map Line.id).Nodup) :
    ((unlabelled out).map Line.id).Nodup := by
  rw [canonical] at h
  rcases h₁ : addAdminLabels taken name lines with ⟨o₁, _ | e⟩
  · rw [h₁] at h
    have hadmin : unlabelled o₁ = unlabelled lines := by
      have := unlabelled_adminLabels name (freshId taken lines) 0 false lines
      rwa [show adminLabels name (freshId taken lines) 0 false lines = (o₁, none) from h₁] at this
    obtain ⟨n, hn⟩ := map_id_explicitJumps (freshId taken o₁) o₁
    rw [map_id_normalizeLabels h, fallthroughToJump, hn.nodup_iff]
    refine nodup_append.2 ⟨?_, nodup_range' 1, ?_⟩
    · rw [hadmin]
      exact (filter_sublist.map _).nodup hids
    · rintro k hk _ hk' rfl
      obtain ⟨l, hl, rfl⟩ := mem_map.1 hk
      have := lt_freshId taken (mem_filter.1 hl).1
      have := (mem_range'_1.1 hk').1
      omega
  · simp [h₁] at h

theorem unlabelled_append (ls ms : List Line) : unlabelled (ls ++ ms) = unlabelled ls ++ unlabelled ms := filter_append ls ms

theorem unlabelled_eq_self (h : ∀ l ∈ ls, l.instr.isLabel = false) : unlabelled ls = ls :=
  filter_eq_self.2 fun l hl => by simp [h l hl]

theorem blocksOf_lines {n : Nat} {bs : List Block} (h : blocksOf n ls = .ok bs) (hf : ∀ b ∈ bs, b.Cut) :
    bs.flatMap Block.lines = unlabelled ls := by
  induction bs generalizing n ls with
  | nil =>
    cases ls with
    | nil => rfl
    | cons l rest =>
      obtain ⟨_, _, _, _, _, _, _, hbs, _⟩ := blocksOf_cons h
      cases hbs
  | cons b bs ih =>
    cases ls with
    | nil => simp [blocksOf] at h
    | cons l rest =>
      obtain ⟨m, x, b', bs', tail, rfl, hx, hbs, -, htail, rfl, -, -⟩ := blocksOf_cons h
      cases hbs
      obtain ⟨id, i⟩ := l
      cases hx
      rw [flatMap_cons, ih htail fun c hc => hf c (mem_cons_of_mem b hc), unlabelled_cons_label, unlabelled_append,
        unlabelled_eq_self fun l hl => (hf b mem_cons_self).isLabel_eq hl]

theorem canonical_mem (h : canonical taken name lines = (out, none)) :
    ∃ ρ : Renaming, (∀ x, x ∉ labelNames (code lines) → (∀ k, x ≠ adminName name k) → ρ.lookup x = none) ∧
      ∀ i' ∈ code out, i'.isLabel = false →
        (∃ x, i' = .jmp x) ∨ ∃ i ∈ code lines, i.isLabel = false ∧ relabel ρ i = some i' := by
  obtain ⟨b₁, b₂, ρ, h₁, h₂, h₃, hρ⟩ := canonical_spec h
  refine ⟨ρ, fun x hx hadmin => hρ x ?_, fun i' hi' hl => ?_⟩
  · obtain ⟨n, hperm⟩ := h₁.labels
    rw [h₂.labels, hperm.mem_iff, mem_append]
    rintro (hmem | hmem)
    · exact hx hmem
    · obtain ⟨k, -, rfl⟩ := mem_map.1 hmem
      exact hadmin k rfl
  · rcases h₃.mem hi' with hl' | ⟨i, hi, hil, hr⟩
    · rw [hl] at hl'
      cases hl'
    · rcases h₂.mem hi with hi | ⟨_, x, _, -, -, -, rfl⟩
      · rcases h₁.mem hi with hi | ⟨_, rfl⟩
        · exact .inr ⟨i, hi, hil, hr⟩
        · cases hil
      · exact .inl ⟨_, (Option.some.inj hr).symm⟩

theorem infer_lines {g : Graph} (h : infer taken name lines = (out, .ok g)) : g.lines = unlabelled out := by
  obtain ⟨-, hg, _, bs, hbs, hof, -⟩ := infer_blocks h
  rw [Graph.lines, hof.blocks, flatMap_map]
  refine blocksOf_lines hbs fun b hb => hg.blocks (b.label, b) ?_
  rw [hof.blocks]
  exact mem_map_of_mem hb

theorem code_linesOf (b : List Instr) : code (linesOf b) = b := by
  rw [code, linesOf, map_map]
  exact zipIdx_map_fst 0 b

theorem endsFinal_of_getLast? {b : List Instr} {i : Instr} (h : b.getLast? = some i) (hi : isFinal i) : EndsFinal b := by
  obtain ⟨a, rfl⟩ := List.getLast?_eq_some_iff.1 h
  refine ⟨i, ?_, hi⟩
  rw [lastCode_append, lastCode_cons_of_isLabel (isLabel_of_isFinal hi)]
  rfl

theorem inferProc_eq_ok (h : inferProc p = .ok u) :
    ∃ out, infer p.body.length p.name (linesOf p.body) = (out, .ok u.graph) ∧ u.proc = p := by
  rw [inferProc] at h
  rcases hi : infer p.body.length p.name (linesOf p.body) with ⟨out, r⟩
  rw [hi] at h
  obtain ⟨g, hg, h⟩ := bind_eq_ok.1 h
  cases h
  exact ⟨out, by rw [hg], rfl⟩

def bareName (p : Proc Instr) : String := String.ofList (p.name.toList.drop 1)

theorem map_id_linesOf (b : List Instr) : (linesOf b).map Line.id = List.range b.length := by
  rw [linesOf, map_map, range_eq_range', ← zipIdx_map_snd 0 b]
  rfl

theorem inferProc_lines (h : inferProc p = .ok u) :
    u.proc = p ∧ u.graph.name = p.name ∧ u.graph.Cut ∧ (u.graph.lines.map Line.id).Nodup ∧
      ∃ ρ : Renaming, (∀ x, x ∉ labelNames p.body → (∀ k, x ≠ adminName (bareName p) k) → ρ.lookup x = none) ∧
        ∀ l ∈ u.graph.lines, (∃ x, l.instr = .jmp x) ∨ ∃ i ∈ p.body, i.isLabel = false ∧ relabel ρ i = some l.instr := by
  obtain ⟨out, ho, rfl⟩ := inferProc_eq_ok h
  obtain ⟨hc, hg, _, _, -, hof, -⟩ := infer_blocks ho
  have hlines := infer_lines ho
  obtain ⟨ρ, hρ, hmem⟩ := canonical_mem hc
  rw [code_linesOf] at hρ hmem
  refine ⟨rfl, hof.name, hg, ?_, ρ, hρ, fun l hl => ?_⟩
  · rw [hlines]
    exact canonical_ids hc (map_id_linesOf _ ▸ nodup_range)
  · rw [hlines] at hl
    obtain ⟨hl, hlab⟩ := mem_filter.1 hl
    exact hmem l.instr (mem_map_of_mem hl) (by simpa using hlab)

theorem inferProc_phiFree (hp : ∀ i ∈ p.body, i.isPhi = false) (h : inferProc p = .ok u) :
    ∀ l ∈ u.graph.lines, l.instr.isPhi = false := by
  obtain ⟨-, -, -, -, ρ, -, hmem⟩ := inferProc_lines h
  intro l hl
  rcases hmem l hl with ⟨y, hy⟩ | ⟨i, hi, -, hr⟩
  · rw [hy]
    rfl
  · rw [isPhi_relabel hr]
    exact hp i hi

theorem inferProc_formed (h : inferProc p = .ok u) (he : ∃ i, p.body.getLast? = some i ∧ isFinal i) : u.graph.Formed := by
  obtain ⟨i, hi, hf⟩ := he
  obtain ⟨out, ho, rfl⟩ := inferProc_eq_ok h
  refine (infer_spec ho ?_).2.1
  rw [code_linesOf]
  exact endsFinal_of_getLast? hi hf

theorem linearizeProc_spec (hg : u.graph.Formed) :
    ∃ bs, Layout u.graph bs ∧ u.graph.Scheduled (bs.map Block.label) ∧
      linearizeProc u = .ok { u.proc with body := bs.flatMap Block.instrs } := by
  obtain ⟨out, bs, hout, hcode, hl, hs⟩ := linearize_spec hg (freshId u.proc.body.length u.graph.lines)
  refine ⟨bs, hl, hs, ?_⟩
  simp only [linearizeProc, hout, ok_bind, ← hcode]
  rfl

def relinearize (e : String × Proc Instr) : Except Fault (String × Proc Instr) := do
  return (e.1, ← linearizeProc (← inferProc e.2))

end Bx.Flow
