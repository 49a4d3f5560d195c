import Bx.Proofs.Flow.FallThrough
import Mathlib

namespace Bx.Flow

open List hiding after
open Tac Run Run.Checked

section Layout

variable {g : Graph} {bs bs' : List Block}

def Inside (bs : List Block) (c c' : List Instr) : Prop :=
  ∃ b ∈ bs, ∃ e m m', e <:+ code b.lines ∧ e ≠ [] ∧ c = e ++ m ∧ c' = e ++ m'

theorem Layout.sameCode (hg : g.Formed) (h : Layout g bs) (h' : Layout g bs') (hb : Sound (bs.flatMap Block.instrs))
    (hsub : ∀ b ∈ bs', b ∈ bs) (hne : ∀ b ∈ bs', b.lines ≠ []) :
    SameCode (bs.flatMap Block.instrs) (bs'.flatMap Block.instrs) := by
  have enter : ∀ {b}, b ∈ bs' → ∃ d d', after (bs.flatMap Block.instrs) b.label.text = some d ∧
      after (bs'.flatMap Block.instrs) b.label.text = some d' ∧ Inside bs' d d' := by
    intro b hb
    obtain ⟨m, hm⟩ := h.after_block hg (hsub b hb) (hne b hb)
    obtain ⟨m', hm'⟩ := h'.after_block hg hb (hne b hb)
    exact ⟨_, _, hm, hm', b, hb, code b.lines, m, m', suffix_refl _, by simpa [code] using hne b hb, rfl, rfl⟩
  have mem_code : ∀ {b}, b ∈ bs' → ∀ {l}, l ∈ b.lines → l.instr ∈ bs.flatMap Block.instrs := fun {b} hb {l} hl =>
    mem_flatMap.2 ⟨b, hsub b hb, mem_cons_of_mem _ (mem_map_of_mem hl)⟩
  -- Both bodies start with the label of the entry.
  obtain ⟨b₀, hb₀, m, m', hm, hm'⟩ : ∃ b₀ ∈ bs', ∃ m m', bs.flatMap Block.instrs = b₀.instrs ++ m ∧
      bs'.flatMap Block.instrs = b₀.instrs ++ m' := by
    obtain ⟨b₀, rest, rfl, hb₀⟩ := h.exists_entry
    obtain ⟨b₀', rest', rfl, hb₀'⟩ := h'.exists_entry
    obtain rfl := h.eq_of_label h' hg mem_cons_self mem_cons_self (hb₀.trans hb₀'.symm)
    exact ⟨b₀, mem_cons_self, _, _, flatMap_cons, flatMap_cons⟩
  refine ⟨h.labels_nodup hg, h'.labels_nodup hg, fun n c c' => Inside bs' c c' ∨
    ∃ x d d', c = .label x :: d ∧ c' = .label x :: d' ∧ Inside bs' d d', ?_, 0, .inr ?_⟩
  · rintro n c c' (⟨b, hbs, e, m, m', he, hen, rfl, rfl⟩ | ⟨x, d, d', rfl, rfl, hd⟩)
    · obtain ⟨i, e, rfl⟩ := exists_cons_of_ne_nil hen
      have hf := h'.formed hg hbs
      obtain ⟨l, hl, rfl⟩ := mem_map.1 (he.subset mem_cons_self)
      refine .inr (.inr ?_)
      rw [cons_append, cons_append]
      nth_rewrite 2 [← Instr.retarget_id l.instr]
      refine pairs_of_target (hf.isLabel_eq hl) (hb.phiFree _ (mem_code hbs hl)) ?_ ?_
      · intro y hy
        obtain ⟨d, hd, -⟩ := hb.jumps _ (mem_code hbs hl) y hy
        obtain ⟨c, hc, hcy⟩ := h.of_after hg hd
        have hname := (h.label_eq hg hc).2
        rw [hcy] at hname
        obtain ⟨c', hc', hcy'⟩ := h'.target hbs (hf.mem_jumps hl (by simp [Option.mem_def.1 hy])) hy hname
        obtain ⟨d, d', hd, hd', hin⟩ := enter hc'
        rw [hcy'] at hd hd'
        exact ⟨d, d', hd, hd', 0, .inl hin⟩
      · intro hfin
        exact ⟨0, .inl ⟨b, hbs, e, m, m', (suffix_cons _ e).trans he, hf.tail_ne_nil he hfin, rfl, rfl⟩⟩
    · exact .inr (.inr (.label ⟨0, .inl hd⟩))
  · exact ⟨_, _, _, hm, hm', b₀, hb₀, code b₀.lines, m, m', suffix_refl _, by simpa [code] using hne b₀ hb₀, rfl, rfl⟩

end Layout

/-- No phis, each label set once and none that canonical form adds, jumps to own labels only, a jump or a return at the end,
and nowhere a name of a label as a value where one could be renamed. -/
structure Proper (p : Proc Instr) : Prop where
  phiFree : ∀ i ∈ p.body, i.isPhi = false
  labels : (labelNames p.body).Nodup
  unreserved : ∀ k, adminName (bareName p) k ∉ labelNames p.body
  jumps : ∀ i ∈ p.body, ∀ l ∈ i.target?, l ∈ labelNames p.body
  ends : ∃ i, p.body.getLast? = some i ∧ isFinal i = true
  operands : ∀ i ∈ p.body, ∀ y ∈ lastRead? i, y ∉ labelNames p.body ∧ ∀ k, y ≠ adminName (bareName p) k

theorem after_ne_nil {b d : List Instr} {i : Instr} {l : String} (h : b.getLast? = some i) (hi : i.isLabel = false)
    (hd : after b l = some d) : d ≠ [] := by
  induction b with
  | nil => simp at h
  | cons j b ih =>
    have hb : b ≠ [] → b.getLast? = some i := by
      intro hne
      rwa [List.getLast?_cons_of_ne_nil hne] at h
    by_cases hj : j = .label l
    · subst hj
      rw [after, if_pos rfl] at hd
      cases hd
      intro hnil
      rcases eq_or_ne b [] with rfl | hne
      · cases h
        cases hi
      · have := dropWhile_eq_nil_iff.1 hnil i (mem_of_getLast? (hb hne))
        simp [hi] at this
    · rw [after_cons_of_ne hj] at hd
      rcases eq_or_ne b [] with rfl | hne
      · simp [after] at hd
      · exact ih (hb hne) hd

theorem Proper.sound {p : Proc Instr} (hp : Proper p) : Sound p.body := by
  obtain ⟨i, hi, hf⟩ := hp.ends
  refine ⟨hp.phiFree, hp.labels, fun j hj l hl => ?_, endsFinal_of_getLast? hi hf⟩
  obtain ⟨d, hd⟩ := Option.isSome_iff_exists.1 (after_isSome.2 (hp.jumps j hj l hl))
  exact ⟨d, hd, after_ne_nil hi (isLabel_of_isFinal hf) hd⟩

theorem Proper.canonical {p : Proc Instr} (hp : Proper p) {taken : Nat} {out : List Line}
    (h : canonical taken (bareName p) (linesOf p.body) = (out, none)) :
    ∃ b₁ b₂, SameCode p.body b₁ ∧ Sound b₁ ∧ ExplicitJumps b₁ b₂ ∧ SameCode b₂ (code out) ∧ Sound (code out) := by
  obtain ⟨b₁, b₂, ρ, h₁, h₂, h₃, hρ⟩ := canonical_spec h
  rw [code_linesOf] at h₁
  have hs₁ := h₁.sound hp.sound hp.unreserved
  have hs₂ := h₂.sound hs₁
  have hlast : ∀ i ∈ b₂, ∀ y ∈ lastRead? i, ρ.lookup y = none := by
    intro i hi y hy
    rcases h₂.mem hi with hi | ⟨_, _, _, -, -, -, rfl⟩
    · rcases h₁.mem hi with hi | ⟨_, rfl⟩
      · obtain ⟨n, hperm⟩ := h₁.labels
        obtain ⟨hown, hadmin⟩ := hp.operands i hi y hy
        refine hρ y fun hmem => ?_
        rw [h₂.labels, hperm.mem_iff, mem_append] at hmem
        rcases hmem with hmem | hmem
        · exact hown hmem
        · obtain ⟨k, -, rfl⟩ := mem_map.1 hmem
          exact hadmin k rfl
      · cases hy
    · cases hy
  exact ⟨b₁, b₂, h₁.sameCode hp.sound hp.unreserved, hs₁, h₂, h₃.sameCode hs₂ hlast, h₃.sound hs₂ hlast⟩

theorem Graph.Formed.layout {g : Graph} (hg : g.Formed) : Layout g (g.blocks.map Prod.snd) := by
  have hlabels : (g.blocks.map Prod.snd).map Block.label = g.labels := by
    rw [map_map]
    exact map_congr_left fun e he => (hg.named e he).1
  refine ⟨fun b hb => ?_, hlabels ▸ hg.nodup, hlabels ▸ hg.entry, fun b hb y hy => ?_⟩ <;>
    obtain ⟨e, he, rfl⟩ := mem_map.1 hb
  · rw [(hg.named e he).1]
    exact he
  · rw [hlabels]
    exact hg.closed e he y hy

theorem eq_nil_of_guarded {as cs : List Block} {b : Block} (h : Guarded ((as ++ b :: cs).flatMap Block.instrs))
    (hb : b.lines = []) : cs = [] := by
  cases cs with
  | nil => rfl
  | cons c cs =>
    rw [flatMap_append, flatMap_cons, flatMap_cons, Block.instrs, hb] at h
    cases h.right_of_append.rel_head? rfl rfl

theorem Graph.Scheduled.lines_ne_nil {g : Graph} (hg : g.Formed) {bs bs' : List Block} (hl : Layout g bs) (hl' : Layout g bs')
    (hsub : ∀ b ∈ bs', b ∈ bs) (hgu : Guarded (bs.flatMap Block.instrs)) (hs : Sound (bs.flatMap Block.instrs))
    (h : g.Scheduled (bs'.map Block.label)) {b : Block} (hb : b ∈ bs') : b.lines ≠ [] := by
  intro hnil
  obtain ⟨as, cs, rfl⟩ := append_of_mem (hsub b hb)
  obtain rfl := eq_nil_of_guarded hgu hnil
  have hcode : (as ++ [b]).flatMap Block.instrs = as.flatMap Block.instrs ++ [.label b.label.text] := by
    rw [flatMap_append, flatMap_singleton, Block.instrs, hnil]
    rfl
  rcases ((h.mem b.label).1 (mem_map_of_mem hb)).cases_tail with he | ⟨a, ha, hba⟩
  · cases as with
    | nil =>
      obtain ⟨i, hi, -⟩ := hs.ends
      rw [hcode] at hi
      cases hi
    | cons a as =>
      have hab : a.label = b.label := (Option.some.inj hl.entry).trans he.symm
      have hn := hl.nodup
      simp [hab] at hn
  · obtain ⟨a, hmem, rfl⟩ := mem_map.1 ((h.mem a).2 ha)
    have hba := (hg.succ _ (hl'.mem a hmem) _).1 hba
    obtain ⟨l, hl, y, hy, hby⟩ := exists_of_mem_destinations (hl'.formed hg hmem).cut hba
    have hcode' : l.instr ∈ (as ++ [b]).flatMap Block.instrs :=
      mem_flatMap.2 ⟨a, hsub a hmem, mem_cons_of_mem _ (mem_map_of_mem (mem_append_right _ hl))⟩
    obtain ⟨d, hd, hne⟩ := hs.jumps _ hcode' y hy
    have hsuf : [.label y] <:+ (as ++ [b]).flatMap Block.instrs := by
      rw [hcode, hby]
      exact ⟨_, rfl⟩
    rw [after_of_suffix hs.labels hsuf] at hd
    cases hd
    exact hne rfl

theorem Proper.relinearize {p : Proc Instr} (hp : Proper p) {u : Routine} (hu : inferProc p = .ok u) :
    ∃ b₁ b₂ b₃ b₄, SameCode p.body b₁ ∧ (Sound b₁ ∧ ExplicitJumps b₁ b₂) ∧ SameCode b₂ b₃ ∧ SameCode b₃ b₄ ∧
      linearizeProc u = .ok { p with body := b₄ } := by
  obtain ⟨out, hi, rfl⟩ := inferProc_eq_ok hu
  obtain ⟨hc, hg, hcode⟩ := infer_spec hi (by rw [code_linesOf]; exact hp.sound.ends)
  obtain ⟨b₁, b₂, h₁, hs₁, h₂, h₃, hs⟩ := hp.canonical hc
  have hgu := canonical_guarded hc
  rw [← flatMap_map] at hcode
  rw [hcode] at h₃ hs hgu
  obtain ⟨bs, hl, hsch, hlin⟩ := linearizeProc_spec hg
  have hsub : ∀ b ∈ bs, b ∈ u.graph.blocks.map Prod.snd := fun b hb => mem_map.2 ⟨_, hl.mem b hb, rfl⟩
  have hsame := hg.layout.sameCode hg hl hs hsub fun b hb => hsch.lines_ne_nil hg hg.layout hl hsub hgu hs hb
  exact ⟨b₁, b₂, _, _, h₁, ⟨hs₁, h₂⟩, h₃, hsame, hlin⟩

/-- Programs of proper procedures whose graphs can be inferred are laid out again and have the same runs. -/
theorem relinearize_sameRuns (o : Options) (procs : List (String × Proc Instr)) (hp : ∀ e ∈ procs, Proper e.2)
    (hi : ∀ e ∈ procs, ∃ u, inferProc e.2 = .ok u) :
    ∃ procs', procs.mapM relinearize = .ok procs' ∧
      SameRuns (semantics { o with showInstrs := false } procs) (semantics { o with showInstrs := false } procs') := by
  have hall : ∀ e ∈ procs, ∃ b₁ b₂ b₃ b₄, SameCode e.2.body b₁ ∧ (Sound b₁ ∧ ExplicitJumps b₁ b₂) ∧ SameCode b₂ b₃ ∧
      SameCode b₃ b₄ ∧ relinearize e = .ok (e.1, { e.2 with body := b₄ }) := by
    intro e he
    obtain ⟨u, hu⟩ := hi e he
    obtain ⟨b₁, b₂, b₃, b₄, h₁, h₂, h₃, h₄, h⟩ := (hp e he).relinearize hu
    exact ⟨b₁, b₂, b₃, b₄, h₁, h₂, h₃, h₄, by simp only [Flow.relinearize, hu, ok_bind, h]; rfl⟩
  choose! b₁ b₂ b₃ b₄ h₁ h₂ h₃ h₄ h using hall
  have hsame : procs = procs.map fun e => (e.1, { e.2 with body := e.2.body }) := (map_id procs).symm
  refine ⟨procs.map fun e => (e.1, { e.2 with body := b₄ e }), ?_, ?_⟩
  · rw [mapM_eq_ok, forall₂_map_right_iff, forall₂_same]
    exact h
  · have alike : ∀ {c c' : String × Proc Instr → List Instr}, (∀ e ∈ procs, SameCode (c e) (c' e)) →
        SameRuns (semantics { o with showInstrs := false } (procs.map fun e => (e.1, { e.2 with body := c e })))
          (semantics { o with showInstrs := false } (procs.map fun e => (e.1, { e.2 with body := c' e }))) := fun {c _} hc =>
      sameRuns_map fun e he => .inr (SameCode.stepwise (p := { e.2 with body := c e }) rfl (hc e he) e.1)
    have hjumps := sameRuns_map (o := { o with showInstrs := false }) fun e he =>
      .inr ((h₂ e he).2.stepwise (p := { e.2 with body := b₁ e }) rfl (h₂ e he).1.labels (.inl (h₂ e he).1.phiFree) e.1)
    have hruns := (alike h₁).trans (hjumps.trans ((alike h₃).trans (alike h₄)))
    rwa [← hsame] at hruns

def countdown : Proc Instr :=
  ⟨"@main", [], [.label "%.La", .const "%n" (.int 3), .label "%.Lb", .jcc .z "%n" "%.Lc", .param (.int 1) "%n",
    .call none "@__bx_print_int" (.int 1), .const "%one" (.int 1), .binop .sub "%n" "%n" "%one", .jmp "%.Lb", .label "%.Lc",
    .ret none]⟩

theorem countdown_proper : Proper countdown where
  phiFree := by decide
  labels := by decide
  unreserved := fun k hk => by
    have hb : bareName countdown = "main" := by cbv
    have hn : labelNames countdown.body = ["%.La", "%.Lb", "%.Lc"] := rfl
    rw [hb, hn] at hk
    simp [adminName, String.ext_iff] at hk
  jumps := by decide
  ends := ⟨.ret none, rfl, rfl⟩
  operands := by
    have hb : bareName countdown = "main" := by cbv
    have hy : ∀ i ∈ countdown.body, ∀ y ∈ lastRead? i, y = "%n" ∨ y = "%one" := by decide
    intro i hi y hiy
    rw [hb]
    rcases hy i hi y hiy with rfl | rfl <;> exact ⟨by decide, fun k => by simp [adminName, String.ext_iff]⟩

theorem relinearize_countdown :
    Proper countdown ∧ ∃ procs', [("@main", countdown)].mapM relinearize = .ok procs' ∧
      SameRuns (semantics {} [("@main", countdown)]) (semantics {} procs') := by
  refine ⟨countdown_proper, relinearize_sameRuns {} _ ?_ ?_⟩ <;>
    simp only [mem_singleton, forall_eq]
  · exact countdown_proper
  · exact exists_of_isOk (by cbv)

def labelOperand : Proc Instr :=
  ⟨"@main", [], [.label "%.La", .const "%.La" (.int 5), .param (.int 1) "%.La", .call none "@__bx_print_int" (.int 1),
    .ret none]⟩

/-- Operands with the name of a label are renamed with it, though what they stand for is not: a value is read that is
nowhere. -/
theorem relinearize_labelOperand :
    (∀ i ∈ labelOperand.body, i.isPhi = false) ∧ labelOperand.body.head?.any Instr.isLabel = true ∧
    (labelNames labelOperand.body).Nodup ∧ (∀ k, adminName (bareName labelOperand) k ∉ labelNames labelOperand.body) ∧
    (∀ i ∈ labelOperand.body, ∀ l ∈ i.target?, l ∈ labelNames labelOperand.body) ∧
    (∃ i, labelOperand.body.getLast? = some i ∧ isFinal i = true) ∧
    ∃ q, relinearize ("@main", labelOperand) = .ok q ∧
      ¬ SameRuns (semantics {} [("@main", labelOperand)]) (semantics {} [q]) := by
  refine ⟨by decide, rfl, by decide, fun k hk => ?_, by decide, ⟨.ret none, rfl, rfl⟩,
    ("@main", ⟨"@main", [], [.label "%.L0", .const "%.La" (.int 5), .param (.int 1) "%.L0",
      .call none "@__bx_print_int" (.int 1), .ret none]⟩), by cbv, fun h => ?_⟩
  · have hb : bareName labelOperand = "main" := by cbv
    have hn : labelNames labelOperand.body = ["%.La"] := rfl
    rw [hb, hn] at hk
    simp [adminName, String.ext_iff] at hk
  · have hold : Yields (semantics {} [("@main", labelOperand)]) "@main" (.list []) 0 ⟨[], #[]⟩ (.ok .null) ⟨[], #["5\n"]⟩ :=
      ⟨8, by cbv⟩
    have hnew : Yields (semantics {} [("@main", ⟨"@main", [], [.label "%.L0", .const "%.La" (.int 5), .param (.int 1) "%.L0",
        .call none "@__bx_print_int" (.int 1), .ret none]⟩)]) "@main" (.list []) 0 ⟨[], #[]⟩
        (.error (.shape (.key (.str "%.L0")))) ⟨[], #[]⟩ := ⟨8, by cbv⟩
    cases (((h _ _ _ _ _ _).1 hold).det hnew).1

end Bx.Flow
