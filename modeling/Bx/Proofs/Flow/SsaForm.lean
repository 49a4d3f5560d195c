import Bx.Proofs.Flow.Assigned
import Bx.Proofs.Flow.LivePaths

namespace Bx.Flow

open List Tac

/-- No temporary or parameter is assigned twice. What a line other than a phi reads is assigned before it in its block, and a
phi reads from each block that leads to it the last version there. -/
structure Graph.SingleAssignment (params : List Datum) (h : Graph) : Prop where
  once : (assigned h.lines).Nodup
  fresh : ∀ x ∈ assigned h.lines, .str x ∉ params
  reads : ∀ e ∈ h.blocks, ∀ ls l ms, e.2.lines = ls ++ l :: ms → l.instr.isPhi = false →
    ∀ x ∈ l.instr.reads, isGlobalName x = true ∨ x ∈ assigned ls
  ways : ∀ e ∈ h.blocks, ∀ l ∈ e.2.lines, ∀ d sources, l.instr = .phi d sources → h.predsOf e.1 ≠ [] →
    sources.map Prod.fst = (h.predsOf e.1).map Label.text
  along : ∀ e ∈ h.blocks, ∀ l ∈ e.2.lines, ∀ d sources, l.instr = .phi d sources → ∀ a ∈ h.predsOf e.1,
    ∃ b y, (a, b) ∈ h.blocks ∧ sources.lookup a.text = some y ∧ LastVersion b.lines (tmpRoot d) y

theorem Converts.labels_eq {v : Liveness} {ends : List (String × Renaming)} {g h : Graph} (C : Converts v ends g h) :
    h.labels = g.labels := by
  rw [Graph.labels, Graph.labels, ← forall₂_eq_eq_eq, forall₂_map_left_iff, forall₂_map_right_iff]
  exact C.blocks.flip.imp fun _ _ h => h.1

theorem Graph.Undotted.exists_converts {g : Graph} (hg : g.Undotted) (hne : ∀ e ∈ g.blocks, e.2.lines ≠ [])
    (hname : isLabelName g.name = false) (taken : Nat) {params : List Datum} (hparams : params.all Datum.isKey) :
    ∃ v ends es, liveness g = .ok v ∧ ssa taken params g = ({ g with blocks := es }, none) ∧
      Converts v ends g { g with blocks := es } := by
  obtain ⟨v, hv⟩ := exists_liveness hg.phiFree hg.cut hne
  have hids : g.Identified := Graph.identified_of_nodup hg.ids
  obtain ⟨es, ends, hssa, -, hblocks⟩ := ssa_blocks hg.cut hg.phiFree hv hname taken hparams
  refine ⟨v, ends, es, hv, hssa, hg, hne, fun l hl x ht hx => ?_, fun i j hn x hx hd => ?_, fun id x hx => hg.live hv hx, ?_⟩
  · refine livein_of_uses hids hv hl (u := .plain x) ?_
    rw [uses_eq (hg.phiFree l hl)]
    exact mem_map_of_mem (mem_filter.2 ⟨reads_subset_names (hg.phiFree l hl) hx, ht⟩)
  · exact livein_of_next hg.phiFree hg.cut.keyed hv hn hx hd
  · exact hblocks.imp fun _ _ h => ⟨h.1, h.2.2⟩

/-- A procedure without phis and empty blocks whose operands have no points in their names is put into this form. -/
theorem ssaProc_singleAssignment {p : Proc Instr} (hp : Undotted p) (hname : isGlobalName p.name = true)
    (hparams : ∀ d ∈ p.params, ∃ x, d = .str x ∧ '.' ∉ x.toList) {u : Routine} (hu : inferProc p = .ok u)
    (hne : ∀ e ∈ u.graph.blocks, e.2.lines ≠ []) :
    ∃ u', ssaProc u = .ok u' ∧ u'.graph.SingleAssignment p.params := by
  obtain ⟨rfl, hgname, -⟩ := inferProc_lines hu
  have hg := hp.graph hu
  have hlabel : isLabelName u.graph.name = false := hgname ▸ isLabelName_of_isGlobalName hname
  have hkeys : u.proc.params.all Datum.isKey = true := by
    rw [all_eq_true]
    intro d hd
    obtain ⟨x, rfl, -⟩ := hparams d hd
    rfl
  obtain ⟨v, ends, es, hv, hssa, C⟩ := hg.exists_converts hne hlabel (freshId u.proc.body.length u.graph.lines) hkeys
  refine ⟨{ u with graph := { u.graph with blocks := es } }, by rw [ssaProc, hssa], ?_⟩
  constructor
  · have honce := ssa_once hv (fun id x hx => (hg.live hv hx).1)
      (fun e he l hl d hd => (hg.dests l (mem_flatMap.2 ⟨e, he, hl⟩) d hd).kind) (freshId u.proc.body.length u.graph.lines) hkeys
    rwa [hssa] at honce
  · intro x hx hmem
    obtain ⟨y, hy, hdot⟩ := hparams _ hmem
    cases hy
    exact hdot (C.dotted hx)
  · exact fun e he ls l ms hs hphi x hx => C.reads he hs hphi hx
  · intro e' he' l hl d sources hi hpreds
    obtain ⟨e, he, hlab, hssa⟩ := forall₂_exists_left C.blocks he'
    have hkeys := (hssa.sources (fun l hl => hg.phiFree l (mem_flatMap.2 ⟨e, he, hl⟩)) hl hi).2
    rw [hkeys, ways_eq, (hg.cut.named e he).1, ← hlab]
    exact if_neg hpreds
  · intro e he l hl d sources hi a ha
    have hsucc := (hg.cut.pred a e.1).1 ha
    have hlabels : a ∈ ({ u.graph with blocks := es } : Graph).labels := by
      rw [C.labels_eq, ← hg.cut.succKeys]
      exact Graph.mem_keys_of_mem hsucc
    obtain ⟨e₁, he₁, rfl⟩ := mem_map.1 hlabels
    obtain ⟨y, hy, hlast, -⟩ := C.along he hl hi he₁ hsucc
    exact ⟨e₁.2, y, he₁, hy, hlast⟩

def emptying : Proc Instr :=
  ⟨"@empty", [.str "%n", .str "%k"], [.label "%.La", .binop .sub "%n" "%n" "%k", .jcc .nz "%n" "%.La", .copy "@left" "%n"]⟩

theorem ssaProc_singleAssignment_emptying :
    (Undotted emptying ∧ isGlobalName emptying.name = true ∧ ∀ d ∈ emptying.params, ∃ x, d = .str x ∧ '.' ∉ x.toList) ∧
    ∃ u u', inferProc emptying = .ok u ∧ (∀ e ∈ u.graph.blocks, e.2.lines ≠ []) ∧ ssaProc u = .ok u' ∧
      u'.graph.SingleAssignment emptying.params := by
  have hp : Undotted emptying := by
    refine ⟨by decide, by decide +kernel, by decide +kernel, by decide +kernel, ?_⟩
    rintro i hi d name k rfl
    simp [emptying] at hi
  have hparams : ∀ d ∈ emptying.params, ∃ x, d = .str x ∧ '.' ∉ x.toList := by
    simp [emptying]
  obtain ⟨u, hu⟩ : ∃ u, inferProc emptying = .ok u := exists_of_isOk (by cbv)
  have hall : ((inferProc emptying).toOption.all fun u => u.graph.blocks.all fun e => !e.2.lines.isEmpty) = true := by
    decide +kernel
  have hne : ∀ e ∈ u.graph.blocks, e.2.lines ≠ [] := by
    rw [hu] at hall
    simpa using (show (u.graph.blocks.all fun e => !e.2.lines.isEmpty) = true from hall)
  obtain ⟨u', hu', hform⟩ := ssaProc_singleAssignment hp (by decide +kernel) hparams hu hne
  exact ⟨⟨hp, by decide +kernel, hparams⟩, u, u', hu, hne, hu', hform⟩

def Graph.Covered (h : Graph) : Prop :=
  ∀ e ∈ h.blocks, ∀ l ∈ e.2.lines, ∀ d sources, l.instr = .phi d sources → ∀ k, k ∈ sources.map Prod.fst ↔
    (∃ a ∈ h.predsOf e.1, a.text = k) ∨ k = h.name ∧ (e.1 = h.entry ∨ h.predsOf e.1 = [])

section Coverage

variable {g : Graph} {v : Liveness} {ends : List (String × Renaming)} {es : List (Label × Block)} (hg : g.Cut)
  (hphi : ∀ l ∈ g.lines, l.instr.isPhi = false)
  (hblocks : List.Forall₂ (fun e e' => e'.1 = e.1 ∧ e'.2.label = e.2.label ∧ SsaBlock g v ends e.2 e'.2) g.blocks es)

include hg

theorem name_notMem_preds (hname : isLabelName g.name = false) {x : Label} : ¬ ∃ a ∈ g.predsOf x, a.text = g.name := by
  rintro ⟨a, ha, htext⟩
  refine (nodup_cons.1 (labels_text_nodup hg hname)).1 (mem_map.2 ⟨a, ?_, htext⟩)
  rw [← hg.succKeys]
  exact Graph.mem_keys_of_mem ((hg.pred a x).1 ha)

include hphi hblocks

theorem keys_of_phi {e : Label × Block} (he : e ∈ es) {l : Line} (hl : l ∈ e.2.lines) {d : String}
    {sources : List (String × String)} (hi : l.instr = .phi d sources) :
    (∃ b, (e.1, b) ∈ g.blocks ∧ ∃ x, x ∈ liveHead v b) ∧
      sources.map Prod.fst = if g.predsOf e.1 = [] then [g.name] else (g.predsOf e.1).map Label.text := by
  obtain ⟨e₀, he₀, hlab, -, hb⟩ := forall₂_exists_left hblocks he
  obtain ⟨hx, hkeys⟩ := hb.sources (fun l hl => hphi l (mem_flatMap.2 ⟨e₀, he₀, hl⟩)) hl hi
  rw [hkeys, ways_eq, (hg.named _ he₀).1, hlab]
  exact ⟨⟨e₀.2, he₀, hx⟩, rfl⟩

theorem covered_iff (hname : isLabelName g.name = false) : Graph.Covered { g with blocks := es } ↔
    g.predsOf g.entry = [] ∨ ∀ b, (g.entry, b) ∈ g.blocks → ∀ x, x ∉ liveHead v b := by
  constructor
  · intro hcov
    by_contra hnot
    push Not at hnot
    obtain ⟨hpreds, b, hb, x, hx⟩ := hnot
    obtain ⟨e, he, hlab, -, hssa⟩ := forall₂_exists_right hblocks hb
    obtain ⟨l, hl, d, sources, hi⟩ := hssa.exists_phi (fun l hl => hphi l (mem_flatMap.2 ⟨_, hb, hl⟩)) hx
    have hmem := (hcov e he l hl d sources hi g.name).2 (.inr ⟨rfl, .inl hlab⟩)
    rw [(keys_of_phi hg hphi hblocks he hl hi).2, hlab, if_neg hpreds, mem_map] at hmem
    exact name_notMem_preds hg hname hmem
  · intro hcond e he l hl d sources hi k
    obtain ⟨⟨b, hb, x, hx⟩, hkeys⟩ := keys_of_phi hg hphi hblocks he hl hi
    change _ ↔ (∃ a ∈ g.predsOf e.1, a.text = k) ∨ k = g.name ∧ (e.1 = g.entry ∨ g.predsOf e.1 = [])
    rw [hkeys]
    by_cases hnil : g.predsOf e.1 = []
    · simp [hnil]
    · have hentry : e.1 ≠ g.entry := by
        intro heq
        exact hcond.elim (fun h => hnil (heq ▸ h)) fun h => h b (heq ▸ hb) x hx
      simp [hnil, hentry]

end Coverage

/-- Phis have a source for the start of the procedure only where no block leads to theirs. So they cover every way in unless
control may come back to an entry at which something is live. -/
theorem ssaProc_covered_iff {p : Proc Instr} (hp : ∀ i ∈ p.body, i.isPhi = false) (hname : isGlobalName p.name = true)
    (hparams : p.params.all Datum.isKey = true) {u : Routine} (hu : inferProc p = .ok u)
    (hne : ∀ e ∈ u.graph.blocks, e.2.lines ≠ []) :
    ∃ u', ssaProc u = .ok u' ∧
      (∀ e ∈ u'.graph.blocks, ∀ l ∈ e.2.lines, ∀ d sources, l.instr = .phi d sources →
        sources.map Prod.fst = if u'.graph.predsOf e.1 = [] then [p.name] else (u'.graph.predsOf e.1).map Label.text) ∧
      (u'.graph.Covered ↔ u.graph.predsOf u.graph.entry = [] ∨
        ∀ b, (u.graph.entry, b) ∈ u.graph.blocks → ∀ l ∈ b.lines.head?, ∀ x, ¬ u.graph.Reaches x l) := by
  have hphi := inferProc_phiFree hp hu
  obtain ⟨rfl, hgname, hg, hids, -⟩ := inferProc_lines hu
  have hlabel : isLabelName u.graph.name = false := hgname ▸ isLabelName_of_isGlobalName hname
  obtain ⟨v, hv⟩ := exists_liveness hphi hg hne
  have hlive := (liveness_exact hg.keyed (Graph.identified_of_nodup hids) hphi hv).livein
  obtain ⟨es, ends, hssa, -, hblocks⟩ := ssa_blocks hg hphi hv hlabel (freshId u.proc.body.length u.graph.lines) hparams
  refine ⟨{ u with graph := { u.graph with blocks := es } }, by rw [ssaProc, hssa], fun e he l hl d sources hi => ?_, ?_⟩
  · exact hgname ▸ (keys_of_phi hg hphi hblocks he hl hi).2
  · refine (covered_iff hg hphi hblocks hlabel).trans (or_congr_right (forall₂_congr fun b hb => ?_))
    have hhead : ∀ l ∈ b.lines.head?, ∀ x, x ∈ v.livein l.id ↔ u.graph.Reaches x l := fun l hl =>
      hlive l (mem_flatMap.2 ⟨_, hb, mem_of_mem_head? hl⟩)
    rw [liveHead]
    cases hl : b.lines.head? with
    | none => simp
    | some l => simp [← hhead l hl]

theorem ssaProc_covered_summing : ∃ u u', inferProc summing = .ok u ∧ ssaProc u = .ok u' ∧ u'.graph.Covered := by
  have hall : ((inferProc summing).toOption.any fun u => (u.graph.blocks.all fun e => !e.2.lines.isEmpty) &&
      (u.graph.predsOf u.graph.entry).isEmpty) = true := by decide +kernel
  simp only [Option.any_eq_true, Bool.and_eq_true, List.isEmpty_iff] at hall
  obtain ⟨u, hu, hne, hpreds⟩ := hall
  obtain ⟨u', hu', -, hcov⟩ := ssaProc_covered_iff (p := summing) (by decide) (by decide +kernel) rfl (eq_ok_of_toOption hu)
    (by simpa using hne)
  exact ⟨u, u', eq_ok_of_toOption hu, hu', hcov.2 (.inl hpreds)⟩

/-- Control comes back to the entry, where the parameters are live, and no phi has a source for the call. -/
theorem not_covered_emptying :
    ∃ u u', inferProc emptying = .ok u ∧ (∀ e ∈ u.graph.blocks, e.2.lines ≠ []) ∧ ssaProc u = .ok u' ∧ ¬ u'.graph.Covered := by
  have hall : ((inferProc emptying).toOption.any fun u => (u.graph.blocks.all fun e => !e.2.lines.isEmpty) &&
      (ssaProc u).toOption.any fun u' => u'.graph.name == "@empty" && u'.graph.blocks.any fun e => e.1 == u'.graph.entry &&
        e.2.lines.any fun l => decide (l.instr = .phi "%k.0" [("%.L0", "%k.0")])) = true := by decide +kernel
  simp only [Option.any_eq_true, Bool.and_eq_true, any_eq_true, beq_iff_eq, decide_eq_true_eq] at hall
  obtain ⟨u, hu, hne, u', hu', hname, e, he, hentry, l, hl, hi⟩ := hall
  refine ⟨u, u', eq_ok_of_toOption hu, by simpa using hne, eq_ok_of_toOption hu', fun hcov => ?_⟩
  have hmem := (hcov e he l hl _ _ hi "@empty").2 (.inr ⟨hname.symm, .inl hentry⟩)
  simp at hmem

end Bx.Flow
