import Bx.Proofs.Flow.Inferred

namespace Bx.Flow

open List Tac Run.Checked

/-- The entry comes first, those without successors last, and each block that can be reached once. -/
structure LaidOut (g : Graph) (bs : List Block) : Prop where
  once : (bs.map Block.label).Nodup
  mem_iff : ∀ b, b ∈ bs ↔ (b.label, b) ∈ g.blocks ∧ g.Leads g.entry b.label
  entry : (bs.map Block.label).head? = some g.entry
  exitsLast : bs.Pairwise fun b c => g.succsOf b.label = [] → g.succsOf c.label = []

theorem Graph.Scheduled.laidOut {g : Graph} {bs : List Block} (h : g.Scheduled (bs.map Block.label)) (hg : g.Bounded)
    (hmem : ∀ b ∈ bs, (b.label, b) ∈ g.blocks) : LaidOut g bs where
  once := h.nodup
  mem_iff b := by
    constructor
    · exact fun hb => ⟨hmem b hb, (h.mem _).1 (mem_map_of_mem hb)⟩
    · rintro ⟨hb, hleads⟩
      obtain ⟨c, hc, hcb⟩ := mem_map.1 ((h.mem _).2 hleads)
      have hlook := lookup_of_mem hg.nodup (hmem c hc)
      rw [hcb, lookup_of_mem hg.nodup hb, Option.some.injEq] at hlook
      rwa [hlook]
  entry := h.head
  exitsLast := pairwise_map.1 h.exitsLast

theorem linearize_laidOut {g : Graph} (hg : g.Bounded) (taken : Nat) :
    (g.entry ∈ g.labels → ∃ out bs, linearize taken g = .ok out ∧ code out = bs.flatMap Block.instrs ∧ LaidOut g bs) ∧
      (g.entry ∉ g.labels → linearize taken g = .error (.missing g.entry)) := by
  refine ⟨fun he => ?_, fun he => ?_⟩
  · obtain ⟨out, bs, hout, hcode, hmem, hs⟩ := linearize_ok hg he taken
    exact ⟨out, bs, hout, hcode, hs.laidOut hg hmem⟩
  · have hnone : g.succs.lookup g.entry = none := by
      rwa [← Option.not_isSome_iff_eq_none, lookup_isSome, hg.succKeys]
    simp only [linearize, schedule, walk, Graph.successors, hnone]
    rfl

theorem inferProc_entry_mem {p : Proc Instr} {u : Routine} (hu : inferProc p = .ok u) : u.graph.entry ∈ u.graph.labels := by
  obtain ⟨out, ho, -⟩ := inferProc_eq_ok hu
  obtain ⟨-, -, entry, bs, -, hof, he⟩ := infer_blocks ho
  rw [hof.labels_eq, hof.entry]
  exact mem_of_mem_head? he

def falling : Proc Instr :=
  ⟨"@main", [], [.label "%.La", .const "%x" (.int 0), .jcc .z "%x" "%.Lb", .jmp "%.Lc", .label "%.Lb", .jcc .z "%x" "%.Ld",
    .jmp "%.Lf", .label "%.Lc", .jcc .z "%x" "%.Le", .jmp "%.Lf", .label "%.Ld", .ret none, .label "%.Le", .ret none,
    .label "%.Lf", .nop]⟩

theorem linearize_laidOut_falling :
    ∃ u out bs, inferProc falling = .ok u ∧ u.graph.Bounded ∧ u.graph.entry ∈ u.graph.labels ∧ linearize 0 u.graph = .ok out ∧
      code out = bs.flatMap Block.instrs ∧ LaidOut u.graph bs := by
  obtain ⟨u, hu⟩ : ∃ u, inferProc falling = .ok u := exists_of_isOk (by cbv)
  have hg := (inferProc_lines hu).2.2.1.bounded
  have he := inferProc_entry_mem hu
  obtain ⟨out, bs, h⟩ := (linearize_laidOut hg 0).1 he
  exact ⟨u, out, bs, hu, hg, he, h⟩

section Falling

def Block.leaves (b : Block) : Bool := b.jumps.getLast?.any fun l => isFinal l.instr

theorem chain_flatMap_instrs {P : Instr → Prop} {bs : List Block} (h : ∀ b ∈ bs, b.Cut) :
    (bs.flatMap Block.instrs).IsChain (fun i j => j.isLabel → P i) ↔ ∀ b ∈ bs.dropLast, ∀ i ∈ b.instrs.getLast?, P i := by
  -- Inside a block there are no labels.
  have inside : ∀ b ∈ bs, b.instrs.IsChain fun i j => j.isLabel → P i := by
    intro b hb
    have hl : ∀ i ∈ code b.lines, i.isLabel = false := forall_mem_map.2 fun l => (h b hb).isLabel_eq
    exact (pairwise_cons.2 ⟨fun j hj hlab => by simp [hl j hj] at hlab,
      pairwise_of_forall_mem_list fun i _ j hj hlab => by simp [hl j hj] at hlab⟩).isChain
  induction bs with
  | nil => simp
  | cons b bs ih =>
    rw [forall_mem_cons] at h inside
    rw [flatMap_cons, isChain_append]
    simp only [ih h.2 inside.2]
    cases bs with
    | nil => simp [inside.1]
    | cons c cs =>
      rw [dropLast_cons_cons, forall_mem_cons]
      constructor
      · rintro ⟨-, hrest, hlast⟩
        exact ⟨fun i hi => hlast i hi _ rfl rfl, hrest⟩
      · rintro ⟨hlast, hrest⟩
        exact ⟨inside.1, hrest, fun i hi _ _ _ => hlast i hi⟩

theorem Block.Cut.leaves_iff {b : Block} (hb : b.Cut) : b.leaves ↔ ∀ i ∈ b.instrs.getLast?, isFinal i := by
  rw [Block.instrs, List.getLast?_cons, code, List.getLast?_map, Block.leaves, Option.any_eq_true]
  rcases hl : b.lines.getLast? with _ | l
  · have hnil := append_eq_nil_iff.1 (List.getLast?_eq_none_iff.1 hl)
    simp [hnil.2, isFinal]
  · constructor
    · rintro ⟨m, hm, hf⟩
      rw [Block.lines, List.getLast?_append, hm, Option.some_or, Option.some.injEq] at hl
      simpa [← hl] using hf
    · intro hf
      have hf : isFinal l.instr := by simpa using hf
      exact ⟨l, hb.getLast?_jumps hl hf, hf⟩

theorem Block.Cut.empty_or_leaves_iff {b : Block} (hb : b.Cut) :
    b.lines = [] ∨ b.leaves ↔ ∀ i ∈ b.instrs.getLast?, i.isLabel ∨ isFinal i := by
  rw [hb.leaves_iff, Block.instrs, List.getLast?_cons, code, List.getLast?_map]
  rcases hl : b.lines.getLast? with _ | l
  · simp [List.getLast?_eq_none_iff.1 hl, Instr.isLabel]
  · have hne : b.lines ≠ [] := by
      intro hnil
      simp [hnil] at hl
    simp [hne, hb.isLabel_eq (mem_of_getLast? hl)]

theorem infer_leaves {p : Proc Instr} {u : Routine} (hu : inferProc p = .ok u) {e : Label × Block}
    (he : e ∈ u.graph.blocks.dropLast) : e.2.leaves := by
  obtain ⟨out, ho, -⟩ := inferProc_eq_ok hu
  obtain ⟨hc, -, entry, bs, hbs, hof, -⟩ := infer_blocks ho
  obtain ⟨hcode, hall, -⟩ := blocksOf_spec hbs (canonical_guarded hc)
  rw [hof.blocks, ← map_dropLast] at he
  obtain ⟨b, hb, rfl⟩ := mem_map.1 he
  exact (Option.any_eq_true _ _).2 (ends_of_guarded (hcode ▸ canonical_guarded hc) hb (hall b (dropLast_subset bs hb)).2)

/-- Laid out again, nothing runs into a label just if this does not happen at the end of the procedure's last block: it is
left by a jump or a return, it is the last again, or it is not laid out at all. -/
theorem linearizeProc_walled_iff {p : Proc Instr} {u : Routine} (hu : inferProc p = .ok u) :
    ∃ bs, LaidOut u.graph bs ∧ linearizeProc u = .ok { p with body := bs.flatMap Block.instrs } ∧
      (Walled (bs.flatMap Block.instrs) ↔
        ∀ e ∈ u.graph.blocks.getLast?, e.2 ∈ bs.dropLast → e.2.lines = [] ∨ e.2.leaves = true) ∧
      (Guarded (bs.flatMap Block.instrs) ↔ ∀ e ∈ u.graph.blocks.getLast?, e.2 ∈ bs.dropLast → e.2.leaves = true) := by
  obtain ⟨rfl, -, hcut, -⟩ := inferProc_lines hu
  obtain ⟨out, bs, hout, hcode, hmem, hs⟩ :=
    linearize_ok hcut.bounded (inferProc_entry_mem hu) (freshId u.proc.body.length u.graph.lines)
  have hb : ∀ b ∈ bs, b.Cut := fun b hb => hcut.blocks _ (hmem b hb)
  -- Of the blocks that are laid out before others, only the last one of the graph is in question.
  have key : ∀ Q : Block → Prop, (∀ b : Block, b.leaves = true → Q b) →
      ((∀ b ∈ bs.dropLast, Q b) ↔ ∀ e ∈ u.graph.blocks.getLast?, e.2 ∈ bs.dropLast → Q e.2) := by
    refine fun Q hQ => ⟨fun h e _ he => h e.2 he, fun h b hb => ?_⟩
    have hbl := hmem b (dropLast_subset bs hb)
    rcases hl : u.graph.blocks.getLast? with _ | e
    · simp [List.getLast?_eq_none_iff.1 hl] at hbl
    · rw [← dropLast_append_getLast? e hl, mem_append, mem_singleton] at hbl
      rcases hbl with hbl | rfl
      · exact hQ b (infer_leaves hu hbl)
      · exact h _ hl hb
  refine ⟨bs, hs.laidOut hcut.bounded hmem, by simp only [linearizeProc, hout, ok_bind, ← hcode]; rfl, ?_, ?_⟩
  · refine (chain_flatMap_instrs hb).trans (Iff.trans ?_ (key (fun b => b.lines = [] ∨ b.leaves = true) fun _ => .inr))
    exact forall₂_congr fun b hd => (hb b (dropLast_subset bs hd)).empty_or_leaves_iff.symm
  · refine (chain_flatMap_instrs hb).trans (Iff.trans ?_ (key (fun b => b.leaves = true) fun _ => id))
    exact forall₂_congr fun b hd => (hb b (dropLast_subset bs hd)).leaves_iff.symm

theorem linearizeProc_walled_countdown :
    ∃ u, ∃ bs : List Block, inferProc countdown = .ok u ∧ linearizeProc u = .ok { countdown with body := bs.flatMap Block.instrs } ∧
      Walled (bs.flatMap Block.instrs) ∧ Guarded (bs.flatMap Block.instrs) := by
  obtain ⟨u, hu⟩ : ∃ u, inferProc countdown = .ok u := exists_of_isOk (by cbv)
  have hall : ((inferProc countdown).toOption.all fun u => u.graph.blocks.getLast?.all fun e => e.2.leaves) = true := by
    decide +kernel
  have hlast : ∀ e ∈ u.graph.blocks.getLast?, e.2.leaves = true := by
    intro e he
    rw [hu] at hall
    have hlast : (u.graph.blocks.getLast?.all fun e => e.2.leaves) = true := hall
    rwa [Option.mem_def.1 he] at hlast
  obtain ⟨bs, -, hlin, hw, hgu⟩ := linearizeProc_walled_iff hu
  exact ⟨u, bs, hu, hlin, hw.2 fun e he _ => .inr (hlast e he), hgu.2 fun e he _ => hlast e he⟩

/-- Here the block at the end comes between the returns, and runs into the second one. -/
theorem not_walled_falling :
    ∃ q, relinearize ("@main", falling) = .ok q ∧ [.nop, .label "%.L4", .ret none] <:+ q.2.body ∧ ¬ Walled q.2.body := by
  obtain ⟨q, hq⟩ : ∃ q, relinearize ("@main", falling) = .ok q := exists_of_isOk (by decide +kernel)
  have hall : ((relinearize ("@main", falling)).toOption.all fun q => decide ([.nop, .label "%.L4", .ret none] <:+ q.2.body)) = true := by
    decide +kernel
  rw [hq] at hall
  have hs : [.nop, .label "%.L4", .ret none] <:+ q.2.body := of_decide_eq_true hall
  refine ⟨q, hq, hs, fun hw => ?_⟩
  obtain ⟨b, hb⟩ := hs
  rw [← hb] at hw
  simpa [Instr.isLabel, isFinal] using hw.right_of_append.rel_head? rfl

end Falling

end Bx.Flow
