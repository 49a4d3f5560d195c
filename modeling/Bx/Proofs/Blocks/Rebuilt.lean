import Bx.Proofs.Blocks.Reached
import Bx.Proofs.Blocks.Simplified

namespace Bx.Blocks

open List Tac Run Run.Loose

def rebuilt (final : Bool) (name : String) (body : List Record) : Except Fault (List Record) :=
  let work : Work (List Line) := do return (← lift (serialize final (← build name (linesOf body)))).1
  match work.run.run ⟨#[], []⟩ with
  | (r, desk) => r.map fun lines => lines.map (current desk.ledger)

def rebuiltProc (final : Bool) (e : String × Proc Record) : Except Fault (String × Proc Record) := do
  return (e.1, { e.2 with body := ← rebuilt final (String.ofList (e.1.toList.drop 1)) e.2.body })

/-- No label has a name that is given on completion, and only labels stand behind a return. -/
structure Plain (b : List Record) : Prop extends Body b where
  names : ∀ x ∈ labelNames b, ¬".Lentry_".toList <+: x.toList ∧ ¬".Ljmp_".toList <+: x.toList
  returns : b.IsChain fun r m => r.opcode.is "ret" = true → m.opcode.is "label" = true

theorem Plain.clear {b : List Record} (h : Plain b) (name : String) : Clear name b := by
  refine ⟨fun _ hx => (h.names _ hx).1 ?_, fun _ _ _ _ _ _ k hx => (h.names _ hx).2 ?_, fun r m c hs hr hm => ?_⟩
  · simp [entryName]
  · simp [jumpName]
  · rw [(isChain_cons_cons.1 (h.returns.suffix hs)).1 hr] at hm
    cases hm

/-- Code with and without some of the jumps to the label that directly follows. -/
inductive Trimmed : List Line → List Line → Prop
  | nil : Trimmed [] []
  | keep {l out ls} (h : Trimmed out ls) : Trimmed (l :: out) (l :: ls)
  | drop {j l x out ls} (hj : j.record.opcode = .str "jmp") (hx : j.record.arg 0 = .str x) (hl : l.record.label? = some x)
      (h : Trimmed out ls) : Trimmed (l :: out) (j :: l :: ls)

namespace Trimmed

theorem refl : ∀ ls, Trimmed ls ls
  | [] => .nil
  | _ :: ls => .keep (refl ls)

variable {out ls : List Line} (h : Trimmed out ls)
include h

theorem padded : Padded (code out) (code ls) := by
  induction h with
  | nil => exact .nil
  | keep _ ih => exact .same ih
  | drop hj hx hl _ ih => exact .jump hl hj hx ih

theorem sublist : out.Sublist ls := by
  induction h with
  | nil => exact .slnil
  | keep _ ih => exact ih.cons_cons _
  | drop _ _ _ _ ih => exact (ih.cons_cons _).cons _

theorem labelNames_eq : labelNames (code out) = labelNames (code ls) := by
  induction h with
  | nil => rfl
  | @keep l _ _ _ ih =>
    simp only [code, map_cons, labelNames, filterMap_cons] at ih ⊢
    rw [ih]
  | drop hj _ hl _ ih =>
    simp only [code, map_cons, labelNames, filterMap_cons, Padded.label?_of_jmp hj, hl] at ih ⊢
    rw [ih]

theorem sameCode (hl : Labelled (code ls)) (hi : Inward (code ls)) : SameCode (code ls) (code out) := by
  have hsub := h.sublist.map Line.record
  refine (h.padded.sameCode ⟨fun r hr => hl.named r (hsub.subset hr), h.labelNames_eq ▸ hl.nodup⟩ (fun r hr y hy => ?_) hl).symm
  obtain ⟨x, hx, rfl⟩ := hi r (hsub.subset hr) y hy
  exact ⟨x, h.labelNames_eq ▸ hx, rfl⟩

end Trimmed

theorem dropIdleJumps_cons {l : Line} (hl : isOp "jmp" l = false) {ls out : List Line} (h : dropIdleJumps ls = .ok out) :
    dropIdleJumps (l :: ls) = .ok (l :: out) := by
  cases ls with
  | nil =>
    cases h
    rfl
  | cons m ls =>
    simp only [dropIdleJumps, isIdle, hl, Bool.false_and, Bool.false_eq_true, if_false, h]
    rfl

def Pointed (l : Line) : Prop :=
  isOp "jmp" l = true ∨ isOp "label" l = true → ∃ x, l.record.arg 0 = .str x ∧ arg l 0 = .ok (.str x)

theorem exists_trimmed : ∀ {ls : List Line}, (∀ l ∈ ls, Pointed l) → ∃ out, dropIdleJumps ls = .ok out ∧ Trimmed out ls
  | [], _ => ⟨[], rfl, .nil⟩
  | [l], _ => ⟨[l], rfl, .keep .nil⟩
  | l :: m :: ls, h => by
    have keep : isIdle l m = .ok false → ∃ out, dropIdleJumps (l :: m :: ls) = .ok out ∧ Trimmed out (l :: m :: ls) := by
      intro hidle
      obtain ⟨out, hout, ht⟩ := @exists_trimmed (m :: ls) fun k hk => h k (mem_cons_of_mem l hk)
      refine ⟨l :: out, ?_, .keep ht⟩
      simp only [dropIdleJumps, hidle, hout, ok_bind]
      rfl
    by_cases hop : isOp "jmp" l ∧ isOp "label" m
    · obtain ⟨x, hx, hargx⟩ := h l (by simp) (.inl hop.1)
      obtain ⟨y, hy, hargy⟩ := h m (by simp) (.inr hop.2)
      have hidle : isIdle l m = .ok ((Datum.str y).same (.str x)) := by
        simp only [isIdle, hop, Bool.and_self, if_true, hargx, hargy, ok_bind]
        rfl
      by_cases hxy : y = x
      · subst hxy
        have hm : isOp "jmp" m = false := by
          rw [isOp, Datum.is_iff.1 hop.2]
          rfl
        obtain ⟨out, hout, ht⟩ := exists_trimmed fun k hk => h k (mem_cons_of_mem l (mem_cons_of_mem m hk))
        refine ⟨m :: out, ?_, .drop (Datum.is_iff.1 hop.1) hx (label?_eq_some.2 ⟨Datum.is_iff.1 hop.2, hy⟩) ht⟩
        simp only [dropIdleJumps, hidle, dropIdleJumps_cons hm hout, ok_bind, Datum.same, beq_self_eq_true, if_true]
        rfl
      · exact keep (by rw [hidle]; simp [Datum.same, hxy])
    · refine keep ?_
      rw [isIdle, if_neg (by simpa using hop)]
      rfl

theorem Complete.pointed {ls : List Line} (hc : Complete ls) {l : Line} (hl : l ∈ ls) : Pointed l := by
  rintro (hop | hop)
  · have htarget := targetOf?_of_jmp (Datum.is_iff.1 hop)
    obtain ⟨x, -, hx⟩ := hc.closed _ (mem_map_of_mem hl) _ htarget
    exact ⟨x, hx, hx ▸ hc.arg_target hl htarget⟩
  · obtain ⟨x, hx, harg⟩ := hc.named_line hl hop
    exact ⟨x, (label?_eq_some.1 hx).2, harg⟩

section Ledger

theorem lt_free {ls : List Line} {l : Line} (hl : l ∈ ls) : l.id < free ls := (lt_foldl_max Line.id ls 0).2 l hl

theorem note_nil (ls : List Line) : note ls [] = ls := by simp [note, free]

theorem current_eq {ledger : List Line} (hn : (ledger.map Line.id).Nodup) {l : Line} (hl : l ∈ ledger) : current ledger l = l.record := by
  have hfind : ledger.find? (fun m => m.id == l.id) = some l := by
    induction ledger with
    | nil => cases hl
    | cons m ledger ih =>
      rw [map_cons, nodup_cons] at hn
      rcases mem_cons.1 hl with rfl | hl
      · simp
      · have hne : m.id ≠ l.id := fun he => hn.1 (he ▸ mem_map_of_mem hl)
        rw [List.find?_cons, beq_eq_false_iff_ne.2 hne]
        exact ih hn.2 hl
  rw [current, hfind]
  rfl

theorem code_linesOf (b : List Record) : code (linesOf b) = b := by
  simp [code, linesOf, Function.comp_def]

theorem nodup_linesOf (b : List Record) : ((linesOf b).map Line.id).Nodup := by
  have hids : (linesOf b).map Line.id = List.range b.length := by
    simp [linesOf, Function.comp_def, range_eq_range']
  rw [hids]
  exact nodup_range

end Ledger

section Work

theorem run_bind_ok {α β : Type} {x : Work α} {f : α → Work β} {desk desk' : Desk} {a : α} (h : x.run.run desk = (.ok a, desk')) :
    (x >>= f).run.run desk = (f a).run.run desk' := by
  simp only [ExceptT.run_bind, StateT.run_bind, h]
  rfl

theorem run_lift {α : Type} (desk : Desk) (a : α) : (lift (.ok a) : Work α).run.run desk = (.ok a, desk) := rfl

theorem run_build (desk : Desk) {name : String} {lines ls : List Line} {entry : Label} {g : Graph}
    (h : completed name (free (note lines desk.ledger)) lines = .ok (entry, ls)) (hg : blocksOf name entry ls = .ok g) :
    (build name lines).run.run desk = (.ok g, ⟨desk.said.push "CFG was successfully built", note ls desk.ledger⟩) := by
  rw [build, run_bind_ok (show (get : Work Desk).run.run desk = (.ok desk, desk) from rfl), h]
  refine (run_bind_ok (run_lift desk (entry, ls))).trans ?_
  simp only [hg]
  rfl

end Work

theorem exists_serialize (final : Bool) {g : Graph} {bs : List Block} (h : reached g = .ok bs)
    (hp : ∀ l ∈ bs.flatMap Block.lines, Pointed l) :
    ∃ out g', serialize final g = .ok (out, g') ∧ Trimmed out (bs.flatMap Block.lines) := by
  cases final with
  | false => exact ⟨_, _, by simp only [serialize, h, ok_bind]; rfl, .refl _⟩
  | true =>
    obtain ⟨out, hout, ht⟩ := exists_trimmed hp
    exact ⟨out, _, by simp only [serialize, h, ok_bind, if_true, hout]; rfl, ht⟩

theorem rebuilt_spec (final : Bool) (name : String) {body : List Record} (h : Plain body) :
    ∃ out full kept, rebuilt final name body = .ok out ∧ SameCode body full ∧ SameCode full kept ∧ SameCode kept out := by
  have hcode := code_linesOf body
  obtain ⟨x, l, ls, hdone, hx, hc, hpad, hids⟩ := completed_spec name (free (linesOf body)) (hcode.symm ▸ h.toBody) (hcode.symm ▸ h.clear name)
  obtain ⟨blocks, hblocks, hw⟩ := hc.wired name (.str x)
  have hn := hc.nodup
  obtain ⟨b, bs, hreached, hb, hlaid⟩ := hw.reached hn (mem_labelNames_code.2 ⟨l, mem_cons_self, hx⟩) name
  obtain ⟨out, g', hout, ht⟩ := exists_serialize final hreached fun m hm => hc.pointed (hlaid.subset hm)
  obtain ⟨rest, hls⟩ := hb.exists_append hn hx
  refine ⟨code out, code (l :: ls), code ((b :: bs).flatMap Block.lines), ?_, ?_, hlaid.sameCode hc rfl hls,
    ht.sameCode (hlaid.labelled hc) (hlaid.inward hc)⟩
  · have hbuild := run_build ⟨#[], []⟩ (by rwa [note_nil]) hblocks
    rw [note_nil] at hbuild
    have hledger : out.map (current (l :: ls)) = code out := by
      refine map_congr_left fun m hm => current_eq (hids (nodup_linesOf body) fun k hk => lt_free hk) ?_
      exact hlaid.subset (ht.sublist.subset hm)
    simp only [rebuilt]
    rw [run_bind_ok hbuild, hout, run_bind_ok (run_lift _ _)]
    exact congrArg Except.ok hledger
  · rw [hcode] at hpad
    exact hpad.sameCode h.labelled h.closed hc.labelled

def Alike (e e' : String × Proc Record) : Prop := e.1 = e'.1 ∧ e.2.params = e'.2.params ∧ SameCode e.2.body e'.2.body

theorem sameRuns_of_alike {o : Options} (ho : o.showInstrs = false) {procs procs' : List (String × Proc Record)}
    (h : List.Forall₂ Alike procs procs') : SameRuns (semantics o procs) (semantics o procs') :=
  sameRuns_of_sameCode ho (lookup_forall₂ (R := fun _ (p p' : Proc Record) => p.params = p'.params ∧ SameCode p.body p'.body) h)

/-- Bodies can be written out from their blocks, and then run as before. -/
theorem rebuilt_sameRuns {o : Options} (ho : o.showInstrs = false) (final : Bool) {procs : List (String × Proc Record)}
    (h : ∀ e ∈ procs, Plain e.2.body) :
    ∃ procs', procs.mapM (rebuiltProc final) = .ok procs' ∧ SameRuns (semantics o procs) (semantics o procs') := by
  have hproc : ∀ e ∈ procs, ∃ e', rebuiltProc final e = .ok e' ∧ ∃ e₁, Alike e e₁ ∧ ∃ e₂, Alike e₁ e₂ ∧ Alike e₂ e' := by
    intro e he
    obtain ⟨out, full, kept, hout, h₁, h₂, h₃⟩ := rebuilt_spec final (String.ofList (e.1.toList.drop 1)) (h e he)
    refine ⟨(e.1, { e.2 with body := out }), ?_, (e.1, { e.2 with body := full }), ⟨rfl, rfl, h₁⟩,
      (e.1, { e.2 with body := kept }), ⟨rfl, rfl, h₂⟩, rfl, rfl, h₃⟩
    simp only [rebuiltProc, hout, ok_bind]
    rfl
  obtain ⟨procs', hprocs', hrel⟩ := exists_mapM hproc
  obtain ⟨procs₁, h₁, hrel⟩ := exists_of_forall₂_comp hrel
  obtain ⟨procs₂, h₂, h₃⟩ := exists_of_forall₂_comp hrel
  exact ⟨procs', hprocs', (sameRuns_of_alike ho h₁).trans ((sameRuns_of_alike ho h₂).trans (sameRuns_of_alike ho h₃))⟩

def counting : List Record :=
  [.of "const" [.int 3] (.str "%n"), .of "label" [.str ".Lhead"] .null, .of "jz" [.str "%n", .str ".Lend"] .null,
    .of "param" [.int 1, .str "%n"] .null, .of "call" [.str "@__bx_print_int", .int 1] .null, .of "const" [.int 1] (.str "%k"),
    .of "sub" [.str "%n", .str "%k"] (.str "%n"), .of "jmp" [.str ".Lhead"] .null, .of "label" [.str ".Ldead"] .null,
    .of "ret" [] .null, .of "label" [.str ".Lend"] .null, .of "ret" [] .null]

theorem counting_plain : Plain counting := by
  refine ⟨⟨⟨?_, ?_⟩, ?_, ?_, ?_⟩, ?_, ?_⟩
  · simp [counting, Record.of, Datum.is, Record.label?, Record.arg, Datum.string?]
  · decide
  · simp [counting, Record.of]
  · simp [Inward, counting, Record.of, targetOf?, isTest, Datum.is, Record.arg, Datum.string?, conditionals, labelNames, Record.label?]
  · exact ⟨_, rfl, rfl⟩
  · decide
  · decide

theorem rebuilt_sameRuns_counting : Plain counting ∧ ∃ procs', [("@count", ⟨"@count", [], counting⟩)].mapM (rebuiltProc true) = .ok procs' ∧
    SameRuns (semantics {} [("@count", ⟨"@count", [], counting⟩)]) (semantics {} procs') :=
  ⟨counting_plain, rebuilt_sameRuns rfl true (forall_mem_singleton.2 counting_plain)⟩

end Bx.Blocks
