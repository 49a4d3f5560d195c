import Bx.Proofs.Flow.SsaRun
import Bx.Proofs.Run.Regular
import Mathlib

namespace Bx.Flow

open List Tac Run Run.Checked

variable {x : String} {p : Proc Instr} {u : Routine} {g : Graph}

theorem dotted_of_isLabelName (h : isLabelName x) : '.' ∈ x.toList := by
  rw [isLabelName, String.startsWith_string_iff] at h
  exact h.subset (by simp)

theorem isLabelName_of_isGlobalName (h : isGlobalName x) : isLabelName x = false := by
  rw [Bool.eq_false_iff]
  intro hl
  rw [isLabelName, String.startsWith_string_iff] at hl
  rw [isGlobalName_of_percent (by rw [String.startsWith_string_iff]; exact .trans (by simp) hl)] at h
  cases h

/-- Procedures as they are written, with neither phis nor versions. -/
structure Unversioned (p : Proc Instr) : Prop where
  name : isGlobalName p.name = true
  params : p.params.all Datum.isKey = true
  phiFree : ∀ i ∈ p.body, i.isPhi = false
  ends : ∃ i, p.body.getLast? = some i ∧ isFinal i = true
  labels : ∀ x ∈ labelNames p.body, isLabelName x = true
  reads : ∀ i ∈ p.body, ∀ x ∈ i.reads, Written x
  dests : ∀ i ∈ p.body, ∀ d ∈ i.dest, Written d
  calls : ∀ i ∈ p.body, ∀ d name k, i = .call d name k → isGlobalName name = true

def PrintsOnly (p : Proc Instr) : Prop :=
  ∀ i ∈ p.body, ∀ d name k, i = .call d name k → isPrint name = true → d = none

theorem mem_reads_of_lastRead? {i : Instr} {y : String} (h : y ∈ lastRead? i) : y ∈ i.reads := by
  cases i <;> simp_all [lastRead?, Instr.reads]

theorem reads_retarget (i : Instr) (m : String → String) : (i.retarget m).reads = i.reads := by
  cases i <;> rfl

theorem dest_retarget (i : Instr) (m : String → String) : (i.retarget m).dest = i.dest := by
  cases i <;> rfl

theorem eq_call_of_retarget {i : Instr} {m : String → String} {d : Option String} {name : String} {k : Numeral}
    (h : i.retarget m = .call d name k) : i = .call d name k := by
  cases i with
  | call => exact h
  | _ => cases h

structure Undotted (p : Proc Instr) : Prop where
  phiFree : ∀ i ∈ p.body, i.isPhi = false
  labels : ∀ x ∈ labelNames p.body, isLabelName x = true
  reads : ∀ i ∈ p.body, ∀ x ∈ i.reads, Written x
  dests : ∀ i ∈ p.body, ∀ d ∈ i.dest, Written d
  calls : ∀ i ∈ p.body, ∀ d name k, i = .call d name k → isGlobalName name = true

theorem Unversioned.undotted (hp : Unversioned p) : Undotted p :=
  ⟨hp.phiFree, hp.labels, hp.reads, hp.dests, hp.calls⟩

theorem Undotted.lines (hp : Undotted p) (hu : inferProc p = .ok u) :
    ∃ m, ∀ l ∈ u.graph.lines, (∃ y, l.instr = .jmp y) ∨ ∃ i ∈ p.body, l.instr = i.retarget m := by
  obtain ⟨-, -, -, -, ρ, hρ, hmem⟩ := inferProc_lines hu
  refine ⟨ρ.apply, fun l hl => (hmem l hl).imp_right fun ⟨i, hi, _, hr⟩ =>
    ⟨i, hi, relabel_eq_retarget hr (hp.phiFree i hi) fun y hy => ?_⟩⟩
  have hdot := (hp.reads i hi y (mem_reads_of_lastRead? hy)).undotted
  refine hρ y (fun hy => hdot (dotted_of_isLabelName (hp.labels y hy))) fun k hk => hdot ?_
  rw [hk]
  simp [adminName]

structure Graph.Undotted (g : Graph) : Prop where
  cut : g.Cut
  ids : (g.lines.map Line.id).Nodup
  phiFree : ∀ l ∈ g.lines, l.instr.isPhi = false
  reads : ∀ l ∈ g.lines, ∀ x ∈ l.instr.reads, Written x
  dests : ∀ l ∈ g.lines, ∀ d ∈ l.instr.dest, Written d
  calls : ∀ l ∈ g.lines, ∀ d name k, l.instr = .call d name k → isGlobalName name = true

theorem Undotted.graph (hp : Undotted p) (hu : inferProc p = .ok u) : u.graph.Undotted := by
  obtain ⟨-, -, hg, hids, -⟩ := inferProc_lines hu
  obtain ⟨m, hline⟩ := hp.lines hu
  refine ⟨hg, hids, inferProc_phiFree hp.phiFree hu, fun l hl x hx => ?_, fun l hl d hd => ?_, fun l hl d name k hcall => ?_⟩ <;>
    rcases hline l hl with ⟨y, hy⟩ | ⟨i, hi, hli⟩
  · rw [hy] at hx
    cases hx
  · rw [hli, reads_retarget] at hx
    exact hp.reads i hi x hx
  · rw [hy] at hd
    cases hd
  · rw [hli, dest_retarget] at hd
    exact hp.dests i hi d hd
  · rw [hy] at hcall
    cases hcall
  · exact hp.calls i hi d name k (eq_call_of_retarget (hli.symm.trans hcall))

theorem Unversioned.versionable (hp : Unversioned p) (hprint : PrintsOnly p) (hu : inferProc p = .ok u)
    (hne : ∀ e ∈ u.graph.blocks, e.2.lines ≠ []) : u.proc = p ∧ u.graph.name = p.name ∧ u.graph.Versionable := by
  obtain ⟨hproc, hname, -⟩ := inferProc_lines hu
  obtain ⟨m, hline⟩ := hp.undotted.lines hu
  have hg := hp.undotted.graph hu
  refine ⟨hproc, hname, inferProc_formed hu hp.ends, hg.ids, hg.phiFree, hne, hg.reads, hg.dests, hg.calls, fun l hl d name k hcall => ?_⟩
  rcases hline l hl with ⟨y, hy⟩ | ⟨i, hi, hli⟩
  · rw [hy] at hcall
    cases hcall
  · exact hprint i hi d name k (eq_call_of_retarget (hli.symm.trans hcall))

theorem Graph.Versionable.undotted (hg : g.Versionable) : g.Undotted :=
  ⟨hg.formed.cut, hg.ids, hg.phiFree, hg.reads, hg.dests, hg.calls⟩

theorem Graph.Undotted.mem_reads (hg : g.Undotted) {l : Line} (hl : l ∈ g.lines) (hx : isTempName x)
    (hn : x ∈ l.instr.names) : x ∈ l.instr.reads := by
  obtain ⟨e, he, hle⟩ := mem_flatMap.1 hl
  have hcut := hg.cut.blocks e he
  have target : l.instr.target? ≠ some x := by
    intro ht
    have hne : x ≠ "" := by
      rintro rfl
      revert hx
      decide
    have hdest := mem_destinations (hcut.mem_jumps hle (by simp [ht])) ht hne
    obtain ⟨e', he', hlabel⟩ := mem_map.1 (hg.cut.closed e he _ hdest)
    obtain ⟨-, s, hs, hname⟩ := hg.cut.named e' he'
    rw [hlabel] at hs
    cases hs
    simp [isTempName, hname] at hx
  cases hi : l.instr with
  | jmp y =>
    rw [hi] at hn target
    exact absurd (by rw [mem_singleton.1 hn]; rfl) target
  | jcc c z y =>
    rw [hi] at hn target
    rcases mem_cons.1 hn with rfl | hn
    · exact mem_cons_self
    · exact absurd (by rw [mem_singleton.1 hn]; rfl) target
  | label y =>
    have := hcut.isLabel_eq hle
    simp [hi, Instr.isLabel] at this
  | call d name k =>
    rw [hi] at hn
    have hglob := hg.calls l hl d name k hi
    rw [← mem_singleton.1 hn, isGlobalName_of_percent (Bool.and_eq_true_iff.1 hx).1] at hglob
    cases hglob
  | phi | frozenPhi =>
    have := hg.phiFree l hl
    simp [hi, Instr.isPhi] at this
  | nop | const | copy | unop | binop | param | ret =>
    rw [hi] at hn
    exact hn

theorem Graph.Undotted.live (hg : g.Undotted) {v : Liveness} (hv : liveness g = .ok v) {id : Nat} (hx : x ∈ v.livein id) :
    x.startsWith "%" ∧ '.' ∉ x.toList := by
  obtain ⟨htemp, l, hl, hn⟩ := mem_livein hg.phiFree hv hx
  exact ⟨(Bool.and_eq_true_iff.1 htemp).1, (hg.reads l hl x (hg.mem_reads hl htemp hn)).undotted⟩

def versioned (e : String × Proc Instr) : Except Fault (String × Proc Instr) := do
  let u ← inferProc e.2
  let u' ← ssaProc u
  return (e.1, ← linearizeProc u')

/-- Graphs without empty blocks that are entered from outside only, and only parameters are live at the entry. -/
structure Graph.Entered (g : Graph) (params : List Datum) : Prop where
  nonempty : ∀ e ∈ g.blocks, e.2.lines ≠ []
  entry : g.predsOf g.entry = []
  live : ∀ v, liveness g = .ok v → ∀ e ∈ g.blocks, e.1 = g.entry → ∀ x ∈ liveHead v e.2, .str x ∈ params

theorem Unversioned.exists_versioning (hp : Unversioned p) (hprint : PrintsOnly p) (hu : inferProc p = .ok u)
    (he : u.graph.Entered p.params) :
    u.proc = p ∧ u.graph.name = p.name ∧ ∃ v h ends bs bs', liveness u.graph = .ok v ∧
      ssa (freshId p.body.length u.graph.lines) p.params u.graph = (h, none) ∧ Versioning v ends u.graph h bs bs' ∧
      linearizeProc u = .ok { p with body := bs.flatMap Block.instrs } ∧
      linearizeProc { u with graph := h } = .ok { p with body := bs'.flatMap Block.instrs } := by
  obtain ⟨rfl, hname, hg⟩ := hp.versionable hprint hu he.nonempty
  obtain ⟨v, hv⟩ := exists_liveness hg.phiFree hg.formed.cut he.nonempty
  have hlabel : isLabelName u.graph.name = false := hname ▸ isLabelName_of_isGlobalName hp.name
  obtain ⟨h, ends, hssa, hstart, hshape, hh⟩ := ssa_spec hg.formed hg.phiFree he.nonempty hv hlabel
    (freshId u.proc.body.length u.graph.lines) hp.params
  obtain ⟨bs, hl, -, hlin⟩ := linearizeProc_spec hg.formed
  obtain ⟨bs', hl', -, hlin'⟩ := @linearizeProc_spec { u with graph := h } hh
  exact ⟨rfl, hname, v, h, ends, bs, bs', hv, hssa, ⟨hg, (liveness_live hg.phiFree hg.ids hg.formed hv).1, fun id x hx => hg.undotted.live hv hx,
    hstart, he.entry, hg.formed, hh, hshape, hl, hl'⟩, hlin, hlin'⟩

theorem Unversioned.versioned (hp : Unversioned p) (hprint : PrintsOnly p) (hu : inferProc p = .ok u)
    (he : u.graph.Entered p.params) :
    ∃ b b', relinearize (p.name, p) = .ok (p.name, { p with body := b }) ∧
      versioned (p.name, p) = .ok (p.name, { p with body := b' }) ∧
      (∀ i ∈ b, i.isPhi = false) ∧ VersionedProc p.name { p with body := b } { p with body := b' } := by
  obtain ⟨rfl, hname, v, h, ends, bs, bs', hv, hssa, S, hlin, hlin'⟩ := hp.exists_versioning hprint hu he
  refine ⟨bs.flatMap Block.instrs, bs'.flatMap Block.instrs, ?_, ?_, ?_, v, ends, u.graph, h, bs, bs', S, hname, rfl, rfl, rfl, ?_⟩
  · simp only [relinearize, hu, hlin, ok_bind]
    rfl
  · have hproc : ssaProc u = .ok { u with graph := h } := by rw [ssaProc, hssa]
    simp only [Flow.versioned, hu, hproc, hlin', ok_bind]
    rfl
  · intro i hi
    obtain ⟨b, hb, hi⟩ := mem_flatMap.1 hi
    rcases mem_cons.1 hi with rfl | hi
    · rfl
    · obtain ⟨l, hlb, rfl⟩ := mem_map.1 hi
      exact S.versionable.phiFree l (S.line_mem hb hlb)
  · intro b hb hentry x hx
    exact he.live v hv _ (S.facing.layout.mem b hb) hentry x hx

/-- From any call both programs give the same output, globals and value, or the same fault, or run for ever. No phi fails to
resolve. -/
theorem sameRuns_versioned (o : Options) (procs : List (String × Proc Instr))
    (hp : ∀ e ∈ procs, e.1 = e.2.name ∧ Unversioned e.2 ∧ PrintsOnly e.2)
    (hi : ∀ e ∈ procs, ∃ u, inferProc e.2 = .ok u ∧ u.graph.Entered e.2.params) :
    ∃ ps qs, procs.mapM relinearize = .ok ps ∧ procs.mapM versioned = .ok qs ∧
      SameRuns (semantics { o with showInstrs := false } ps) (semantics { o with showInstrs := false } qs) ∧
      ∀ name args depth w s ls w',
        ¬ Yields (semantics { o with showInstrs := false } qs) name args depth w (.error (.unresolvedPhi s ls)) w' := by
  have hall : ∀ e ∈ procs, ∃ b b', relinearize e = .ok (e.1, { e.2 with body := b }) ∧
      versioned e = .ok (e.1, { e.2 with body := b' }) ∧ (∀ i ∈ b, i.isPhi = false) ∧
      VersionedProc e.1 { e.2 with body := b } { e.2 with body := b' } := by
    rintro ⟨name, p⟩ he
    obtain ⟨hname, hun, hprint⟩ := hp _ he
    obtain ⟨u, hu, hent⟩ := hi _ he
    change name = p.name at hname
    subst hname
    exact hun.versioned hprint hu hent
  choose! b b' hb hb' hphi hver using hall
  have hruns : SameRuns (semantics { o with showInstrs := false } (procs.map fun e => (e.1, { e.2 with body := b e })))
      (semantics { o with showInstrs := false } (procs.map fun e => (e.1, { e.2 with body := b' e }))) :=
    sameRuns_map fun e he => .inr ((hver e he).stepwise rfl)
  refine ⟨_, _, ?_, ?_, hruns, ?_⟩
  · rw [mapM_eq_ok, forall₂_map_right_iff, forall₂_same]
    exact hb
  · rw [mapM_eq_ok, forall₂_map_right_iff, forall₂_same]
    exact hb'
  · intro name args depth w s ls w' hy
    refine yields_resolves (fun e he => ?_) ((hruns name args depth w _ w').2 hy) s ls rfl
    obtain ⟨e₀, he₀, rfl⟩ := mem_map.1 he
    exact hphi e₀ he₀

def summing : Proc Instr :=
  ⟨"@sum", [.str "%n"], [.label "%.La", .const "%s" (.int 0), .label "%.Lb", .jcc .z "%n" "%.Lc", .binop .add "%s" "%s" "%n",
    .const "%one" (.int 1), .binop .sub "%n" "%n" "%one", .param (.int 1) "%n", .call (some "%t") "@sum" (.int 1),
    .jmp "%.Lb", .label "%.Lc", .ret (some "%s")]⟩

instance (x : String) : Decidable (Written x) :=
  decidable_of_iff (((x.startsWith "%" || isGlobalName x) = true) ∧ '.' ∉ x.toList)
    ⟨fun h => ⟨Bool.or_eq_true_iff.1 h.1, h.2⟩, fun h => ⟨Bool.or_eq_true_iff.2 h.kind, h.undotted⟩⟩

theorem summing_unversioned : Unversioned summing where
  name := by decide +kernel
  params := by decide
  phiFree := by decide
  ends := ⟨.ret (some "%s"), rfl, rfl⟩
  labels := by decide +kernel
  reads := by decide +kernel
  dests := by decide +kernel
  calls := by
    rintro i hi d name k rfl
    simp only [summing, mem_cons, reduceCtorEq, Instr.call.injEq, not_mem_nil, or_false, false_or] at hi
    rw [hi.2.1]
    decide +kernel

theorem summing_printsOnly : PrintsOnly summing := by
  rintro i hi d name k rfl hprint
  simp only [summing, mem_cons, reduceCtorEq, Instr.call.injEq, not_mem_nil, or_false, false_or] at hi
  rw [hi.2.1] at hprint
  exact absurd hprint (by decide +kernel)

def Graph.enteredWith (g : Graph) (names : List String) : Bool :=
  (g.blocks.all fun e => !e.2.lines.isEmpty) && (g.predsOf g.entry).isEmpty &&
    (liveness g).toOption.all fun v => g.blocks.all fun e => e.1 != g.entry || (liveHead v e.2).all (names.contains ·)

theorem Graph.entered_of_enteredWith {names : List String} (h : g.enteredWith names) : g.Entered (names.map .str) := by
  simp only [Graph.enteredWith, Bool.and_eq_true] at h
  obtain ⟨⟨hne, hentry⟩, hlive⟩ := h
  refine ⟨by simpa using hne, by simpa using hentry, fun v hv e he hl x hx => ?_⟩
  rw [hv] at hlive
  have he' := all_eq_true.1 hlive e he
  simp only [hl, bne_self_eq_false, Bool.false_or, all_eq_true, contains_iff_mem] at he'
  exact mem_map_of_mem (he' x hx)

theorem exists_entered (names : List String) (hi : (inferProc p).isOk)
    (h : ((inferProc p).toOption.all fun u => u.graph.enteredWith names)) :
    ∃ u, inferProc p = .ok u ∧ u.graph.Entered (names.map .str) := by
  obtain ⟨u, hu⟩ := exists_of_isOk hi
  rw [hu] at h
  exact ⟨u, hu, Graph.entered_of_enteredWith h⟩

theorem sameRuns_versioned_summing :
    (Unversioned summing ∧ PrintsOnly summing) ∧ (∃ u, inferProc summing = .ok u ∧ u.graph.Entered summing.params) ∧
    ∃ ps qs, [("@sum", summing)].mapM relinearize = .ok ps ∧ [("@sum", summing)].mapM versioned = .ok qs ∧
      SameRuns (semantics {} ps) (semantics {} qs) ∧
      ∀ name args depth w s ls w', ¬ Yields (semantics {} qs) name args depth w (.error (.unresolvedPhi s ls)) w' := by
  have hent : ∃ u, inferProc summing = .ok u ∧ u.graph.Entered summing.params :=
    exists_entered ["%n"] (by cbv) (by decide +kernel)
  refine ⟨⟨summing_unversioned, summing_printsOnly⟩, hent, sameRuns_versioned {} _ ?_ ?_⟩ <;> simp only [mem_singleton, forall_eq]
  · exact ⟨rfl, summing_unversioned, summing_printsOnly⟩
  · exact hent

def printedOver : Proc Instr :=
  ⟨"@main", [], [.label "%.La", .const "%x" (.int 5), .param (.int 1) "%x", .call (some "%x") "@__bx_print_int" (.int 1),
    .ret (some "%x")]⟩

/-- A call that prints stores nothing, so that the version it is to define has no value. -/
theorem not_sameRuns_versioned_printedOver :
    Unversioned printedOver ∧ (∃ u, inferProc printedOver = .ok u ∧ u.graph.Entered []) ∧
    ∃ q q', relinearize ("@main", printedOver) = .ok q ∧ versioned ("@main", printedOver) = .ok q' ∧
      Yields (semantics {} [q]) "@main" (.list []) 0 ⟨[], #[]⟩ (.ok (.int 5)) ⟨[], #["5\n"]⟩ ∧
      Yields (semantics {} [q']) "@main" (.list []) 0 ⟨[], #[]⟩ (.error (.shape (.key (.str "%x.1")))) ⟨[], #["5\n"]⟩ := by
  refine ⟨?_, exists_entered [] (by cbv) (by decide +kernel),
    ("@main", ⟨"@main", [], [.label "%.L0", .const "%x" (.int 5), .param (.int 1) "%x", .call (some "%x") "@__bx_print_int" (.int 1),
      .ret (some "%x")]⟩),
    ("@main", ⟨"@main", [], [.label "%.L0", .const "%x.0" (.int 5), .param (.int 1) "%x.0",
      .call (some "%x.1") "@__bx_print_int" (.int 1), .ret (some "%x.1")]⟩), by cbv, by cbv, ⟨6, by cbv⟩, ⟨6, by cbv⟩⟩
  refine ⟨by decide +kernel, rfl, by decide, ⟨_, rfl, rfl⟩, by decide +kernel, by decide +kernel, by decide +kernel, ?_⟩
  rintro i hi d name k rfl
  simp only [printedOver, mem_cons, reduceCtorEq, Instr.call.injEq, not_mem_nil, or_false, false_or] at hi
  rw [hi.2.1]
  decide +kernel

end Bx.Flow
