import Bx.Proofs.Flow.CopiesRun

namespace Bx.Flow

open List Tac Run Run.Checked

def propagated (globals : List String) (e : String × Proc Instr) : Except Fault (String × Proc Instr) := do
  let u ← inferProc e.2
  let u' ← ssaProc u
  return (e.1, ← linearizeProc { u' with graph := propagateCopies globals u'.graph })

theorem Graph.Versionable.targets {g : Graph} (hg : g.Versionable) {e : Label × Block} (he : e ∈ g.blocks) : Targets e.2.lines :=
  fun l hl d hd => (hg.dests l (mem_flatMap.2 ⟨e, he, hl⟩) d hd).kind

theorem Unversioned.exists_assigned {p : Proc Instr} (hp : Unversioned p) (hprint : PrintsOnly p) {u : Routine} (hu : inferProc p = .ok u)
    (he : u.graph.Entered p.params) :
    ∃ u' bs, ssaProc u = .ok u' ∧ u'.proc = p ∧ u'.graph.Assigned p.name p.params ∧ Layout u'.graph bs ∧
      linearizeProc u' = .ok { p with body := bs.flatMap Block.instrs } := by
  obtain ⟨rfl, hname, v, h, ends, bs, bs', hv, hssa, S, -, hlin⟩ := hp.exists_versioning hprint hu he
  refine ⟨{ u with graph := h }, bs', by rw [ssaProc, hssa], rfl, ?_, S.facing.layout', hlin⟩
  have honce := ssa_once hv (fun id x hx => (S.live id x hx).1) (fun e he => S.versionable.targets he)
    (freshId u.proc.body.length u.graph.lines) hp.params
  rw [hssa] at honce
  exact hname ▸ S.assigned (he.live v hv) honce

theorem Unversioned.propagated {p : Proc Instr} (hp : Unversioned p) (hprint : PrintsOnly p) {u : Routine} (hu : inferProc p = .ok u)
    (he : u.graph.Entered p.params) {globals : List String} (hc : ∀ u', ssaProc u = .ok u' → u'.graph.Replaceable globals) :
    ∃ b b', Flow.versioned (p.name, p) = .ok (p.name, { p with body := b }) ∧
      Flow.propagated globals (p.name, p) = .ok (p.name, { p with body := b' }) ∧
      PropagatedProc p.name { p with body := b } { p with body := b' } ∧
      ∀ u', ssaProc u = .ok u' → ∀ x, (propagateCopies globals u'.graph).Uses x →
        (propagateCopies globals u'.graph).Defines x ∨ u'.graph.Uses x ∧ ¬ u'.graph.Defines x := by
  obtain ⟨u', bs, hu', rfl, hh, hl, hlin⟩ := hp.exists_assigned hprint hu he
  have hr := hc u' hu'
  obtain ⟨f, hf⟩ := propagateCopies_forwarded hh hr
  obtain ⟨hshape, hform⟩ := hf.reshaped hh hr
  obtain ⟨bs', hl', -, hlin'⟩ := @linearizeProc_spec { u' with graph := propagateCopies globals u'.graph } hform
  refine ⟨bs.flatMap Block.instrs, bs'.flatMap Block.instrs, ?_, ?_, ?_, ?_⟩
  · simp only [Flow.versioned, hu, hu', hlin, ok_bind]
    rfl
  · simp only [Flow.propagated, hu, hu', hlin', ok_bind]
    rfl
  · exact ⟨globals, f, u'.graph, _, bs, bs', ⟨hh, hr, hf.forwards, hh.formed, hform, hshape, hl, hl'⟩, rfl, rfl, rfl⟩
  · intro u'' hu'' x hx
    rw [hu', Except.ok.injEq] at hu''
    subst hu''
    exact hf.uses hh hr hx

/-- From any call both programs give the same output, globals and value, or the same fault, or run for ever. What is read is
still assigned. -/
theorem sameRuns_propagated (o : Options) (globals : List String) (procs : List (String × Proc Instr))
    (hp : ∀ e ∈ procs, e.1 = e.2.name ∧ Unversioned e.2 ∧ PrintsOnly e.2)
    (hi : ∀ e ∈ procs, ∃ u, inferProc e.2 = .ok u ∧ u.graph.Entered e.2.params)
    (hc : ∀ e ∈ procs, ∀ u u', inferProc e.2 = .ok u → ssaProc u = .ok u' → u'.graph.Replaceable globals) :
    ∃ qs rs, procs.mapM versioned = .ok qs ∧ procs.mapM (propagated globals) = .ok rs ∧
      SameRuns (semantics { o with showInstrs := false } qs) (semantics { o with showInstrs := false } rs) ∧
      ∀ e ∈ procs, ∀ u u', inferProc e.2 = .ok u → ssaProc u = .ok u' → ∀ x, (propagateCopies globals u'.graph).Uses x →
        (propagateCopies globals u'.graph).Defines x ∨ u'.graph.Uses x ∧ ¬ u'.graph.Defines x := by
  have hall : ∀ e ∈ procs, ∃ b b', versioned e = .ok (e.1, { e.2 with body := b }) ∧
      propagated globals e = .ok (e.1, { e.2 with body := b' }) ∧
      PropagatedProc e.1 { e.2 with body := b } { e.2 with body := b' } ∧
      ∀ u u', inferProc e.2 = .ok u → ssaProc u = .ok u' → ∀ x, (propagateCopies globals u'.graph).Uses x →
        (propagateCopies globals u'.graph).Defines x ∨ u'.graph.Uses x ∧ ¬ u'.graph.Defines x := by
    rintro ⟨name, p⟩ he
    obtain ⟨hname, hun, hprint⟩ := hp _ he
    obtain ⟨u, hu, hent⟩ := hi _ he
    change name = p.name at hname
    subst hname
    obtain ⟨b, b', hb, hb', hprop, huses⟩ := hun.propagated hprint hu hent fun u' hu' => hc _ he u u' hu hu'
    refine ⟨b, b', hb, hb', hprop, fun u₁ u' hu₁ => ?_⟩
    cases hu.symm.trans hu₁
    exact huses u'
  choose! b b' hb hb' hprop huses using hall
  refine ⟨procs.map fun e => (e.1, { e.2 with body := b e }), procs.map fun e => (e.1, { e.2 with body := b' e }), ?_, ?_, ?_, huses⟩
  · rw [mapM_eq_ok, forall₂_map_right_iff, forall₂_same]
    exact hb
  · rw [mapM_eq_ok, forall₂_map_right_iff, forall₂_same]
    exact hb'
  · exact sameRuns_map fun e he => .inr ((hprop e he).stepwise rfl)

def Graph.replaceable (globals : List String) (h : Graph) : Bool :=
  (h.lines.filterMap fun l => copyOf? globals l.instr).all fun c => !isGlobalName c.1 && !isGlobalName c.2 &&
    (h.blocks.all fun e => e.2.jumps.all fun j => !j.instr.reads.contains c.1) &&
    h.lines.all fun m => !m.instr.dest.any globals.contains || !m.instr.reads.contains c.1

theorem Graph.replaceable_of {globals : List String} {h : Graph} (hr : h.replaceable globals) : h.Replaceable globals := by
  have hall : ∀ l ∈ h.lines, ∀ d x, copyOf? globals l.instr = some (d, x) → _ :=
    fun l hl d x hc => all_eq_true.1 hr (d, x) (mem_filterMap.2 ⟨l, hl, hc⟩)
  simp only [Bool.and_eq_true, Bool.not_eq_true', all_eq_true, Bool.or_eq_true, contains_eq_mem,
    decide_eq_false_iff_not] at hall
  refine ⟨fun l hl d x hc => (hall l hl d x hc).1.1, fun l hl d x hc => (hall l hl d x hc).1.2, fun l hl d x hc m hm hd => ?_⟩
  exact ((hall l hl d x hc).2 m hm).resolve_left (by simp [hd])

def fibonacci : Proc Instr :=
  ⟨"@fib", [.str "%n"], [.label "%.La", .const "%a" (.int 0), .const "%b" (.int 1), .const "%one" (.int 1), .label "%.Lb",
    .jcc .z "%n" "%.Lc", .copy "%t" "%a", .binop .sub "%n" "%n" "%one", .copy "%a" "%b", .binop .add "%b" "%t" "%b", .jmp "%.Lb",
    .label "%.Lc", .ret (some "%a")]⟩

theorem fibonacci_unversioned : Unversioned fibonacci where
  name := by decide +kernel
  params := by decide
  phiFree := by decide
  ends := ⟨.ret (some "%a"), rfl, rfl⟩
  labels := by decide +kernel
  reads := by decide +kernel
  dests := by decide +kernel
  calls := by
    rintro i hi d name k rfl
    simp [fibonacci] at hi

theorem fibonacci_printsOnly : PrintsOnly fibonacci := by
  rintro i hi d name k rfl
  simp [fibonacci] at hi

theorem fibonacci_replaceable {u u' : Routine} (hu : inferProc fibonacci = .ok u) (hu' : ssaProc u = .ok u') : u'.graph.Replaceable [] := by
  have hall : ((inferProc fibonacci).bind ssaProc).toOption.all (fun u' => u'.graph.replaceable []) := by decide +kernel
  rw [hu] at hall
  change (ssaProc u).toOption.all _ = true at hall
  rw [hu'] at hall
  exact Graph.replaceable_of hall

theorem sameRuns_propagated_fibonacci :
    (Unversioned fibonacci ∧ PrintsOnly fibonacci) ∧ (∃ u, inferProc fibonacci = .ok u ∧ u.graph.Entered fibonacci.params) ∧
    (∀ u u', inferProc fibonacci = .ok u → ssaProc u = .ok u' → u'.graph.Replaceable []) ∧
    ∃ qs rs, [("@fib", fibonacci)].mapM versioned = .ok qs ∧ [("@fib", fibonacci)].mapM (propagated []) = .ok rs ∧
      SameRuns (semantics {} qs) (semantics {} rs) := by
  have hent : ∃ u, inferProc fibonacci = .ok u ∧ u.graph.Entered fibonacci.params :=
    exists_entered ["%n"] (by cbv) (by decide +kernel)
  have hrep : ∀ u u', inferProc fibonacci = .ok u → ssaProc u = .ok u' → u'.graph.Replaceable [] :=
    fun _ _ => fibonacci_replaceable
  refine ⟨⟨fibonacci_unversioned, fibonacci_printsOnly⟩, hent, hrep, ?_⟩
  obtain ⟨qs, rs, hqs, hrs, hruns, -⟩ := sameRuns_propagated {} [] [("@fib", fibonacci)]
    (by simpa using ⟨rfl, fibonacci_unversioned, fibonacci_printsOnly⟩) (by simpa using hent) (by simpa using hrep)
  exact ⟨qs, rs, hqs, hrs, hruns⟩

def returned : Proc Instr :=
  ⟨"@main", [], [.label "%.La", .const "%x" (.int 5), .copy "%y" "%x", .ret (some "%y")]⟩

/-- What a return reads is not replaced, so that it has no value once the copy is gone. -/
theorem not_sameRuns_propagated_returned :
    (Unversioned returned ∧ PrintsOnly returned) ∧ (∃ u, inferProc returned = .ok u ∧ u.graph.Entered []) ∧
    ∃ q q', versioned ("@main", returned) = .ok q ∧ propagated [] ("@main", returned) = .ok q' ∧
      Yields (semantics {} [q]) "@main" (.list []) 0 ⟨[], #[]⟩ (.ok (.int 5)) ⟨[], #[]⟩ ∧
      Yields (semantics {} [q']) "@main" (.list []) 0 ⟨[], #[]⟩ (.error (.shape (.key (.str "%y.1")))) ⟨[], #[]⟩ := by
  refine ⟨⟨?_, ?_⟩, exists_entered [] (by cbv) (by decide +kernel),
    ("@main", ⟨"@main", [], [.label "%.L0", .const "%x.0" (.int 5), .copy "%y.1" "%x.0", .ret (some "%y.1")]⟩),
    ("@main", ⟨"@main", [], [.label "%.L0", .const "%x.0" (.int 5), .ret (some "%y.1")]⟩), by cbv, by cbv, ⟨6, by cbv⟩, ⟨6, by cbv⟩⟩
  · refine ⟨by decide +kernel, rfl, by decide, ⟨_, rfl, rfl⟩, by decide +kernel, by decide +kernel, by decide +kernel, ?_⟩
    rintro i hi d name k rfl
    simp [returned] at hi
  · rintro i hi d name k rfl
    simp [returned] at hi

end Bx.Flow
