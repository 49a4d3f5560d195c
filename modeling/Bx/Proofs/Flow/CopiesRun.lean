import Bx.Proofs.Flow.Copies

namespace Bx.Flow

open List hiding after
open Tac Run Run.Checked

variable {b : Block} {x d : String} {wait : Frame → Frame → Prop}

def Shared (f : String → String) (xs : List String) (t t' : Fields) : Prop :=
  ∀ x ∈ xs, ∃ v, t.lookup x = some v ∧ t'.lookup (f x) = some v ∧ Store.check v = .ok ()

def Supplied (f : String → String) (ls : List Line) (φ φ' : Frame) : Prop :=
  ∀ l ∈ ls, ∀ d sources, l.instr = .phi d sources → ∃ p x, φ.previous = some p ∧ φ'.previous = some p ∧ sources.lookup p = some x ∧
    isGlobalName x = false ∧ isGlobalName (f x) = false ∧ Shared f [x] φ.before φ'.before

theorem Shared.keep {f : String → String} {ls : List Line} {l : Line} {t t' : Fields} (hv : Shared f (assigned ls) t t')
    (hd : ∀ d, l.instr.dest = some d → isGlobalName d) : Shared f (assigned (ls ++ [l])) t t' := by
  have hnil : assigned [l] = [] := by
    rw [eq_nil_iff_forall_not_mem]
    intro x hx
    obtain ⟨⟨m, hm, hdx⟩, hg⟩ := mem_assigned.1 hx
    rw [hd x (mem_singleton.1 hm ▸ hdx)] at hg
    cases hg
  rwa [assigned_append, hnil, append_nil]

structure Propagation (globals : List String) (name : String) (params : List Datum) (f : String → String) (h h' : Graph)
    (bs bs' : List Block) : Prop where
  assigned : h.Assigned name params
  replaceable : h.Replaceable globals
  forwards : Forwards globals h f
  facing : Facing (fun b b' => Propagated f b.lines b'.lines) h h' bs bs'

/-- With so many lines of the first still to come. -/
inductive Abreast (f : String → String) (bs bs' : List Block) : Nat → Frame → Frame → Prop
  | inside {φ φ' b b' ls rest rest' m m' : _} (hb : b ∈ bs) (hb' : b' ∈ bs') (hd : Graph.destinations b' = Graph.destinations b)
      (hs : b.lines = ls ++ rest) (hne : rest ≠ []) (hp : Propagated f rest rest') (hcur : φ.current = b.label.text)
      (hcur' : φ'.current = b.label.text) (hv : Shared f (assigned ls) φ.temps φ'.temps) (hphis : Supplied f rest φ φ')
      (hc : φ.code = code rest ++ m) (hc' : φ'.code = code rest' ++ m') : Abreast f bs bs' rest.length φ φ'

namespace Propagation

variable {globals : List String} {name : String} {params : List Datum} {f : String → String} {h h' : Graph} {bs bs' : List Block}
  (S : Propagation globals name params f h h' bs bs')
include S

theorem formed (hb : b ∈ bs) : b.Formed := S.facing.layout.formed S.facing.formed hb

theorem line_mem (hb : b ∈ bs) {l : Line} (hl : l ∈ b.lines) : l ∈ h.lines :=
  mem_flatMap.2 ⟨_, S.facing.layout.mem b hb, hl⟩

theorem nonempty {b' : Block} (hb : b ∈ bs) (hp : Propagated f b.lines b'.lines) : b.lines ≠ [] ∧ b'.lines ≠ [] := by
  have hne := S.assigned.nonempty _ (S.facing.layout.mem b hb)
  have hform := S.formed hb
  obtain ⟨j, hj, -⟩ := hform.ends.resolve_left hne
  have hj' : j ∈ b.jumps := mem_of_getLast? hj
  have hdest := dest_of_isEnder (hform.jumps j hj')
  rcases hp.mem_or_drop (mem_append_right _ hj') with ⟨l', hl', -⟩ | ⟨d, x, hcopy, -⟩
  · exact ⟨hne, ne_nil_of_mem hl'⟩
  · rw [hcopy] at hdest
    cases hdest

section Line

variable {b : Block} (hb : b ∈ bs) {ls ms : List Line} {l : Line} (hs : b.lines = ls ++ l :: ms) {t t' : Fields}
  (hv : Shared f (Flow.assigned ls) t t')
include hb hs hv

theorem get_eq (hphi : l.instr.isPhi = false) (hx : x ∈ l.instr.reads) (globals : Fields) :
    Store.get ⟨t, globals⟩ x = Store.get ⟨t', globals⟩ (f x) := by
  rcases S.assigned.reads _ (S.facing.layout.mem b hb) ls l ms hs hphi x hx with hg | hmem
  · rw [S.forwards.apply_global S.replaceable hg, Store.get, Store.get, hg]
    rfl
  · have hg : isGlobalName x = false := (mem_assigned.1 hmem).2
    have hg' : isGlobalName (f x) = false :=
      (mem_assigned.1 (S.forwards.apply_mem (S.facing.layout.mem b hb) hs hmem)).2
    obtain ⟨v, hv, hv', -⟩ := hv x hmem
    simp [Store.get, hg, hg', Store.find, hv, hv']

theorem shared_store (hd : l.instr.dest = some d) (hg : isGlobalName d = false) (hf : f d = d) {u : Datum}
    (hu : Store.check u = .ok ()) : Shared f (Flow.assigned (ls ++ [l])) (Datum.put d u t) (Datum.put d u t') := by
  obtain ⟨hnew, -⟩ := S.assigned.notMem_before (S.facing.layout.mem b hb) hs hd hg
  rw [assigned_append, assigned_cons_of_dest hd hg]
  intro x hx
  rcases mem_append.1 hx with hx | hx
  · obtain ⟨v, hv, hv', hc⟩ := hv x hx
    have hfx := S.forwards.apply_mem (S.facing.layout.mem b hb) hs hx
    exact ⟨v, by rw [lookup_put_ne (ne_of_mem_of_not_mem hx hnew), hv], by rw [lookup_put_ne (ne_of_mem_of_not_mem hfx hnew), hv'], hc⟩
  · obtain rfl : x = d := by simpa using hx
    exact ⟨u, lookup_put_self _ _ _, by rw [hf, lookup_put_self], hu⟩

theorem shared_copy (hl : l.instr = .copy d x) (hg : isGlobalName d = false ∧ isGlobalName x = false) (hf : f d = f x) :
    ∃ v, t.lookup x = some v ∧ Store.check v = .ok () ∧ Shared f (Flow.assigned (ls ++ [l])) (Datum.put d v t) t' := by
  have hd : l.instr.dest = some d := by rw [hl]; rfl
  have hx : x ∈ Flow.assigned ls := (S.assigned.reads _ (S.facing.layout.mem b hb) ls l ms hs (by rw [hl]; rfl) x
    (by rw [hl]; simp [Instr.reads])).resolve_left (by simp [hg.2])
  obtain ⟨hnew, -⟩ := S.assigned.notMem_before (S.facing.layout.mem b hb) hs hd hg.1
  obtain ⟨v, hv₁, hv₂, hc⟩ := hv x hx
  refine ⟨v, hv₁, hc, ?_⟩
  rw [assigned_append, assigned_cons_of_dest hd hg.1]
  intro y hy
  rcases mem_append.1 hy with hy | hy
  · obtain ⟨u, hu, hu', hcu⟩ := hv y hy
    exact ⟨u, by rw [lookup_put_ne (ne_of_mem_of_not_mem hy hnew), hu], hu', hcu⟩
  · obtain rfl : y = d := by simpa using hy
    exact ⟨v, lookup_put_self _ _ _, by rw [hf, hv₂], hc⟩

end Line

section Step

variable {b b' : Block} (hb : b ∈ bs) (hb' : b' ∈ bs') (hd : Graph.destinations b' = Graph.destinations b) {ls ms ms' : List Line}
  {l : Line} (hs : b.lines = ls ++ l :: ms) (hp : Propagated f ms ms')
include hb hb' hd hs hp

theorem abreast_next (hl : isFinal l.instr = false) {φ φ' : Frame} {m m' : List Instr} (hcur : φ.current = b.label.text)
    (hcur' : φ'.current = b.label.text) (hv : Shared f (Flow.assigned (ls ++ [l])) φ.temps φ'.temps) (hphis : Supplied f (l :: ms) φ φ')
    (hc : φ.code = code ms ++ m) (hc' : φ'.code = code ms' ++ m') : Abreast f bs bs' ms.length φ φ' := by
  have hsuf : l.instr :: code ms <:+ code b.lines := ⟨code ls, by rw [hs, code_append]; rfl⟩
  have hne : ms ≠ [] := fun hnil => (S.formed hb).tail_ne_nil hsuf hl (by rw [hnil]; rfl)
  exact .inside hb hb' hd (by rw [hs, append_assoc]; rfl) hne hp hcur hcur' hv
    (fun m hm => hphis m (mem_cons_of_mem l hm)) hc hc'

variable {o : Options} (ho : o.showInstrs = false) {φ φ' : Frame} (hf : φ.Runs (bs.flatMap Block.instrs))
  (hf' : φ'.Runs (bs'.flatMap Block.instrs)) (ht : Twins φ φ') (hcur : φ.current = b.label.text) (hcur' : φ'.current = b.label.text)
  (hv : Shared f (Flow.assigned ls) φ.temps φ'.temps) (hphis : Supplied f (l :: ms) φ φ') {m m' : List Instr}
  (hc : φ.code = l.instr :: (code ms ++ m))
include ho hf hf' ht hcur hcur' hv hphis hc

omit hf hf' ht hb' hd hp hphis hcur hcur' in
theorem advance_copy (hl : l.instr = .copy d x) (hg : isGlobalName d = false ∧ isGlobalName x = false) (hfd : f d = f x) :
    ∃ t, (∀ w, result (advance o φ) w = (.ok (.go { φ with pc := φ.pc + 1, temps := t }), w)) ∧
      Shared f (Flow.assigned (ls ++ [l])) t φ'.temps := by
  obtain ⟨v, hx, hcheck, hshared⟩ := S.shared_copy hb hs hv hl hg hfd
  refine ⟨Datum.put d v φ.temps, fun w => ?_, hshared⟩
  have hvar : isVarName d := by
    have htarget := S.assigned.targets l (S.line_mem hb (hs ▸ by simp)) d (by rw [hl]; rfl)
    simp [isVarName, htarget.resolve_right (by simp [hg.1])]
  rw [advance_of_cons ho hc, hl]
  simp [exec, Store.get, hg.2, Store.find, hx, result_assign, hvar, hg.1, hcheck]

theorem advance_plain (hplain : l.instr.isPlain) (hfix : ∀ d ∈ l.instr.dest, f d = d)
    (hc' : φ'.code = renameOperands f l.instr :: (code ms' ++ m')) (w : World) :
    Agrees (Effect.Matches (Joined (bs.flatMap Block.instrs) (bs'.flatMap Block.instrs) fun φ φ' => ∃ n, Abreast f bs bs' n φ φ')
      (Waits (bs.flatMap Block.instrs) (bs'.flatMap Block.instrs) fun φ φ' => ∃ n, Abreast f bs bs' n φ φ'))
      (result (advance o φ) w) (result (advance o φ') w) := by
  have hmem := S.line_mem hb (show l ∈ b.lines from hs ▸ by simp)
  have hfin := isFinal_of_isPlain hplain
  have hphi : l.instr.isPhi = false := by
    cases hi : l.instr <;> simp_all [Instr.isPlain, Instr.isPhi]
  have hi : renameOperands f l.instr = (l.instr.renameReads f).renameDest fun x => x := by
    rw [renameDest_id]
    cases hi : l.instr <;> simp_all [Instr.isPlain, renameOperands]
  rw [hi] at hc'
  refine Checked.advance_plain ho hf hf' ht hplain .id hc hc' (fun x hx => S.get_eq hb hs hv hphi hx w.globals) ?_
  rintro _ _ (hstay | ⟨hdest, hg, hu⟩)
  · exact ⟨_, S.abreast_next hb hb' hd hs hp hfin hcur hcur' (hv.keep (hstay.global (S.assigned.prints l hmem))) hphis
      (Frame.code_succ hc) (Frame.code_succ hc')⟩
  · exact ⟨_, S.abreast_next hb hb' hd hs hp hfin hcur hcur' (S.shared_store hb hs hv hdest hg (hfix _ hdest) hu) hphis
      (Frame.code_succ hc) (Frame.code_succ hc')⟩

theorem advance_phi {sources : List (String × String)} (hl : l.instr = .phi d sources) (hfix : f d = d)
    (hc' : φ'.code = renameOperands f l.instr :: (code ms' ++ m')) (w : World) :
    Agrees (Effect.Matches (Joined (bs.flatMap Block.instrs) (bs'.flatMap Block.instrs) fun φ φ' => ∃ n, Abreast f bs bs' n φ φ')
      wait) (result (advance o φ) w) (result (advance o φ') w) := by
  have hmem := S.line_mem hb (show l ∈ b.lines from hs ▸ by simp)
  obtain ⟨p, x, hprev, hprev', hx, hgx, hgfx, hshared⟩ := hphis l mem_cons_self d sources hl
  obtain ⟨v, hbefore, hbefore', hcheck⟩ := hshared x mem_cons_self
  obtain ⟨_, _, hphi, hpercent⟩ := S.assigned.phis l hmem (by rw [hl]; rfl)
  cases hl.symm.trans hphi
  have hvar : isVarName d := by simp [isVarName, hpercent]
  have hglob := isGlobalName_of_percent hpercent
  have hx' : (sources.map fun s => (s.1, f s.2)).lookup p = some (f x) := by rw [lookup_map, hx]; rfl
  rw [advance_of_cons ho hc, advance_of_cons ho hc', hl, renameOperands]
  rw [result_exec_phi (f := { φ with pc := φ.pc + 1 }) hprev hx hgx hbefore hcheck hvar hglob w,
    result_exec_phi (f := { φ' with pc := φ'.pc + 1 }) hprev' hx' hgfx hbefore' hcheck hvar hglob w]
  have hdest : l.instr.dest = some d := by rw [hl]; rfl
  have hn : Abreast f bs bs' ms.length { φ with pc := φ.pc + 1, temps := Datum.put d v φ.temps }
      { φ' with pc := φ'.pc + 1, temps := Datum.put d v φ'.temps } :=
    S.abreast_next hb hb' hd hs hp (isFinal_of_dest hdest) hcur hcur' (S.shared_store hb hs hv hdest hglob hfix hcheck) hphis
      (Frame.code_succ hc) (Frame.code_succ hc')
  exact .ok (.go ⟨⟨hf.body, hf.labels⟩, ⟨hf'.body, hf'.labels⟩, ⟨ht.title, ht.depth, ht.params⟩, _, hn⟩)

omit ho hf hf' ht hphis hc hp in
theorem jump {y : String} (hy : l.instr.target? = some y) :
    (after (bs.flatMap Block.instrs) y = none ∧ after (bs'.flatMap Block.instrs) y = none) ∨
      ∃ d d', after (bs.flatMap Block.instrs) y = some d ∧ after (bs'.flatMap Block.instrs) y = some d' ∧
        ∀ j j', (goTo φ y j).code = d → (goTo φ' y j').code = d' → ∃ n, Abreast f bs bs' n (goTo φ y j) (goTo φ' y j') := by
  have hform := S.formed hb
  have hmem : l ∈ b.lines := hs ▸ by simp
  have hl : l ∈ b.jumps := hform.mem_jumps hmem (by simp [hy])
  have hsuf := hform.suffix_jumps (show l :: ms <:+ b.lines from ⟨ls, hs.symm⟩) (hform.jumps l hl)
  rcases S.facing.jump hb hb' hd hl hy with hnone | ⟨c, hc, c', hc', hcy, -, hdest, hdc, hprop, hm, hm'⟩
  · exact .inl hnone
  obtain ⟨hne, hne'⟩ := S.nonempty hc hprop
  obtain ⟨m, hm⟩ := hm hne
  obtain ⟨m', hm'⟩ := hm' hne'
  refine .inr ⟨_, _, hm, hm', fun _ _ hcode hcode' => ⟨c.lines.length, ?_⟩⟩
  refine .inside hc hc' hdc (show c.lines = [] ++ c.lines from rfl) hne hprop (by rw [hcy]; rfl) (by rw [hcy]; rfl) (by simp [Shared]) ?_ hcode hcode'
  intro q hq d sources hphi
  obtain ⟨x, hx, hlook⟩ := S.assigned.along _ (S.facing.layout.mem c hc) q hq d sources hphi _ (S.facing.layout.mem b hb) (hcy ▸ hdest)
  -- From the jump to the end of its block nothing is assigned any more.
  have hx' : x ∈ Flow.assigned ls := by
    have hnil : Flow.assigned (l :: ms) = [] := assigned_eq_nil fun j hj => dest_of_isEnder (hform.jumps j (hsuf.subset hj))
    rwa [hs, assigned_append, hnil, append_nil] at hx
  have hfx := S.forwards.apply_mem (S.facing.layout.mem b hb) hs hx'
  refine ⟨b.label.text, x, by rw [← hcur]; rfl, by rw [← hcur']; rfl, hlook, (mem_assigned.1 hx').2, (mem_assigned.1 hfx).2, ?_⟩
  intro z hz
  rw [mem_singleton.1 hz]
  exact hv x hx'

theorem advance_ender (hplain : l.instr.isPlain = false) (hphi : l.instr.isPhi = false)
    (hc' : φ'.code = renameOperands f l.instr :: (code ms' ++ m')) (w : World) :
    Agrees (Effect.Matches (Joined (bs.flatMap Block.instrs) (bs'.flatMap Block.instrs) fun φ φ' => ∃ n, Abreast f bs bs' n φ φ')
      wait) (result (advance o φ) w) (result (advance o φ') w) := by
  have hmem : l ∈ b.lines := hs ▸ by simp
  have hender := ender_of_isPlain hplain ((S.formed hb).isLabel_eq hmem) hphi
  have hi : renameOperands f l.instr = l.instr.renameReads f := by
    cases hi : l.instr <;> simp_all [Instr.isPhi, renameOperands]
  rw [hi] at hc'
  refine Checked.advance_ender ho hf hf' ht hender hc hc' (fun x hx => S.get_eq hb hs hv hphi hx w.globals)
    (fun y hy => S.jump hb hb' hd hs hcur hcur' hv hy) ?_
  rintro ⟨t, x, y, hi⟩
  exact ⟨_, S.abreast_next hb hb' hd hs hp (by rw [hi]; rfl) hcur hcur' (hv.keep (by simp [hi, Instr.dest])) hphis
    (Frame.code_succ hc) (Frame.code_succ hc')⟩

end Step

theorem inStep {o : Options} (ho : o.showInstrs = false) :
    InStep o (bs.flatMap Block.instrs) (bs'.flatMap Block.instrs) (Abreast f bs bs') := by
  rintro n φ φ' ⟨hf, hf', ht, ⟨hb, hb', hd, hs, hne, hp, hcur, hcur', hv, hphis, hc, hc'⟩⟩
  cases hp with
  | nil => exact absurd rfl hne
  | @drop l ms ms' d x hl hg hfd hp =>
    obtain ⟨t, hstep, hshared⟩ := S.advance_copy hb hs ho hv hc hl hg hfd
    refine .inl ⟨_, ms.length, Nat.lt_succ_self _, hstep, ⟨hf.body, hf.labels⟩, hf', ⟨ht.title, ht.depth, ht.params⟩, ?_⟩
    exact S.abreast_next hb hb' hd hs hp (by rw [hl]; rfl) hcur hcur' hshared hphis (Frame.code_succ hc) hc'
  | @keep l l' ms ms' hl hfix hp =>
    replace hc' : φ'.code = l'.instr :: (code ms' ++ _) := hc'
    rw [hl] at hc'
    refine .inr (.inr fun w => ?_)
    cases hplain : l.instr.isPlain with
    | true => exact S.advance_plain hb hb' hd hs hp ho hf hf' ht hcur hcur' hv hphis hc hplain hfix hc' w
    | false =>
      cases hi : l.instr.isPhi with
      | true =>
        obtain ⟨d, sources, hphi, -⟩ := S.assigned.phis l (S.line_mem hb (hs ▸ mem_append_right _ mem_cons_self)) hi
        exact S.advance_phi hb hb' hd hs hp ho hf hf' ht hcur hcur' hv hphis hc hphi (hfix d (by rw [hphi]; rfl)) hc' w
      | false => exact S.advance_ender hb hb' hd hs hp ho hf hf' ht hcur hcur' hv hphis hc hplain hi hc' w

end Propagation

section Program

variable {globals : List String} {name : String} {params : List Datum} {f : String → String} {h h' : Graph} {bs bs' : List Block}
  {o : Options}

theorem Propagation.opening (S : Propagation globals name params f h h' bs bs') {φ φ' : Frame}
    (hφ : Started name params (bs.flatMap Block.instrs) φ) (hφ' : Started name params (bs'.flatMap Block.instrs) φ')
    (hs : φ.temps = φ'.temps) : ∃ n, FromLabel (Abreast f bs bs') n φ φ' := by
  obtain ⟨b, b', cs, cs', rfl, rfl, hentry, hlabel, hd, hprop⟩ := S.facing.entry
  obtain ⟨hne, -⟩ := S.nonempty mem_cons_self hprop
  have hc : φ.code = .label b.label.text :: (code b.lines ++ cs.flatMap Block.instrs) := hφ.code
  have hc' : φ'.code = .label b.label.text :: (code b'.lines ++ cs'.flatMap Block.instrs) := by
    rw [hφ'.code, flatMap_cons, Block.instrs, hlabel]
    rfl
  refine ⟨0, .inr ⟨b.label.text, _, _, b.lines.length, hc, hc', ?_⟩⟩
  refine .inside mem_cons_self mem_cons_self hd (show b.lines = [] ++ b.lines from rfl) hne hprop rfl rfl (by simp [Shared])
    ?_ (Frame.code_succ hc) (Frame.code_succ hc')
  intro l hl d sources hphi
  obtain ⟨x, hx, hparam, hpercent, hdot⟩ := S.assigned.start _ (S.facing.layout.mem b mem_cons_self) hentry l hl d sources hphi
  have hg := isGlobalName_of_percent hpercent
  have hfx : f x = x := by
    by_contra hne
    obtain ⟨m, hm, y, hcopy⟩ := S.forwards.moved x hne
    refine hdot (S.assigned.dotted x (mem_assigned.2 ⟨⟨m, hm, ?_⟩, hg⟩))
    rw [(copyOf?_eq_some.1 hcopy).1]
    rfl
  obtain ⟨u, hu, hcheck⟩ := hφ.bound x hparam hg
  refine ⟨name, x, by rw [hφ.current], by rw [hφ'.current], hx, hg, by rw [hfx, hg], ?_⟩
  intro z hz
  rw [mem_singleton.1 hz, hφ.before, hφ'.before, ← hs, hfx]
  exact ⟨u, hu, hu, hcheck⟩

def PropagatedProc (name : String) (p p' : Proc Instr) : Prop :=
  ∃ globals f h h' bs bs', Propagation globals name p.params f h h' bs bs' ∧ p.params = p'.params ∧
    p.body = bs.flatMap Block.instrs ∧ p'.body = bs'.flatMap Block.instrs

theorem PropagatedProc.stepwise (ho : o.showInstrs = false) {name : String} {p p' : Proc Instr} (h : PropagatedProc name p p') :
    Stepwise o name p p' := by
  obtain ⟨globals, f, h, h', bs, bs', S, hparams, hb, hb'⟩ := h
  refine ⟨hparams, hb ▸ S.facing.layout.labels_nodup S.facing.formed,
    hb' ▸ S.facing.layout'.labels_nodup S.facing.formed', FromLabel (Abreast f bs bs'), ?_, fun φ φ' hφ hφ' _ hs => ?_⟩
  · rw [hb, hb']
    exact (S.inStep ho).fromLabel ho
  · rw [hb] at hφ
    rw [hb'] at hφ'
    exact S.opening hφ hφ' hs

end Program

end Bx.Flow
