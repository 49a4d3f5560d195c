import Bx.Proofs.Run.Code

namespace Bx.Tac.Run.Checked

variable {o : Options} {b b' c c' : List Instr} {P Q : Frame → Frame → Prop} {m n : String → String} {f f' : Frame} {w : World}
variable {i : Instr} {l l' : String} {wait : Frame → Frame → Prop}

theorem renameReads_id (i : Instr) : i.renameReads (fun x => x) = i := by
  cases i <;> simp [Instr.renameReads]

theorem renameDest_id (i : Instr) : i.renameDest (fun x => x) = i := by
  cases i <;> simp [Instr.renameDest]

theorem dest_renameReads (m : String → String) (i : Instr) : (i.renameReads m).dest = i.dest := by
  cases i <;> rfl

theorem dest_renameDest (n : String → String) (i : Instr) : (i.renameDest n).dest = i.dest.map n := by
  cases i <;> rfl

structure Joined (b b' : List Instr) (P : Frame → Frame → Prop) (f f' : Frame) : Prop where
  runs : f.Runs b
  runs' : f'.Runs b'
  twins : Twins f f'
  place : P f f'

structure Waits (b b' : List Instr) (P : Frame → Frame → Prop) (f f' : Frame) : Prop where
  runs : f.Runs b
  runs' : f'.Runs b'
  twins : Twins f f'
  back : ∃ n, (∀ d, KeepsKind n d) ∧ f'.caller = f.caller.map n ∧ ∀ g g', Resumed n f f' g g' → P g g'

theorem Joined.mono (h : Joined b b' P f f') (hPQ : ∀ f f', P f f' → Q f f') : Joined b b' Q f f' :=
  ⟨h.runs, h.runs', h.twins, hPQ _ _ h.place⟩

theorem Waits.mono (h : Waits b b' P f f') (hPQ : ∀ f f', P f f' → Q f f') : Waits b b' Q f f' :=
  have ⟨n, hn, hcaller, hback⟩ := h.back
  ⟨h.runs, h.runs', h.twins, n, hn, hcaller, fun g g' hg => hPQ g g' (hback g g' hg)⟩

theorem Waits.resume (h : Waits b b' P f f') (v : Datum) (w : World) :
    Agrees (Joined b b' P) (result (resume f v) w) (result (resume f' v) w) := by
  obtain ⟨n, hn, hcaller, hback⟩ := h.back
  refine (resume_resumed hcaller (fun d _ => hn d) v w).mono fun g g' hg => ?_
  have hplace := hback g g' hg
  cases hg <;>
    exact ⟨⟨h.runs.body, h.runs.labels⟩, ⟨h.runs'.body, h.runs'.labels⟩, ⟨h.twins.title, h.twins.depth, rfl⟩, hplace⟩

def Unstored (i : Instr) : Prop :=
  (∀ d, i.dest = some d → isGlobalName d = true) ∨ ∃ d name k, i = .call d name k ∧ isPrint name = true

theorem Unstored.global (h : Unstored i) (hi : ∀ d name k, i = .call d name k → isPrint name → d = none) :
    ∀ d, i.dest = some d → isGlobalName d := by
  rcases h with h | ⟨d, name, k, rfl, hp⟩
  · exact h
  · obtain rfl := hi d name k rfl hp
    nofun

inductive Behind (n : String → String) (i : Instr) (f f' : Frame) : Frame → Frame → Prop
  | stay {ps ps'} (h : Unstored i) :
      Behind n i f f' { f with pc := f.pc + 1, params := ps } { f' with pc := f'.pc + 1, params := ps' }
  | store {d u ps ps'} (hd : i.dest = some d) (hg : isGlobalName d = false) (hu : Store.check u = .ok ()) :
      Behind n i f f' { f with pc := f.pc + 1, params := ps, temps := Datum.put d u f.temps }
        { f' with pc := f'.pc + 1, params := ps', temps := Datum.put (n d) u f'.temps }

section Step

variable (ho : o.showInstrs = false) (hf : f.Runs b) (hf' : f'.Runs b') (ht : Twins f f')
include ho hf hf' ht

theorem advance_plain (hi : i.isPlain) (hn : ∀ d, KeepsKind n d) (hc : f.code = i :: c)
    (hc' : f'.code = (i.renameReads m).renameDest n :: c')
    (hread : ∀ x ∈ i.reads, Store.get ⟨f.temps, w.globals⟩ x = Store.get ⟨f'.temps, w.globals⟩ (m x))
    (next : ∀ g g', Behind n i f f' g g' → P g g') :
    Agrees (Effect.Matches (Joined b b' P) (Waits b b' P)) (result (advance o f) w) (result (advance o f') w) := by
  have ht₁ : Twins { f with pc := f.pc + 1 } { f' with pc := f'.pc + 1 } := ⟨ht.title, ht.depth, ht.params⟩
  rw [advance_of_cons ho hc, advance_of_cons ho hc']
  refine (exec_alike hi ht₁ hread fun d _ => hn d).mono ?_
  -- Nothing is stored, or a global or a temporary is, or only the pending arguments change, or a call goes out.
  rintro _ _ (hnone | ⟨hdest, hglob | ⟨hg, hu⟩⟩ | hnone | hcall)
  · exact .go ⟨⟨hf.body, hf.labels⟩, ⟨hf'.body, hf'.labels⟩, ht₁, next _ _ (.stay (.inl (by simp [hnone])))⟩
  · exact .go ⟨⟨hf.body, hf.labels⟩, ⟨hf'.body, hf'.labels⟩, ht₁, next _ _ (.stay (.inl (by simp [hdest, hglob])))⟩
  · exact .go ⟨⟨hf.body, hf.labels⟩, ⟨hf'.body, hf'.labels⟩, ⟨ht.title, ht.depth, ht.params⟩, next _ _ (.store hdest hg hu)⟩
  · exact .go ⟨⟨hf.body, hf.labels⟩, ⟨hf'.body, hf'.labels⟩, ⟨ht.title, ht.depth, rfl⟩,
      next _ _ (.stay (hnone.imp_left fun h => by simp [h]))⟩
  · have hcaller := Frame.caller_succ hc
    refine .call ⟨⟨hf.body, hf.labels⟩, ⟨hf'.body, hf'.labels⟩, ht₁, n, hn, ?_, fun g g' hg => next g g' ?_⟩
    · rw [hcaller, Frame.caller_succ hc', dest_renameDest, dest_renameReads]
    · cases hg with
      | keep hd => exact .stay (.inl (hcaller ▸ hd))
      | write hd hg hu => exact .store (hcaller.symm.trans hd) hg hu

theorem advance_same (hs : f.temps = f'.temps)
    (hi : i.isPlain ∨ i.isPhi ∧ f.previous = f'.previous ∧ f.before = f'.before) (hc : f.code = i :: c)
    (hc' : f'.code = i :: c')
    (next : ∀ t t' ps ps', t = t' →
      P { f with pc := f.pc + 1, params := ps, temps := t } { f' with pc := f'.pc + 1, params := ps', temps := t' }) :
    Agrees (Effect.Matches (Joined b b' P) (Waits b b' P)) (result (advance o f) w) (result (advance o f') w) := by
  have hput : ∀ d v, Datum.put d v f.temps = Datum.put d v f'.temps := fun d v => by rw [hs]
  rcases hi with hi | ⟨hi, hprev, hbefore⟩
  · have hi' : f'.code = (i.renameReads fun x => x).renameDest (fun x => x) :: c' := by
      rw [renameReads_id, renameDest_id, hc']
    refine advance_plain ho hf hf' ht hi .id hc hi' (fun x _ => by simp only [hs]) ?_
    rintro _ _ (_ | _)
    · exact next _ _ _ _ hs
    · exact next _ _ _ _ (hput _ _)
  · rw [advance_of_cons ho hc, advance_of_cons ho hc']
    cases i with
    | phi d sources =>
      simp only [exec, hprev, hbefore] at next ⊢
      cases f'.previous.bind fun l => sources.lookup l with
      | none => exact .error
      | some x =>
        simp only [result_bind]
        refine Agrees.same.andThen ?_
        rintro v _ w rfl
        refine (assign_stored (.id d) _ _ v w).andThen ?_
        rintro _ _ w (_ | _)
        · exact .ok (.go ⟨⟨hf.body, hf.labels⟩, ⟨hf'.body, hf'.labels⟩, ⟨ht.title, ht.depth, ht.params⟩, next _ _ _ _ hs⟩)
        · exact .ok (.go ⟨⟨hf.body, hf.labels⟩, ⟨hf'.body, hf'.labels⟩, ⟨ht.title, ht.depth, ht.params⟩,
            next _ _ _ _ (hput _ _)⟩)
    | frozenPhi d sources => exact .error
    | _ => cases hi

theorem advance_jmp {d d' : List Instr} (hc : f.code = .jmp l :: c) (hc' : f'.code = .jmp l' :: c') (hd : after b l = some d)
    (hd' : after b' l' = some d')
    (next : ∀ k k', (goTo f l k).code = d → (goTo f' l' k').code = d' → P (goTo f l k) (goTo f' l' k')) :
    Agrees (Effect.Matches (Joined b b' P) wait) (result (advance o f) w) (result (advance o f') w) := by
  obtain ⟨k, hk, hkd⟩ := hf.succ.goTo hd
  obtain ⟨k', hk', hkd'⟩ := hf'.succ.goTo hd'
  rw [advance_of_cons ho hc, advance_of_cons ho hc', result_exec_jmp hk, result_exec_jmp hk']
  exact .ok (.go ⟨⟨hf.body, hf.labels⟩, ⟨hf'.body, hf'.labels⟩, ⟨ht.title, ht.depth, ht.params⟩, next k k' hkd hkd'⟩)

theorem advance_jcc {t : Word.Cond} {x x' : String} {d d' : List Instr} (hc : f.code = .jcc t x l :: c)
    (hc' : f'.code = .jcc t x' l' :: c') (hread : Store.get ⟨f.temps, w.globals⟩ x = Store.get ⟨f'.temps, w.globals⟩ x')
    (hd : after b l = some d) (hd' : after b' l' = some d')
    (taken : ∀ k k', (goTo f l k).code = d → (goTo f' l' k').code = d' → P (goTo f l k) (goTo f' l' k'))
    (passed : P { f with pc := f.pc + 1 } { f' with pc := f'.pc + 1 }) :
    Agrees (Effect.Matches (Joined b b' P) wait) (result (advance o f) w) (result (advance o f') w) := by
  rw [advance_of_cons ho hc, advance_of_cons ho hc']
  refine (exec_jcc_agrees (by exact hread) hf.succ hf'.succ hd hd').mono ?_
  rintro _ _ (⟨hk, hk'⟩ | _)
  · exact .go ⟨⟨hf.body, hf.labels⟩, ⟨hf'.body, hf'.labels⟩, ⟨ht.title, ht.depth, ht.params⟩, taken _ _ hk hk'⟩
  · exact .go ⟨hf.succ, hf'.succ, ⟨ht.title, ht.depth, ht.params⟩, passed⟩

omit ho hf hf' ht in
theorem ender_of_isPlain (hp : i.isPlain = false) (hl : i.isLabel = false) (hi : i.isPhi = false) :
    i.target?.isSome ∨ ∃ x, i = .ret x := by
  cases i <;> simp_all [Instr.isPlain, Instr.isLabel, Instr.isPhi, Instr.target?]

theorem advance_ender (hi : i.target?.isSome ∨ ∃ x, i = .ret x) (hc : f.code = i :: c)
    (hc' : f'.code = i.renameReads m :: c')
    (hread : ∀ x ∈ i.reads, Store.get ⟨f.temps, w.globals⟩ x = Store.get ⟨f'.temps, w.globals⟩ (m x))
    (jump : ∀ l, i.target? = some l → (after b l = none ∧ after b' l = none) ∨
      ∃ d d', after b l = some d ∧ after b' l = some d' ∧
        ∀ k k', (goTo f l k).code = d → (goTo f' l k').code = d' → P (goTo f l k) (goTo f' l k'))
    (passed : (∃ t x l, i = .jcc t x l) → P { f with pc := f.pc + 1 } { f' with pc := f'.pc + 1 }) :
    Agrees (Effect.Matches (Joined b b' P) wait) (result (advance o f) w) (result (advance o f') w) := by
  rcases hi with hi | ⟨x, rfl⟩
  · obtain ⟨l, hl⟩ := Option.isSome_iff_exists.1 hi
    rcases jump l hl with ⟨hd, hd'⟩ | ⟨d, d', hd, hd', hP⟩
    · rw [advance_of_cons ho hc, advance_of_cons ho hc']
      exact exec_unknown_agrees hl hf.succ hf'.succ hd hd' hread
    · cases i with
      | jmp y =>
        cases hl
        exact advance_jmp ho hf hf' ht hc hc' hd hd' hP
      | jcc t x y =>
        cases hl
        exact advance_jcc ho hf hf' ht hc hc' (hread x (by simp [Instr.reads])) hd hd' hP (passed ⟨t, x, l, rfl⟩)
      | _ => cases hl
  · rw [advance_of_cons ho hc, advance_of_cons ho hc']
    refine exec_ret_agrees (m := m) rfl ⟨ht.title, ht.depth, ht.params⟩ fun y hy => hread y ?_
    rw [Option.mem_def.1 hy]
    simp [Instr.reads]

theorem advance_label (hc : f.code = .label l :: c) (hc' : f'.code = .label l' :: c')
    (next : P { f with pc := f.pc + 1, previous := some f.current, current := l }
      { f' with pc := f'.pc + 1, previous := some f'.current, current := l' }) :
    Agrees (Effect.Matches (Joined b b' P) wait) (result (advance o f) w) (result (advance o f') w) := by
  rw [advance_of_cons ho hc, advance_of_cons ho hc', result_exec_label, result_exec_label]
  exact .ok (.go ⟨⟨hf.body, hf.labels⟩, ⟨hf'.body, hf'.labels⟩, ⟨ht.title, ht.depth, ht.params⟩, next⟩)

end Step

def InStep (o : Options) (b b' : List Instr) (P : Nat → Frame → Frame → Prop) : Prop :=
  ∀ n f f', Joined b b' (P n) f f' →
    (∃ g, ∃ k < n, (∀ w, result (advance o f) w = (.ok (.go g), w)) ∧ Joined b b' (P k) g f') ∨
    (∃ g', ∃ k < n, (∀ w, result (advance o f') w = (.ok (.go g'), w)) ∧ Joined b b' (P k) f g') ∨
    ∀ w, Agrees (Effect.Matches (Joined b b' fun f f' => ∃ n, P n f f') (Waits b b' fun f f' => ∃ n, P n f f'))
      (result (advance o f) w) (result (advance o f') w)

def FromLabel (P : Nat → Frame → Frame → Prop) (n : Nat) (f f' : Frame) : Prop :=
  P n f f' ∨ ∃ l c c' k, f.code = .label l :: c ∧ f'.code = .label l :: c' ∧
    P k { f with pc := f.pc + 1, previous := some f.current, current := l }
      { f' with pc := f'.pc + 1, previous := some f'.current, current := l }

theorem InStep.fromLabel (ho : o.showInstrs = false) {P : Nat → Frame → Frame → Prop} (h : InStep o b b' P) :
    InStep o b b' (FromLabel P) := by
  rintro n f f' ⟨hf, hf', ht, hP | ⟨l, c, c', k, hc, hc', hP⟩⟩
  · have lift : ∀ f f', (∃ n, P n f f') → ∃ n, FromLabel P n f f' := fun _ _ ⟨n, hP⟩ => ⟨n, .inl hP⟩
    rcases h n f f' ⟨hf, hf', ht, hP⟩ with ⟨g, k, hk, hg, hj⟩ | ⟨g', k, hk, hg, hj⟩ | hboth
    · exact .inl ⟨g, k, hk, hg, hj.mono fun _ _ => .inl⟩
    · exact .inr (.inl ⟨g', k, hk, hg, hj.mono fun _ _ => .inl⟩)
    · exact .inr (.inr fun w => (hboth w).mono fun _ _ he => he.mono (fun _ _ hj => hj.mono lift) fun _ _ hw => hw.mono lift)
  · exact .inr (.inr fun w => advance_label ho hf hf' ht hc hc' ⟨k, .inl hP⟩)

structure Stepwise (o : Options) (name : String) (p p' : Proc Instr) : Prop where
  params : p.params = p'.params
  labels : (labelNames p.body).Nodup
  labels' : (labelNames p'.body).Nodup
  related : ∃ P, InStep o p.body p'.body P ∧ ∀ f f', Started name p.params p.body f → Started name p.params p'.body f' →
    Twins f f' → f.temps = f'.temps → ∃ n, P n f f'

theorem sameRuns_map {procs : List (String × Proc Instr)} {p q : String × Proc Instr → Proc Instr}
    (h : ∀ e ∈ procs, p e = q e ∨ Stepwise o e.1 (p e) (q e)) :
    SameRuns (semantics o (procs.map fun e => (e.1, p e))) (semantics o (procs.map fun e => (e.1, q e))) := by
  have hall : List.Forall₂ (fun e e' => e.1 = e'.1 ∧ (e.2 = e'.2 ∨ Stepwise o e.1 e.2 e'.2))
      (procs.map fun e => (e.1, p e)) (procs.map fun e => (e.1, q e)) := by
    rw [List.forall₂_map_left_iff, List.forall₂_map_right_iff, List.forall₂_same]
    exact fun e he => ⟨rfl, h e he⟩
  have hlook := lookup_forall₂ (R := fun name p p' => p = p' ∨ Stepwise o name p p') hall
  -- Frames keep the relation that was chosen for their procedure when they were entered.
  refine Bisimulation.sameRuns {
    rel := fun n f f' => f = f' ∨ ∃ b b' P, InStep o b b' P ∧ Joined b b' (P n) f f'
    wait := fun f f' => f = f' ∨ ∃ b b' P, InStep o b b' P ∧ Waits b b' (fun f f' => ∃ n, P n f f') f f'
    enter := ?_, resume := ?_, advance := ?_ }
  · intro name args depth w
    rcases hlook name with ⟨hp, hp'⟩ | ⟨p, p', hp, hp', rfl | ⟨hparams, hl, hl', P, hP, hstart⟩⟩
    · exact enter_same (hp.trans hp'.symm) (fun _ => ⟨0, .inl rfl⟩) args depth w
    · exact enter_same (hp.trans hp'.symm) (fun _ => ⟨0, .inl rfl⟩) args depth w
    · refine (enter_agrees hp hp' hparams hl hl' args depth w).mono ?_
      rintro f f' ⟨hf, hf', ht, hs⟩
      obtain ⟨n, hn⟩ := hstart f f' hf hf' ht hs
      exact ⟨n, .inr ⟨_, _, P, hP, hf.runs, hf'.runs, ht, hn⟩⟩
  · rintro f f' (rfl | ⟨b, b', P, hP, hwait⟩) v w
    · exact Agrees.same.mono fun _ _ hf => ⟨0, .inl hf⟩
    · refine (hwait.resume v w).mono ?_
      rintro g g' ⟨hg, hg', ht, n, hn⟩
      exact ⟨n, .inr ⟨b, b', P, hP, hg, hg', ht, hn⟩⟩
  · rintro n f f' (rfl | ⟨b, b', P, hP, hj⟩)
    · refine .inr (.inr fun w => Agrees.same.mono ?_)
      rintro e _ rfl
      exact .refl (fun _ => ⟨0, .inl rfl⟩) (fun _ => .inl rfl) e
    rcases hP n f f' hj with ⟨g, k, hk, hq, hj⟩ | ⟨g', k, hk, hq, hj⟩ | hboth
    · exact .inl ⟨g, k, hk, hq, .inr ⟨b, b', P, hP, hj⟩⟩
    · exact .inr (.inl ⟨g', k, hk, hq, .inr ⟨b, b', P, hP, hj⟩⟩)
    · refine .inr (.inr fun w => (hboth w).mono fun _ _ he => he.mono ?_ fun _ _ hw => .inr ⟨b, b', P, hP, hw⟩)
      rintro g g' ⟨hg, hg', ht, m, hm⟩
      exact ⟨m, .inr ⟨b, b', P, hP, hg, hg', ht, hm⟩⟩

end Bx.Tac.Run.Checked
