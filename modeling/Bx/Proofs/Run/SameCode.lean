import Bx.Proofs.Run.LockStep

namespace Bx.Tac.Run.Checked

variable {o : Options}

inductive Slides (b : List Instr) : List Instr → List Instr → Prop
  | label {l c} : Slides b (.label l :: c) c
  | nop {c} : Slides b (.nop :: c) c
  | jmp {l c d} (h : after b l = some d) : Slides b (.jmp l :: c) d

/-- Places of two bodies at which the same happens, with places in relation behind them. -/
inductive Pairs (b b' : List Instr) (R : List Instr → List Instr → Prop) : List Instr → List Instr → Prop
  | ended : Pairs b b' R [] []
  | label {l l' c c'} (h : R c c') : Pairs b b' R (.label l :: c) (.label l' :: c')
  | plain {i c c'} (hi : i.isPlain = true) (h : R c c') : Pairs b b' R (i :: c) (i :: c')
  | jmp {l l' c c' d d'} (hd : after b l = some d) (hd' : after b' l' = some d') (h : R d d') :
      Pairs b b' R (.jmp l :: c) (.jmp l' :: c')
  | jcc {t x l l' c c' d d'} (hd : after b l = some d) (hd' : after b' l' = some d') (h : R d d') (hc : R c c') :
      Pairs b b' R (.jcc t x l :: c) (.jcc t x l' :: c')
  | ret {x c c'} : Pairs b b' R (.ret x :: c) (.ret x :: c')

def Closed (b b' : List Instr) (R : Nat → List Instr → List Instr → Prop) : Prop :=
  ∀ n c c', R n c c' →
    (∃ d, ∃ k < n, Slides b c d ∧ R k d c') ∨ (∃ d', ∃ k < n, Slides b' c' d' ∧ R k c d') ∨
    Pairs b b' (fun c c' => ∃ n, R n c c') c c'

structure SameCode (b b' : List Instr) : Prop where
  labels : (labelNames b).Nodup
  labels' : (labelNames b').Nodup
  related : ∃ R, Closed b b' R ∧ ∃ n, R n b b'

def Paired (R : List Instr → List Instr → Prop) (f g : Frame) : Prop := f.temps = g.temps ∧ R f.code g.code

variable (ho : o.showInstrs = false)
include ho

theorem Slides.quiet {b d : List Instr} {f : Frame} (hf : f.Runs b) (h : Slides b f.code d) :
    ∃ f', (∀ w, result (advance o f) w = (.ok (.go f'), w)) ∧ f'.Runs b ∧ f'.code = d ∧ Twins f' f ∧ f'.temps = f.temps := by
  generalize hc : f.code = c at h
  cases h with
  | @label l c =>
    exact ⟨_, fun w => (advance_of_cons ho hc w).trans (result_exec_label _ l w), ⟨hf.body, hf.labels⟩,
      Frame.code_succ hc, ⟨rfl, rfl, rfl⟩, rfl⟩
  | nop =>
    exact ⟨_, fun w => advance_of_cons ho hc w, ⟨hf.body, hf.labels⟩, Frame.code_succ hc, ⟨rfl, rfl, rfl⟩, rfl⟩
  | jmp hd =>
    obtain ⟨k, hk, hkd⟩ := hf.succ.goTo hd
    exact ⟨_, fun w => (advance_of_cons ho hc w).trans (result_exec_jmp hk w), ⟨hf.body, hf.labels⟩, hkd,
      ⟨rfl, rfl, rfl⟩, rfl⟩

theorem Pairs.advance {b b' : List Instr} {R : List Instr → List Instr → Prop} {f g : Frame}
    (hf : f.Runs b) (hg : g.Runs b') (ht : Twins f g) (hs : f.temps = g.temps) (h : Pairs b b' R f.code g.code) (w : World) :
    Agrees (Effect.Matches (Joined b b' (Paired R)) (Waits b b' (Paired R))) (result (advance o f) w) (result (advance o g) w) := by
  generalize hc : f.code = c at h
  generalize hc' : g.code = c' at h
  have next : ∀ {i j c c'}, f.code = i :: c → g.code = j :: c' → R c c' →
      R ({ f with pc := f.pc + 1 } : Frame).code ({ g with pc := g.pc + 1 } : Frame).code := fun hc hc' h => by
    rwa [Frame.code_succ hc, Frame.code_succ hc']
  cases h with
  | ended =>
    rw [advance_of_nil hc, advance_of_nil hc', ht.title, ht.depth]
    exact .ok .ret
  | label h => exact advance_label ho hf hg ht hc hc' ⟨hs, next hc hc' h⟩
  | @plain i c c' hi h =>
    exact advance_same ho hf hg ht hs (.inl hi) hc hc' fun _ _ _ _ hs => ⟨hs, next hc hc' h⟩
  | jmp hd hd' h => exact advance_jmp ho hf hg ht hc hc' hd hd' fun k k' hk hk' => ⟨hs, by rwa [hk, hk']⟩
  | jcc hd hd' h hcc =>
    exact advance_jcc ho hf hg ht hc hc' (by simp only [hs]) hd hd' (fun k k' hk hk' => ⟨hs, by rwa [hk, hk']⟩)
      ⟨hs, next hc hc' hcc⟩
  | ret =>
    rw [advance_of_cons ho hc, advance_of_cons ho hc']
    exact exec_ret_agrees (m := fun x => x) (by simp) ⟨ht.title, ht.depth, ht.params⟩ fun y _ => by simp only [hs]

theorem Closed.inStep {b b' : List Instr} {R : Nat → List Instr → List Instr → Prop}
    (hR : Closed b b' R) : InStep o b b' fun n => Paired (R n) := by
  rintro n f g ⟨hf, hg, ht, hs, hn⟩
  rcases hR n _ _ hn with ⟨d, k, hk, hd, hr⟩ | ⟨d, k, hk, hd, hr⟩ | hp
  · obtain ⟨f', hq, hf', hc, ht', hs'⟩ := hd.quiet ho hf
    exact .inl ⟨f', k, hk, hq, hf', hg,
      ⟨ht'.title.trans ht.title, ht'.depth.trans ht.depth, ht'.params.trans ht.params⟩, hs'.trans hs, hc ▸ hr⟩
  · obtain ⟨g', hq, hg', hc, ht', hs'⟩ := hd.quiet ho hg
    exact .inr (.inl ⟨g', k, hk, hq, hf, hg',
      ⟨ht.title.trans ht'.title.symm, ht.depth.trans ht'.depth.symm, ht.params.trans ht'.params.symm⟩,
      hs.trans hs'.symm, hc ▸ hr⟩)
  · have lift : ∀ f g, Paired (fun c c' => ∃ n, R n c c') f g → ∃ n, Paired (R n) f g := fun _ _ ⟨hs, n, hn⟩ => ⟨n, hs, hn⟩
    exact .inr (.inr fun w => (hp.advance ho hf hg ht hs w).mono fun _ _ he =>
      he.mono (fun _ _ hj => hj.mono lift) fun _ _ hw => hw.mono lift)

theorem SameCode.stepwise {p : Proc Instr} {b' : List Instr} (h : SameCode p.body b') (name : String) :
    Stepwise o name p { p with body := b' } := by
  obtain ⟨hl, hl', R, hR, n, hn⟩ := h
  refine ⟨rfl, hl, hl', _, hR.inStep ho, fun f g hf hg _ hs => ⟨n, hs, ?_⟩⟩
  rwa [hf.code, hg.code]

end Bx.Tac.Run.Checked
