import Bx.Proofs.Flow.DeadStores
import Mathlib

namespace Bx.Flow

open List hiding after
open Tac

variable {globals : List String} {g k : Graph} {l : Line} {as bs cs : List Line} {dead : Line → Prop}

theorem Thinned.trans (h : Thinned dead as bs) (h' : Thinned dead bs cs) : Thinned dead as cs := by
  induction h generalizing cs with
  | nil => exact h'
  | kept _ ih =>
    cases h' with
    | kept h' => exact .kept (ih h')
    | dropped hl h' => exact .dropped hl (ih h')
  | dropped hl _ ih => exact .dropped hl (ih h')

theorem Passes.rebodied (h : Passes globals g k) (hphi : ∀ l ∈ g.lines, l.instr.isPhi = false) :
    g.Rebodied (Thinned fun l => ¬ Exempt globals l.instr) k := by
  induction h with
  | start => exact ⟨rfl, forall₂_same.2 fun e _ => ⟨rfl, .refl _⟩⟩
  | @pass g h k v hv hs hlen _ ih =>
    obtain ⟨h', hs', hr⟩ := sweep_rebodied globals hphi v
    obtain rfl : h = h' := Except.ok.inj (hs.symm.trans hs')
    obtain ⟨hk, hrest⟩ := ih fun l hl => hphi l ((hr.lines fun _ _ => Swept.sublist).subset hl)
    refine ⟨by rw [hk, hr.1], forall₂_trans hr.2 hrest fun e _ e₁ _ e₂ he he₁ => ⟨?_, ?_⟩⟩
    · rw [he₁.1, he.1]
    · exact (he.2.1.imp fun _ hl => hl.1).trans he₁.2

/-- The passes end where each finds its liveness and jumps store nothing. A further pass would drop nothing, only lines that
are not exempt are gone, and what is left is exempt or stores what is live. -/
theorem dropDeadStores_settles (globals : List String) (g : Graph) (hphi : ∀ l ∈ g.lines, l.instr.isPhi = false)
    (hjumps : ∀ e ∈ g.blocks, ∀ l ∈ e.2.jumps, l.instr.dest = none) (hlive : ∀ k, Passes globals g k → ∃ v, liveness k = .ok v) :
    ∃ h v, dropDeadStores globals g = .ok h ∧ Passes globals g h ∧ liveness h = .ok v ∧ sweep globals v h = .ok h ∧
      g.Rebodied (Thinned fun l => ¬ Exempt globals l.instr) h ∧
      ∀ l ∈ h.lines, ¬ Exempt globals l.instr → ∀ d ∈ l.instr.dest, d ∈ v.liveout l.id := by
  obtain ⟨h, v, hh, hp, hv, hs⟩ := dropDeadWithin_settled hphi (Nat.lt_succ_self _) hlive
  have hr := hp.rebodied hphi
  have hphi' : ∀ l ∈ h.lines, l.instr.isPhi = false := fun l hl => hphi l ((hr.lines fun _ _ => Thinned.sublist).subset hl)
  obtain ⟨h', hs', hlast⟩ := sweep_rebodied globals hphi' v
  obtain rfl : h = h' := Except.ok.inj (hs.symm.trans hs')
  obtain ⟨-, hnone⟩ := hlast.eq_of_length rfl
  refine ⟨h, v, hh, hp, hv, hs, hr, fun l hl hkept d hd => ?_⟩
  obtain ⟨e', he', hl⟩ := mem_flatMap.1 hl
  rcases mem_append.1 hl with hl | hl
  · by_contra hdead
    exact hnone e' he' l hl ⟨hkept, d, hd, hdead⟩
  · obtain ⟨e, he, heq, -⟩ := forall₂_exists_left hr.2 he'
    rw [heq] at hl
    rw [hjumps e he l hl] at hd
    cases hd

theorem dropDeadStores_settles_idle : ∃ u, inferProc idle = .ok u ∧
    (∀ l ∈ u.graph.lines, l.instr.isPhi = false) ∧ (∀ e ∈ u.graph.blocks, ∀ l ∈ e.2.jumps, l.instr.dest = none) ∧
    (∀ k, Passes [] u.graph k → ∃ v, liveness k = .ok v) ∧
    ∃ h v, dropDeadStores [] u.graph = .ok h ∧ h.lines.length + 2 = u.graph.lines.length ∧ liveness h = .ok v ∧
      ∀ l ∈ h.lines, ¬ Exempt [] l.instr → ∀ d ∈ l.instr.dest, d ∈ v.liveout l.id := by
  obtain ⟨u, hu⟩ : ∃ u, inferProc idle = .ok u := exists_of_isOk (by cbv)
  have hg := (idle_tame.plain hu).2
  have hjumps : ∀ e ∈ u.graph.blocks, ∀ l ∈ e.2.jumps, l.instr.dest = none := fun e he l hl =>
    dest_of_isEnder ((hg.formed.blocks e he).jumps l hl)
  obtain ⟨h, v, hh, -, hv, -, -, hall⟩ := dropDeadStores_settles [] u.graph hg.phiFree hjumps (idle_passes hu)
  refine ⟨u, hu, hg.phiFree, hjumps, idle_passes hu, h, v, hh, ?_, hv, hall⟩
  have hlen : ((inferProc idle).bind fun u => (dropDeadStores [] u.graph).map fun h =>
    h.lines.length + 2 == u.graph.lines.length).toOption = some true := by decide +kernel
  rw [hu] at hlen
  simpa [Except.bind, hh, Except.map, Except.toOption] using hlen

end Bx.Flow
