import Bx.Proofs.Run.Code
import Bx.Proofs.Run.Keeping

namespace Bx.Tac

variable {α : Type}

def Resolves (r : Except Fault α) : Prop := ∀ s ls, r ≠ .error (.unresolvedPhi s ls)

theorem resolves_of_fits {Q : α → Prop} {r : Except Fault α} (h : Fits (fun e => ∀ s ls, e ≠ .unresolvedPhi s ls) Q r) : Resolves r := by
  rintro s ls rfl
  exact h s ls rfl

section Store

variable {E : Fault → Prop} (hE : ∀ e, (∀ s ls, e ≠ .unresolvedPhi s ls) → E e)
include hE

theorem read_regular (s : Store) (x : Datum) : Fits E (fun _ => True) (s.read x) := by
  unfold Store.read Store.get Store.find
  split
  · split
    · trivial
    · exact hE _ (by simp)
  · exact hE _ (by simp)

theorem write_regular (s : Store) (x v : Datum) :
    Fits E (fun s' : Store => s'.globals.map Prod.fst = s.globals.map Prod.fst) (s.write x v) := by
  have hcheck : Fits E (fun _ => True) (Store.check v) := by
    unfold Store.check
    split
    · split
      · trivial
      · exact hE _ (by simp)
    · exact hE _ (by simp)
  unfold Store.write
  split
  · unfold Store.set
    split
    · exact hE _ (by simp)
    · refine hcheck.bind fun _ _ => ?_
      split
      · split
        · next hl => simp [Fits, keys_put, hl]
        · exact hE _ (by simp)
      · rfl
  · exact hE _ (by simp)

end Store

namespace Run

def World.names (w : World) : List String := w.globals.map Prod.fst

theorem discipline_names {ns : List String} {B : Array Instr → Prop} {E : Fault → Prop} (hE : ∀ e, (∀ s ls, e ≠ .unresolvedPhi s ls) → E e)
    (hB : ∀ b, B b → ∀ i ∈ b, i.isPhi → ∀ s ls, E (.unresolvedPhi s ls)) :
    Discipline (fun g => g.map Prod.fst = ns) (fun _ => True) (fun _ => True) B E where
  faults e he := hE e fun s ls h => by
    subst h
    cases he
  phis := hB
  words _ _ := trivial
  empty := trivial
  read _ _ x := read_regular hE _ x
  write {t g} _ hg v _ x := by
    have hw := write_regular hE ⟨t, g⟩ x v
    rcases hr : Store.write ⟨t, g⟩ x v with e | s <;> rw [hr] at hw
    · exact hw
    · exact ⟨trivial, Eq.trans hw hg⟩

namespace Checked

variable {o : Options}

section Names

variable (w : World)

theorem discipline_free (ns : List String) :
    Discipline (fun g => g.map Prod.fst = ns) (fun _ => True) (fun _ => True) (fun _ => True) fun _ => True :=
  discipline_names (fun _ _ => trivial) fun _ _ _ _ _ _ _ => trivial

theorem Frame.held (f : Frame) : f.Held (fun _ => True) (fun _ => True) fun _ => True :=
  ⟨trivial, trivial, fun _ _ => .inl trivial, trivial⟩

theorem advance_names (f : Frame) : (result (advance o f) w).2.names = w.names := (advance_keeps (discipline_free _) f.held).globals rfl

theorem resume_names (f : Frame) (v : Datum) : (result (resume f v) w).2.names = w.names :=
  (resume_keeps (discipline_free _) f.held (.inl trivial)).globals rfl

theorem enter_names (procs : List (String × Proc Instr)) (name : String) (args : Datum) (depth : Int) :
    (result (enter o procs name args depth) w).2.names = w.names :=
  (enter_keeps (discipline_free _) (fun _ _ => trivial) name (fun _ _ _ => .inl trivial) depth).globals rfl

end Names

theorem discipline_phiFree (ns : List String) : Discipline (fun g => g.map Prod.fst = ns) (fun _ => True) (fun _ => True)
    (fun b => ∀ i ∈ b, i.isPhi = false) fun e => ∀ s ls, e ≠ .unresolvedPhi s ls :=
  discipline_names (fun _ => id) fun b hb i hi hphi => by simp [hb i hi] at hphi

variable {procs : List (String × Proc Instr)} (h : ∀ e ∈ procs, ∀ i ∈ e.2.body, i.isPhi = false)
include h

theorem ends_resolves {fs : List Frame} {w w' : World} {r : Except Fault Datum} (he : Ends (semantics o procs) fs w r w')
    (hfs : ∀ f ∈ fs, f.Held (fun _ => True) (fun _ => True) fun b => ∀ i ∈ b, i.isPhi = false) : Resolves r := by
  have hprocs : ∀ e ∈ procs, ∀ i ∈ e.2.body.toArray, i.isPhi = false := fun e he i hi => h e he i (by simpa using hi)
  have hstep : ∀ {fs w}, _ → Fits _ _ (result (step (semantics o procs) fs) w).1 := fun {fs w} hfs =>
    (step_keeps (discipline_phiFree w.names) hprocs hfs).fits rfl
  induction he with
  | fault hs =>
    have hfits := hs ▸ hstep hfs
    exact resolves_of_fits (Q := fun _ => True) hfits
  | value => exact fun _ _ h => by cases h
  | more hs _ ih =>
    have hfits := hs ▸ hstep hfs
    exact ih hfits

theorem yields_resolves {name : String} {args : Datum} {depth : Int} {w w' : World} {r : Except Fault Datum}
    (hy : Yields (semantics o procs) name args depth w r w') : Resolves r := by
  have hprocs : ∀ e ∈ procs, ∀ i ∈ e.2.body.toArray, i.isPhi = false := fun e he i hi => h e he i (by simpa using hi)
  have henter : Fits _ _ (result ((semantics o procs).enter name args depth) w).1 :=
    (enter_keeps (discipline_phiFree w.names) hprocs name (fun _ _ _ => .inl trivial) depth).fits rfl
  rcases hf : result ((semantics o procs).enter name args depth) w with ⟨e | f, w₁⟩
  · obtain ⟨rfl, -⟩ := (yields_of_refused hf).1 hy
    rw [hf] at henter
    exact resolves_of_fits (Q := fun _ => True) henter
  · rw [hf] at henter
    exact ends_resolves h ((yields_of_enter hf).1 hy) (List.forall_mem_singleton.2 henter)

end Checked

end Run

end Bx.Tac
