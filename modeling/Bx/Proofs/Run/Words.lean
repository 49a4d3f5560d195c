import Bx.Proofs.Run.Keeping

namespace Bx.Tac

open List

variable {α : Type}
variable {v args : Datum} {f : Frame}

def IsWordOrNull (v : Datum) : Prop := IsWord v ∨ v = .null

def Fields.Words (t : Fields) : Prop := ∀ e ∈ t, IsWord e.2

theorem Fields.Words.put {t : Fields} (ht : Words t) (hv : IsWord v) (x : String) : Words (Datum.put x v t) := by
  induction t with
  | nil => simpa [Words, Datum.put] using hv
  | cons e t ih =>
    have ht : IsWord e.2 ∧ Words t := forall_mem_cons.1 ht
    rw [Datum.put]
    split
    · exact forall_mem_cons.2 ⟨hv, ht.2⟩
    · exact forall_mem_cons.2 ⟨ht.1, ih ht.2⟩

theorem Fields.Words.lookup {t : Fields} (ht : Words t) {x : String} (h : t.lookup x = some v) : IsWord v :=
  ht (x, v) (mem_of_lookup h)

def Accepted (e : Fault) : Prop := ∀ n, e ≠ .illegalValue n

def Sound (Q : α → Prop) : Except Fault α → Prop
  | .ok a => Q a
  | .error e => Accepted e

section Store

variable {s : Store} (ht : s.temps.Words) (hg : s.globals.Words)
include ht hg

theorem read_words (x : Datum) : Fits Accepted IsWord (s.read x) := by
  have hfind : ∀ {t : Fields} {y : String}, t.Words → Fits Accepted IsWord (Store.find t y) := by
    intro t y h
    unfold Store.find
    split
    · next hv => exact h.lookup hv
    · exact fun n => by simp
  unfold Store.read Store.get
  split
  · split
    · exact hfind hg
    · exact hfind ht
  · exact fun n => by simp

theorem write_words (hv : IsWordOrNull v) (x : Datum) :
    Fits Accepted (fun s : Store => s.temps.Words ∧ s.globals.Words) (s.write x v) := by
  have hcheck : Fits Accepted (fun _ => IsWord v) (Store.check v) := by
    rcases hv with hv | rfl
    · rw [check_eq_ok.2 hv]
      exact hv
    · exact fun n => by simp
  unfold Store.write
  split
  · unfold Store.set
    split
    · exact fun n => by simp
    · refine hcheck.bind fun _ hv => ?_
      split
      · split
        · exact ⟨ht, hg.put hv _⟩
        · exact fun n => by simp
      · exact ⟨ht.put hv _, hg⟩
  · exact fun n => by simp

end Store

namespace Run

def World.Words (w : World) : Prop := w.globals.Words

/-- The globals stay words, the answer is as it is said to be, and no number is refused. -/
structure OnWords (Q : α → Prop) (a : Action α) : Prop where
  globals : ∀ {w}, World.Words w → World.Words (result a w).2
  sound : ∀ {w}, World.Words w → Sound Q (result a w).1

theorem Keeps.onWords {Q R : α → Prop} {a : Action α} (h : Keeps Fields.Words Accepted Q a) (hQR : ∀ x, Q x → R x) : OnWords R a where
  globals := h.globals
  sound {w} hw := by
    have hs := h.fits hw
    rcases hr : (result a w).1 with e | x <;> rw [hr] at hs
    · exact hs
    · exact hQR x hs

theorem discipline_words : Discipline Fields.Words Fields.Words IsWord (fun _ => True) Accepted where
  faults e he n := by
    rintro rfl
    cases he
  phis _ _ _ _ _ _ _ n := by simp
  words _ := id
  empty := nofun
  read ht hg := read_words ht hg
  write ht hg _ hv := write_words ht hg hv

def ParamWords (params : List Datum) : Prop := ∀ v ∈ params, IsWordOrNull v

namespace Checked

variable {o : Options}

structure Frame.Words (f : Frame) : Prop where
  temps : f.temps.Words
  before : f.before.Words
  params : ParamWords f.params

theorem Frame.Words.held (hf : f.Words) : f.Held Fields.Words IsWord fun _ => True :=
  ⟨hf.temps, hf.before, hf.params, trivial⟩

theorem Frame.Held.words (hf : f.Held Fields.Words IsWord fun _ => True) : f.Words := ⟨hf.temps, hf.before, hf.params⟩

def EffectWords : Effect Frame → Prop
  | .go f => f.Words
  | .call f _ args _ => f.Words ∧ ParamWords args
  | .ret v => IsWordOrNull v

theorem advance_words (hf : f.Words) : OnWords EffectWords (advance o f) := by
  refine (advance_keeps discipline_words hf.held).onWords fun e he => ?_
  cases e with
  | go g => exact Frame.Held.words he
  | call g name args depth => exact ⟨he.1.words, he.2⟩
  | ret v => exact he

theorem enter_words (procs : List (String × Proc Instr)) (name : String) (hargs : ∀ k v, args.item k = .ok v → IsWordOrNull v)
    (depth : Int) : OnWords Frame.Words (enter o procs name args depth) :=
  (enter_keeps discipline_words (fun _ _ => trivial) name hargs depth).onWords fun _ => Frame.Held.words

def OutcomeWords : Sum (List Frame) Datum → Prop
  | .inl fs => ∀ f ∈ fs, f.Words
  | .inr v => IsWordOrNull v

theorem item_words {vs : List Datum} (hargs : args = .list vs ∨ args = .tuple vs) (hvs : ParamWords vs) (k : Int) (v : Datum)
    (h : args.item k = .ok v) : IsWordOrNull v := item_held hargs hvs k v h

theorem step_words (procs : List (String × Proc Instr)) {fs : List Frame} (hfs : ∀ f ∈ fs, f.Words) :
    OnWords OutcomeWords (step (semantics o procs) fs) := by
  refine (step_keeps discipline_words (fun _ _ => trivial) fun f hf => (hfs f hf).held).onWords fun r hr => ?_
  cases r with
  | inl gs => exact fun g hg => (hr g hg).words
  | inr v => exact hr

end Checked

inductive Reaches {φ : Type} (S : Semantics φ) : List φ → World → List φ → World → Prop
  | refl (fs : List φ) (w : World) : Reaches S fs w fs w
  | step {fs gs hs : List φ} {w w₁ w₂ : World} (h : result (Run.step S fs) w = (.ok (.inl gs), w₁))
    (hr : Reaches S gs w₁ hs w₂) : Reaches S fs w hs w₂

namespace Checked

theorem reaches_words {o : Options} {procs : List (String × Proc Instr)} {fs gs : List Frame} {w w' : World}
    (h : Reaches (semantics o procs) fs w gs w') (hw : w.Words) (hfs : ∀ f ∈ fs, f.Words) : w'.Words ∧ ∀ g ∈ gs, g.Words := by
  induction h with
  | refl => exact ⟨hw, hfs⟩
  | step hs _ ih =>
    have hg := (step_words (o := o) procs hfs).globals hw
    have hsound := (step_words (o := o) procs hfs).sound hw
    rw [hs] at hg hsound
    exact ih hg hsound

/-- From a call with words in a world of words, temporaries, their values at the last jump and globals are words at every
moment, and arguments in waiting are words or missing. Procedures hand over words or nothing, and no number is refused as
illegal. -/
theorem reached_words (o : Options) (procs : List (String × Proc Instr)) (name : String) {args : Datum} {vs : List Datum}
    (hargs : args = .list vs ∨ args = .tuple vs) (hvs : ∀ v ∈ vs, IsWord v) (depth : Int) {w : World} (hw : w.Words) :
    Sound Frame.Words (result (enter o procs name args depth) w).1 ∧ (result (enter o procs name args depth) w).2.Words ∧
    ∀ f w₁ fs w₂, result (enter o procs name args depth) w = (.ok f, w₁) → Reaches (semantics o procs) [f] w₁ fs w₂ →
      w₂.Words ∧ (∀ g ∈ fs, g.Words) ∧ (∀ g ∈ fs.head?, Sound EffectWords (result (advance o g) w₂).1) ∧
      Sound OutcomeWords (result (step (semantics o procs) fs) w₂).1 ∧ (result (step (semantics o procs) fs) w₂).2.Words := by
  have henter : OnWords Frame.Words (enter o procs name args depth) :=
    enter_words procs name (fun k => item_words hargs (fun v hv => .inl (hvs v hv)) k) depth
  refine ⟨henter.sound hw, henter.globals hw, fun f w₁ fs w₂ hf hr => ?_⟩
  have hw₁ := henter.globals hw
  have hf' := henter.sound hw
  rw [hf] at hw₁ hf'
  obtain ⟨hw₂, hfs⟩ := reaches_words hr hw₁ (forall_mem_singleton.2 hf')
  refine ⟨hw₂, hfs, fun g hg => ?_, (step_words procs hfs).sound hw₂, (step_words procs hfs).globals hw₂⟩
  exact (advance_words (hfs g (mem_of_mem_head? hg))).sound hw₂

def gapped : Proc Instr := ⟨"@main", [.str "%n"], [.label "%.La", .phi "%x" [("@main", "%n")], .param (.int 2) "%x"]⟩

def gappedAt (pc : Nat) (params : List Datum) (temps : Fields) (previous : Option String) (current : String) : Frame :=
  ⟨"@main(%n=7)", gapped.body.toArray, [("%.La", 1)], 0, pc, params, temps, [("%n", .int 7)], previous, current⟩

theorem reached_words_gapped : ∃ f w₁ fs w₂,
    result (enter {} [("@main", gapped)] "@main" (.list [.int 7]) 0) ⟨[("@g", .int 5)], #[]⟩ = (.ok f, w₁) ∧
    Reaches (semantics {} [("@main", gapped)]) [f] w₁ fs w₂ ∧ fs.map Frame.params = [[.null, .int 7]] ∧
    w₂.Words ∧ ∀ g ∈ fs, g.Words := by
  have hvs : ∀ v ∈ [Datum.int 7], IsWord v := by
    simpa using isWord_int (n := 7) (by decide)
  have hw : World.Words ⟨[("@g", .int 5)], #[]⟩ := by
    simpa [World.Words, Fields.Words] using isWord_int (n := 5) (by decide)
  have hf : result (enter {} [("@main", gapped)] "@main" (.list [.int 7]) 0) ⟨[("@g", .int 5)], #[]⟩ =
      (.ok (gappedAt 0 [] [("%n", .int 7)] none "@main"), ⟨[("@g", .int 5)], #[]⟩) := by cbv
  have hlabel : result (step (semantics {} [("@main", gapped)]) [gappedAt 0 [] [("%n", .int 7)] none "@main"])
      ⟨[("@g", .int 5)], #[]⟩ = (.ok (.inl [gappedAt 1 [] [("%n", .int 7)] (some "@main") "%.La"]), ⟨[("@g", .int 5)], #[]⟩) := by
    cbv
  have hphi : result (step (semantics {} [("@main", gapped)]) [gappedAt 1 [] [("%n", .int 7)] (some "@main") "%.La"])
      ⟨[("@g", .int 5)], #[]⟩ = (.ok (.inl [gappedAt 2 [] [("%n", .int 7), ("%x", .int 7)] (some "@main") "%.La"]),
        ⟨[("@g", .int 5)], #[]⟩) := by
    cbv
  have hparam : result (step (semantics {} [("@main", gapped)])
      [gappedAt 2 [] [("%n", .int 7), ("%x", .int 7)] (some "@main") "%.La"]) ⟨[("@g", .int 5)], #[]⟩ =
      (.ok (.inl [gappedAt 3 [.null, .int 7] [("%n", .int 7), ("%x", .int 7)] (some "@main") "%.La"]),
        ⟨[("@g", .int 5)], #[]⟩) := by
    cbv
  have hr := Reaches.step hlabel (.step hphi (.step hparam (.refl _ _)))
  obtain ⟨hw₂, hfs, -⟩ := (reached_words {} [("@main", gapped)] "@main" (.inl rfl) hvs 0 hw).2.2 _ _ _ _ hf hr
  exact ⟨_, _, _, _, hf, hr, rfl, hw₂, hfs⟩

end Checked

end Run

end Bx.Tac
