import Bx.Proofs.Basic
import Bx.Proofs.Run.Simulation
import Bx.Tac.Run.Checked
import Mathlib

open List

namespace Bx.Word

theorem ofInt_range (x : Int) : 0 ≤ ofInt x ∧ ofInt x < size :=
  ⟨Int.emod_nonneg x (by decide), Int.emod_lt_of_pos x (by decide)⟩

theorem bitwise_range {f : Nat → Nat → Nat} (hf : ∀ {a b}, a < 2 ^ 64 → b < 2 ^ 64 → f a b < 2 ^ 64) (u v : Int) :
    0 ≤ bitwise f u v ∧ bitwise f u v < size := by
  have hlt : ∀ x, (ofInt x).toNat < 2 ^ 64 := by
    intro x
    have hx := ofInt_range x
    simp only [size] at hx
    omega
  have huv := hf (hlt u) (hlt v)
  simp only [bitwise, size]
  omega

theorem Binop.eval_range {op : Binop} {u v r : Int} (h : op.eval u v = .ok r) : 0 ≤ r ∧ r < size := by
  have map_range : ∀ {d : Except Fault Int} {g : Int → Int}, d.map (fun q => ofInt (g q)) = .ok r → 0 ≤ r ∧ r < size := by
    rintro (e | q) g ⟨⟩
    exact ofInt_range _
  cases op with
  | add | sub | mul =>
    cases h
    exact ofInt_range _
  | div => exact map_range (g := id) h
  | mod => exact map_range h
  | and =>
    cases h
    exact bitwise_range (fun ha _ => Nat.lt_of_le_of_lt Nat.and_le_left ha) u v
  | or =>
    cases h
    exact bitwise_range Nat.or_lt_two_pow u v
  | xor =>
    cases h
    exact bitwise_range Nat.xor_lt_two_pow u v
  | shl =>
    simp only [eval] at h
    split at h
    · cases h
    · cases h
      split
      · exact ofInt_range _
      · decide
  | shr =>
    simp only [eval] at h
    split at h <;> cases h
    exact ofInt_range _

theorem Unop.eval_range (op : Unop) (u : Int) : 0 ≤ op.eval u ∧ op.eval u < size := by
  cases op <;> exact ofInt_range _

end Bx.Word

namespace Bx.Tac

variable {α β : Type}
variable {v args : Datum} {r : Except Fault α} {temps : Fields}

def IsWord (v : Datum) : Prop := ∃ n, v.number? = some n ∧ 0 ≤ n ∧ n < Word.size

theorem isWord_int {n : Int} (h : 0 ≤ n ∧ n < Word.size) : IsWord (.int n) := ⟨n, rfl, h⟩

theorem check_eq_ok : Store.check v = .ok () ↔ IsWord v := by
  rw [Store.check, IsWord]
  cases v.number? with
  | none => simp
  | some n => simp

def Fits (E : Fault → Prop) (Q : α → Prop) : Except Fault α → Prop
  | .ok a => Q a
  | .error e => E e

def Fault.isOrdinary : Fault → Bool
  | .illegalValue _ | .unresolvedPhi _ _ => false
  | _ => true

namespace Fits

variable {E : Fault → Prop} {Q : α → Prop} {R : β → Prop}

theorem bind {k : α → Except Fault β} (hr : Fits E Q r) (hk : ∀ a, Q a → Fits E R (k a)) : Fits E R (r >>= k) := by
  cases r with
  | error e => exact hr
  | ok a => exact hk a hr

variable (hE : ∀ e, e.isOrdinary → E e)
include hE

theorem mapError_shape {r : Except Datum.Fault α} (h : ∀ a, r = .ok a → Q a) : Fits E Q (r.mapError Fault.shape) := by
  cases r with
  | error e => exact hE _ rfl
  | ok a => exact h a rfl

theorem number (v : Datum) : Fits E (fun _ => True) (Fault.number v) := by
  unfold Fault.number
  split
  · trivial
  · exact hE _ rfl

theorem applyBinop (op : Word.Binop) (u v : Datum) : Fits E IsWord (Tac.applyBinop op u v) := by
  refine (number hE u).bind fun m _ => (number hE v).bind fun n _ => ?_
  split
  · next h => exact isWord_int (Word.Binop.eval_range h)
  · exact hE _ rfl

theorem applyUnop (op : Word.Unop) (u : Datum) : Fits E IsWord (Tac.applyUnop op u) :=
  (number hE u).bind fun _ _ => isWord_int (Word.Unop.eval_range op _)

theorem holds (c : Word.Cond) (v : Datum) : Fits E (fun _ => True) (Tac.holds c v) := by
  unfold Tac.holds
  split
  · trivial
  · trivial
  · exact (number hE v).bind fun _ _ => trivial

theorem labelsOf (b : List Instr) : Fits E (fun _ => True) (Run.Checked.labelsOf b) := by
  have hfrom : ∀ k, Fits E (fun _ => True) (Run.Checked.labelsFrom k b) := by
    induction b with
    | nil => exact fun k => trivial
    | cons i rest ih =>
      intro k
      refine (ih (k + 1)).bind fun ls _ => ?_
      cases i <;> trivial
  refine (hfrom 0).bind fun ls _ => ?_
  split
  · exact hE _ rfl
  · trivial

end Fits

namespace Run

/-- It keeps what the globals are like, and its answers and faults are as they are said to be. -/
structure Keeps (G : Fields → Prop) (E : Fault → Prop) (Q : α → Prop) (a : Action α) : Prop where
  globals : ∀ {w}, G w.globals → G (result a w).2.globals
  fits : ∀ {w}, G w.globals → Fits E Q (result a w).1

namespace Keeps

variable {G : Fields → Prop} {E : Fault → Prop} {Q : α → Prop} {R : β → Prop}

theorem pure {a : α} (ha : Q a) : Keeps G E Q (Pure.pure a) := ⟨id, fun _ => ha⟩

theorem throw {e : Fault} (he : E e) : Keeps G E Q (MonadExcept.throw e : Action α) := ⟨id, fun _ => he⟩

theorem lift (hr : Fits E Q r) : Keeps G E Q (Run.lift r) where
  globals hw := by rwa [result_lift]
  fits _ := by rwa [result_lift]

theorem print (s : String) : Keeps G E (fun _ => True) (Run.print s) := ⟨id, fun _ => trivial⟩

theorem bind {a : Action α} {k : α → Action β} (ha : Keeps G E Q a) (hk : ∀ x, Q x → Keeps G E R (k x)) : Keeps G E R (a >>= k) := by
  constructor <;> intro w hw <;> rw [result_bind] <;> have hg := ha.globals hw <;> have hs := ha.fits hw
  all_goals rcases hr : result a w with ⟨e | x, w₁⟩ <;> rw [hr] at hg hs
  · exact hg
  · exact (hk x hs).globals hg
  · exact hs
  · exact (hk x hs).fits hg

theorem ite {c : Prop} [Decidable c] {a b : Action α} (ha : Keeps G E Q a) (hb : Keeps G E Q b) : Keeps G E Q (if c then a else b) := by
  split
  · exact ha
  · exact hb

end Keeps

/-- What globals, temporaries, values and bodies are like. All faults are allowed but those of a phi, unless there is one,
and of numbers that are no words. -/
structure Discipline (G T : Fields → Prop) (V : Datum → Prop) (B : Array Instr → Prop) (E : Fault → Prop) : Prop where
  faults : ∀ e, e.isOrdinary = true → E e
  phis : ∀ b, B b → ∀ i ∈ b, i.isPhi = true → ∀ s ls, E (.unresolvedPhi s ls)
  words : ∀ v, IsWord v → V v
  empty : T []
  read : ∀ {t g}, T t → G g → ∀ x, Fits E V (Store.read ⟨t, g⟩ x)
  write : ∀ {t g}, T t → G g → ∀ {v}, V v ∨ v = .null → ∀ x, Fits E (fun s : Store => T s.temps ∧ G s.globals) (Store.write ⟨t, g⟩ x v)

namespace Discipline

variable {G T : Fields → Prop} {V : Datum → Prop} {B : Array Instr → Prop} {E : Fault → Prop} (D : Discipline G T V B E)
include D

theorem keeps_read (ht : T temps) (x : Datum) : Keeps G E V (Run.read temps x) where
  globals hw := by rwa [result_read]
  fits hw := by
    rw [result_read]
    exact D.read ht hw x

theorem keeps_write (ht : T temps) (hv : V v ∨ v = .null) (x : Datum) : Keeps G E T (Run.write temps x v) := by
  constructor <;> intro w hw <;> rw [result_write] <;> have hs := D.write ht hw hv x
  all_goals rcases hr : Store.write ⟨temps, w.globals⟩ x v with e | s <;> rw [hr] at hs
  · exact hw
  · exact hs.2
  · exact hs
  · exact hs.1

theorem keeps_bind (params : List Datum) (hargs : ∀ k v, args.item k = .ok v → V v ∨ v = .null) :
    Keeps G E T (Run.bind params args) := by
  unfold Run.bind
  -- The induction needs the temporaries that are bound so far, not only the empty list at the start.
  have hnil := D.empty
  generalize ([] : Fields) = temps at hnil ⊢
  induction params.zipIdx generalizing temps with
  | nil => exact .pure hnil
  | cons x xs ih =>
    exact ((Keeps.lift (.mapError_shape D.faults (hargs x.2))).bind fun v hv => D.keeps_write hnil hv x.1).bind fun temps ht => ih temps ht

theorem keeps_passParam (ht : T temps) {params : List Datum} (hp : ∀ v ∈ params, V v ∨ v = .null) (place x : Datum) :
    Keeps G E (fun ps => ∀ v ∈ ps, V v ∨ v = .null) (passParam temps params place x) := by
  have hset : ∀ n {v}, V v → Fits E (fun ps => ∀ v ∈ ps, V v ∨ v = .null) (setParam params n v) := by
    intro n v hv
    simp only [setParam]
    split
    · next k hk =>
        intro u hu
        rcases mem_or_eq_of_mem_set hu with hu | rfl
        · rcases mem_append.1 hu with hu | hu
          · exact hp u hu
          · exact .inr (eq_of_mem_replicate hu)
        · exact .inl hv
    · exact D.faults _ rfl
  have hstore : Keeps G E (fun ps => ∀ v ∈ ps, V v ∨ v = .null) (do
      let n ← lift (Fault.number place)
      let v ← Run.read temps x
      lift (setParam params n v)) :=
    (Keeps.lift (.number D.faults place)).bind fun n _ => (D.keeps_read ht x).bind fun v hv => .lift (hset n hv)
  exact .ite ((Keeps.print _).bind fun _ _ => hstore) hstore

theorem keeps_callPrint (o : Options) (name : String) (params : List Datum) : Keeps G E (fun _ => True) (callPrint o name params) := by
  have hsigned : ∀ v, Fits E (fun _ => True) (signed v) := fun v => (Fits.number D.faults v).bind fun _ _ => trivial
  unfold callPrint
  split
  · exact .ite ((Keeps.lift (hsigned _)).bind fun _ _ => .ite (.print _) (.print _)) (.ite (.print _) (.throw (D.faults _ rfl)))
  · exact .throw (D.faults _ rfl)

theorem keeps_checkArity (name : String) (announced : Datum) (got : Nat) : Keeps G E (fun _ => True) (checkArity name announced got) :=
  (Keeps.lift (.number D.faults _)).bind fun _ _ => .ite (.throw (D.faults _ rfl)) (.pure trivial)

end Discipline

namespace Checked

structure Frame.Held (T : Fields → Prop) (V : Datum → Prop) (B : Array Instr → Prop) (f : Frame) : Prop where
  temps : T f.temps
  before : T f.before
  params : ∀ v ∈ f.params, V v ∨ v = .null
  body : B f.body

def EffectHeld (T : Fields → Prop) (V : Datum → Prop) (B : Array Instr → Prop) : Effect Frame → Prop
  | .go f => f.Held T V B
  | .call f _ args _ => f.Held T V B ∧ ∀ v ∈ args, V v ∨ v = .null
  | .ret v => V v ∨ v = .null

def OutcomeHeld (T : Fields → Prop) (V : Datum → Prop) (B : Array Instr → Prop) : Sum (List Frame) Datum → Prop
  | .inl fs => ∀ f ∈ fs, f.Held T V B
  | .inr v => V v ∨ v = .null

variable {G T : Fields → Prop} {V : Datum → Prop} {B : Array Instr → Prop} {E : Fault → Prop} {f : Frame} {o : Options}

theorem Frame.Held.clear (hf : f.Held T V B) : Frame.Held T V B { f with params := [] } :=
  ⟨hf.temps, hf.before, nofun, hf.body⟩

theorem Frame.Held.goTo (hf : f.Held T V B) (l : String) (k : Nat) : (goTo f l k).Held T V B :=
  ⟨hf.temps, hf.temps, hf.params, hf.body⟩

theorem item_held {vs : List Datum} (hargs : args = .list vs ∨ args = .tuple vs) (hvs : ∀ v ∈ vs, V v ∨ v = .null) (k : Int)
    (v : Datum) (h : args.item k = .ok v) : V v ∨ v = .null := by
  have hpick : ∀ {x}, Datum.pick vs k = .ok x → V x ∨ x = .null := by
    intro x h
    unfold Datum.pick at h
    split at h
    · next x hx =>
        cases h
        obtain ⟨j, -, hj⟩ := Option.bind_eq_some_iff.1 hx
        exact hvs _ (mem_of_getElem? hj)
    · cases h
  rcases hargs with rfl | rfl <;> exact hpick h

section Step

variable (D : Discipline G T V B E)
include D

theorem assign_keeps (hf : f.Held T V B) (hv : V v ∨ v = .null) (d : String) : Keeps G E (Frame.Held T V B) (assign f d v) :=
  (D.keeps_write hf.temps hv _).bind fun _ ht => .pure ⟨ht, hf.before, hf.params, hf.body⟩

theorem target_keeps (f : Frame) (l : String) : Keeps G E (fun _ => True) (target f l) := by
  unfold target
  split
  · exact .pure trivial
  · exact .throw (D.faults _ rfl)

theorem exec_keeps (hf : f.Held T V B) {i : Instr} (hi : i.isPhi → ∀ s ls, E (.unresolvedPhi s ls)) :
    Keeps G E (EffectHeld T V B) (exec o f i) := by
  have store : ∀ d {v}, V v → Keeps G E (EffectHeld T V B) (do return Effect.go (← assign f d v)) :=
    fun d v hv => (assign_keeps D hf (.inl hv) d).bind fun _ hg => .pure hg
  have answer : ∀ v : Datum, V v ∨ v = .null → Keeps G E (EffectHeld T V B) (do
      if o.showProcs then print ("// " ++ indent f.depth ++ f.title ++ " --> " ++ v.text)
      return (.ret v : Effect Frame)) := fun v hv => .ite ((Keeps.print _).bind fun _ _ => .pure hv) (.pure hv)
  cases i with
  | nop => exact .pure hf
  | label l => exact .pure ⟨hf.temps, hf.before, hf.params, hf.body⟩
  | frozenPhi => exact .throw (D.faults _ rfl)
  | phi d sources =>
    simp only [exec]
    split
    · exact (D.keeps_read hf.before _).bind fun v hv => store d hv
    · exact .throw (hi rfl _ _)
  | jmp l => exact (target_keeps D f l).bind fun k _ => .pure (hf.goTo l k)
  | jcc c x l =>
    refine (D.keeps_read hf.temps _).bind fun v _ => (target_keeps D f l).bind fun k _ =>
      (Keeps.lift (.holds D.faults c v)).bind fun t _ => .pure ?_
    cases t with
    | true => exact hf.goTo l k
    | false => exact hf
  | const d n => exact store d (D.words _ (isWord_int (Word.ofInt_range _)))
  | copy d x => exact (D.keeps_read hf.temps _).bind fun v hv => store d hv
  | param n x =>
    exact (D.keeps_passParam hf.temps hf.params _ _).bind fun params hp => .pure ⟨hf.temps, hf.before, hp, hf.body⟩
  | call d g n =>
    exact .ite ((D.keeps_callPrint _ _ _).bind fun _ _ => .pure hf.clear)
      ((D.keeps_checkArity _ _ _).bind fun _ _ => .pure ⟨hf, hf.params⟩)
  | ret x =>
    cases x with
    | none => exact answer .null (.inr rfl)
    | some x => exact (D.keeps_read hf.temps _).bind fun v hv => answer v (.inl hv)
  | binop op d x y =>
    exact (D.keeps_read hf.temps _).bind fun u _ => (D.keeps_read hf.temps _).bind fun v _ =>
      (Keeps.lift (.applyBinop D.faults op u v)).bind fun v hv => store d (D.words v hv)
  | unop op d x =>
    exact (D.keeps_read hf.temps _).bind fun u _ => (Keeps.lift (.applyUnop D.faults op u)).bind fun v hv => store d (D.words v hv)

theorem advance_keeps (hf : f.Held T V B) : Keeps G E (EffectHeld T V B) (advance o f) := by
  unfold advance
  split
  · exact (Keeps.print _).bind fun _ _ => .pure (.inr rfl)
  · next i hi =>
      have hexec : Keeps G E (EffectHeld T V B) (exec o { f with pc := f.pc + 1 } i) :=
        exec_keeps (f := { f with pc := f.pc + 1 }) D ⟨hf.temps, hf.before, hf.params, hf.body⟩
          (D.phis _ hf.body i (Array.mem_of_getElem? hi))
      have htext : Fits E (fun _ => True) (i.text?.mapError Fault.shape) := .mapError_shape D.faults fun _ _ => trivial
      exact .ite ((Keeps.lift htext).bind fun _ _ => (Keeps.print _).bind fun _ _ => hexec) hexec

theorem resume_keeps (hf : f.Held T V B) (hv : V v ∨ v = .null) : Keeps G E (Frame.Held T V B) (resume f v) := by
  unfold resume
  split
  · exact (assign_keeps D hf hv _).bind fun _ hg => .pure hg.clear
  · exact .pure hf.clear

variable {procs : List (String × Proc Instr)} (hprocs : ∀ e ∈ procs, B e.2.body.toArray)
include hprocs

theorem enter_keeps (name : String) (hargs : ∀ k v, args.item k = .ok v → V v ∨ v = .null) (depth : Int) :
    Keeps G E (Frame.Held T V B) (enter o procs name args depth) := by
  unfold enter
  split
  · exact .throw (D.faults _ rfl)
  · next p hp =>
      have hframe : ∀ temps : Fields, T temps → Keeps G E (Frame.Held T V B) (do
          let labels ← lift (labelsOf p.body)
          return ⟨describe name temps, p.body.toArray, labels, depth, 0, [], temps, temps, none, name⟩) :=
        fun temps ht => (Keeps.lift (.labelsOf D.faults _)).bind fun _ _ => .pure ⟨ht, ht, nofun, hprocs _ (mem_of_lookup hp)⟩
      exact (D.keeps_bind _ hargs).bind fun temps ht => .ite ((Keeps.print _).bind fun _ _ => hframe temps ht) (hframe temps ht)

theorem step_keeps {fs : List Frame} (hfs : ∀ f ∈ fs, f.Held T V B) : Keeps G E (OutcomeHeld T V B) (step (semantics o procs) fs) := by
  cases fs with
  | nil => exact .pure (.inr rfl)
  | cons f rest =>
    obtain ⟨hf, hrest⟩ := forall_mem_cons.1 hfs
    refine (advance_keeps D hf).bind fun e he => ?_
    cases e with
    | go g => exact .pure (forall_mem_cons.2 ⟨he, hrest⟩)
    | call g name args depth =>
      have henter : Keeps G E (OutcomeHeld T V B)
          (do return (.inl ((← (semantics o procs).enter name (.list args) depth) :: g :: rest) : Sum (List Frame) Datum)) :=
        (enter_keeps D hprocs name (item_held (.inl rfl) he.2) depth).bind fun k hk =>
          .pure (forall_mem_cons.2 ⟨hk, forall_mem_cons.2 ⟨he.1, hrest⟩⟩)
      exact .ite ((Keeps.throw (Q := fun _ => True) (D.faults _ rfl)).bind fun _ _ => henter) henter
    | ret v =>
      cases rest with
      | nil => exact .pure he
      | cons g rest =>
        obtain ⟨hg, hrest⟩ := forall_mem_cons.1 hrest
        exact (resume_keeps D hg he).bind fun k hk => .pure (forall_mem_cons.2 ⟨hk, hrest⟩)

end Step

end Checked

end Run

end Bx.Tac
