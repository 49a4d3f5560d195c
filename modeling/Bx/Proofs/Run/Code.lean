import Bx.Proofs.Basic
import Bx.Proofs.Run.Simulation
import Bx.Tac.Run.Checked

namespace Bx.Tac

open List

variable {b d c rest b' : List Instr} {l x name y : String} {i : Instr} {f g : Frame} {n m : String → String}
variable {w w' : World}

def Instr.label? : Instr → Option String
  | .label l => some l
  | _ => none

def Instr.target? : Instr → Option String
  | .jmp l | .jcc _ _ l => some l
  | _ => none

def Instr.retarget (m : String → String) : Instr → Instr
  | .jmp l => .jmp (m l)
  | .jcc c x l => .jcc c x (m l)
  | i => i

theorem Instr.retarget_id (i : Instr) : i.retarget (fun l => l) = i := by
  cases i <;> rfl

def Instr.isPlain : Instr → Bool
  | .label _ | .jmp _ | .jcc _ _ _ | .ret _ | .phi _ _ | .frozenPhi _ _ => false
  | _ => true

namespace Run.Checked

def labelNames (b : List Instr) : List String := b.filterMap Instr.label?

def after : List Instr → String → Option (List Instr)
  | [], _ => none
  | i :: rest, l => if i = .label l then some (rest.dropWhile Instr.isLabel) else after rest l

theorem after_suffix (h : after b l = some d) : d <:+ b := by
  induction b with
  | nil => simp [after] at h
  | cons i rest ih =>
    rw [after] at h
    split at h
    · cases h
      exact (dropWhile_suffix _).trans (suffix_cons i rest)
    · exact (ih h).trans (suffix_cons i rest)

theorem after_isSome : (after b l).isSome ↔ l ∈ labelNames b := by
  induction b with
  | nil => simp [after, labelNames]
  | cons i rest ih =>
    rw [after]
    by_cases h : i = .label l
    · simp [h, labelNames, Instr.label?]
    · rw [if_neg h, ih]
      cases i with
      | label x =>
        have hx : l ≠ x := fun hx => h (congrArg _ hx.symm)
        simp [labelNames, Instr.label?, hx]
      | _ => simp [labelNames, Instr.label?]

theorem after_cons_of_ne (h : i ≠ .label l) : after (i :: b) l = after b l := by
  rw [after, if_neg h]

theorem after_append_of_notMem (h : l ∉ labelNames b) : after (b ++ c) l = after c l := by
  induction b with
  | nil => rfl
  | cons i rest ih =>
    have hi : i ≠ .label l := by
      rintro rfl
      simp [labelNames, Instr.label?] at h
    have hr : l ∉ labelNames rest := by
      simp only [labelNames, filterMap_cons] at h ⊢
      cases hl : i.label? <;> simp_all
    rw [cons_append, after, if_neg hi, ih hr]

theorem after_label (h : l ∉ labelNames b) : after (b ++ .label l :: c) l = some (c.dropWhile Instr.isLabel) := by
  rw [after_append_of_notMem h, after, if_pos rfl]

theorem after_of_suffix (hb : (labelNames b).Nodup) (h : .label l :: c <:+ b) : after b l = some (c.dropWhile Instr.isLabel) := by
  obtain ⟨a, rfl⟩ := h
  apply after_label
  intro ha
  simp only [labelNames, filterMap_append, filterMap_cons, Instr.label?] at hb ha
  exact (nodup_append.1 hb).2.2 l ha l mem_cons_self rfl

theorem labelsFrom_spec (k : Nat) (b : List Instr) :
    ∃ ls, labelsFrom k b = .ok ls ∧ ls.map Prod.fst = labelNames b ∧
      ∀ l, ls.lookup l = (after b l).map fun d => k + (b.length - d.length) := by
  induction b generalizing k with
  | nil => exact ⟨[], rfl, rfl, fun _ => rfl⟩
  | cons i rest ih =>
    obtain ⟨ls, hls, hnames, hlook⟩ := ih (k + 1)
    have hshift : ∀ l, (after rest l).map (fun d => k + 1 + (rest.length - d.length)) =
        (after rest l).map fun d => k + (rest.length + 1 - d.length) := by
      intro l
      apply Option.map_congr
      intro d hd
      have := (after_suffix hd).length_le
      omega
    by_cases hi : ∃ x, i = .label x
    · obtain ⟨x, rfl⟩ := hi
      refine ⟨(x, k + 1 + (rest.takeWhile Instr.isLabel).length) :: ls, by simp only [labelsFrom, hls]; rfl, ?_, ?_⟩
      · simp [labelNames, Instr.label?, hnames]
      · intro l
        have hlen := congrArg List.length (rest.takeWhile_append_dropWhile (p := Instr.isLabel))
        rw [length_append] at hlen
        rw [lookup_cons, after]
        by_cases hx : l = x
        · subst hx
          simp only [beq_self_eq_true, if_true, Option.map_some, length_cons, Option.some.injEq]
          omega
        · have hne : ¬ Instr.label x = .label l := fun h => hx (Instr.label.inj h).symm
          simp only [beq_eq_false_iff_ne.2 hx, if_neg hne, hlook, hshift, length_cons]
    · have hl : i.label? = none := by
        cases i <;> simp_all [Instr.label?]
      refine ⟨ls, ?_, by simp [labelNames, hl, hnames], ?_⟩
      · simp only [labelsFrom, hls]
        cases i <;> simp_all
      · intro l
        have hne : ¬ i = .label l := fun h => hi ⟨l, h⟩
        rw [after, if_neg hne, hlook, hshift, length_cons]

theorem repeated?_eq_none {seen ls : List String} : repeated? seen ls = none ↔ ls.Nodup ∧ ∀ l ∈ ls, l ∉ seen := by
  induction ls generalizing seen with
  | nil => simp [repeated?]
  | cons l rest ih =>
    rw [repeated?]
    by_cases h : l ∈ seen
    · simp [h]
    · simp only [contains_eq_mem, h, decide_false, Bool.false_eq_true, if_false, ih, nodup_cons,
        mem_cons, not_or]
      grind

theorem labelsOf_eq_ok (h : (labelNames b).Nodup) :
    ∃ ls, labelsOf b = .ok ls ∧ ∀ l, ls.lookup l = (after b l).map fun d => b.length - d.length := by
  obtain ⟨ls, hls, hnames, hlook⟩ := labelsFrom_spec 0 b
  refine ⟨ls, ?_, by simpa using hlook⟩
  have hr : repeated? [] (ls.map Prod.fst) = none := repeated?_eq_none.2 ⟨hnames ▸ h, by simp⟩
  simp only [labelsOf, hls, ok_bind, hr]

def Frame.code (f : Frame) : List Instr := f.body.toList.drop f.pc

structure Frame.Runs (f : Frame) (b : List Instr) : Prop where
  body : f.body = b.toArray
  labels : ∀ l, f.labels.lookup l = (after b l).map fun d => b.length - d.length

theorem Frame.getElem?_of_code (h : f.code = i :: rest) : f.body[f.pc]? = some i := by
  have hc := congrArg List.head? h
  simpa [Frame.code, List.head?_drop] using hc

theorem Frame.code_succ (h : f.code = i :: rest) : ({ f with pc := f.pc + 1 } : Frame).code = rest := by
  have ht := congrArg List.tail h
  simpa [Frame.code] using ht

theorem Frame.Runs.succ (h : f.Runs b) : ({ f with pc := f.pc + 1 } : Frame).Runs b := ⟨h.body, h.labels⟩

theorem Frame.Runs.goTo (h : f.Runs b) (hd : after b l = some d) : ∃ k, f.labels.lookup l = some k ∧ (goTo f l k).code = d := by
  refine ⟨b.length - d.length, by rw [h.labels, hd]; rfl, ?_⟩
  simp only [Frame.code, Checked.goTo, h.body]
  exact (suffix_iff_eq_drop.1 (after_suffix hd)).symm

variable {o : Options}

theorem advance_of_nil (h : f.code = []) (w : World) :
    result (advance o f) w =
      (.ok (.ret .null), { w with output := w.output.push ("// " ++ indent f.depth ++ f.title ++ " --> NONE" ++ "\n") }) := by
  have hn : f.body[f.pc]? = none := by
    simpa [Frame.code] using h
  simp [advance, hn]

theorem advance_of_cons (ho : o.showInstrs = false) (h : f.code = i :: rest) (w : World) :
    result (advance o f) w = result (exec o { f with pc := f.pc + 1 } i) w := by
  simp [advance, Frame.getElem?_of_code h, ho]

structure Twins (f g : Frame) : Prop where
  title : f.title = g.title
  depth : f.depth = g.depth
  params : f.params = g.params

/-- Two frames after the same value was stored, in both under its own name if that is a temporary. -/
inductive Stored (n : String → String) (d : String) (f g : Frame) : Frame → Frame → Prop
  | keep (hg : isGlobalName d = true) : Stored n d f g f g
  | write {v} (hg : isGlobalName d = false) (hv : Store.check v = .ok ()) :
      Stored n d f g { f with temps := Datum.put d v f.temps } { g with temps := Datum.put (n d) v g.temps }

/-- What a plain instruction does to two frames: the same, up to the name of what it writes. -/
inductive Alike (n : String → String) (i : Instr) (f g : Frame) : Effect Frame → Effect Frame → Prop
  | keep (hd : i.dest = none) : Alike n i f g (.go f) (.go g)
  | store {d f' g' : _} (hd : i.dest = some d) (h : Stored n d f g f' g') : Alike n i f g (.go f') (.go g')
  | pass {ps} (hd : i.dest = none ∨ ∃ d name k, i = .call d name k ∧ isPrint name = true) :
      Alike n i f g (.go { f with params := ps }) (.go { g with params := ps })
  | call {name args depth : _} (hi : ∃ d k, i = .call d name k) :
      Alike n i f g (.call f name args depth) (.call g name args depth)

/-- A renaming of results leaves globals alone and makes none. -/
structure KeepsKind (n : String → String) (d : String) : Prop where
  var : isVarName (n d) = isVarName d
  global : isGlobalName (n d) = isGlobalName d
  same : isGlobalName d = true → n d = d

theorem KeepsKind.id (d : String) : KeepsKind (fun x => x) d := ⟨rfl, rfl, fun _ => rfl⟩

@[simp]
theorem result_get (f : Frame) (x : String) (w : World) :
    result (get f x) w = (Store.get ⟨f.temps, w.globals⟩ x, w) := by
  simp [get, Store.read]

theorem result_assign (f : Frame) (d : String) (v : Datum) (w : World) :
    result (assign f d v) w =
      if isVarName d = false then (.error .unassignable, w) else
        match Store.check v with
        | .error e => (.error e, w)
        | .ok _ =>
          if isGlobalName d = true then
            if (w.globals.lookup d).isSome then (.ok f, { w with globals := Datum.put d v w.globals })
            else (.error (.shape (.key (.str d))), w)
          else (.ok { f with temps := Datum.put d v f.temps }, w) := by
  simp only [assign, result_bind, result_write, Store.write, Store.set]
  by_cases hv : isVarName d
  · rcases hc : Store.check v with e | u
    · simp [hv]
    · by_cases hg : isGlobalName d
      · rcases hl : w.globals.lookup d with _ | u
        · simp [hv, hg]
        · simp [hv, hg]
      · simp [hv, hg]
  · simp [hv]

theorem assign_stored {d : String} (hn : KeepsKind n d) (f g : Frame) (v : Datum) (w : World) :
    Agrees (Stored n d f g) (result (assign f d v) w) (result (assign g (n d) v) w) := by
  rw [result_assign, result_assign, hn.var, hn.global]
  by_cases hv : isVarName d
  · rcases hc : Store.check v with e | u
    · simp only [hv, Bool.true_eq_false, if_false]
      exact .error
    · by_cases hg : isGlobalName d
      · rw [hn.same hg]
        rcases hl : w.globals.lookup d with _ | u
        · simp only [hv, hg, Bool.true_eq_false, if_false, if_true, Option.isSome_none, Bool.false_eq_true]
          exact .error
        · simp only [hv, hg, Bool.true_eq_false, if_false, if_true, Option.isSome_some]
          exact .ok (.keep hg)
      · simp only [hv, hg, Bool.true_eq_false, if_false]
        exact .ok (.write (by simpa using hg) hc)
  · simp only [hv, if_true]
    exact .error

theorem passParam_agrees (hp : f.params = g.params) (place : Datum)
    (hread : Store.get ⟨f.temps, w.globals⟩ x = Store.get ⟨g.temps, w.globals⟩ y) :
    Agrees Eq (result (passParam f.temps f.params place (.str x)) w)
      (result (passParam g.temps g.params place (.str y)) w) := by
  simp only [passParam, result_ite, result_bind, result_print, andThen_ok, result_lift, result_read, Store.read, hp]
  rcases Fault.number place with e | k
  · exact Agrees.same
  · simp only [andThen_ok, hread]
    exact Agrees.same

theorem callPrint_agrees {d : Option String} {k : Numeral} (hname : isPrint name) (hp : f.params = g.params) (w : World) :
    Agrees (Alike n (.call d name k) f g) (andThen (result (callPrint o name f.params) w) fun _ w => (.ok (.go { f with params := [] }), w))
      (andThen (result (callPrint o name g.params) w) fun _ w => (.ok (.go { g with params := [] }), w)) := by
  rw [hp]
  exact Agrees.same.andThen fun _ _ _ _ => .ok (.pass (.inr ⟨d, name, k, rfl, hname⟩))

theorem exec_alike (hi : i.isPlain) (ht : Twins f g)
    (hread : ∀ x ∈ i.reads, Store.get ⟨f.temps, w.globals⟩ x = Store.get ⟨g.temps, w.globals⟩ (m x))
    (hn : ∀ d ∈ i.writes, KeepsKind n d) :
    Agrees (Alike n i f g) (result (exec o f i) w) (result (exec o g ((i.renameReads m).renameDest n)) w) := by
  cases i with
  | nop => exact .ok (.keep rfl)
  | label | jmp | jcc | ret | phi | frozenPhi => simp [Instr.isPlain] at hi
  | const d k =>
    simp only [exec, Instr.renameReads, Instr.renameDest, result_bind]
    exact (assign_stored (hn d (by simp [Instr.writes, Instr.dest])) f g _ w).andThen fun _ _ _ h => .ok (.store rfl h)
  | copy d x =>
    simp only [exec, Instr.renameReads, Instr.renameDest, result_bind, result_get, ← hread x (by simp [Instr.reads])]
    refine Agrees.same.andThen ?_
    rintro v _ w rfl
    exact (assign_stored (hn d (by simp [Instr.writes, Instr.dest])) f g _ w).andThen fun _ _ _ h => .ok (.store rfl h)
  | unop op d x =>
    simp only [exec, Instr.renameReads, Instr.renameDest, result_bind, result_get, ← hread x (by simp [Instr.reads]),
      result_lift]
    refine Agrees.same.andThen ?_
    rintro u _ w rfl
    refine Agrees.same.andThen ?_
    rintro v _ w rfl
    exact (assign_stored (hn d (by simp [Instr.writes, Instr.dest])) f g _ w).andThen fun _ _ _ h => .ok (.store rfl h)
  | binop op d x y =>
    have hx := hread x (by simp [Instr.reads])
    have hy := hread y (by simp [Instr.reads])
    simp only [exec, Instr.renameReads, Instr.renameDest, result_bind, result_get, ← hx, result_lift]
    -- Reading leaves the world as it is, so the second operand is read in the world of the first.
    rcases Store.get ⟨f.temps, w.globals⟩ x with e | u
    · exact .error
    · simp only [andThen_ok, ← hy]
      refine Agrees.same.andThen ?_
      rintro v _ w rfl
      refine Agrees.same.andThen ?_
      rintro r _ w rfl
      exact (assign_stored (hn d (by simp [Instr.writes, Instr.dest])) f g _ w).andThen fun _ _ _ h => .ok (.store rfl h)
  | param k x =>
    simp only [exec, Instr.renameReads, Instr.renameDest, result_bind]
    refine (passParam_agrees ht.params k.toDatum (hread x (by simp [Instr.reads]))).andThen ?_
    rintro ps _ w rfl
    exact .ok (.pass (.inl rfl))
  | call d h k =>
    simp only [exec, Instr.renameReads, Instr.renameDest, result_ite, result_bind, result_pure]
    by_cases hp : isPrint h
    · simp only [hp, if_true]
      exact callPrint_agrees hp ht.params w
    · simp only [hp, ← ht.params, ← ht.depth]
      exact Agrees.same.andThen fun _ _ _ _ => .ok (.call ⟨d, k, rfl⟩)

theorem exec_ret_agrees {rel wait : Frame → Frame → Prop} {x y : Option String} (hy : y = x.map m) (ht : Twins f g)
    (hread : ∀ z ∈ x, Store.get ⟨f.temps, w.globals⟩ z = Store.get ⟨g.temps, w.globals⟩ (m z)) :
    Agrees (Effect.Matches rel wait) (result (exec o f (.ret x)) w) (result (exec o g (.ret y)) w) := by
  subst hy
  cases x with
  | none =>
    simp only [exec, Option.map_none, ← ht.title, ← ht.depth, result_ite, result_bind, result_pure, result_print, andThen_ok]
    split <;> exact .ok .ret
  | some x =>
    simp only [exec, Option.map_some, ← ht.title, ← ht.depth, result_bind, result_get, ← hread x rfl]
    refine Agrees.same.andThen ?_
    rintro v _ w rfl
    simp only [result_ite, result_bind, result_pure, result_print, andThen_ok]
    split <;> exact .ok .ret

def Frame.caller (f : Frame) : Option String := (f.body[f.pc - 1]?).bind Instr.dest

theorem Frame.caller_succ (h : f.code = i :: rest) : ({ f with pc := f.pc + 1 } : Frame).caller = i.dest := by
  simp [Frame.caller, Frame.getElem?_of_code h]

inductive Resumed (n : String → String) (f g : Frame) : Frame → Frame → Prop
  | keep (hd : ∀ d, f.caller = some d → isGlobalName d = true) :
      Resumed n f g { f with params := [] } { g with params := [] }
  | write {d v : _} (hd : f.caller = some d) (hg : isGlobalName d = false) (hv : Store.check v = .ok ()) :
      Resumed n f g { f with params := [], temps := Datum.put d v f.temps }
        { g with params := [], temps := Datum.put (n d) v g.temps }

theorem result_resume (f : Frame) (v : Datum) (w : World) :
    result (resume f v) w = match f.caller with
      | some d => andThen (result (assign f d v) w) fun f' w => (.ok { f' with params := [] }, w)
      | none => (.ok { f with params := [] }, w) := by
  unfold resume Frame.caller
  cases (f.body[f.pc - 1]?).bind Instr.dest with
  | none => rfl
  | some d => simp

theorem resume_resumed (hd : g.caller = f.caller.map n) (hn : ∀ d, f.caller = some d → KeepsKind n d) (v : Datum) (w : World) :
    Agrees (Resumed n f g) (result (resume f v) w) (result (resume g v) w) := by
  rw [result_resume, result_resume, hd]
  rcases hc : f.caller with _ | d
  · exact .ok (.keep fun d hd => by simp [hc] at hd)
  · refine (assign_stored (hn d hc) f g v w).andThen ?_
    rintro f' g' w (hg | ⟨hg, hv⟩)
    · refine .ok (.keep fun d' hd' => ?_)
      rw [hc, Option.some.injEq] at hd'
      exact hd' ▸ hg
    · exact .ok (.write hc hg hv)

theorem result_exec_jmp {k : Nat} (h : f.labels.lookup l = some k) (w : World) :
    result (exec o f (.jmp l)) w = (.ok (.go (goTo f l k)), w) := by
  simp [exec, target, h]

inductive Branches (d d' : List Instr) (l l' : String) (f g : Frame) : Effect Frame → Effect Frame → Prop
  | taken {k k'} (hk : (goTo f l k).code = d) (hk' : (goTo g l' k').code = d') :
      Branches d d' l l' f g (.go (goTo f l k)) (.go (goTo g l' k'))
  | passed : Branches d d' l l' f g (.go f) (.go g)

theorem exec_jcc_agrees {c : Word.Cond} {l' : String} {d' : List Instr}
    (hread : Store.get ⟨f.temps, w.globals⟩ x = Store.get ⟨g.temps, w.globals⟩ y) (hf : f.Runs b) (hg : g.Runs b')
    (hd : after b l = some d) (hd' : after b' l' = some d') :
    Agrees (Branches d d' l l' f g) (result (exec o f (.jcc c x l)) w) (result (exec o g (.jcc c y l')) w) := by
  obtain ⟨k, hk, hkd⟩ := hf.goTo hd
  obtain ⟨k', hk', hkd'⟩ := hg.goTo hd'
  simp only [exec, result_bind, result_get, ← hread, target, hk, hk', result_pure, result_lift]
  refine Agrees.same.andThen ?_
  rintro v _ w rfl
  simp only [andThen_ok]
  refine Agrees.same.andThen ?_
  rintro t _ w rfl
  cases t with
  | true => exact .ok (.taken hkd hkd')
  | false => exact .ok .passed

theorem exec_unknown_agrees (ht : i.target? = some l) (hf : f.Runs b) (hg : g.Runs b') (hl : after b l = none)
    (hl' : after b' l = none) (hread : ∀ x ∈ i.reads, Store.get ⟨f.temps, w.globals⟩ x = Store.get ⟨g.temps, w.globals⟩ (m x))
    {R : Effect Frame → Effect Frame → Prop} : Agrees R (result (exec o f i) w) (result (exec o g (i.renameReads m)) w) := by
  have hnone : f.labels.lookup l = none := by rw [hf.labels, hl]; rfl
  have hnone' : g.labels.lookup l = none := by rw [hg.labels, hl']; rfl
  cases i with
  | jmp k =>
    cases ht
    simp only [exec, Instr.renameReads, target, hnone, hnone', result_bind, result_throw, andThen_error]
    exact .error
  | jcc c x k =>
    cases ht
    simp only [exec, Instr.renameReads, result_bind, result_get, ← hread x (by simp [Instr.reads]), target, hnone, hnone']
    refine Agrees.same.andThen ?_
    rintro v _ w rfl
    simp only [result_throw, andThen_error]
    exact .error
  | _ => cases ht

theorem result_exec_label (f : Frame) (l : String) (w : World) :
    result (exec o f (.label l)) w = (.ok (.go { f with previous := some f.current, current := l }), w) := rfl

def Bound (t : Fields) (x : String) : Prop := ∃ v, t.lookup x = some v ∧ Store.check v = .ok ()

theorem write_bound {temps temps' : Fields} {d v : Datum} (h : result (write temps d v) w = (.ok temps', w')) :
    (∀ x, Bound temps x → Bound temps' x) ∧ ∀ x, d = .str x → isGlobalName x = false → Bound temps' x := by
  rw [result_write] at h
  obtain ⟨s, w₁, hs, h⟩ := andThen_eq_ok h
  cases h
  cases d with
  | str y =>
    simp only [Prod.mk.injEq, Store.write, Store.set] at hs
    obtain ⟨hs, -⟩ := hs
    split at hs
    · cases hs
    · obtain ⟨_, hv, hs⟩ := bind_eq_ok.1 hs
      split at hs
      · next hy =>
          split at hs
          · cases hs
            refine ⟨fun _ h => h, ?_⟩
            rintro x ⟨⟩ hg
            simp [hg] at hy
          · cases hs
      · cases hs
        refine ⟨fun x hx => ?_, ?_⟩
        · rcases eq_or_ne x y with rfl | hne
          · exact ⟨v, lookup_put_self _ _ _, hv⟩
          · rwa [Bound, lookup_put_ne hne]
        · rintro x ⟨⟩ -
          exact ⟨v, lookup_put_self _ _ _, hv⟩
  | _ => simp [Store.write] at hs

theorem bind_bound {params : List Datum} {args : Datum} {temps : Fields} (h : result (bind params args) w = (.ok temps, w'))
    (hx : .str x ∈ params) (hg : isGlobalName x = false) : Bound temps x := by
  suffices key : ∀ (L : List (Datum × Nat)) (t₀ : Fields) (w : World),
      result (L.foldlM (fun temps e => do write temps e.1 (← lift ((args.item e.2).mapError .shape))) t₀) w = (.ok temps, w') →
      (Bound t₀ x ∨ ∃ k, (.str x, k) ∈ L) → Bound temps x by
    obtain ⟨k, hk⟩ := List.getElem?_of_mem hx
    exact key _ _ _ h (.inr ⟨k, mem_zipIdx_iff_getElem?.2 (by simpa using hk)⟩)
  intro L
  induction L with
  | nil =>
    rintro t₀ w h (ht | ⟨k, hk⟩)
    · cases h
      exact ht
    · simp at hk
  | cons e L ih =>
    intro t₀ w h ht
    rw [foldlM_cons, result_bind] at h
    obtain ⟨t₁, w₁, h₁, h⟩ := andThen_eq_ok h
    rw [result_bind] at h₁
    obtain ⟨v, w₀, -, h₁⟩ := andThen_eq_ok h₁
    obtain ⟨hkeep, hnew⟩ := write_bound h₁
    apply ih t₁ w₁ h
    rcases ht with ht | ⟨k, hk⟩
    · exact .inl (hkeep x ht)
    · rcases mem_cons.1 hk with rfl | hk
      · exact .inl (hnew x rfl hg)
      · exact .inr ⟨k, hk⟩

structure Started (name : String) (params : List Datum) (b : List Instr) (f : Frame) : Prop where
  runs : f.Runs b
  code : f.code = b
  before : f.before = f.temps
  previous : f.previous = none
  current : f.current = name
  bound : ∀ x, .str x ∈ params → isGlobalName x = false → Bound f.temps x

theorem enter_agrees {procs procs' : List (String × Proc Instr)} {p p' : Proc Instr} (hp : procs.lookup name = some p)
    (hp' : procs'.lookup name = some p') (hparams : p.params = p'.params) (hl : (labelNames p.body).Nodup)
    (hl' : (labelNames p'.body).Nodup) (args : Datum) (depth : Int) (w : World) :
    Agrees (fun f g => Started name p.params p.body f ∧ Started name p.params p'.body g ∧ Twins f g ∧ f.temps = g.temps)
      (result (enter o procs name args depth) w) (result (enter o procs' name args depth) w) := by
  obtain ⟨ls, hls, hlook⟩ := labelsOf_eq_ok hl
  obtain ⟨ls', hls', hlook'⟩ := labelsOf_eq_ok hl'
  simp only [enter, hp, hp', ← hparams, result_bind, result_ite, result_print, andThen_ok, hls, hls', result_lift, result_pure]
  rcases hb : result (bind p.params args) w with ⟨e | temps, w₁⟩
  · exact .error
  · have hbound := fun x => bind_bound (x := x) hb
    simp only [andThen_ok]
    split <;>
      exact .ok ⟨⟨⟨rfl, hlook⟩, by simp [Frame.code], rfl, rfl, rfl, hbound⟩,
        ⟨⟨rfl, hlook'⟩, by simp [Frame.code], rfl, rfl, rfl, hbound⟩, ⟨rfl, rfl, rfl⟩, rfl⟩

theorem enter_same {procs procs' : List (String × Proc Instr)} (h : procs.lookup name = procs'.lookup name)
    {R : Frame → Frame → Prop} (hR : ∀ f, R f f) (args : Datum) (depth : Int) (w : World) :
    Agrees R (result (enter o procs name args depth) w) (result (enter o procs' name args depth) w) := by
  unfold enter
  rw [h]
  exact Agrees.same.mono fun f _ hf => hf ▸ hR f

end Run.Checked

end Bx.Tac
