import Bx.Proofs.Basic
import Bx.Proofs.Run.Simulation
import Bx.Tac.Run.Loose

namespace Bx.Tac

open List

variable {b d c b' : List Record} {l s : String} {r : Record} {f g f' : Frame}
variable {R : Fields → List Record → List Record → Prop}
variable {procs procs' : List (String × Proc Record)}

namespace Record

def label? (r : Record) : Option String := if r.opcode.is "label" then (r.arg 0).string? else none

def test? (r : Record) : Option Word.Cond := r.opcode.string?.bind Word.Cond.ofName?

def target? (r : Record) : Option String :=
  if r.opcode.is "jmp" then (r.arg 0).string? else if r.test?.isSome then (r.arg 1).string? else none

end Record

theorem Datum.is_iff {d : Datum} : d.is s ↔ d = .str s := by
  cases d <;> simp [Datum.is]

theorem Datum.string?_eq_some {d : Datum} : d.string? = some s ↔ d = .str s := by
  cases d <;> simp [Datum.string?]

namespace Run.Loose

variable {o : Options}

def labelNames (b : List Record) : List String := b.filterMap Record.label?

@[simp]
theorem labelNames_append (b c : List Record) : labelNames (b ++ c) = labelNames b ++ labelNames c := filterMap_append

structure Labelled (b : List Record) : Prop where
  named : ∀ r ∈ b, r.opcode.is "label" = true → ∃ l, r.label? = some l
  nodup : (labelNames b).Nodup

def after : List Record → String → Option (List Record)
  | [], _ => none
  | r :: rest, l => if r.label? = some l then some rest else after rest l

theorem after_suffix (h : after b l = some d) : d <:+ b := by
  induction b with
  | nil => cases h
  | cons r rest ih =>
    rw [after] at h
    split at h
    · cases h
      exact suffix_cons r _
    · exact (ih h).trans (suffix_cons r rest)

theorem after_append_of_notMem (h : l ∉ labelNames b) : after (b ++ c) l = after c l := by
  induction b with
  | nil => rfl
  | cons r rest ih =>
    rw [labelNames, filterMap_cons] at h
    have hr : r.label? ≠ some l := by
      intro hl
      simp [hl] at h
    rw [cons_append, after, if_neg hr]
    refine ih fun hl => h ?_
    cases r.label? with
    | none => exact hl
    | some _ => exact mem_cons_of_mem _ hl

theorem after_label (hr : r.label? = some l) (h : l ∉ labelNames b) : after (b ++ r :: c) l = some c := by
  rw [after_append_of_notMem h, after, if_pos hr]

theorem after_of_suffix (hb : (labelNames b).Nodup) (hr : r.label? = some l) (h : r :: c <:+ b) : after b l = some c := by
  obtain ⟨a, rfl⟩ := h
  apply after_label hr
  intro ha
  rw [labelNames, filterMap_append, filterMap_cons, hr] at hb
  exact (nodup_append.1 hb).2.2 l ha l mem_cons_self rfl

theorem exists_of_mem_labelNames (h : l ∈ labelNames b) : ∃ r c, r :: c <:+ b ∧ r.label? = some l := by
  obtain ⟨r, hr, hl⟩ := mem_filterMap.1 h
  obtain ⟨a, c, rfl⟩ := append_of_mem hr
  exact ⟨r, c, suffix_append a _, hl⟩

def placesFrom : Nat → List Record → List (Datum × Nat)
  | _, [] => []
  | k, r :: rest => match r.label? with
    | some l => (.str l, k + 1) :: placesFrom (k + 1) rest
    | none => placesFrom (k + 1) rest

theorem same_str (d : Datum) (l : String) : d.same (.str l) ↔ d = .str l := by
  cases d <;> simp [Datum.same]

theorem target?_append {t t' : List (Datum × Nat)} (h : target? t (.str l) = .ok none) :
    target? (t ++ t') (.str l) = target? t' (.str l) := by
  simp only [target?, Datum.isKey, if_true, Except.ok.injEq, Option.map_eq_none_iff] at h ⊢
  rw [List.find?_append, h]
  rfl

theorem target?_placesFrom (k : Nat) (b : List Record) (l : String) :
    target? (placesFrom k b) (.str l) = .ok ((after b l).map fun d => k + (b.length - d.length)) := by
  simp only [target?, Datum.isKey, if_true, Except.ok.injEq]
  induction b generalizing k with
  | nil => rfl
  | cons r rest ih =>
    have hshift : ((after rest l).map fun d => k + 1 + (rest.length - d.length)) =
        (after rest l).map fun d => k + (rest.length + 1 - d.length) := by
      refine Option.map_congr fun d hd => ?_
      have := (after_suffix hd).length_le
      omega
    rw [placesFrom, after]
    cases hr : r.label? with
    | none => simpa [hshift] using ih (k + 1)
    | some x =>
      rw [List.find?_cons]
      by_cases hx : x = l
      · subst hx
        simp [Datum.same]
      · simpa [Datum.same, beq_eq_false_iff_ne.2 hx, hx, hshift] using ih (k + 1)

def addLabel (labels : List (Datum × Nat)) (x : Record × Nat) : Except Fault (List (Datum × Nat)) :=
  if x.1.opcode.is "label" then do
    match ← target? labels (x.1.arg 0) with
    | some _ => .error (.reusedLabel (x.1.arg 0))
    | none => .ok (labels ++ [(x.1.arg 0, x.2 + 1)])
  else .ok labels

theorem Labelled.tail (h : Labelled (r :: b)) : Labelled b :=
  ⟨fun r' hr' => h.named r' (mem_cons_of_mem r hr'), (List.Sublist.filterMap _ (sublist_cons_self r b)).nodup h.nodup⟩

theorem foldlM_addLabel (hb : Labelled b) (k : Nat) {labels : List (Datum × Nat)}
    (h : ∀ l ∈ labelNames b, target? labels (.str l) = .ok none) :
    (b.zipIdx k).foldlM addLabel labels = .ok (labels ++ placesFrom k b) := by
  induction b generalizing k labels with
  | nil =>
    rw [placesFrom, append_nil]
    rfl
  | cons r b ih =>
    have hmem : ∀ x ∈ labelNames b, x ∈ labelNames (r :: b) := fun x hx =>
      (List.Sublist.filterMap _ (sublist_cons_self r b)).subset hx
    rw [zipIdx_cons, foldlM_cons, placesFrom, addLabel]
    by_cases hl : r.opcode.is "label"
    · obtain ⟨l, hrl⟩ := hb.named r mem_cons_self hl
      have harg : r.arg 0 = .str l := by
        rw [Record.label?, if_pos hl, Datum.string?_eq_some] at hrl
        exact hrl
      have hn := hb.nodup
      rw [labelNames, filterMap_cons, hrl, nodup_cons] at hn
      simp only [hl, if_true, harg, h l (by simp [labelNames, hrl]), ok_bind, hrl]
      rw [ih hb.tail (k + 1) fun x hx => ?_, append_assoc]
      · rfl
      · have hne : l ≠ x := fun hlx => hn.1 (hlx ▸ hx)
        rw [target?_append (h x (hmem x hx))]
        simp [target?, Datum.isKey, Datum.same, hne]
    · have hrl : r.label? = none := by rw [Record.label?, if_neg hl]
      simp only [Bool.eq_false_iff.2 hl, Bool.false_eq_true, if_false, ok_bind, hrl]
      exact ih hb.tail (k + 1) fun x hx => h x (hmem x hx)

theorem labelsOf_eq (hb : Labelled b) : labelsOf b = .ok (placesFrom 0 b) :=
  foldlM_addLabel hb 0 (fun _ _ => rfl)

def Frame.code (f : Frame) : List Record := f.body.toList.drop f.pc

structure Frame.Runs (f : Frame) (b : List Record) : Prop where
  body : f.body = b.toArray
  labels : f.labels = placesFrom 0 b

structure Twins (f g : Frame) : Prop where
  title : f.title = g.title
  depth : f.depth = g.depth
  params : f.params = g.params
  temps : f.temps = g.temps

theorem Frame.getElem?_of_code (h : f.code = r :: c) : f.body[f.pc]? = some r := by
  have hget := congrArg (fun code : List Record => code[0]?) h
  simpa [Frame.code] using hget

theorem Frame.Runs.jump (hf : f.Runs b) (hd : after b l = some d) :
    ∃ k, Loose.jump f (.str l) = .ok k ∧ ({ f with pc := k } : Frame).code = d := by
  refine ⟨0 + (b.length - d.length), ?_, ?_⟩
  · rw [Loose.jump, hf.labels, target?_placesFrom, hd]
    rfl
  · obtain ⟨a, rfl⟩ := after_suffix hd
    simp [Frame.code, hf.body]

theorem advance_of_nil (h : f.code = []) (w : World) :
    result (advance o f) w =
      (.ok (.ret .null), { w with output := w.output.push (("// " ++ indent f.depth ++ f.title ++ " --> NONE") ++ "\n") }) := by
  have hpc : f.body.size ≤ f.pc := by simpa [Frame.code] using h
  simp [advance, hpc]

theorem advance_of_cons (ho : o.showInstrs = false) (h : f.code = r :: c) : advance o f = exec o f r := by
  simp [advance, Frame.getElem?_of_code h, ho]

theorem result_exec_pass (hr : r.opcode = .str "label" ∨ r.opcode = .str "nop") (w : World) :
    result (exec o f r) w = (.ok (.go { f with pc := f.pc + 1 }), w) := by
  rcases hr with hr | hr <;> simp [exec, hr]

theorem result_exec_jmp {k : Nat} (hr : r.opcode = .str "jmp") (hl : r.arg 0 = .str l) (hk : Loose.jump f (.str l) = .ok k)
    (w : World) : result (exec o f r) w = (.ok (.go { f with pc := k }), w) := by
  simp [exec, hr, hl, hk]

theorem agrees_bind {α β γ : Type} {R : β → γ → Prop} (a : Action α) {k : α → Action β} {k' : α → Action γ} {w : World}
    (h : ∀ x w', result a w = (.ok x, w') → Agrees R (result (k x) w') (result (k' x) w')) :
    Agrees R (result (a >>= k) w) (result (a >>= k') w) := by
  rw [result_bind, result_bind]
  rcases hx : result a w with ⟨e | x, w'⟩
  · exact .error
  · exact h x w' hx

theorem leave_agrees {φ ψ : Type} {R : Effect φ → Effect ψ → Prop} {v : Datum} (h : R (.ret v) (.ret v)) (s : String) (w : World) :
    Agrees R (result (do if o.showProcs then print s
                         return .ret v) w)
      (result (do if o.showProcs then print s
                  return .ret v) w) := by
  split
  · exact agrees_bind _ fun _ w _ => .ok h
  · exact .ok h

def Kept (x : Datum) (t t' : Fields) : Prop := ∀ y, x ≠ .str y → t'.lookup y = t.lookup y

theorem Kept.refl (x : Datum) (t : Fields) : Kept x t t := fun _ _ => rfl

theorem kept_of_write {t t' : Fields} {x v : Datum} {w w' : World} (h : result (write t x v) w = (.ok t', w')) : Kept x t t' := by
  intro y hy
  rw [result_write] at h
  obtain ⟨s, w₁, hs, h⟩ := andThen_eq_ok h
  obtain ⟨rfl, -⟩ := Prod.mk.inj h |>.imp_left Except.ok.inj
  obtain ⟨hs, -⟩ := Prod.mk.inj hs
  cases x with
  | str x =>
    have hne : y ≠ x := fun he => hy (by rw [he])
    rw [Store.write, Store.set] at hs
    split at hs
    · cases hs
    · obtain ⟨-, -, hs⟩ := bind_eq_ok.1 hs
      split at hs
      · split at hs
        · cases hs
          rfl
        · cases hs
      · cases hs
        exact lookup_put_ne hne v t
  | _ => cases hs

structure Frame.Next (f f' : Frame) : Prop where
  body : f'.body = f.body
  labels : f'.labels = f.labels
  pc : f'.pc = f.pc + 1

theorem Frame.Next.runs (h : f.Next f') (hf : f.Runs b) : f'.Runs b :=
  ⟨h.body.trans hf.body, h.labels.trans hf.labels⟩

theorem Frame.Next.code (h : f.Next f') (hc : f.code = r :: c) : f'.code = c := by
  rw [Frame.code, h.body, h.pc]
  have htail := congrArg List.tail hc
  simpa [Frame.code] using htail

theorem Frame.code_succ (hc : f.code = r :: c) : ({ f with pc := f.pc + 1 } : Frame).code = c :=
  (show f.Next { f with pc := f.pc + 1 } from ⟨rfl, rfl, rfl⟩).code hc

structure Moved (x : Datum) (f g f' g' : Frame) : Prop where
  left : f.Next f'
  right : g.Next g'
  twins : Twins f' g'
  kept : Kept x f.temps f'.temps

theorem assign_agrees (h : Twins f g) (x v : Datum) (w : World) :
    Agrees (Moved x f g) (result (assign f x v) w) (result (assign g x v) w) := by
  rw [assign, assign, ← h.temps]
  exact agrees_bind _ fun t w ht => .ok ⟨⟨rfl, rfl, rfl⟩, ⟨rfl, rfl, rfl⟩, ⟨h.title, h.depth, h.params, rfl⟩, kept_of_write ht⟩

def Stepped (r : Record) (f g : Frame) : Effect Frame → Effect Frame → Prop :=
  Effect.Matches (fun f' g' => r.opcode ≠ .str "ret" ∧ Moved r.result f g f' g') fun f' g' => r.opcode ≠ .str "ret" ∧ f' = f ∧ g' = g

theorem compute_agrees {op : String} (hop : r.opcode = .str op) (ht : r.test? = none) (hret : op ≠ "ret") (h : Twins f g)
    (w : World) : Agrees (Stepped r f g) (result (compute f r op) w) (result (compute g r op) w) := by
  have hcond : Word.Cond.ofName? op = none := by simpa [Record.test?, hop, Datum.string?] using ht
  have hne : r.opcode ≠ .str "ret" := by simpa [hop] using hret
  have store : ∀ v w, Agrees (Stepped r f g) (result (do return Effect.go (← assign f r.result v)) w)
      (result (do return Effect.go (← assign g r.result v)) w) := by
    intro v w
    rw [result_bind, result_bind]
    exact (assign_agrees h r.result v w).andThen fun f' g' w hm => .ok (.go ⟨hne, hm⟩)
  simp only [compute, hcond, h.temps]
  cases Word.Binop.ofName? op with
  | some b => exact agrees_bind _ fun u w _ => agrees_bind _ fun v w _ => agrees_bind _ fun x w _ => store x w
  | none =>
    cases Word.Unop.ofName? op with
    | some u =>
      refine agrees_bind _ fun v w _ => ?_
      split
      · exact agrees_bind _ fun _ w _ => agrees_bind _ fun x w _ => store x w
      · exact agrees_bind _ fun x w _ => store x w
    | none => exact .error

theorem callProc_agrees (hr : r.opcode ≠ .str "ret") (h : Twins f g) (callee announced : Datum) (w : World) :
    Agrees (Stepped r f g) (result (callProc o f callee announced) w) (result (callProc o g callee announced) w) := by
  cases callee with
  | str name =>
    unfold callProc
    rw [h.params, h.depth]
    dsimp only
    split
    · exact agrees_bind _ fun _ w _ => .ok (.go ⟨hr, ⟨rfl, rfl, rfl⟩, ⟨rfl, rfl, rfl⟩, ⟨h.title, rfl, rfl, h.temps⟩, .refl _ _⟩)
    · exact agrees_bind _ fun _ w _ => .ok (.call ⟨hr, rfl, rfl⟩)
  | _ => exact .error

theorem return_agrees (h : Twins f g) (x : Datum) (w : World) :
    Agrees (Stepped r f g) (result (return_ o f x) w) (result (return_ o g x) w) := by
  rw [return_, return_, h.temps, h.depth, h.title]
  split
  · exact leave_agrees .ret _ w
  · exact agrees_bind _ fun v w _ => leave_agrees .ret _ w

theorem exec_alike (hj : r.opcode ≠ .str "jmp") (ht : r.test? = none) (h : Twins f g) (w : World) :
    Agrees (Stepped r f g) (result (exec o f r) w) (result (exec o g r) w) := by
  have move : Moved r.result f g { f with pc := f.pc + 1 } { g with pc := g.pc + 1 } :=
    ⟨⟨rfl, rfl, rfl⟩, ⟨rfl, rfl, rfl⟩, ⟨h.title, h.depth, h.params, h.temps⟩, .refl _ _⟩
  have store : r.opcode ≠ .str "ret" → ∀ v w, Agrees (Stepped r f g) (result (do return Effect.go (← assign f r.result v)) w)
      (result (do return Effect.go (← assign g r.result v)) w) := by
    intro hr v w
    rw [result_bind, result_bind]
    exact (assign_agrees h r.result v w).andThen fun f' g' w hm => .ok (.go ⟨hr, hm⟩)
  unfold exec
  split
  · next hop => exact .ok (.go ⟨by simp [hop], move⟩)
  · next hop => exact .ok (.go ⟨by simp [hop], move⟩)
  · next hop => exact absurd hop hj
  · next hop =>
      cases (r.arg 0).number? with
      | none => exact .error
      | some n => exact store (by simp [hop]) _ w
  · next hop =>
      rw [h.temps]
      exact agrees_bind _ fun v w _ => store (by simp [hop]) v w
  · next hop =>
      rw [h.temps, h.params]
      exact agrees_bind _ fun ps w _ => .ok (.go ⟨by simp [hop], ⟨rfl, rfl, rfl⟩, ⟨rfl, rfl, rfl⟩, ⟨h.title, h.depth, rfl, rfl⟩, fun _ _ => by rw [h.temps]⟩)
  · next hop => exact callProc_agrees (by simp [hop]) h _ _ w
  · exact return_agrees h _ w
  · next op _ _ _ _ _ _ _ hret hop => exact compute_agrees hop ht (by simpa using hret) h w
  · split
    · exact .error
    · exact .error

def Succeeds (r : Record) (t : Fields) : Prop :=
  ∃ q x v, r.test? = some q ∧ r.arg 0 = .str x ∧ isGlobalName x = false ∧ t.lookup x = some v ∧ holds q v = .ok true

theorem exec_test {q : Word.Cond} (hq : r.test? = some q) : exec o f r = do
    let k ← read f.temps (r.arg 0)
    let there ← lift (Loose.jump f (r.arg 1))
    return .go { f with pc := if ← lift (holds q k) then there else f.pc + 1 } := by
  obtain ⟨op, hop, hq⟩ := Option.bind_eq_some_iff.1 hq
  rw [Datum.string?_eq_some] at hop
  have none_of : ∀ s, r.opcode = .str s → Word.Cond.ofName? s = some q := fun s hs => by
    rw [hop, Datum.str.injEq] at hs
    rwa [← hs]
  unfold exec
  split
  case h_9 op' _ _ _ _ _ _ _ _ hop' => simp only [compute, none_of _ hop']
  case h_10 hne => exact absurd hop (hne op)
  all_goals
    next hs => exact absurd (none_of _ hs) (by cases q <;> decide)

inductive Slides (b : List Record) (t : Fields) : List Record → List Record → Prop
  | pass {r c : _} (hr : r.opcode = .str "label" ∨ r.opcode = .str "nop") : Slides b t (r :: c) c
  | jmp {r l c d : _} (hr : r.opcode = .str "jmp") (hl : r.arg 0 = .str l) (h : after b l = some d) : Slides b t (r :: c) d
  | test {r l c d : _} (hr : Succeeds r t) (hl : r.arg 1 = .str l) (h : after b l = some d) : Slides b t (r :: c) d

/-- The same happens, with places in relation behind. The relation may depend on what is in memory. -/
inductive Pairs (b b' : List Record) (R : Fields → List Record → List Record → Prop) (t : Fields) : List Record → List Record → Prop
  | ended : Pairs b b' R t [] []
  | both {c c' d d' : _} (h : Slides b t c d) (h' : Slides b' t c' d') (hr : R t d d') : Pairs b b' R t c c'
  | plain {r c c' : _} (hj : r.opcode ≠ .str "jmp") (hq : r.test? = none)
      (h : r.opcode ≠ .str "ret" → ∀ t', Kept r.result t t' → R t' c c') : Pairs b b' R t (r :: c) (r :: c')
  | test {r q l c c' d d' : _} (hq : r.test? = some q) (hl : r.arg 1 = .str l) (hd : after b l = some d) (hd' : after b' l = some d')
      (h : (∀ x, r.arg 0 = .str x → isGlobalName x = false → Succeeds r t) → R t d d') (hc : R t c c') :
      Pairs b b' R t (r :: c) (r :: c')

def Closed (b b' : List Record) (R : Nat → Fields → List Record → List Record → Prop) : Prop :=
  ∀ n t c c', R n t c c' →
    (∃ d, ∃ k < n, Slides b t c d ∧ R k t d c') ∨ (∃ d', ∃ k < n, Slides b' t c' d' ∧ R k t c d') ∨
    Pairs b b' (fun t c c' => ∃ n, R n t c c') t c c'

/-- Two bodies that do the same, place by place. -/
structure SameCode (b b' : List Record) : Prop where
  labelled : Labelled b
  labelled' : Labelled b'
  related : ∃ R, Closed b b' R ∧ ∀ t, ∃ n, R n t b b'

theorem Pairs.symm {t : Fields} {c' : List Record} (h : Pairs b b' R t c c') : Pairs b' b (fun t c c' => R t c' c) t c' c := by
  cases h with
  | ended => exact .ended
  | both h h' hr => exact .both h' h hr
  | plain hj hq h => exact .plain hj hq h
  | test hq hl hd hd' h hc => exact .test hq hl hd' hd h hc

theorem SameCode.symm (h : SameCode b b') : SameCode b' b := by
  obtain ⟨hb, hb', R, hR, hstart⟩ := h
  refine ⟨hb', hb, fun n t c c' => R n t c' c, fun n t c c' hr => ?_, hstart⟩
  rcases hR n t c' c hr with h | h | h
  · exact .inr (.inl h)
  · exact .inl h
  · exact .inr (.inr h.symm)

structure Paired (b b' : List Record) (R : Fields → List Record → List Record → Prop) (f g : Frame) : Prop where
  runs : f.Runs b
  runs' : g.Runs b'
  twins : Twins f g
  code : R f.temps f.code g.code

structure Waiting (b b' : List Record) (R : Fields → List Record → List Record → Prop) (f g : Frame) : Prop where
  runs : f.Runs b
  runs' : g.Runs b'
  twins : Twins f g
  code : ∃ r c c', f.code = r :: c ∧ g.code = r :: c' ∧ ∀ t, Kept r.result f.temps t → R t c c'

theorem Slides.quiet (ho : o.showInstrs = false) (procs : List (String × Proc Record)) (hf : f.Runs b)
    (h : Slides b f.temps f.code d) :
    ∃ k, Quiet (semantics o procs) f { f with pc := k } ∧ ({ f with pc := k } : Frame).code = d := by
  generalize hc : f.code = c at h
  cases h with
  | pass hr =>
    refine ⟨f.pc + 1, fun w => ?_, Frame.code_succ hc⟩
    rw [show (semantics o procs).advance f = exec o f _ from advance_of_cons ho hc, result_exec_pass hr]
  | jmp hr hl hd =>
    obtain ⟨k, hk, hkd⟩ := hf.jump hd
    refine ⟨k, fun w => ?_, hkd⟩
    rw [show (semantics o procs).advance f = exec o f _ from advance_of_cons ho hc, result_exec_jmp hr hl hk]
  | test hr hl hd =>
    obtain ⟨k, hk, hkd⟩ := hf.jump hd
    obtain ⟨q, x, v, hq, hx, hg, hv, hholds⟩ := hr
    refine ⟨k, fun w => ?_, hkd⟩
    rw [show (semantics o procs).advance f = exec o f _ from advance_of_cons ho hc, exec_test hq]
    simp [hx, Store.read, Store.get, hg, Store.find, hv, hl, hk, hholds]

theorem Waiting.resume (h : Waiting b b' R f g) (v : Datum) (w : World) :
    Agrees (Paired b b' R) (result (resume f v) w) (result (resume g v) w) := by
  obtain ⟨hf, hg, ht, r, c, c', hc, hc', hR⟩ := h
  simp only [Loose.resume, Frame.getElem?_of_code hc, Frame.getElem?_of_code hc', Option.getD_some, result_bind]
  refine (assign_agrees ht r.result v w).andThen fun f' g' w hm => .ok ⟨?_, ?_, ⟨hm.twins.title, hm.twins.depth, rfl, hm.twins.temps⟩, ?_⟩
  · exact ⟨(hm.left.runs hf).body, (hm.left.runs hf).labels⟩
  · exact ⟨(hm.right.runs hg).body, (hm.right.runs hg).labels⟩
  · have hleft : f'.code = c := hm.left.code hc
    have hright : g'.code = c' := hm.right.code hc'
    have hrel := hR f'.temps hm.kept
    rw [← hleft, ← hright] at hrel
    exact hrel

theorem Pairs.advance (ho : o.showInstrs = false) (hf : f.Runs b) (hg : g.Runs b') (ht : Twins f g)
    (h : Pairs b b' R f.temps f.code g.code) (w : World) :
    Agrees (Effect.Matches (Paired b b' R) (Waiting b b' R)) (result (advance o f) w) (result (advance o g) w) := by
  generalize hc : f.code = c at h
  generalize hc' : g.code = c' at h
  cases h with
  | ended =>
    rw [advance_of_nil hc, advance_of_nil hc', ht.title, ht.depth]
    exact .ok .ret
  | both h h' hr =>
    obtain ⟨k, hq, hk⟩ := Slides.quiet ho [] hf (hc ▸ h)
    obtain ⟨k', hq', hk'⟩ := Slides.quiet ho [] hg (hc' ▸ ht.temps ▸ h')
    have hl : result (Loose.advance o f) w = _ := hq w
    have hr' : result (Loose.advance o g) w = _ := hq' w
    rw [hl, hr']
    exact .ok (.go ⟨⟨hf.body, hf.labels⟩, ⟨hg.body, hg.labels⟩, ⟨ht.title, ht.depth, ht.params, ht.temps⟩, by rwa [hk, hk']⟩)
  | @plain r c c' hj hq h =>
    rw [advance_of_cons ho hc, advance_of_cons ho hc']
    refine (exec_alike hj hq ht w).mono ?_
    rintro _ _ (⟨hret, hm⟩ | ⟨hret, rfl, rfl⟩ | _)
    · refine .go ⟨hm.left.runs hf, hm.right.runs hg, hm.twins, ?_⟩
      rw [hm.left.code hc, hm.right.code hc']
      exact h hret _ hm.kept
    · exact .call ⟨hf, hg, ht, r, c, c', hc, hc', h hret⟩
    · exact .ret
  | @test r q l c c' d d' hq hl hd hd' h hcc =>
    obtain ⟨k, hk, hkd⟩ := hf.jump hd
    obtain ⟨k', hk', hkd'⟩ := hg.jump hd'
    rw [advance_of_cons ho hc, advance_of_cons ho hc', exec_test hq, exec_test hq, ← ht.temps, hl, hk, hk']
    refine agrees_bind _ fun v w' hv => ?_
    simp only [result_bind, result_lift, andThen_ok]
    rcases hb : holds q v with e | _ | _
    · exact .error
    · refine .ok (.go ⟨⟨hf.body, hf.labels⟩, ⟨hg.body, hg.labels⟩, ⟨ht.title, ht.depth, ht.params, rfl⟩, ?_⟩)
      rw [← Frame.code_succ hc, ← Frame.code_succ hc'] at hcc
      exact hcc
    · refine .ok (.go ⟨⟨hf.body, hf.labels⟩, ⟨hg.body, hg.labels⟩, ⟨ht.title, ht.depth, ht.params, rfl⟩, ?_⟩)
      have hrel := h fun x hx hglob => by
        rw [hx, result_read, Store.read, Store.get, hglob] at hv
        obtain ⟨hv, -⟩ := Prod.mk.inj hv
        simp only [Bool.false_eq_true, if_false, Store.find] at hv
        split at hv
        · next u hu =>
            cases hv
            exact ⟨q, x, v, hq, hx, hglob, hu, hb⟩
        · cases hv
      rw [← hkd, ← hkd'] at hrel
      exact hrel

theorem enter_agrees {name : String} {p p' : Proc Record} (hp : procs.lookup name = some p) (hp' : procs'.lookup name = some p')
    (hparams : p.params = p'.params) (hl : Labelled p.body) (hl' : Labelled p'.body) (args : Datum) (depth : Int) (w : World) :
    Agrees (fun f g => f.Runs p.body ∧ g.Runs p'.body ∧ f.code = p.body ∧ g.code = p'.body ∧ Twins f g)
      (result (enter o procs name args depth) w) (result (enter o procs' name args depth) w) := by
  simp only [enter, hp, hp', ← hparams, result_bind, result_ite, result_print, andThen_ok, labelsOf_eq hl, labelsOf_eq hl', result_lift,
    result_pure]
  rcases result (bind p.params args) w with ⟨e | temps, w₁⟩
  · exact .error
  · simp only [andThen_ok]
    split <;>
      exact .ok ⟨⟨rfl, rfl⟩, ⟨rfl, rfl⟩, by simp [Frame.code], by simp [Frame.code], rfl, rfl, rfl, rfl⟩

theorem sameRuns_of_sameCode (ho : o.showInstrs = false)
    (h : ∀ name, (procs.lookup name = none ∧ procs'.lookup name = none) ∨ ∃ p p', procs.lookup name = some p ∧
      procs'.lookup name = some p' ∧ p.params = p'.params ∧ SameCode p.body p'.body) :
    SameRuns (semantics o procs) (semantics o procs') := by
  refine Bisimulation.sameRuns {
    rel := fun n f g => ∃ b b' R, Closed b b' R ∧ Paired b b' (R n) f g
    wait := fun f g => ∃ b b' R, Closed b b' R ∧ Waiting b b' (fun t c c' => ∃ n, R n t c c') f g
    enter := ?_, resume := ?_, advance := ?_ }
  · intro name args depth w
    rcases h name with ⟨hp, hp'⟩ | ⟨p, p', hp, hp', hparams, hl, hl', R, hR, hstart⟩
    · simp only [semantics, enter, hp, hp', result_throw]
      exact .error
    · refine (enter_agrees hp hp' hparams hl hl' args depth w).mono ?_
      rintro f g ⟨hf, hg, hc, hc', ht⟩
      obtain ⟨n, hn⟩ := hstart f.temps
      exact ⟨n, p.body, p'.body, R, hR, hf, hg, ht, by rwa [hc, hc']⟩
  · rintro f g ⟨b, b', R, hR, hw⟩ v w
    refine (hw.resume v w).mono ?_
    rintro f' g' ⟨hf, hg, ht, n, hn⟩
    exact ⟨n, b, b', R, hR, hf, hg, ht, hn⟩
  · rintro n f g ⟨b, b', R, hR, hf, hg, ht, hn⟩
    rcases hR n _ _ _ hn with ⟨d, k, hk, hd, hr⟩ | ⟨d, k, hk, hd, hr⟩ | hp
    · obtain ⟨pc, hq, hc⟩ := hd.quiet ho procs hf
      exact .inl ⟨_, k, hk, hq, b, b', R, hR, ⟨hf.body, hf.labels⟩, hg, ⟨ht.title, ht.depth, ht.params, ht.temps⟩, hc ▸ hr⟩
    · obtain ⟨pc, hq, hc⟩ := Slides.quiet ho procs' hg (ht.temps ▸ hd)
      exact .inr (.inl ⟨_, k, hk, hq, b, b', R, hR, hf, ⟨hg.body, hg.labels⟩, ⟨ht.title, ht.depth, ht.params, ht.temps⟩, hc ▸ hr⟩)
    · refine .inr (.inr fun w => (hp.advance ho hf hg ht w).mono ?_)
      rintro _ _ (⟨hf', hg', ht', m, hm⟩ | hw | _)
      · exact .go ⟨m, b, b', R, hR, hf', hg', ht', hm⟩
      · exact .call ⟨b, b', R, hR, hw⟩
      · exact .ret

end Run.Loose

end Bx.Tac
