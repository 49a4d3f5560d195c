import Bx.Proofs.Run.Code
import Bx.Proofs.Run.Loose
import Mathlib

namespace Bx.Tac

open List

variable {i : Instr} {s : String}

def Record.check (r : Record) : Except LoadError Instr := Instr.ofParts r.result r.opcode (.tuple [r.arg 0, r.arg 1])

def Proc.check (p : Proc Record) : Except LoadError (Proc Instr) := do
  return ⟨p.name, p.params, ← p.body.mapM Record.check⟩

def checkProcs (procs : List (String × Proc Record)) : Except LoadError (List (String × Proc Instr)) :=
  procs.mapM fun e => do return (e.1, ← e.2.check)

theorem Instr.pick_or_null (xs : List Datum) (k : Nat) :
    (if xs.length ≤ k then .ok .null else Datum.pick xs k) = .ok ((xs[k]?).getD .null) := by
  by_cases hk : xs.length ≤ k
  · rw [if_pos hk, List.getElem?_eq_none hk]
    rfl
  · have hlt : k < xs.length := by omega
    simp [hk, Datum.pick, Datum.position?, hlt]

theorem Instr.argument_eq {args a : Datum} {k : Nat} (h : Instr.argument args k = .ok a) :
    ∃ ms, args.members = .ok ms ∧ a = (ms[k]?).getD .null := by
  cases args with
  | str s =>
    have hs := Instr.pick_or_null (s.toList.map fun c => .str c.toString) k
    rw [length_map, String.length_toList] at hs
    exact ⟨_, rfl, Except.ok.inj (h.symm.trans hs)⟩
  | list xs => exact ⟨xs, rfl, Except.ok.inj (h.symm.trans (Instr.pick_or_null xs k))⟩
  | tuple xs => exact ⟨xs, rfl, Except.ok.inj (h.symm.trans (Instr.pick_or_null xs k))⟩
  | dict fields =>
    refine ⟨_, rfl, ?_⟩
    by_cases hk : fields.length ≤ k
    · simp only [Instr.argument, Datum.size, ok_bind, if_pos hk] at h
      cases h
      rw [List.getElem?_eq_none (by simpa using hk)]
      rfl
    · simp only [Instr.argument, Datum.size, Datum.item, ok_bind, if_neg hk] at h
      cases h
  | _ => cases h

theorem Record.check_of_ofParts {result op args : Datum} (h : Instr.ofParts result op args = .ok i) :
    ∃ r, Record.ofParts result op args = .ok r ∧ r.check = .ok i := by
  obtain ⟨a, ha, h⟩ := bind_eq_ok.1 h
  obtain ⟨b, hb, h⟩ := bind_eq_ok.1 h
  rcases ha₀ : Instr.argument args 0 with e | a₀
  · simp [ha₀, Except.mapError] at ha
  · rcases hb₀ : Instr.argument args 1 with e | b₀
    · simp [hb₀, Except.mapError] at hb
    · rw [ha₀] at ha
      rw [hb₀] at hb
      cases ha
      cases hb
      obtain ⟨ms, hms, rfl⟩ := Instr.argument_eq ha₀
      obtain ⟨ms', hms', rfl⟩ := Instr.argument_eq hb₀
      obtain rfl := Except.ok.inj (hms.symm.trans hms')
      exact ⟨⟨op, .tuple ms, result⟩, by rw [Record.ofParts, hms]; rfl, h⟩

section Accepts

variable {d : Datum}

theorem eq_null_of_accepts (h : Kind.nothing.accepts d) : d = .null := by
  cases d <;> simp_all [Kind.accepts, Datum.isNull]

theorem eq_str_of_any {p : String → Bool} (h : d.string?.any p) : d = .str (Instr.name d) := by
  cases d <;> simp_all [Datum.string?, Instr.name]

theorem eq_numeral_of_accepts (h : Kind.int.accepts d) : d = (Instr.numeral d).toDatum := by
  cases d <;> simp_all [Kind.accepts, Operand.isInt, Datum.isNumber, Datum.number?, Instr.numeral, Numeral.toDatum]

theorem eq_optional_of_accepts (h : Kind.optional.accepts d) : d = Instr.optional d.string? := by
  cases d <;> simp_all [Kind.accepts, Operand.isVar, Datum.isNull, Datum.string?, Instr.optional]

end Accepts

/-- The parts of a record, as far as a run looks at them, are those of an instruction. -/
structure Record.Spells (r : Record) (i : Instr) : Prop where
  opcode : r.opcode = .str i.opcode
  result : r.result = Instr.optional i.dest
  left : r.arg 0 = i.operands.1
  right : r.arg 1 = i.operands.2

theorem Instr.ofParts_eq_ok {dest op a b : Datum} (h : Instr.ofParts dest op (.tuple [a, b]) = .ok i) :
    ∃ s k k₁ k₂, op = .str s ∧ kinds? s = some (k, k₁, k₂) ∧ k.accepts dest ∧ k₁.accepts a ∧
      k₂.accepts b ∧ i = assemble s dest a b := by
  have ha : (argument (.tuple [a, b]) 0).mapError LoadError.shape = .ok a := rfl
  have hb : (argument (.tuple [a, b]) 1).mapError LoadError.shape = .ok b := rfl
  simp only [ofParts, ha, hb, ok_bind] at h
  split at h
  · cases h
  · split at h
    · cases h
    · next s k k₁ k₂ hkinds =>
        obtain ⟨s', hs, hk⟩ := Option.bind_eq_some_iff.1 hkinds
        obtain ⟨ks, hks, hpair⟩ := Option.map_eq_some_iff.1 hk
        cases hpair
        rw [Datum.string?_eq_some] at hs
        by_cases hd : k.accepts dest
        · by_cases h₁ : k₁.accepts a
          · by_cases h₂ : k₂.accepts b
            · simp only [hd, h₁, h₂, Bool.not_true, Bool.false_eq_true, if_false] at h
              cases h
              exact ⟨s, k, k₁, k₂, hs, hks, hd, h₁, h₂, rfl⟩
            · simp [hd, h₁, h₂] at h
              cases h
          · simp [hd, h₁] at h
            cases h
        · simp [hd] at h
          cases h

theorem Word.Cond.name_of_ofName? {c : Word.Cond} (h : Word.Cond.ofName? s = some c) : c.name = s := by
  simpa using List.find?_some h

theorem Word.Binop.name_of_ofName? {b : Word.Binop} (h : Word.Binop.ofName? s = some b) : b.name = s := by
  simpa using List.find?_some h

theorem Word.Unop.name_of_ofName? {u : Word.Unop} (h : Word.Unop.ofName? s = some u) : u.name = s := by
  simpa using List.find?_some h

namespace Instr

variable (dest a b : Datum)

theorem assemble_cond (c : Word.Cond) : assemble c.name dest a b = .jcc c (name a) (name b) := by
  cases c <;> rfl

theorem assemble_binop (o : Word.Binop) : assemble o.name dest a b = .binop o (name dest) (name a) (name b) := by
  cases o <;> rfl

theorem assemble_unop (o : Word.Unop) : assemble o.name dest a b = .unop o (name dest) (name a) := by
  cases o <;> rfl

end Instr

theorem Record.spells_of_check {r : Record} (h : r.check = .ok i) (hi : i.isPhi = false) : r.Spells i := by
  obtain ⟨s, k, k₁, k₂, hop, hkinds, hd, h₁, h₂, rfl⟩ := Instr.ofParts_eq_ok h
  unfold Instr.kinds? at hkinds
  split at hkinds
  -- the operations whose names are looked up: jumps on a test, then the binary and the unary ones
  case h_10 =>
    split at hkinds
    · next hs =>
        obtain ⟨c, hc⟩ := Option.isSome_iff_exists.1 hs
        obtain rfl := Word.Cond.name_of_ofName? hc
        cases hkinds
        rw [Instr.assemble_cond]
        exact ⟨hop, eq_null_of_accepts hd, eq_str_of_any h₁, eq_str_of_any h₂⟩
    · split at hkinds
      · next hs =>
          obtain ⟨o, ho⟩ := Option.isSome_iff_exists.1 hs
          obtain rfl := Word.Binop.name_of_ofName? ho
          cases hkinds
          rw [Instr.assemble_binop]
          exact ⟨hop, eq_str_of_any hd, eq_str_of_any h₁, eq_str_of_any h₂⟩
      · split at hkinds
        · next hs =>
            obtain ⟨o, ho⟩ := Option.isSome_iff_exists.1 hs
            obtain rfl := Word.Unop.name_of_ofName? ho
            cases hkinds
            rw [Instr.assemble_unop]
            exact ⟨hop, eq_str_of_any hd, eq_str_of_any h₁, eq_null_of_accepts h₂⟩
        · cases hkinds
  all_goals cases hkinds
  case h_1 => exact ⟨hop, eq_null_of_accepts hd, eq_null_of_accepts h₁, eq_null_of_accepts h₂⟩
  case h_2 => exact ⟨hop, eq_null_of_accepts hd, eq_str_of_any h₁, eq_null_of_accepts h₂⟩
  case h_3 => exact ⟨hop, eq_null_of_accepts hd, eq_str_of_any h₁, eq_null_of_accepts h₂⟩
  case h_4 => exact ⟨hop, eq_str_of_any hd, eq_numeral_of_accepts h₁, eq_null_of_accepts h₂⟩
  case h_5 => exact ⟨hop, eq_str_of_any hd, eq_str_of_any h₁, eq_null_of_accepts h₂⟩
  case h_6 => exact ⟨hop, eq_null_of_accepts hd, eq_numeral_of_accepts h₁, eq_str_of_any h₂⟩
  case h_7 => exact ⟨hop, eq_optional_of_accepts hd, eq_str_of_any h₁, eq_numeral_of_accepts h₂⟩
  case h_8 => exact ⟨hop, eq_null_of_accepts hd, eq_optional_of_accepts h₁, eq_null_of_accepts h₂⟩
  case h_9 => cases hi

theorem Instr.opcode_eq_label (h : i.opcode = "label") : ∃ l, i = .label l := by
  cases i with
  | label l => exact ⟨l, rfl⟩
  | jcc c => cases c <;> simp [opcode, Word.Cond.name] at h
  | binop o => cases o <;> simp [opcode, Word.Binop.name] at h
  | unop o => cases o <;> simp [opcode, Word.Unop.name] at h
  | _ => simp [opcode] at h

theorem Record.Spells.label? {r : Record} (h : r.Spells i) : r.label? = i.label? := by
  rw [Record.label?, h.opcode]
  by_cases hi : i.opcode = "label"
  · obtain ⟨l, rfl⟩ := Instr.opcode_eq_label hi
    simp [Datum.is, Instr.opcode, h.left, Instr.operands, Datum.string?, Instr.label?]
  · have hl : i.label? = none := by
      cases i <;> simp_all [Instr.opcode, Instr.label?]
    simp [Datum.is, hi, hl]

namespace Run

variable {b : List Record} {b' : List Instr}
variable (h : List.Forall₂ Record.Spells b b')
include h

theorem labelNames_of_spells : Loose.labelNames b = Checked.labelNames b' := by
  induction h with
  | nil => rfl
  | cons hr _ ih =>
    simp only [Loose.labelNames, Checked.labelNames, filterMap_cons, hr.label?] at ih ⊢
    rw [ih]

theorem exists_label_of_spells :
    ∀ r ∈ b, r.opcode.is "label" → ∃ l, r.label? = some l := by
  intro r hr hl
  obtain ⟨i, -, hs⟩ := forall₂_exists_right h hr
  rw [Datum.is_iff, hs.opcode, Datum.str.injEq] at hl
  obtain ⟨l, rfl⟩ := Instr.opcode_eq_label hl
  exact ⟨l, hs.label?⟩

theorem after_of_spells (l : String) :
    (Loose.after b l = none ∧ Checked.after b' l = none) ∨
      ∃ d d', Loose.after b l = some d ∧ Checked.after b' l = some (d'.dropWhile Instr.isLabel) ∧ List.Forall₂ Record.Spells d d' := by
  induction h with
  | nil => exact .inl ⟨rfl, rfl⟩
  | @cons r i d d' hr hd ih =>
    rw [Loose.after, Checked.after, hr.label?]
    by_cases hi : i = .label l
    · subst hi
      exact .inr ⟨d, d', if_pos rfl, if_pos rfl, hd⟩
    · have hl : i.label? ≠ some l := by
        cases i <;> simp_all [Instr.label?]
      rwa [if_neg hi, if_neg hl]

omit h

namespace Loose

theorem target?_str (labels : List (Datum × Nat)) (l : String) :
    target? labels (.str l) = .ok ((labels.find? fun e => e.1.same (.str l)).map (·.2)) := rfl

variable (hb : ∀ r ∈ b, r.opcode.is "label" → ∃ l, r.label? = some l)
include hb

theorem foldlM_addLabel_eq (k : Nat)
    {labels : List (Datum × Nat)} {seen : List String} (h : ∀ l, target? labels (.str l) = .ok none ↔ l ∉ seen) :
    (b.zipIdx k).foldlM addLabel labels = match Checked.repeated? seen (labelNames b) with
      | some l => .error (.reusedLabel (.str l))
      | none => .ok (labels ++ placesFrom k b) := by
  induction b generalizing k labels seen with
  | nil =>
    rw [placesFrom, append_nil]
    rfl
  | cons r b ih =>
    have hb' := fun r' hr' => hb r' (mem_cons_of_mem r hr')
    rw [zipIdx_cons, foldlM_cons, placesFrom, addLabel, labelNames, filterMap_cons]
    by_cases hl : r.opcode.is "label"
    · obtain ⟨l, hrl⟩ := hb r mem_cons_self hl
      have harg : r.arg 0 = .str l := by
        rw [Record.label?, if_pos hl, Datum.string?_eq_some] at hrl
        exact hrl
      simp only [hl, if_true, harg, hrl, Checked.repeated?]
      by_cases hs : l ∈ seen
      · have hfound : target? labels (.str l) ≠ .ok none := fun hn => (h l).1 hn hs
        simp only [target?_str, ne_eq, Except.ok.injEq] at hfound
        obtain ⟨j, hj⟩ := Option.ne_none_iff_exists'.1 hfound
        simp only [target?_str, hj, ok_bind, error_bind, contains_eq_mem, hs, decide_true, if_true]
      · simp only [(h l).2 hs, ok_bind, contains_eq_mem, hs, decide_false, Bool.false_eq_true, if_false]
        rw [ih hb' (k + 1) fun x => ?_]
        · simp only [append_assoc, singleton_append]
          rfl
        · by_cases hx : l = x
          · subst hx
            simp [target?_append ((h l).2 hs), target?_str, Datum.same]
          · have hne : ¬ x = l := fun he => hx he.symm
            rw [mem_cons, not_or, and_iff_right hne, ← h x, target?_str, target?_str, List.find?_append]
            simp [Datum.same, hx]
    · have hrl : r.label? = none := by rw [Record.label?, if_neg hl]
      simp only [Bool.eq_false_iff.2 hl, Bool.false_eq_true, if_false, ok_bind, hrl]
      exact ih hb' (k + 1) h

theorem labelsOf_eq_match :
    labelsOf b = match Checked.repeated? [] (labelNames b) with
      | some l => .error (.reusedLabel (.str l))
      | none => .ok (placesFrom 0 b) :=
  foldlM_addLabel_eq hb 0 (by simp [target?_str])

end Loose

theorem Checked.labelsOf_eq_match (b' : List Instr) :
    ∃ ls, (∀ l, ls.lookup l = (after b' l).map fun d => b'.length - d.length) ∧
      labelsOf b' = match repeated? [] (labelNames b') with
        | some l => .error (.reusedLabel (.str l))
        | none => .ok ls := by
  obtain ⟨ls, hls, hnames, hlook⟩ := labelsFrom_spec 0 b'
  refine ⟨ls, by simpa using hlook, ?_⟩
  cases hrepeated : repeated? [] (labelNames b') <;> simp only [labelsOf, hls, ok_bind, hnames, hrepeated]

/-- In the course of the same body, with the same memory. -/
structure Beside (b : List Record) (b' : List Instr) (f : Loose.Frame) (g : Checked.Frame) : Prop where
  runs : f.Runs b
  runs' : g.Runs b'
  title : f.title = g.title
  depth : f.depth = g.depth
  params : f.params = g.params
  temps : f.temps = g.temps

/-- Loose code that has to pass a number of labels to come to the place of checked code. -/
inductive Labels : Nat → List Record → List Instr → Prop
  | here {c c'} (h : List.Forall₂ Record.Spells c c') : Labels 0 c c'
  | pass {n r c c'} (hr : r.opcode = .str "label") (h : Labels n c c') : Labels (n + 1) (r :: c) c'

theorem exists_labels (h : List.Forall₂ Record.Spells b b') : ∃ n, Labels n b (b'.dropWhile Instr.isLabel) := by
  induction h with
  | nil => exact ⟨0, .here .nil⟩
  | @cons r i d d' hr hd ih =>
    cases i with
    | label l =>
      obtain ⟨n, hn⟩ := ih
      exact ⟨n + 1, .pass hr.opcode hn⟩
    | _ => exact ⟨0, .here (.cons hr hd)⟩

theorem enter_agrees {o : Options} {procs : List (String × Proc Record)} {procs' : List (String × Proc Instr)} {name : String}
    {p : Proc Record} {p' : Proc Instr} (hp : procs.lookup name = some p) (hp' : procs'.lookup name = some p')
    (hparams : p.params = p'.params) (hb : List.Forall₂ Record.Spells p.body p'.body) (args : Datum) (depth : Int) (w : World) :
    Agrees (fun f g => Beside p.body p'.body f g ∧ f.code = p.body ∧ g.code = p'.body)
      (result (Loose.enter o procs name args depth) w) (result (Checked.enter o procs' name args depth) w) := by
  obtain ⟨ls, hlook, hls⟩ := Checked.labelsOf_eq_match p'.body
  simp only [Loose.enter, Checked.enter, hp, hp', ← hparams, result_bind, result_ite, result_print, andThen_ok,
    Loose.labelsOf_eq_match (exists_label_of_spells hb), hls, labelNames_of_spells hb, result_lift, result_pure]
  rcases result (bind p.params args) w with ⟨e | temps, w₁⟩
  · exact .error
  · simp only [andThen_ok]
    cases Checked.repeated? [] (Checked.labelNames p'.body) with
    | some l => split <;> exact .error
    | none =>
      split <;>
        exact .ok ⟨⟨⟨rfl, rfl⟩, ⟨rfl, hlook⟩, rfl, rfl, rfl, rfl⟩, by simp [Loose.Frame.code], by simp [Checked.Frame.code]⟩

/-- Bodies that are spelled alike, without phis, in which every value of a call goes somewhere. -/
structure Spelled (b : List Record) (b' : List Instr) : Prop where
  parts : List.Forall₂ Record.Spells b b'
  noPhi : ∀ i ∈ b', i.isPhi = false
  stored : ∀ name n, .call none name n ∈ b' → isPrint name = true

def AtLabels (n : Nat) (f : Loose.Frame) (g : Checked.Frame) : Prop :=
  ∃ b b', Spelled b b' ∧ Beside b b' f g ∧ Labels n f.code g.code

def AtCall (f : Loose.Frame) (g : Checked.Frame) : Prop :=
  ∃ b b', Spelled b b' ∧ Beside b b' f g ∧ ∃ r c d, f.code = r :: c ∧ r.result = .str d ∧ g.caller = some d ∧
    List.Forall₂ Record.Spells c g.code

section Step

variable {f : Loose.Frame} {g : Checked.Frame} {r : Record} {i : Instr} {c : List Record} {o : Options}

theorem atLabels_of_next {f' : Loose.Frame} (hb : Spelled b b') (hc : f.code = r :: c) (hcode : List.Forall₂ Record.Spells c g.code)
    (hn : f.Next f') (h : Beside b b' f' g) : ∃ n, AtLabels n f' g :=
  ⟨0, b, b', hb, h, .here (by rwa [hn.code hc])⟩

theorem Beside.assign_agrees (h : Beside b b' f g) (hc : f.code = r :: c) (d : String) (v : Datum) (w : World) :
    Agrees (fun f' g' => Beside b b' f' g' ∧ f'.code = c ∧ g'.code = g.code) (result (Loose.assign f (.str d) v) w)
      (result (Checked.assign g d v) w) := by
  rw [Loose.assign, Checked.assign, h.temps]
  exact Loose.agrees_bind _ fun t w _ =>
    .ok ⟨⟨⟨h.runs.body, h.runs.labels⟩, ⟨h.runs'.body, h.runs'.labels⟩, h.title, h.depth, h.params, rfl⟩, Loose.Frame.code_succ hc, rfl⟩

theorem AtCall.resume (h : AtCall f g) (v : Datum) (w : World) :
    Agrees (fun f g => ∃ n, AtLabels n f g) (result (Loose.resume f v) w) (result (Checked.resume g v) w) := by
  obtain ⟨b, b', hb, hfg, r, c, d, hc, hr, hd, hcode⟩ := h
  rw [Checked.result_resume, hd, Loose.resume, Loose.Frame.getElem?_of_code hc, Option.getD_some, hr, result_bind]
  refine (hfg.assign_agrees hc d v w).andThen ?_
  rintro f' g' w ⟨hfg', rfl, hcode'⟩
  refine .ok ⟨0, b, b', hb, ⟨⟨hfg'.runs.body, hfg'.runs.labels⟩, ⟨hfg'.runs'.body, hfg'.runs'.labels⟩, hfg'.title, hfg'.depth, rfl, hfg'.temps⟩, ?_⟩
  refine .here ?_
  rw [← hcode'] at hcode
  exact hcode

theorem Beside.jump (hb : Spelled b b') (h : Beside b b' f g) (l : String) :
    (Loose.jump f (.str l) = .error (.unknownLabel (.str l)) ∧ g.labels.lookup l = none) ∨
      ∃ k k', Loose.jump f (.str l) = .ok k ∧ g.labels.lookup l = some k' ∧
        ∃ n, AtLabels n { f with pc := k } (Checked.goTo g l k') := by
  rcases after_of_spells hb.parts l with ⟨hn, hn'⟩ | ⟨d, d', hd, hd', hdd⟩
  · left
    constructor
    · rw [Loose.jump, h.runs.labels, Loose.target?_placesFrom, hn]
      rfl
    · rw [h.runs'.labels, hn']
      rfl
  · obtain ⟨k, hk, hkd⟩ := h.runs.jump hd
    obtain ⟨k', hk', hkd'⟩ := h.runs'.goTo hd'
    obtain ⟨n, hn⟩ := exists_labels hdd
    right
    refine ⟨k, k', hk, hk', n, b, b', hb, ⟨⟨h.runs.body, h.runs.labels⟩, ⟨h.runs'.body, h.runs'.labels⟩, h.title, h.depth, h.params, h.temps⟩, ?_⟩
    rwa [hkd, hkd']

theorem exec_binop (op : Word.Binop) (hop : r.opcode = .str op.name) :
    Loose.exec o f r = do
      let u ← read f.temps (r.arg 0)
      let v ← read f.temps (r.arg 1)
      return .go (← Loose.assign f r.result (← lift (applyBinop op u v))) := by
  cases op <;> simp only [Loose.exec, hop] <;> rfl

theorem exec_unop (op : Word.Unop) (hop : r.opcode = .str op.name) (hr : r.arg 1 = .null) :
    Loose.exec o f r = do
      let v ← read f.temps (r.arg 0)
      return .go (← Loose.assign f r.result (← lift (applyUnop op v))) := by
  cases op <;> simp only [Loose.exec, hop, Word.Unop.name, Loose.compute, hr] <;> rfl

theorem exec_agrees (hb : Spelled b b') (h : Beside b b' f g) (hr : r.Spells i) (hi : i ∈ b') (hc : f.code = r :: c)
    (hd : g.caller = i.dest) (hcode : List.Forall₂ Record.Spells c g.code) (w : World) :
    Agrees (Effect.Matches (fun f g => ∃ n, AtLabels n f g) AtCall) (result (Loose.exec o f r) w) (result (Checked.exec o g i) w) := by
  have hread : ∀ x, read f.temps x = read g.temps x := fun x => by rw [h.temps]
  have next : ∃ n, AtLabels n { f with pc := f.pc + 1 } g :=
    atLabels_of_next hb hc hcode ⟨rfl, rfl, rfl⟩ ⟨⟨h.runs.body, h.runs.labels⟩, h.runs', h.title, h.depth, h.params, h.temps⟩
  have store : ∀ d v w, Agrees (Effect.Matches (fun f g => ∃ n, AtLabels n f g) AtCall)
      (result (do return Effect.go (← Loose.assign f (.str d) v)) w) (result (do return Effect.go (← Checked.assign g d v)) w) := by
    intro d v w
    rw [result_bind, result_bind]
    refine (h.assign_agrees hc d v w).andThen ?_
    rintro f' g' w ⟨hfg, rfl, hg⟩
    exact .ok (.go ⟨0, b, b', hb, hfg, .here (by rwa [hg])⟩)
  cases i with
  | phi | frozenPhi => cases hb.noPhi _ hi
  | nop =>
    rw [Loose.result_exec_pass (.inr hr.opcode)]
    exact .ok (.go next)
  | label l =>
    rw [Loose.result_exec_pass (.inl hr.opcode), Checked.result_exec_label]
    refine .ok (.go (atLabels_of_next hb hc hcode ⟨rfl, rfl, rfl⟩ ?_))
    exact ⟨⟨h.runs.body, h.runs.labels⟩, ⟨h.runs'.body, h.runs'.labels⟩, h.title, h.depth, h.params, h.temps⟩
  | jmp l =>
    simp only [Loose.exec, hr.opcode, Instr.opcode, Checked.exec, hr.left, Instr.operands, Checked.target]
    rcases h.jump hb l with ⟨hl, hl'⟩ | ⟨k, k', hk, hk', hn⟩
    · simp only [hl, hl', result_bind, result_lift, result_throw, andThen_error]
      exact .error
    · simp only [hk, hk', result_bind, result_lift, result_pure, andThen_ok]
      exact .ok (.go hn)
  | jcc q x l =>
    have hq : r.test? = some q := by
      rw [Record.test?, hr.opcode]
      cases q <;> rfl
    simp only [Loose.exec_test hq, Checked.exec, Checked.get, Checked.target, hr.left, hr.right, Instr.operands, hread]
    refine Loose.agrees_bind _ fun v w _ => ?_
    rcases h.jump hb l with ⟨hl, hl'⟩ | ⟨k, k', hk, hk', hn⟩
    · simp only [hl, hl', result_bind, result_lift, result_throw, andThen_error]
      exact .error
    · simp only [hk, hk', result_bind, result_lift, result_pure, andThen_ok]
      rcases holds q v with e | _ | _
      · exact .error
      · exact .ok (.go next)
      · exact .ok (.go hn)
  | const d n =>
    have hn : n.toDatum.number? = some n.value := by
      cases n <;> rfl
    simp only [Loose.exec, hr.opcode, Instr.opcode, Checked.exec, hr.result, hr.left, Instr.dest, Instr.optional, Instr.operands, hn]
    exact store d _ w
  | copy d x =>
    simp only [Loose.exec, hr.opcode, Instr.opcode, Checked.exec, Checked.get, hr.result, hr.left, Instr.dest, Instr.optional, Instr.operands, hread]
    exact Loose.agrees_bind _ fun v w _ => store d v w
  | param n x =>
    simp only [Loose.exec, hr.opcode, Instr.opcode, Checked.exec, hr.left, hr.right, Instr.operands, h.temps, h.params]
    refine Loose.agrees_bind _ fun ps w _ => .ok (.go (atLabels_of_next hb hc hcode ⟨rfl, rfl, rfl⟩ ?_))
    exact ⟨⟨h.runs.body, h.runs.labels⟩, ⟨h.runs'.body, h.runs'.labels⟩, h.title, h.depth, rfl, rfl⟩
  | call d name n =>
    simp only [Loose.exec, hr.opcode, Instr.opcode, Checked.exec, Loose.callProc, hr.left, hr.right, Instr.operands, h.params, h.depth]
    by_cases hp : isPrint name
    · simp only [hp, if_true]
      refine Loose.agrees_bind _ fun _ w _ => .ok (.go (atLabels_of_next hb hc hcode ⟨rfl, rfl, rfl⟩ ?_))
      exact ⟨⟨h.runs.body, h.runs.labels⟩, ⟨h.runs'.body, h.runs'.labels⟩, h.title, rfl, rfl, h.temps⟩
    -- checked code drops a value that has no place to go, loose code does not
    · simp only [hp]
      cases d with
      | none => exact absurd (hb.stored name n hi) hp
      | some d => exact Loose.agrees_bind _ fun _ w _ => .ok (.call ⟨b, b', hb, h, r, c, d, hc, hr.result, hd, hcode⟩)
  | ret x =>
    simp only [Loose.exec, hr.opcode, Instr.opcode, Checked.exec, Checked.get, Loose.return_, hr.left, Instr.operands, hread, h.depth, h.title]
    cases x with
    | none => exact Loose.leave_agrees .ret _ w
    | some x => exact Loose.agrees_bind _ fun v w _ => Loose.leave_agrees .ret _ w
  | binop op d x y =>
    simp only [exec_binop op hr.opcode, Checked.exec, Checked.get, hr.result, hr.left, hr.right, Instr.dest, Instr.optional, Instr.operands, hread]
    exact Loose.agrees_bind _ fun u w _ => Loose.agrees_bind _ fun v w _ => Loose.agrees_bind _ fun z w _ => store d z w
  | unop op d x =>
    simp only [exec_unop op hr.opcode hr.right, Checked.exec, Checked.get, hr.result, hr.left, Instr.dest, Instr.optional, Instr.operands, hread]
    exact Loose.agrees_bind _ fun v w _ => Loose.agrees_bind _ fun z w _ => store d z w

theorem AtLabels.advance (ho : o.showInstrs = false) {n : Nat} (h : AtLabels n f g) :
    (∃ f', ∃ k < n, (∀ w, result (Loose.advance o f) w = (.ok (.go f'), w)) ∧ AtLabels k f' g) ∨
      ∀ w, Agrees (Effect.Matches (fun f g => ∃ n, AtLabels n f g) AtCall) (result (Loose.advance o f) w)
        (result (Checked.advance o g) w) := by
  obtain ⟨b, b', hb, hfg, hl⟩ := h
  generalize hc : f.code = c at hl
  generalize hc' : g.code = c' at hl
  cases hl with
  | @pass n r c c' hr hl =>
    left
    refine ⟨_, n, Nat.lt_succ_self n, fun w => by rw [Loose.advance_of_cons ho hc, Loose.result_exec_pass (.inl hr)], ?_⟩
    refine ⟨b, b', hb, ⟨⟨hfg.runs.body, hfg.runs.labels⟩, hfg.runs', hfg.title, hfg.depth, hfg.params, hfg.temps⟩, ?_⟩
    rwa [Loose.Frame.code_succ hc, hc']
  | here h =>
    right
    intro w
    cases h with
    | nil =>
      rw [Loose.advance_of_nil hc, Checked.advance_of_nil hc', hfg.title, hfg.depth]
      exact .ok .ret
    | @cons r i c c' hr hcc =>
      have hi : i ∈ b' := by
        have hmem : i ∈ g.code := hc' ▸ mem_cons_self
        simpa [hfg.runs'.body] using mem_of_mem_drop hmem
      have hfg₁ : Beside b b' f { g with pc := g.pc + 1 } :=
        ⟨hfg.runs, ⟨hfg.runs'.body, hfg.runs'.labels⟩, hfg.title, hfg.depth, hfg.params, hfg.temps⟩
      rw [Loose.advance_of_cons ho hc, Checked.advance_of_cons ho hc']
      exact exec_agrees hb hfg₁ hr hi hc (Checked.Frame.caller_succ hc') (by rwa [Checked.Frame.code_succ hc']) w

end Step

theorem spelled_of_check {p : Proc Record} {p' : Proc Instr} (h : p.check = .ok p') (hphi : ∀ i ∈ p'.body, i.isPhi = false)
    (hcall : ∀ name n, .call none name n ∈ p'.body → isPrint name) : p.params = p'.params ∧ Spelled p.body p'.body := by
  obtain ⟨body, hbody, h⟩ := bind_eq_ok.1 h
  cases h
  exact ⟨rfl, forall₂_imp_of_mem (mapM_eq_ok.1 hbody) fun r _ i hi hr => Record.spells_of_check hr (hphi i hi), hphi, hcall⟩

/-- If there are no phis and every call but those that print has a place for its value. -/
theorem loose_sameRuns_checked {o : Options} (ho : o.showInstrs = false) {procs : List (String × Proc Record)}
    {procs' : List (String × Proc Instr)} (h : checkProcs procs = .ok procs')
    (hphi : ∀ e ∈ procs', ∀ i ∈ e.2.body, i.isPhi = false)
    (hcall : ∀ e ∈ procs', ∀ name n, .call none name n ∈ e.2.body → isPrint name = true) :
    SameRuns (Loose.semantics o procs) (Checked.semantics o procs') := by
  have hprocs : List.Forall₂ (fun e e' => e.1 = e'.1 ∧ e.2.params = e'.2.params ∧ Spelled e.2.body e'.2.body) procs procs' := by
    refine forall₂_imp_of_mem (mapM_eq_ok.1 h) fun e _ e' he' hee => ?_
    obtain ⟨p', hp', hee⟩ := bind_eq_ok.1 hee
    cases hee
    exact ⟨rfl, spelled_of_check hp' (hphi _ he') (hcall _ he')⟩
  -- loose code passes the labels behind a jump one by one, while checked code stands still; fewer are left each time
  refine Bisimulation.sameRuns { rel := AtLabels, wait := AtCall, enter := ?_, resume := ?_, advance := ?_ }
  · intro name args depth w
    rcases lookup_forall₂ (R := fun _ (p : Proc Record) (p' : Proc Instr) => p.params = p'.params ∧ Spelled p.body p'.body) hprocs name with
      ⟨hn, hn'⟩ | ⟨p, p', hp, hp', hparams, hb⟩
    · simp only [Loose.semantics, Checked.semantics, Loose.enter, Checked.enter, hn, hn', result_throw]
      exact .error
    · refine (enter_agrees hp hp' hparams hb.parts args depth w).mono ?_
      rintro f g ⟨hfg, hc, hc'⟩
      exact ⟨0, p.body, p'.body, hb, hfg, .here (by rw [hc, hc']; exact hb.parts)⟩
  · exact fun h v w => h.resume v w
  · intro n f g h
    rcases h.advance ho with ⟨f', k, hk, hq, hrel⟩ | hb
    · exact .inl ⟨f', k, hk, hq, hrel⟩
    · exact .inr (.inr hb)

def sums : Proc Record :=
  ⟨"@sums", [.str "%n"], [.of "jz" [.str "%n", .str "%.La"] .null, .of "const" [.int 1] (.str "%i"),
    .of "sub" [.str "%n", .str "%i"] (.str "%m"), .of "param" [.int 1, .str "%m"] .null,
    .of "call" [.str "@sums", .int 1] (.str "%s"), .of "add" [.str "%s", .str "%n"] (.str "%n"),
    .of "param" [.int 1, .str "%n"] .null, .of "call" [.str "@__bx_print_int", .int 1] .null,
    .of "label" [.str "%.La"] .null, .of "label" [.str "%.Lb"] .null, .of "ret" [.str "%n"] .null]⟩

def sumsChecked : Proc Instr :=
  ⟨"@sums", [.str "%n"], [.jcc .z "%n" "%.La", .const "%i" (.int 1), .binop .sub "%m" "%n" "%i", .param (.int 1) "%m",
    .call (some "%s") "@sums" (.int 1), .binop .add "%n" "%s" "%n", .param (.int 1) "%n",
    .call none "@__bx_print_int" (.int 1), .label "%.La", .label "%.Lb", .ret (some "%n")]⟩

theorem sums_sameRuns_checked :
    checkProcs [("@sums", sums)] = .ok [("@sums", sumsChecked)] ∧
      SameRuns (Loose.semantics {} [("@sums", sums)]) (Checked.semantics {} [("@sums", sumsChecked)]) := by
  have hbody : sums.body.mapM Record.check = .ok sumsChecked.body := eq_ok_of_toOption (by decide +kernel)
  have h : checkProcs [("@sums", sums)] = .ok [("@sums", sumsChecked)] := by
    simp only [checkProcs, Proc.check, hbody, mapM_cons, mapM_nil]
    rfl
  refine ⟨h, loose_sameRuns_checked rfl h ?_ ?_⟩
  · simp only [mem_singleton, forall_eq]
    decide
  · simp only [mem_singleton, forall_eq]
    intro name n hcall
    obtain ⟨rfl, -⟩ : name = "@__bx_print_int" ∧ n = .int 1 := by
      simpa [sumsChecked] using hcall
    cbv

end Run

end Bx.Tac
