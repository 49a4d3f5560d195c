import Bx.Asm.Procedure
import Bx.Proofs.Basic
import Mathlib.Data.List.TakeDrop

namespace Bx.Asm

open List Tac

def definedLabel? (line : String) : Option String :=
  if line.toList.head? = some '\t' then none else (Text.cutAt? ':' line).map Prod.fst

def Plain (l : String) : Prop := ':' ∉ l.toList ∧ l.toList.head? ≠ some '\t'

theorem definedLabel?_indented (s : String) : definedLabel? ("\t" ++ s) = none := by
  simp [definedLabel?]

theorem definedLabel?_of_plain {l : String} (h : Plain l) (s : String) : definedLabel? (l ++ ":" ++ s) = some l := by
  have hhead : (l ++ ":" ++ s).toList.head? ≠ some '\t' := by
    obtain ⟨-, h⟩ := h
    cases hl : l.toList with
    | nil => simp [hl]
    | cons c cs => simpa [hl] using h
  have hspan : (l ++ ":" ++ s).toList.span (· != ':') = (l.toList, ':' :: s.toList) := by
    have hall : ∀ c ∈ l.toList, (c != ':') := by
      intro c hc
      simp only [bne_iff_ne]
      rintro rfl
      exact h.1 hc
    rw [span_eq_takeWhile_dropWhile, String.toList_append, String.toList_append, append_assoc,
      takeWhile_append_of_pos hall, dropWhile_append_of_pos hall]
    simp
  rw [definedLabel?, if_neg hhead, Text.cutAt?, hspan]
  simp

def Line.label? : Line → Option String
  | .label l => some l
  | _ => none

def labelsOf (ls : List Line) : List String := ls.filterMap Line.label?

theorem labelsOf_append (ls ms : List Line) : labelsOf (ls ++ ms) = labelsOf ls ++ labelsOf ms := filterMap_append

theorem filterMap_indented {ls : List Line} (h : ∀ l ∈ labelsOf ls, Plain l) :
    (ls.map Line.indented).filterMap definedLabel? = labelsOf ls := by
  induction ls with
  | nil => rfl
  | cons l ls ih =>
    cases l with
    | label x =>
      have hx : definedLabel? (Line.label x).indented = some x := by
        have := definedLabel?_of_plain (h x (by simp [labelsOf, Line.label?])) ""
        rwa [String.append_empty] at this
      rw [map_cons, filterMap_cons, hx]
      exact congrArg _ (ih fun l hl => h l (.tail _ hl))
    | blank => exact ih h
    | _ =>
      rw [map_cons, filterMap_cons]
      simp only [Line.indented, definedLabel?_indented]
      exact ih h

namespace Procedure

def mark? (r : Record) : Option String :=
  match Form.ofOpcode r.opcode, Branch.ofOpcode? r.opcode, arg r.args 0 with
  | .ok (.other _), .ok (some .label), .ok (.str l) => some l
  | _, _, _ => none

def Answers {α : Type} (P : α → Prop) (x : Emit α) : Prop := ∀ s a s', x.run s = .ok (a, s') → P a

namespace Answers

variable {α β : Type} {P : α → Prop} {Q : β → Prop}

theorem pure {a : α} (h : P a) : Answers P (pure a : Emit α) := by
  rintro s _ _ ⟨⟩
  exact h

theorem throw {e : Error} : Answers P (throw e : Emit α) := nofun

theorem lift (x : Except Error α) : Answers (fun a => x = .ok a) (liftM x : Emit α) := by
  intro s a s' h
  cases x with
  | error e => cases h
  | ok b =>
    cases h
    rfl

theorem bind {x : Emit α} {k : α → Emit β} (hx : Answers P x) (hk : ∀ a, P a → Answers Q (k a)) : Answers Q (x >>= k) := by
  intro s b s' h
  rw [StateT.run_bind] at h
  obtain ⟨⟨a, s₁⟩, ha, hb⟩ := bind_eq_ok.1 h
  exact hk a (hx s a s₁ ha) s₁ b s' hb

theorem after {x : Emit α} {k : α → Emit β} (hk : ∀ a, Answers Q (k a)) : Answers Q (x >>= k) := by
  intro s b s' h
  rw [StateT.run_bind] at h
  obtain ⟨⟨a, s₁⟩, -, hb⟩ := bind_eq_ok.1 h
  exact hk a s₁ b s' hb

end Answers

variable {globals : Datum}

abbrev Unlabelled (x : Emit (List Line)) : Prop := Answers (fun ls => labelsOf ls = []) x

theorem entry_unlabelled (args : Datum) (count k : Nat) (rs : List Reg) : Unlabelled (entry globals args count k rs) := by
  induction rs generalizing k with
  | nil => exact .pure rfl
  | cons r rs ih =>
    rw [entry]
    split
    · exact .pure rfl
    · exact .after fun x => .after fun p => .after fun _ => (ih (k + 1)).bind fun ls hls => .pure hls

theorem param_unlabelled (args : Datum) : Unlabelled (param globals args) := by
  refine .after fun d => .after fun x => .after fun n => ?_
  split
  · exact .throw
  · split
    · split
      · exact .after fun _ => .pure rfl
      · exact .throw
    · exact .pure rfl

theorem call_unlabelled (r : Record) : Unlabelled (call globals r) := by
  refine .after fun d => .after fun f => .after fun s => ?_
  split
  · exact .after fun _ => .after fun x => .pure rfl
  · exact .after fun x => .pure rfl

theorem ret_unlabelled (name : String) (args : Datum) : Unlabelled (ret globals name args) := by
  unfold ret
  split
  · exact .pure rfl
  · exact .after fun d => .after fun x => .pure rfl

theorem branch_labels (b : Branch) {r : Record} {op : Datum} (hf : Form.ofOpcode r.opcode = .ok (.other op))
    (hb : Branch.ofOpcode? r.opcode = .ok (some b)) : Answers (fun ls => labelsOf ls = (mark? r).toList) (branch globals b r) := by
  cases b with
  | jcc c =>
    have hmark : mark? r = none := by simp [mark?, hf, hb]
    rw [hmark]
    refine .after fun _ => .after fun _ => .after fun _ => .after fun _ => .after fun l => .after fun s => ?_
    cases s.left with
    | none => exact .throw
    | some x => exact .pure rfl
  | jmp =>
    have hmark : mark? r = none := by simp [mark?, hf, hb]
    rw [hmark]
    exact .after fun _ => .after fun _ => .after fun _ => .pure rfl
  | label =>
    refine .after fun _ => .after fun _ => (Answers.lift _).bind fun d hd => (Answers.lift _).bind fun l hl => .pure ?_
    cases d <;> cases hl
    simp [mark?, hf, hb, hd, labelsOf, Line.label?]

theorem special_labels (name : String) {r : Record} {op : Datum} (hf : Form.ofOpcode r.opcode = .ok (.other op)) :
    Answers (fun ls => labelsOf ls = (mark? r).toList) (special globals name r) := by
  refine (Answers.lift _).bind fun b hb => ?_
  cases b with
  | some b => exact branch_labels b hf hb
  | none =>
    have hmark : mark? r = none := by simp [mark?, hf, hb]
    rw [hmark]
    dsimp only
    split
    · exact param_unlabelled r.args
    · split
      · exact call_unlabelled r
      · split
        · exact ret_unlabelled name r.args
        · exact .throw

theorem labelsOf_binop (op : Word.Binop) (x y d : Place) : labelsOf (binop op x y d) = [] := by cases op <;> rfl

theorem labelsOf_unop (op : Word.Unop) (x d : Place) : labelsOf (unop op x d) = [] := by cases op <;> rfl

theorem instr_labels (name : String) (r : Record) :
    Answers (fun ls => labelsOf ls = (mark? r).toList) (instr globals name r) := by
  refine (Answers.lift _).bind fun form hf => ?_
  cases form with
  | other op => exact special_labels name hf
  | nop =>
    rw [show mark? r = none by simp [mark?, hf]]
    exact .pure rfl
  | const =>
    rw [show mark? r = none by simp [mark?, hf]]
    exact .after fun _ => .after fun _ => .after fun _ => .after fun _ => .pure rfl
  | copy =>
    rw [show mark? r = none by simp [mark?, hf]]
    exact .after fun _ => .after fun _ => .after fun _ => .after fun _ => .pure rfl
  | binop op =>
    rw [show mark? r = none by simp [mark?, hf]]
    exact .after fun _ => .after fun _ => .after fun x => .after fun _ => .after fun _ => .after fun y => .after fun d =>
      .after fun _ => .pure (labelsOf_binop op x y d)
  | unop op =>
    rw [show mark? r = none by simp [mark?, hf]]
    exact .after fun _ => .after fun x => .after fun d => .after fun _ => .pure (labelsOf_unop op x d)

theorem foldlM_labels (name : String) (rs : List Record) (acc : List Line) :
    Answers (fun ls => labelsOf ls = labelsOf acc ++ rs.filterMap mark?) ((rs.map Record.toDatum).foldlM (fun acc d => do
      let r ← shape (Record.ofFields d)
      return acc ++ (← instr globals name r)) acc : Emit (List Line)) := by
  induction rs generalizing acc with
  | nil => exact .pure (by simp)
  | cons r rs ih =>
    rw [map_cons, foldlM_cons]
    have hfirst : Answers (fun ls => labelsOf ls = labelsOf acc ++ (mark? r).toList) (do
        let r ← shape (Record.ofFields r.toDatum)
        return acc ++ (← instr globals name r) : Emit (List Line)) := by
      refine (Answers.lift _).bind fun r' hr => ?_
      cases hr
      exact (instr_labels name r).bind fun ls hls => .pure (by rw [labelsOf_append, hls])
    refine hfirst.bind fun acc hacc => ?_
    have hrest := ih acc
    rw [hacc] at hrest
    cases hm : mark? r with
    | none => simpa [filterMap_cons, hm] using hrest
    | some l => simpa [filterMap_cons, hm] using hrest

theorem labelsOf_framed (name : String) (words : Nat) (lines : List Line) :
    labelsOf (framed name words lines) = name :: (labelsOf lines ++ [exitLabel name]) := by
  have hclear : labelsOf (if name == "main" then [clear] else []) = [] := by split <;> rfl
  have henter : labelsOf (enter words) = [] := rfl
  have hleave : labelsOf leave = [] := rfl
  simp only [framed, labelsOf_append, hclear, henter, hleave]
  simp [labelsOf, Line.label?]

theorem compileData_labels {name : String} {args : Datum} {rs : List Record} {f : Frame} {c : Compiled}
    (h : compileData globals name args (.list (rs.map Record.toDatum)) f = .ok c) :
    labelsOf c.lines = name :: (rs.filterMap mark? ++ [exitLabel name]) := by
  rw [compileData] at h
  obtain ⟨⟨lines, s⟩, hr, h⟩ := bind_eq_ok.1 h
  cases h
  have hlabels : Answers (fun ls => labelsOf ls = rs.filterMap mark?) (do
      let lines ← begin globals args
      (← shape (Datum.list (rs.map Record.toDatum)).members).foldlM (fun acc d => do
        let r ← shape (Record.ofFields d)
        return acc ++ (← instr globals name r)) lines) := by
    have hbegin : Unlabelled (begin globals args) := .after fun n => entry_unlabelled args n 0 argumentRegs
    refine hbegin.bind fun lines hlines => (Answers.lift _).bind fun ds hds => ?_
    cases hds
    rw [show rs.filterMap mark? = labelsOf lines ++ rs.filterMap mark? by rw [hlines, nil_append]]
    exact foldlM_labels name rs lines
  have hlines := hlabels _ _ _ hr
  exact (labelsOf_framed name _ lines).trans (by rw [hlines])

theorem filterMap_text {name : String} {c : Compiled} (h : ∀ l ∈ labelsOf c.lines, Plain l) :
    (text name c).filterMap definedLabel? = labelsOf c.lines := by
  have hhead : (heading name).filterMap definedLabel? = [] := by
    simp [heading, definedLabel?]
  rw [text, filterMap_append, hhead, filterMap_indented h]
  rfl

theorem filterMap_globalText {name : String} (h : Plain name) (value : Datum) :
    (globalText name value).filterMap definedLabel? = [name] := by
  have hquad : name ++ ": .quad " ++ value.text = name ++ ":" ++ (" .quad " ++ value.text) := by
    rw [show ": .quad " = ":" ++ " .quad " by decide]
    simp only [String.append_assoc]
  have hname : definedLabel? (name ++ ": .quad " ++ value.text) = some name := by
    rw [hquad]
    exact definedLabel?_of_plain h _
  have hglobl : definedLabel? ("\t.globl " ++ name) = none := by simp [definedLabel?]
  rw [globalText, filterMap_cons_none hglobl, filterMap_cons_none (by decide), filterMap_cons_some hname]
  rfl

end Procedure

end Bx.Asm
