import Bx.Command.Compile
import Bx.Proofs.Asm.Labels
import Bx.Proofs.Procedural.Naming
import Mathlib.Data.List.Nodup

namespace Bx.Procedural

open List Tac Asm Asm.Procedure Command

variable {g g' : Stage} {os xs : List String} {c d : List Record} {lo hi mid : Nat} {x l name : String}
variable {r : String × List Nat} {rs : List (String × List Nat)} {decls : List (Tac.Decl Record)}

section Documents

inductive Shows : Datum → Tac.Decl Record → Prop
  | gvar {g : _} : Shows (Gvar.toDatum g) (.gvar g)
  | proc {q args} : Shows (.dict [("proc", .str q.name), ("args", args), ("body", .list (q.body.map Record.toDatum))]) (.proc q)

def bare (s : String) : String := String.ofList (s.toList.drop 1)

def gvarLabels : Tac.Decl Record → List String
  | .gvar g => [bare g.name]
  | .proc _ => []

def procLabels : Tac.Decl Record → List String
  | .gvar _ => []
  | .proc q => bare q.name :: (q.body.filterMap mark? ++ [exitLabel (bare q.name)])

variable {ds : List Datum} {decls : List (Tac.Decl Record)}
variable (hd : List.Forall₂ Shows ds decls)
include hd

theorem globalLines_labels {os : List (Option (Datum × List String))}
    (h : List.Forall₂ (fun d o => globalLines d = .ok o) ds os) (hp : ∀ d ∈ decls, ∀ l ∈ gvarLabels d, Plain l) :
    ((os.filterMap id).flatMap (·.2)).filterMap definedLabel? = decls.flatMap gvarLabels := by
  induction hd generalizing os with
  | nil =>
    cases h
    rfl
  | @cons d decl ds decls hdecl _ ih =>
    cases h with
    | @cons _ o _ os ho hos =>
      have ih := ih hos fun d hd => hp d (.tail _ hd)
      cases hdecl with
      | @gvar g =>
        cases ho
        have hg := filterMap_globalText (hp _ (.head _) (bare g.name) (.head _)) g.init
        change (globalText (bare g.name) g.init ++ (os.filterMap id).flatMap (·.2)).filterMap definedLabel? = _
        rw [filterMap_append, hg, ih]
        rfl
      | proc =>
        cases ho
        exact ih

omit hd in
theorem procedureLines_labels {globals args : Datum} {b r : Frame × List String} {q : Proc Record}
    (hp : ∀ l ∈ procLabels (.proc q), Plain l)
    (h : procedureLines globals b
      (.dict [("proc", .str q.name), ("args", args), ("body", .list (q.body.map Record.toDatum))]) = .ok r) :
    r.2.filterMap definedLabel? = b.2.filterMap definedLabel? ++ procLabels (.proc q) := by
  simp only [procedureLines, bind_eq_ok] at h
  obtain ⟨_, ⟨⟩, _, ⟨⟩, _, ⟨⟩, name, hname, c, hc, h⟩ := h
  cases hname
  cases h
  cases hcompile : compileData globals (bare q.name) args (.list (q.body.map Record.toDatum)) b.1 with
  | error e =>
    have herror : (Except.error e : Except Asm.Error Compiled).mapError Command.Error.asm = .ok c := hcompile ▸ hc
    cases herror
  | ok c' =>
    have hok : (Except.ok c' : Except Asm.Error Compiled).mapError Command.Error.asm = .ok c := hcompile ▸ hc
    cases hok
    have hlabels := compileData_labels hcompile
    rw [filterMap_append]
    refine congrArg _ ((filterMap_text ?_).trans hlabels)
    rw [hlabels]
    exact hp

theorem foldlM_procedureLines_labels {globals : Datum} {b r : Frame × List String}
    (hprocs : ∀ d ∈ decls, ∃ q, d = .proc q) (hp : ∀ d ∈ decls, ∀ l ∈ procLabels d, Plain l)
    (h : ds.foldlM (procedureLines globals) b = .ok r) :
    r.2.filterMap definedLabel? = b.2.filterMap definedLabel? ++ decls.flatMap procLabels := by
  induction hd generalizing b with
  | nil =>
    cases h
    simp
  | @cons d decl ds decls hdecl _ ih =>
    rw [foldlM_cons, bind_eq_ok] at h
    obtain ⟨b', hb, h⟩ := h
    have ih := ih (fun d hd => hprocs d (.tail _ hd)) (fun d hd => hp d (.tail _ hd)) h
    cases hdecl with
    | gvar =>
      obtain ⟨q, hq⟩ := hprocs _ (.head _)
      cases hq
    | proc => rw [ih, procedureLines_labels (hp _ (.head _)) hb, flatMap_cons, append_assoc]

def isProc : Tac.Decl Record → Bool
  | .gvar _ => false
  | .proc _ => true

omit hd in
theorem hasField_proc {d : Datum} {decl : Tac.Decl Record} (h : Shows d decl) : hasField d "proc" = .ok (isProc decl) := by
  cases h <;> rfl

theorem declarations_shows :
    ∃ ps, declarations ds "proc" = .ok ps ∧ List.Forall₂ Shows ps (decls.filter isProc) := by
  let p (d : Datum) : Bool := (hasField d "proc").toOption.getD false
  have hp : ∀ {d decl}, Shows d decl → p d = isProc decl := by
    intro d decl h
    simp only [p, hasField_proc h]
    rfl
  refine ⟨ds.filter p, filterM_eq_ok fun d hd' => ?_, ?_⟩
  · obtain ⟨decl, -, h⟩ := forall₂_exists_right hd hd'
    rw [hasField_proc h, hp h]
  · induction hd with
    | nil => exact .nil
    | @cons d decl ds decls h _ ih =>
      rw [filter_cons, filter_cons, hp h]
      cases isProc decl with
      | true => exact .cons h ih
      | false => exact ih

omit hd in
theorem flatMap_procLabels (decls : List (Tac.Decl Record)) : (decls.filter isProc).flatMap procLabels = decls.flatMap procLabels := by
  induction decls with
  | nil => rfl
  | cons d decls ih =>
    cases d with
    | gvar g => exact ih
    | proc q => exact congrArg (procLabels (.proc q) ++ ·) ih

theorem assembly_labels {lines : List String}
    (hp : ∀ l ∈ decls.flatMap gvarLabels ++ decls.flatMap procLabels, Plain l) (h : assembly (.list ds) = .ok lines) :
    lines.filterMap definedLabel? = decls.flatMap gvarLabels ++ decls.flatMap procLabels := by
  obtain ⟨ps, hps, hshows⟩ := declarations_shows hd
  simp only [assembly, elements, ok_bind, hps, bind_eq_ok, mapM_eq_ok] at h
  obtain ⟨os, hos, r, hr, h⟩ := h
  cases h
  have hglobals := globalLines_labels hd hos fun d hd l hl => hp l (mem_append_left _ (mem_flatMap_of_mem hd hl))
  have hprocs := foldlM_procedureLines_labels hshows
    (fun d hd => by
      obtain ⟨-, hd⟩ := mem_filter.1 hd
      cases d with
      | gvar g => cases hd
      | proc q => exact ⟨q, rfl⟩)
    (fun d hd l hl => hp l (mem_append_right _ (mem_flatMap_of_mem (mem_filter.1 hd).1 hl))) hr
  rw [filterMap_append, hglobals, hprocs, flatMap_procLabels]
  rfl

end Documents

section Code

theorem mark?_of_opcode {op : Source.Op} (h : op.opcode? = some name) (args : List Datum) (t : Datum) :
    mark? (.of name args t) = none := by
  cases op <;> cases h <;> rfl

theorem mark?_of_comparison {op : Source.Op} (h : comparison? op = some name) (args : List Datum) (t : Datum) :
    mark? (.of name args t) = none := by
  cases op <;> cases h <;> rfl

theorem ExprCode.unlabelled {w : Work} (h : ExprCode g w os c g') : c.filterMap mark? = [] ∧ g'.nextLabel = g.nextLabel := by
  induction h with
  | var h => cases h <;> exact ⟨rfl, rfl⟩
  | num | bool | nil => exact ⟨rfl, rfl⟩
  | unary hop _ ih =>
    obtain ⟨hc, hg⟩ := ih
    rw [filterMap_append, hc]
    exact ⟨filterMap_cons_none (mark?_of_opcode hop _ _), hg⟩
  | binary hop _ _ ihl ihr =>
    obtain ⟨hc, hg⟩ := ihl
    obtain ⟨hd, hg'⟩ := ihr
    rw [filterMap_append, filterMap_append, hc, hd]
    exact ⟨filterMap_cons_none (mark?_of_opcode hop _ _), hg'.trans hg⟩
  | call _ ih =>
    obtain ⟨hc, hg⟩ := ih
    rw [filterMap_append, hc]
    exact ⟨rfl, hg⟩
  | early _ _ _ ihe ihr =>
    obtain ⟨hc, hg⟩ := ihe
    obtain ⟨hd, hg'⟩ := ihr
    rw [filterMap_append, hc]
    exact ⟨hd, hg'.trans hg⟩
  | late _ _ _ ihr ihe =>
    obtain ⟨hd, hg⟩ := ihr
    obtain ⟨hc, hg'⟩ := ihe
    rw [filterMap_append, filterMap_append, hc, hd]
    exact ⟨rfl, hg'.trans hg⟩

def Sets (lo hi : Nat) (c : List Record) : Prop :=
  lo ≤ hi ∧ ∃ ns : List Nat, c.filterMap mark? = ns.map labelName ∧ ∀ n, ns.count n = if lo ≤ n ∧ n < hi then 1 else 0

theorem sets_of_unlabelled (h : c.filterMap mark? = [] ∧ hi = lo) : Sets lo hi c := by
  obtain ⟨h, rfl⟩ := h
  refine ⟨Nat.le_refl hi, [], h, fun n => ?_⟩
  rw [if_neg (by omega)]
  rfl

@[simp]
theorem mark?_labelRecord (l : String) : mark? (labelRecord l) = some l := rfl

@[simp]
theorem mark?_jumpRecord (l : String) : mark? (jumpRecord l) = none := rfl

theorem Sets.append (hc : Sets lo mid c) (hd : Sets mid hi d) : Sets lo hi (c ++ d) := by
  obtain ⟨hle, ns, hns, hcount⟩ := hc
  obtain ⟨hle', ms, hms, hcount'⟩ := hd
  refine ⟨by omega, ns ++ ms, by rw [filterMap_append, hns, hms, map_append], fun n => ?_⟩
  rw [count_append, hcount, hcount']
  grind

theorem Sets.between (hc : Sets (lo + 1) mid c) (hd : Sets mid hi d) : Sets lo hi (c ++ labelRecord (labelName lo) :: d) := by
  obtain ⟨hle, ns, hns, hcount⟩ := hc
  obtain ⟨hle', ms, hms, hcount'⟩ := hd
  refine ⟨by omega, ns ++ lo :: ms, by simp [filterMap_append, hns, hms], fun n => ?_⟩
  rw [count_append, count_cons, hcount, hcount']
  grind

theorem CondCode.sets {yes no : String} {e : Expr} (h : CondCode g yes no e os c g') : Sets g.nextLabel g'.nextLabel c := by
  induction h with
  | not _ ih => exact ih
  | and _ _ ihl ihr | or _ _ ihl ihr => exact ihl.between ihr
  | compare hop hl hr =>
    obtain ⟨hc, hg⟩ := hl.unlabelled
    obtain ⟨hd, hg'⟩ := hr.unlabelled
    refine sets_of_unlabelled ⟨?_, hg'.trans hg⟩
    rw [filterMap_append, filterMap_append, hc, hd]
    exact filterMap_cons_none (mark?_of_comparison hop _ _)
  | idle => exact sets_of_unlabelled ⟨rfl, rfl⟩

theorem StmtCode.sets {loop : Option Loop} {body : List Stmt} (h : StmtCode g loop body os c g') :
    Sets g.nextLabel g'.nextLabel c := by
  induction h with
  | nil | «break» | «continue» | leave => exact sets_of_unlabelled ⟨rfl, rfl⟩
  | cons _ _ ihs ihr => exact ihs.append ihr
  | vardecl hx he | assign hx he => cases hx <;> exact sets_of_unlabelled he.unlabelled
  | eval he => exact sets_of_unlabelled he.unlabelled
  | «return» he =>
    obtain ⟨hc, hg⟩ := he.unlabelled
    refine sets_of_unlabelled ⟨?_, hg⟩
    rw [filterMap_append, hc]
    rfl
  | block _ ih => exact ih
  -- a conditional and a loop take three numbers first, and set the labels in between the code of their parts
  | @ifelse g g₁ g₂ g₃ _ _ _ _ _ _ _ _ _ _ _ hc _ _ ihy ihn =>
    obtain ⟨hlec, ns, hns, hcount⟩ : Sets (g.nextLabel + 3) g₁.nextLabel _ := hc.sets
    obtain ⟨hley, ms, hms, hcounty⟩ : Sets g₁.nextLabel g₂.nextLabel _ := ihy
    obtain ⟨hlen, ks, hks, hcountn⟩ : Sets g₂.nextLabel g₃.nextLabel _ := ihn
    refine ⟨by omega, ns ++ g.nextLabel :: (ms ++ (g.nextLabel + 1) :: (ks ++ [g.nextLabel + 2])),
      by simp [filterMap_append, filterMap_cons, hns, hms, hks], fun n => ?_⟩
    simp only [count_append, count_cons, count_nil, hcount, hcounty, hcountn, beq_iff_eq]
    grind
  | @«while» g g₁ g₂ _ _ _ _ _ _ _ _ hc _ ih =>
    obtain ⟨hlec, ns, hns, hcount⟩ : Sets (g.nextLabel + 3) g₁.nextLabel _ := hc.sets
    obtain ⟨hleb, ms, hms, hcountb⟩ : Sets g₁.nextLabel g₂.nextLabel _ := ih
    refine ⟨by simp only [Stage.leave]; omega, g.nextLabel :: (ns ++ (g.nextLabel + 1) :: (ms ++ [g.nextLabel + 2])),
      by simp [filterMap_append, filterMap_cons, hns, hms], fun n => ?_⟩
    simp only [count_append, count_cons, count_nil, hcount, hcountb, beq_iff_eq, Stage.leave]
    grind

mutual

def Stmt.branches : Stmt → Bool
  | .ifelse _ _ _ _ | .while _ _ _ => true
  | .block _ body => anyBranches body
  | _ => false

def anyBranches : List Stmt → Bool
  | [] => false
  | s :: rest => s.branches || anyBranches rest

end

theorem StmtCode.branches_iff {loop : Option Loop} {body : List Stmt} (h : StmtCode g loop body os c g') :
    anyBranches body ↔ g.nextLabel < g'.nextLabel := by
  induction h with
  | nil | «break» | «continue» | leave => simp [anyBranches, Stmt.branches]
  | cons hs hr ihs ihr =>
    have hles := hs.sets.1
    have hler := hr.sets.1
    rw [anyBranches, anyBranches, Bool.or_false] at ihs
    rw [anyBranches, Bool.or_eq_true, ihs, ihr]
    omega
  | vardecl hx he | assign hx he =>
    cases hx <;> simp [anyBranches, Stmt.branches, he.unlabelled.2, Stage.bound, Stage.taken]
  | eval he => simp [anyBranches, Stmt.branches, he.unlabelled.2]
  | «return» he => simp [anyBranches, Stmt.branches, he.unlabelled.2, Stage.taken]
  | block _ ih =>
    rw [anyBranches, anyBranches, Bool.or_false, Stmt.branches]
    exact ih
  | @ifelse g g₁ g₂ g₃ _ _ _ _ _ _ _ _ _ _ _ hc hy hn _ _ =>
    have hlec : g.nextLabel + 3 ≤ g₁.nextLabel := hc.sets.1
    have hley : g₁.nextLabel ≤ g₂.nextLabel := hy.sets.1
    have hlen : g₂.nextLabel ≤ g₃.nextLabel := hn.sets.1
    exact iff_of_true rfl (by omega)
  | @«while» g g₁ g₂ _ _ _ _ _ _ _ _ hc hb _ =>
    have hlec : g.nextLabel + 3 ≤ g₁.nextLabel := hc.sets.1
    have hleb : g₁.nextLabel ≤ g₂.nextLabel := hb.sets.1
    exact iff_of_true rfl (show g.nextLabel < g₂.nextLabel by omega)

end Code

section Names

theorem plain_of_isName (h : isName x) : Plain x := by
  obtain ⟨c, cs, hc, hletter, hrest⟩ := exists_of_isName h
  constructor
  · rw [hc, mem_cons]
    rintro (rfl | hcolon)
    · exact absurd hletter (by decide)
    · exact absurd (hrest _ hcolon) (by decide)
  · rw [hc]
    rintro ⟨⟩
    exact absurd hletter (by decide)

theorem plain_labelName (k : Nat) : Plain (labelName k) := by
  constructor
  · rw [labelName, String.toList_append, mem_append]
    rintro (h | h)
    · exact absurd h (by decide)
    · exact absurd (isDigit_of_mem_toString h) (by decide)
  · simp [labelName]

theorem plain_exitLabel (h : Plain x) : Plain (exitLabel x) := by
  constructor
  · rw [exitLabel, String.toList_append, mem_append]
    rintro (h' | h')
    · exact absurd h' (by decide)
    · exact h.1 h'
  · simp [exitLabel]

theorem isName_ne_dotted (h : isName x) (s : String) : x ≠ ".L" ++ s := by
  rintro rfl
  obtain ⟨c, cs, hc, hletter, -⟩ := exists_of_isName h
  simp at hc
  obtain ⟨rfl, -⟩ := hc
  exact absurd hletter (by decide)

theorem exitLabel_eq (x : String) : exitLabel x = ".L" ++ ("end_" ++ x) := by
  rw [← String.append_assoc]
  rfl

theorem exitLabel_inj {y : String} : exitLabel x = exitLabel y ↔ x = y := String.append_right_inj _

theorem labelName_ne_exitLabel (k : Nat) (x : String) : labelName k ≠ exitLabel x := by
  intro h
  rw [exitLabel_eq, labelName, String.append_right_inj] at h
  have he : 'e' ∈ (toString k).toList := by
    rw [h]
    simp
  exact absurd (isDigit_of_mem_toString he) (by decide)

end Names

section Distinct

def labelsUnder (r : String × List Nat) : List String := r.1 :: (r.2.map labelName ++ [exitLabel r.1])

theorem mem_labelsUnder : l ∈ labelsUnder r ↔ l = r.1 ∨ (∃ n ∈ r.2, l = labelName n) ∨ l = exitLabel r.1 := by
  simp [labelsUnder, eq_comm]

theorem isName_ne_labelName (h : isName x) (k : Nat) : x ≠ labelName k := isName_ne_dotted h _

theorem isName_ne_exitLabel (h : isName x) (y : String) : x ≠ exitLabel y := by
  rw [exitLabel_eq]
  exact isName_ne_dotted h _

theorem nodup_labelsUnder (hr : isName r.1) (hn : r.2.Nodup) : (labelsUnder r).Nodup := by
  rw [labelsUnder, nodup_cons, nodup_append]
  refine ⟨?_, hn.map fun _ _ => labelName_inj.1, nodup_singleton _, ?_⟩
  · rw [mem_append, mem_map, mem_singleton]
    rintro (⟨n, -, h⟩ | h)
    · exact isName_ne_labelName hr n h.symm
    · exact isName_ne_exitLabel hr _ h
  · intro l hl l' hl'
    obtain ⟨n, -, rfl⟩ := mem_map.1 hl
    rw [mem_singleton.1 hl']
    exact labelName_ne_exitLabel n _

theorem disjoint_labelsUnder {r' : String × List Nat} (hr : isName r.1) (hr' : isName r'.1) (hne : r.1 ≠ r'.1) :
    (labelsUnder r).Disjoint (labelsUnder r') ↔ ∀ n ∈ r.2, n ∉ r'.2 := by
  constructor
  · intro h n hn hn'
    exact h (mem_labelsUnder.2 (.inr (.inl ⟨n, hn, rfl⟩))) (mem_labelsUnder.2 (.inr (.inl ⟨n, hn', rfl⟩)))
  · intro h l hl hl'
    rw [mem_labelsUnder] at hl hl'
    obtain rfl | ⟨n, hn, rfl⟩ | rfl := hl
    · obtain h' | ⟨n, -, h'⟩ | h' := hl'
      · exact hne h'
      · exact isName_ne_labelName hr n h'
      · exact isName_ne_exitLabel hr _ h'
    · obtain h' | ⟨m, hm, h'⟩ | h' := hl'
      · exact isName_ne_labelName hr' n h'.symm
      · exact h n hn (labelName_inj.1 h' ▸ hm)
      · exact labelName_ne_exitLabel n _ h'
    · obtain h' | ⟨m, -, h'⟩ | h' := hl'
      · exact isName_ne_exitLabel hr' _ h'.symm
      · exact labelName_ne_exitLabel m _ h'.symm
      · exact hne (exitLabel_inj.1 h')

theorem nodup_labels_iff (hnames : (xs ++ rs.map Prod.fst).Nodup) (hx : ∀ x ∈ xs ++ rs.map Prod.fst, isName x)
    (hn : ∀ r ∈ rs, r.2.Nodup) : (xs ++ rs.flatMap labelsUnder).Nodup ↔ rs.Pairwise fun a b => ∀ n ∈ a.2, n ∉ b.2 := by
  obtain ⟨hxs, hrs, hdis⟩ := nodup_append.1 hnames
  have hne : rs.Pairwise fun a b => a.1 ≠ b.1 := pairwise_map.1 hrs
  have hr : ∀ r ∈ rs, isName r.1 := fun r hr => hx _ (mem_append_right _ (mem_map_of_mem hr))
  rw [nodup_append, nodup_flatMap]
  constructor
  · rintro ⟨-, ⟨-, h⟩, -⟩
    exact (h.and hne).imp_of_mem fun ha hb hab => (disjoint_labelsUnder (hr _ ha) (hr _ hb) hab.2).1 hab.1
  · intro h
    refine ⟨hxs, ⟨fun r hr' => nodup_labelsUnder (hr r hr') (hn r hr'), ?_⟩, fun x hx' l hl => ?_⟩
    · exact (h.and hne).imp_of_mem fun ha hb hab => (disjoint_labelsUnder (hr _ ha) (hr _ hb) hab.2).2 hab.1
    · rintro rfl
      have hname := hx x (mem_append_left _ hx')
      obtain ⟨r, hr', hl⟩ := mem_flatMap.1 hl
      obtain rfl | ⟨n, -, h'⟩ | h' := mem_labelsUnder.1 hl
      · exact hdis _ hx' _ (mem_map_of_mem hr') rfl
      · exact isName_ne_labelName hname n h'
      · exact isName_ne_exitLabel hname _ h'

theorem count_labels (rs : List (String × List Nat)) (hl : ∀ k, l ≠ labelName k) :
    (rs.flatMap labelsUnder).count l = ((rs.map fun r => (r.1, [])).flatMap labelsUnder).count l := by
  induction rs with
  | nil => rfl
  | cons r rs ih =>
    have hzero : (r.2.map labelName).count l = 0 := by
      rw [count_eq_zero, mem_map]
      rintro ⟨n, -, h⟩
      exact hl n h.symm
    rw [map_cons, flatMap_cons, flatMap_cons, count_append, count_append, ih]
    simp [labelsUnder, count_cons, count_append, hzero]

theorem count_labels_le_one (hnames : (xs ++ rs.map Prod.fst).Nodup) (hx : ∀ x ∈ xs ++ rs.map Prod.fst, isName x)
    (hl : ∀ k, l ≠ labelName k) : (xs ++ rs.flatMap labelsUnder).count l ≤ 1 := by
  have hfst : (rs.map fun r => (r.1, ([] : List Nat))).map Prod.fst = rs.map Prod.fst := by
    rw [map_map]
    rfl
  have hnodup : (xs ++ (rs.map fun r => (r.1, [])).flatMap labelsUnder).Nodup := by
    rw [nodup_labels_iff (by rwa [hfst]) (by rwa [hfst])]
    · exact pairwise_map.2 (pairwise_of_forall fun _ _ => nofun)
    · intro r hr
      obtain ⟨_, -, rfl⟩ := mem_map.1 hr
      exact nodup_nil
  rw [count_append, count_labels rs hl, ← count_append]
  exact nodup_iff_count_le_one.1 hnodup l

end Distinct

section Programs

variable {p p' : Program}

def Decl.procedure? : Decl → Option Procedure
  | .proc q => some q
  | .var _ _ _ _ => none

theorem declareGlobal_name {line : Int} {globals globals' : Scope} {d : Decl} (h : declareGlobal line globals d = .ok globals') :
    d.name ∉ globals.map Prod.fst ∧ globals'.map Prod.fst = globals.map Prod.fst ++ [d.name] := by
  have hnew : ∀ {x e}, require (globals.lookup x).isNone e = .ok () → x ∉ globals.map Prod.fst := by
    intro x e h hx
    have hsome := lookup_isSome.2 hx
    have hnone := require_eq_ok.1 h
    simp [Option.isNone_iff_eq_none.1 hnone] at hsome
  cases d with
  | var line x e ty =>
    simp only [declareGlobal, bind_eq_ok] at h
    obtain ⟨_, hx, _, -, h⟩ := h
    cases h
    exact ⟨hnew hx, by simp [Decl.name]⟩
  | proc q =>
    simp only [declareGlobal, bind_eq_ok] at h
    obtain ⟨_, hx, _, -, h⟩ := h
    refine ⟨hnew hx, ?_⟩
    split at h
    · simp only [bind_eq_ok] at h
      obtain ⟨_, -, _, -, h⟩ := h
      cases h
      simp [Decl.name]
    · cases h
      simp [Decl.name]

theorem nodup_declared {line : Int} {globals globals' : Scope} {ds : List Decl} (h : ds.foldlM (declareGlobal line) globals = .ok globals')
    (hn : (globals.map Prod.fst).Nodup) : (globals.map Prod.fst ++ ds.map Decl.name).Nodup := by
  induction ds generalizing globals with
  | nil => simpa using hn
  | cons d ds ih =>
    rw [foldlM_cons, bind_eq_ok] at h
    obtain ⟨globals₁, hd, h⟩ := h
    obtain ⟨hnew, hkeys⟩ := declareGlobal_name hd
    have hn₁ : (globals₁.map Prod.fst).Nodup := by
      rw [hkeys]
      exact nodup_append.2 ⟨hn, nodup_singleton _, fun x hx y hy hxy => hnew (mem_singleton.1 hy ▸ hxy ▸ hx)⟩
    have hall := ih h hn₁
    rw [hkeys, append_assoc] at hall
    exact hall

theorem check_names (h : check p = .ok p') : p'.decls.map Decl.name = p.decls.map Decl.name := by
  have hchecked := check_checked h
  generalize p.decls = ds at hchecked ⊢
  generalize p'.decls = ds' at hchecked ⊢
  induction hchecked with
  | nil => rfl
  | cons hd _ ih =>
    rw [map_cons, map_cons, ih]
    cases hd <;> rfl

theorem nodup_names (h : check p = .ok p') : (p'.decls.map Decl.name).Nodup := by
  rw [check_names h]
  simp only [check, bind_eq_ok] at h
  obtain ⟨_, hg, -⟩ := h
  exact nodup_declared hg nodup_nil

theorem perm_names (ds : List Decl) :
    (ds.filterMap Decl.variable? ++ (ds.filterMap Decl.procedure?).map Procedure.name).Perm (ds.map Decl.name) := by
  induction ds with
  | nil => exact .nil
  | cons d ds ih =>
    cases d with
    | var line x e ty => exact ih.cons x
    | proc q => exact perm_middle.trans (ih.cons q.name)

theorem bare_marked (x : String) : bare ("@" ++ x) = x := by simp [bare]

structure Numbers (q : Procedure) (ns : List Nat) : Prop where
  nodup : ns.Nodup
  some_of_branches : anyBranches q.body = true → 0 ∈ ns
  none_of_not : anyBranches q.body = false → ns = []

theorem lowerProc_labels {globals : List Gvar} {q : Procedure} {c : Proc Record} (h : lowerProc globals q = .ok c) :
    ∃ ns, Numbers q ns ∧ procLabels (.proc c) = labelsUnder (q.name, ns) := by
  obtain ⟨hname, -, os, g, hcode⟩ := lowerProc_spec h
  obtain ⟨-, ns, hns, hcount⟩ := hcode.sets
  have hstart : (startStage globals q).nextLabel = 0 := rfl
  have hbranches := hcode.branches_iff
  rw [hstart] at hcount hbranches
  refine ⟨ns, ⟨?_, fun hb => ?_, fun hb => ?_⟩, ?_⟩
  · rw [nodup_iff_count_le_one]
    intro n
    rw [hcount]
    split <;> omega
  · rw [← count_pos_iff, hcount, if_pos ⟨Nat.le_refl 0, hbranches.1 hb⟩]
    exact Nat.one_pos
  · have hzero : g.nextLabel = 0 := by
      by_contra hne
      rw [hbranches.2 (by omega)] at hb
      cases hb
    rw [eq_nil_iff_forall_not_mem]
    intro n hn
    rw [← count_pos_iff, hcount, if_neg (by omega)] at hn
    exact Nat.lt_irrefl 0 hn
  · rw [procLabels, hname, bare_marked, hns]
    rfl

theorem lower_eq_ok (h : lower p' = .ok decls) :
    ∃ procs, List.Forall₂ (fun q c => lowerProc (p'.decls.filterMap lowerGlobal) q = .ok c) (p'.decls.filterMap Decl.procedure?) procs ∧
      decls = (p'.decls.filterMap lowerGlobal).map .gvar ++ procs.map .proc := by
  rw [lower, bind_eq_ok] at h
  obtain ⟨procs, hprocs, h⟩ := h
  cases h
  refine ⟨procs, ?_, rfl⟩
  rw [mapM_eq_ok] at hprocs
  rwa [filterMap_congr (g := Decl.procedure?) fun d _ => by cases d <;> rfl] at hprocs

theorem lower_gvarLabels (hcheck : check p = .ok p') (h : lower p' = .ok decls) :
    decls.flatMap gvarLabels = p'.decls.filterMap Decl.variable? := by
  obtain ⟨procs, -, rfl⟩ := lower_eq_ok h
  have hnames := names_lowerGlobal fun line x e ty hd => check_constant hcheck hd
  have hprocs : (procs.map Tac.Decl.proc).flatMap gvarLabels = [] := by simp [flatMap_map, gvarLabels]
  calc ((p'.decls.filterMap lowerGlobal).map Tac.Decl.gvar ++ procs.map Tac.Decl.proc).flatMap gvarLabels
      = ((p'.decls.filterMap lowerGlobal).map Gvar.name).map bare := by
        rw [flatMap_append, hprocs, append_nil, flatMap_map, map_map, map_eq_flatMap]
        rfl
    _ = ((p'.decls.filterMap Decl.variable?).map ("@" ++ ·)).map bare := by rw [hnames]
    _ = p'.decls.filterMap Decl.variable? := by simp [Function.comp_def, bare_marked]

theorem lower_procLabels (h : lower p' = .ok decls) :
    ∃ rs : List (Procedure × List Nat), rs.map Prod.fst = p'.decls.filterMap Decl.procedure? ∧ (∀ r ∈ rs, Numbers r.1 r.2) ∧
      decls.flatMap procLabels = (rs.map fun r => (r.1.name, r.2)).flatMap labelsUnder := by
  obtain ⟨procs, hprocs, rfl⟩ := lower_eq_ok h
  have hgvars : ((p'.decls.filterMap lowerGlobal).map Tac.Decl.gvar).flatMap procLabels = [] := by
    simp [flatMap_map, procLabels]
  rw [flatMap_append, hgvars, nil_append]
  generalize p'.decls.filterMap Decl.procedure? = qs at hprocs ⊢
  clear h
  induction hprocs with
  | nil => exact ⟨[], rfl, nofun, rfl⟩
  | @cons q c _ _ hq _ ih =>
    obtain ⟨rs, hrs, hnumbers, hlabels⟩ := ih
    obtain ⟨ns, hns, hc⟩ := lowerProc_labels hq
    refine ⟨(q, ns) :: rs, by rw [map_cons, hrs], forall_mem_cons.2 ⟨hns, hnumbers⟩, ?_⟩
    rw [map_cons, flatMap_cons, hlabels, hc, map_cons, flatMap_cons]

theorem plain_of_mem_labels (hx : ∀ x ∈ xs ++ rs.map Prod.fst, isName x) (hl : l ∈ xs ++ rs.flatMap labelsUnder) :
    Plain l := by
  rw [mem_append, mem_flatMap] at hl
  obtain hl | ⟨r, hr, hl⟩ := hl
  · exact plain_of_isName (hx l (mem_append_left _ hl))
  · have hname := hx r.1 (mem_append_right _ (mem_map_of_mem hr))
    obtain rfl | ⟨n, -, rfl⟩ | rfl := mem_labelsUnder.1 hl
    · exact plain_of_isName hname
    · exact plain_labelName n
    · exact plain_exitLabel (plain_of_isName hname)

theorem pairwise_numbers {rs : List (Procedure × List Nat)} (h : ∀ r ∈ rs, Numbers r.1 r.2) :
    ((rs.map fun r => (r.1.name, r.2)).Pairwise fun a b => ∀ n ∈ a.2, n ∉ b.2) ↔
      (rs.map Prod.fst).Pairwise fun a b => anyBranches a.body = false ∨ anyBranches b.body = false := by
  rw [pairwise_map, pairwise_map]
  refine List.Pairwise.iff_of_mem fun {a b} ha hb => ⟨fun hab => ?_, fun hab n hn => ?_⟩
  · by_contra hne
    rw [not_or, Bool.not_eq_false, Bool.not_eq_false] at hne
    exact hab 0 ((h a ha).some_of_branches hne.1) ((h b hb).some_of_branches hne.2)
  · obtain hab | hab := hab
    · rw [(h a ha).none_of_not hab] at hn
      cases hn
    · rw [(h b hb).none_of_not hab]
      exact not_mem_nil

/-- Labels without numbers are defined once, and the numbered ones just if there are conditionals and loops in no more than
one procedure. -/
theorem assembly_nodup_iff {decls : List (Tac.Decl Record)} {ds : List Datum} {lines : List String} (hcheck : check p = .ok p')
    (hnames : ∀ d ∈ p.decls, isName d.name = true) (hlower : lower p' = .ok decls) (hdoc : List.Forall₂ Shows ds decls)
    (hasm : assembly (.list ds) = .ok lines) :
    (∀ l, (∀ k, l ≠ labelName k) → (lines.filterMap definedLabel?).count l ≤ 1) ∧
      ((lines.filterMap definedLabel?).Nodup ↔ (p'.decls.filterMap Decl.procedure?).Pairwise fun a b =>
        anyBranches a.body = false ∨ anyBranches b.body = false) := by
  obtain ⟨rs, hprocs, hnumbers, hlabels⟩ := lower_procLabels hlower
  have hfst : (rs.map fun r => (r.1.name, r.2)).map Prod.fst = (p'.decls.filterMap Decl.procedure?).map Procedure.name := by
    rw [← hprocs, map_map, map_map]
    rfl
  have hperm := perm_names p'.decls
  rw [← hfst] at hperm
  have hnodup := hperm.nodup_iff.2 (nodup_names hcheck)
  have hname : ∀ x ∈ p'.decls.filterMap Decl.variable? ++ (rs.map fun r => (r.1.name, r.2)).map Prod.fst, isName x = true := by
    intro x hx
    rw [hperm.mem_iff, check_names hcheck] at hx
    obtain ⟨d, hd, rfl⟩ := mem_map.1 hx
    exact hnames d hd
  have hlines : lines.filterMap definedLabel? =
      p'.decls.filterMap Decl.variable? ++ (rs.map fun r => (r.1.name, r.2)).flatMap labelsUnder := by
    rw [← lower_gvarLabels hcheck hlower, ← hlabels]
    refine assembly_labels hdoc (fun l hl => ?_) hasm
    rw [lower_gvarLabels hcheck hlower, hlabels] at hl
    exact plain_of_mem_labels hname hl
  rw [hlines]
  constructor
  · exact fun l hl => count_labels_le_one hnodup hname hl
  · rw [nodup_labels_iff hnodup hname, pairwise_numbers hnumbers, hprocs]
    intro r hr
    obtain ⟨r', hr', rfl⟩ := mem_map.1 hr
    exact (hnumbers r' hr').nodup

end Programs

theorem shows_toDatum (decls : List (Tac.Decl Record)) : List.Forall₂ Shows (decls.map Tac.Decl.toDatum) decls := by
  induction decls with
  | nil => exact .nil
  | cons d decls ih =>
    cases d with
    | gvar g => exact .cons .gvar ih
    | proc q => exact .cons .proc ih

def counting (f x : String) : Decl := .proc ⟨4, f, [], .void, [
  .vardecl 2 x (.num 2 0) .int,
  .while 3 (.binary 3 .less (.var 3 x) (.num 3 3)) [.assign 3 3 x (.binary 3 .plus (.var 3 x) (.num 3 1))]]⟩

def countingCode (name : String) : Proc Record := ⟨name, [], [
  .of "const" [.int 0] (.str "%0"),
  .of "label" [.str ".L0"] .null,
  .of "copy" [.str "%0"] (.str "%1"), .of "const" [.int 3] (.str "%2"), .of "sub" [.str "%1", .str "%2"] (.str "%1"),
  .of "jl" [.str "%1", .str ".L1"] .null, .of "jmp" [.str ".L2"] .null,
  .of "label" [.str ".L1"] .null,
  .of "copy" [.str "%0"] (.str "%3"), .of "const" [.int 1] (.str "%4"), .of "add" [.str "%3", .str "%4"] (.str "%0"),
  .of "jmp" [.str ".L0"] .null,
  .of "label" [.str ".L2"] .null]⟩

def countingOnce : Program := ⟨8, [.var 1 "limit" (.num 1 3) .int, counting "f" "x",
  .proc ⟨7, "main", [], .void, [.assign 6 6 "limit" (.num 6 4), .eval 6 (.call 6 "f" [])]⟩]⟩

def countingOnceCode : List (Tac.Decl Record) :=
  [.gvar ⟨"@limit", .int 3⟩, .proc (countingCode "@f"),
    .proc ⟨"@main", [], [.of "const" [.int 4] (.str "@limit"), .of "call" [.str "@f", .int 0] .null]⟩]

theorem assembly_nodup_countingOnce : check countingOnce = .ok countingOnce ∧ lower countingOnce = .ok countingOnceCode ∧
    ∃ lines, assembly (.list (countingOnceCode.map Tac.Decl.toDatum)) = .ok lines ∧ (lines.filterMap definedLabel?).Nodup := by
  have hcheck : check countingOnce = .ok countingOnce := by cbv
  have hlower : lower countingOnce = .ok countingOnceCode := by cbv
  obtain ⟨lines, hasm⟩ := exists_of_isOk (x := assembly (.list (countingOnceCode.map Tac.Decl.toDatum))) (by decide +kernel)
  refine ⟨hcheck, hlower, lines, hasm, ?_⟩
  exact (assembly_nodup_iff hcheck (by decide) hlower (shows_toDatum _) hasm).2.2 (by decide)

def countingTwice : Program := ⟨8, [counting "f" "x", counting "main" "y"]⟩

def countingTwiceCode : List (Tac.Decl Record) := [.proc (countingCode "@f"), .proc (countingCode "@main")]

theorem not_nodup_countingTwice : check countingTwice = .ok countingTwice ∧ lower countingTwice = .ok countingTwiceCode ∧
    ∃ lines, assembly (.list (countingTwiceCode.map Tac.Decl.toDatum)) = .ok lines ∧
      lines.filterMap definedLabel? = ["f", ".L0", ".L1", ".L2", ".Lend_f", "main", ".L0", ".L1", ".L2", ".Lend_main"] ∧
      ¬ (lines.filterMap definedLabel?).Nodup := by
  have hlabels : countingTwiceCode.flatMap gvarLabels ++ countingTwiceCode.flatMap procLabels =
      ["f", ".L0", ".L1", ".L2", ".Lend_f", "main", ".L0", ".L1", ".L2", ".Lend_main"] := by decide +kernel
  obtain ⟨lines, hasm⟩ := exists_of_isOk (x := assembly (.list (countingTwiceCode.map Tac.Decl.toDatum))) (by decide +kernel)
  have hlines := assembly_labels (shows_toDatum countingTwiceCode) (by rw [hlabels]; unfold Plain; decide) hasm
  rw [hlabels] at hlines
  refine ⟨by cbv, by cbv, lines, hasm, hlines, ?_⟩
  rw [hlines]
  decide

end Bx.Procedural
