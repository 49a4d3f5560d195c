import Bx.Proofs.Procedural.Conditions
import Bx.Proofs.Source.Labels
import Bx.Proofs.Structured.Lowering

namespace Bx

namespace Structured

open Source Tac

variable {ls owed : List Datum} {p : Prop}

def Expr.isPlain : Expr → Bool
  | .var _ _ | .num _ _ | .bool _ _ => true
  | .unary _ op e => e.isPlain && !op.isBoolean
  | .binary _ op l r => l.isPlain && r.isPlain && !op.isBoolean

def Expr.isTestable : Expr → Bool
  | .bool _ _ => true
  | .var _ _ | .num _ _ => false
  | .unary _ .boolnot e => e.isTestable
  | .unary _ _ _ => true
  | .binary _ .booland l r | .binary _ .boolor l r => l.isTestable && r.isTestable
  | .binary _ op l r => (comparison? op).isNone || l.isPlain && r.isPlain

mutual

def Stmt.isLowerable : Stmt → Bool
  | .vardecl _ _ e | .assign _ _ _ e | .print _ e => e.isPlain
  | .block _ body => allLowerable body
  | .ifelse _ c yes no => c.isTestable && allLowerable yes && no.isLowerable
  | .while _ c body => c.isTestable && allLowerable body
  | .break _ | .continue _ => true

def allLowerable : List Stmt → Bool
  | [] => true
  | s :: rest => s.isLowerable && allLowerable rest

end

abbrev Marks {α : Type} (p : Prop) (ls owed : List Datum) (x : Lower α) : Prop :=
  Source.Marks (fun g : Gen => (g.code, g.nextLabel)) .outsideLoop p ls owed x

theorem emit_marks {op : String} {args : List Datum} {t : Datum} (hm : marks [.of op args t] = owed)
    (hd : ∀ d ∈ destination? (.of op args t), d ∈ ls) : Marks True ls owed (emit op args t) :=
  hm ▸ .adds fun _ => ⟨_, _, rfl, rfl, .single hd⟩

theorem freshLabel_marks {f : String → Lower Unit} (hf : ∀ l, Marks p (.str l :: ls) (owed ++ [.str l]) (f l)) :
    Marks p ls owed (freshLabel >>= f) :=
  .take (fun _ => ⟨_, rfl, rfl⟩) hf

theorem fresh_marks : Marks True ls [] fresh := .quiet fun _ => ⟨_, _, rfl, rfl⟩

theorem lookup_marks (x : String) : Marks True ls [] (lookup x) := by
  refine .quiet fun g => ?_
  simp only [Structured.lookup, StateT.run_bind, StateT.run_get, pure_bind]
  cases g.temps.lookup x with
  | some t => exact ⟨_, _, rfl, rfl⟩
  | none => exact ⟨_, _, rfl, rfl⟩

theorem operation_marks (op : Op) (args : List Datum) (t : Datum) :
    Marks (op.isBoolean = false) ls [] (do emit (← opcode op) args t) := by
  rw [isBoolean_eq, opcode]
  cases hop : op.opcode? with
  | none => exact .congr (.error (e := .noOpcode op) (fun _ => rfl) (by simp)) (by simp)
  | some name =>
    obtain ⟨hmarks, hdest⟩ := still_of_opcode hop args t
    rw [pure_bind]
    exact .congr (emit_marks hmarks (by simp [hdest])) (by simp)

theorem intExpr_marks (e : Expr) (target : String) : Marks (e.isPlain) ls [] (intExpr target e) := by
  induction e generalizing target with
  | var line x => exact .congr ((lookup_marks x).after fun t => emit_marks rfl nofun) (by simp [Expr.isPlain])
  | num line n | bool line b => exact .congr (emit_marks rfl nofun) (by simp [Expr.isPlain])
  | unary line op e ih =>
    rw [Expr.isPlain, Bool.and_eq_true, Bool.not_eq_true']
    exact fresh_marks.after fun t => (ih t).both fun _ => operation_marks op _ _
  | binary line op l r ihl ihr =>
    rw [Expr.isPlain, Bool.and_eq_true, Bool.and_eq_true, Bool.not_eq_true', and_assoc]
    exact fresh_marks.after fun t => (ihl t).both fun _ => fresh_marks.after fun u => (ihr u).both fun _ => operation_marks op _ _

theorem jump_marks {l : String} (h : .str l ∈ ls) : Marks True ls [] (emitJump l) :=
  emit_marks rfl fun _ hd => Option.some.inj hd ▸ h

theorem label_marks (l : String) : Marks True ls [.str l] (emitLabel l) := emit_marks rfl nofun

theorem compare_marks {op : Op} {jump yes no : String} (hop : comparison? op = some jump) (l r : Expr) (hyes : .str yes ∈ ls)
    (hno : .str no ∈ ls) : Marks (l.isPlain ∧ r.isPlain) ls [] (compare jump l r yes no) := by
  refine fresh_marks.after fun t => fresh_marks.after fun u => (intExpr_marks l t).both fun _ => (intExpr_marks r u).before fun _ => ?_
  have hjump : Marks True ls [] (emit jump [.str t, .str yes] .null) := by
    cases op <;> cases hop <;> exact emit_marks rfl fun _ hd => Option.some.inj hd ▸ hyes
  exact .after (emit_marks rfl nofun) fun _ => hjump.after fun _ => jump_marks hno

theorem boolExpr_marks (e : Expr) {yes no : String} (hyes : .str yes ∈ ls) (hno : .str no ∈ ls) :
    Marks (e.isTestable) ls [] (boolExpr yes no e) := by
  fun_induction boolExpr yes no e generalizing ls with
  | case1 yes no line b =>
    rw [Expr.isTestable, eq_self]
    cases b with
    | true => exact jump_marks hyes
    | false => exact jump_marks hno
  | case2 yes no line e ih => exact ih hno hyes
  | case3 yes no line op e hop =>
    have htest : (Expr.unary line op e).isTestable := by cases op <;> simp_all [Expr.isTestable]
    exact .congr (.quiet fun _ => ⟨_, _, rfl, rfl⟩) (by simp [htest])
  | case4 yes no line l r ihl ihr =>
    rw [Expr.isTestable, Bool.and_eq_true]
    refine freshLabel_marks fun b => (ihl b (.head _) (.tail _ hyes)).both fun _ => ?_
    exact (label_marks b).pays fun _ => ihr b (.head _) (.tail _ hyes)
  | case5 yes no line l r ihl ihr =>
    rw [Expr.isTestable, Bool.and_eq_true]
    refine freshLabel_marks fun b => (ihl b (.tail _ hyes) (.head _)).both fun _ => ?_
    exact (label_marks b).pays fun _ => ihr (.tail _ hyes) (.tail _ hno)
  | case6 yes no line op l r hand hor jump hjump =>
    exact .congr (compare_marks hjump l r hyes hno) (by simp [Expr.isTestable, hjump])
  | case7 yes no line op l r hand hor hjump =>
    exact .congr (.quiet fun _ => ⟨_, _, rfl, rfl⟩) (by simp [Expr.isTestable, hjump])
  | case8 | case9 => exact .congr (.error (fun _ => rfl) nofun) (by simp [Expr.isTestable])

def loopMarks : Option Loop → List Datum
  | none => []
  | some l => [.str l.head, .str l.exit]

mutual

theorem stmt_marks {ls : List Datum} {loop : Option Loop} {s s' : Scopes} {a : Stmt} (h : a.check loop.isSome s = .ok s')
    (hl : loopMarks loop ⊆ ls) : Marks (a.isLowerable) ls [] (stmt loop a) := by
  cases a with
  | vardecl line x e | assign line varLine x e => exact (lookup_marks x).after fun t => intExpr_marks e t
  | print line e => exact fresh_marks.after fun t => (intExpr_marks e t).before fun _ => emit_marks rfl nofun
  | block line body => exact stmts_marks h hl
  | ifelse line c yes no =>
    simp only [Stmt.check, bind_eq_ok] at h
    obtain ⟨_, -, s₁, hy, s₂, hn, -⟩ := h
    rw [Stmt.isLowerable, Bool.and_eq_true, Bool.and_eq_true, and_assoc]
    refine freshLabel_marks fun onYes => freshLabel_marks fun onNo => freshLabel_marks fun done => ?_
    have hl' : loopMarks loop ⊆ .str done :: .str onNo :: .str onYes :: ls := fun _ h => .tail _ (.tail _ (.tail _ (hl h)))
    refine (boolExpr_marks c (by simp) (by simp)).both fun _ => (label_marks onYes).pays fun _ => ?_
    refine (stmts_marks hy hl').both fun _ => (jump_marks (by simp)).after fun _ => (label_marks onNo).pays fun _ => ?_
    exact (stmt_marks hn hl').before fun _ => label_marks done
  | «while» line c body =>
    simp only [Stmt.check, bind_eq_ok] at h
    obtain ⟨_, -, s₁, hb, -⟩ := h
    rw [Stmt.isLowerable, Bool.and_eq_true]
    refine freshLabel_marks fun head => freshLabel_marks fun inside => freshLabel_marks fun exit => (label_marks head).pays fun _ => ?_
    refine (boolExpr_marks c (by simp) (by simp)).both fun _ => (label_marks inside).pays fun _ => ?_
    refine .before (stmts_marks hb (by simp [loopMarks])) fun _ => ?_
    exact (jump_marks (by simp)).after fun _ => label_marks exit
  | «break» line | «continue» line =>
    simp only [Stmt.check, bind_eq_ok, require_eq_ok] at h
    obtain ⟨_, hloop, -⟩ := h
    obtain ⟨l, rfl⟩ := Option.isSome_iff_exists.1 hloop
    exact .congr (jump_marks (hl (by simp [loopMarks]))) (by simp [Stmt.isLowerable])

theorem stmts_marks {ls : List Datum} {loop : Option Loop} {s s' : Scopes} {body : List Stmt} (h : checkAll loop.isSome s body = .ok s')
    (hl : loopMarks loop ⊆ ls) : Marks (allLowerable body) ls [] (stmts loop body) := by
  cases body with
  | nil => exact .congr (.quiet fun _ => ⟨_, _, rfl, rfl⟩) (by simp [allLowerable])
  | cons a rest =>
    simp only [checkAll, bind_eq_ok] at h
    obtain ⟨s₁, ha, hrest⟩ := h
    rw [allLowerable, Bool.and_eq_true]
    exact (stmt_marks ha hl).both fun _ => stmts_marks hrest hl

end

theorem check_marks {program : List Stmt} (h : check program = .ok ()) : Marks (allLowerable program) [] [] (stmts none program) := by
  simp only [check, bind_eq_ok] at h
  obtain ⟨s, hs, -⟩ := h
  exact stmts_marks hs (List.Subset.refl [])

theorem exists_lower_iff {program : List Stmt} (h : check program = .ok ()) :
    (∃ code, lower program = .ok code) ↔ allLowerable program := by
  rw [← (check_marks h).decides .start]
  simp only [lower, bind_eq_ok]
  constructor
  · rintro ⟨code, r, hr, -⟩
    exact ⟨r, hr⟩
  · rintro ⟨r, hr⟩
    exact ⟨r.2.code, r, hr, rfl⟩

theorem lower_wellLabelled {program : List Stmt} {code : List Record} (h : check program = .ok ()) (hlower : lower program = .ok code) :
    WellLabelled code := by
  rw [lower, bind_eq_ok] at hlower
  obtain ⟨r, hr, hcode⟩ := hlower
  cases hcode
  exact (check_marks h).wellLabelled rfl hr

end Structured

namespace Procedural

open Source Tac

variable {ls owed : List Datum} {p : Prop}

mutual

def Expr.isPlain : Expr → Bool
  | .var _ _ | .num _ _ | .bool _ _ => true
  | .unary _ op e => e.isPlain && !op.isBoolean
  | .binary _ op l r => l.isPlain && r.isPlain && !op.isBoolean
  | .call _ _ args => allPlain args

def allPlain : List Expr → Bool
  | [] => true
  | e :: rest => e.isPlain && allPlain rest

end

def Expr.isTestable : Expr → Bool
  | .var _ _ | .num _ _ | .bool _ _ | .call _ _ _ => false
  | .unary _ .boolnot e => e.isTestable
  | .unary _ _ _ => true
  | .binary _ .booland l r | .binary _ .boolor l r => l.isTestable && r.isTestable
  | .binary _ op l r => (comparison? op).isNone || l.isPlain && r.isPlain

mutual

def Stmt.isLowerable : Stmt → Bool
  | .vardecl _ _ e _ | .assign _ _ _ e | .eval _ e | .return _ (some e) => e.isPlain
  | .block _ body => allLowerable body
  | .ifelse _ c yes no => c.isTestable && allLowerable yes && no.isLowerable
  | .while _ c body => c.isTestable && allLowerable body
  | .break _ | .continue _ | .return _ none => true

def allLowerable : List Stmt → Bool
  | [] => true
  | s :: rest => s.isLowerable && allLowerable rest

end

abbrev Marks {α : Type} (p : Prop) (ls owed : List Datum) (x : Lower α) : Prop :=
  Source.Marks (fun g : Gen => (g.code, g.nextLabel)) .outsideLoop p ls owed x

theorem emit_marks {op : String} {args : List Datum} {t : Datum} (hm : marks [.of op args t] = owed)
    (hd : ∀ d ∈ destination? (.of op args t), d ∈ ls) : Marks True ls owed (emit op args t) :=
  hm ▸ .adds fun _ => ⟨_, _, rfl, rfl, .single hd⟩

theorem freshLabel_marks {f : String → Lower Unit} (hf : ∀ l, Marks p (.str l :: ls) (owed ++ [.str l]) (f l)) :
    Marks p ls owed (freshLabel >>= f) :=
  .take (fun _ => ⟨_, rfl, rfl⟩) hf

theorem fresh_marks : Marks True ls [] fresh := .quiet fun _ => ⟨_, _, rfl, rfl⟩

theorem enterScope_marks : Marks True ls [] enterScope := .quiet fun _ => ⟨_, _, rfl, rfl⟩

theorem leaveScope_marks : Marks True ls [] leaveScope := .quiet fun _ => ⟨_, _, rfl, rfl⟩

theorem lookup_marks (x : String) : Marks True ls [] (lookup x) := by
  refine .quiet fun g => ?_
  simp only [Procedural.lookup, StateT.run_bind, StateT.run_get, pure_bind]
  cases g.scopes.findSome? fun scope => scope.lookup x with
  | some t => exact ⟨_, _, rfl, rfl⟩
  | none => exact ⟨_, _, rfl, rfl⟩

theorem operation_marks (op : Op) (args : List Datum) (t : Datum) :
    Marks (op.isBoolean = false) ls [] (do emit (← opcode op) args t) := by
  rw [isBoolean_eq, opcode]
  cases hop : op.opcode? with
  | none => exact .congr (.error (e := .noOpcode op) (fun _ => rfl) (by simp)) (by simp)
  | some name =>
    obtain ⟨hmarks, hdest⟩ := still_of_opcode hop args t
    rw [pure_bind]
    exact .congr (emit_marks hmarks (by simp [hdest])) (by simp)

mutual

theorem intExpr_marks {ls : List Datum} (e : Expr) (target : Datum) : Marks (e.isPlain) ls [] (intExpr target e) := by
  cases e with
  | var line x => exact .congr ((lookup_marks x).after fun t => emit_marks rfl nofun) (by simp [Expr.isPlain])
  | num line n | bool line b => exact .congr (emit_marks rfl nofun) (by simp [Expr.isPlain])
  | unary line op e =>
    rw [Expr.isPlain, Bool.and_eq_true, Bool.not_eq_true', intExpr]
    exact fresh_marks.after fun t => (intExpr_marks e (.str t)).both fun _ => operation_marks op _ _
  | binary line op l r =>
    rw [Expr.isPlain, Bool.and_eq_true, Bool.and_eq_true, Bool.not_eq_true', and_assoc, intExpr]
    refine fresh_marks.after fun t => (intExpr_marks l (.str t)).both fun _ => fresh_marks.after fun u => ?_
    exact (intExpr_marks r (.str u)).both fun _ => operation_marks op _ _
  | call line f args =>
    rw [Expr.isPlain, intExpr]
    exact (params_marks args 0).before fun _ => emit_marks rfl nofun

theorem params_marks {ls : List Datum} (args : List Expr) (k : Nat) : Marks (allPlain args) ls [] (params k args) := by
  cases args with
  | nil => exact .congr (.quiet fun _ => ⟨_, _, rfl, rfl⟩) (by simp [allPlain])
  | cons e rest =>
    rw [allPlain, Bool.and_eq_true, params]
    split
    · refine fresh_marks.after fun t => (intExpr_marks e (.str t)).both fun _ => ?_
      exact .after (emit_marks rfl nofun) fun _ => params_marks rest (k + 1)
    · rw [and_comm]
      refine (params_marks rest (k + 1)).both fun _ => fresh_marks.after fun t => ?_
      exact (intExpr_marks e (.str t)).before fun _ => emit_marks rfl nofun

end

theorem jump_marks {l : String} (h : .str l ∈ ls) : Marks True ls [] (emitJump l) :=
  emit_marks rfl fun _ hd => Option.some.inj hd ▸ h

theorem label_marks (l : String) : Marks True ls [.str l] (emitLabel l) := emit_marks rfl nofun

theorem compare_marks {op : Op} {jump yes no : String} (hop : comparison? op = some jump) (l r : Expr) (hyes : .str yes ∈ ls)
    (hno : .str no ∈ ls) : Marks (l.isPlain ∧ r.isPlain) ls [] (compare jump l r yes no) := by
  refine fresh_marks.after fun t => fresh_marks.after fun u => ?_
  refine (intExpr_marks l (.str t)).both fun _ => (intExpr_marks r (.str u)).before fun _ => ?_
  have hjump : Marks True ls [] (emit jump [.str t, .str yes] .null) := by
    cases op <;> cases hop <;> exact emit_marks rfl fun _ hd => Option.some.inj hd ▸ hyes
  exact .after (emit_marks rfl nofun) fun _ => hjump.after fun _ => jump_marks hno

theorem boolExpr_marks (e : Expr) {yes no : String} (hyes : .str yes ∈ ls) (hno : .str no ∈ ls) :
    Marks (e.isTestable) ls [] (boolExpr yes no e) := by
  fun_induction boolExpr yes no e generalizing ls with
  | case1 yes no line e ih => exact ih hno hyes
  | case2 yes no line op e hop =>
    have htest : (Expr.unary line op e).isTestable := by cases op <;> simp_all [Expr.isTestable]
    exact .congr (.quiet fun _ => ⟨_, _, rfl, rfl⟩) (by simp [htest])
  | case3 yes no line l r ihl ihr =>
    rw [Expr.isTestable, Bool.and_eq_true]
    refine freshLabel_marks fun b => (ihl b (.head _) (.tail _ hyes)).both fun _ => ?_
    exact (label_marks b).pays fun _ => ihr b (.head _) (.tail _ hyes)
  | case4 yes no line l r ihl ihr =>
    rw [Expr.isTestable, Bool.and_eq_true]
    refine freshLabel_marks fun b => (ihl b (.tail _ hyes) (.head _)).both fun _ => ?_
    exact (label_marks b).pays fun _ => ihr (.tail _ hyes) (.tail _ hno)
  | case5 yes no line op l r hand hor jump hjump =>
    exact .congr (compare_marks hjump l r hyes hno) (by simp [Expr.isTestable, hjump])
  | case6 yes no line op l r hand hor hjump =>
    exact .congr (.quiet fun _ => ⟨_, _, rfl, rfl⟩) (by simp [Expr.isTestable, hjump])
  | case7 | case8 | case9 | case10 => exact .congr (.error (fun _ => rfl) nofun) (by simp [Expr.isTestable])

def loopMarks : Option Loop → List Datum
  | none => []
  | some l => [.str l.head, .str l.exit]

mutual

theorem stmt_marks {ls : List Datum} {w : Within} {inLoop : Bool} {s s' : Scopes} {a a' : Stmt} (h : a.Checked w inLoop s s' a')
    {loop : Option Loop} (hloop : inLoop = loop.isSome) (hl : loopMarks loop ⊆ ls) : Marks (a'.isLowerable) ls [] (stmt loop a') := by
  cases h with
  | vardecl | assign => exact (lookup_marks _).after fun t => intExpr_marks _ (.str t)
  | eval => exact intExpr_marks _ .null
  | block hb => exact enterScope_marks.after fun _ => (stmts_marks hb hloop hl).before fun _ => leaveScope_marks
  | ifelse hc hy hn =>
    rw [Stmt.isLowerable, Bool.and_eq_true, Bool.and_eq_true, and_assoc]
    refine freshLabel_marks fun onYes => freshLabel_marks fun onNo => freshLabel_marks fun done => ?_
    have hl' : loopMarks loop ⊆ .str done :: .str onNo :: .str onYes :: ls := fun _ h => .tail _ (.tail _ (.tail _ (hl h)))
    refine (boolExpr_marks _ (by simp) (by simp)).both fun _ => (label_marks onYes).pays fun _ => enterScope_marks.after fun _ => ?_
    refine (stmts_marks hy hloop hl').both fun _ => leaveScope_marks.after fun _ => (jump_marks (by simp)).after fun _ => ?_
    exact (label_marks onNo).pays fun _ => (stmt_marks hn hloop hl').before fun _ => label_marks done
  | «while» hc hb =>
    rw [Stmt.isLowerable, Bool.and_eq_true]
    refine freshLabel_marks fun head => freshLabel_marks fun inside => freshLabel_marks fun exit => (label_marks head).pays fun _ => ?_
    refine (boolExpr_marks _ (by simp) (by simp)).both fun _ => (label_marks inside).pays fun _ => enterScope_marks.after fun _ => ?_
    refine (stmts_marks hb rfl (by simp [loopMarks])).before fun _ => leaveScope_marks.after fun _ => ?_
    exact (jump_marks (by simp)).after fun _ => label_marks exit
  | «break» hb | «continue» hb =>
    obtain ⟨l, rfl⟩ := Option.isSome_iff_exists.1 (hloop.symm.trans hb)
    exact .congr (jump_marks (hl (by simp [loopMarks]))) (by simp [Stmt.isLowerable])
  | leave => exact .congr (emit_marks rfl nofun) (by simp [Stmt.isLowerable])
  | answer => exact fresh_marks.after fun t => (intExpr_marks _ (.str t)).before fun _ => emit_marks rfl nofun

theorem stmts_marks {ls : List Datum} {w : Within} {inLoop : Bool} {s s' : Scopes} {body body' : List Stmt}
    (h : AllChecked w inLoop s body s' body') {loop : Option Loop} (hloop : inLoop = loop.isSome) (hl : loopMarks loop ⊆ ls) :
    Marks (allLowerable body') ls [] (stmts loop body') := by
  cases h with
  | nil => exact .congr (.quiet fun _ => ⟨_, _, rfl, rfl⟩) (by simp [allLowerable])
  | cons ha hr =>
    rw [allLowerable, Bool.and_eq_true]
    exact (stmt_marks ha hloop hl).both fun _ => stmts_marks hr hloop hl

end

theorem exists_lowerProc_iff {p p' : Program} (h : check p = .ok p') (globals : List Gvar) {q : Procedure} (hq : .proc q ∈ p'.decls) :
    (∃ c, lowerProc globals q = .ok c) ↔ allLowerable q.body := by
  obtain ⟨d, -, hdq⟩ := forall₂_exists_left (check_checked h) hq
  cases hdq with
  | @proc p body s s' hbody =>
    have hmarks : Marks (allLowerable body) [] [] (stmts none body) :=
      stmts_marks (checkAll_checked hbody) rfl (List.Subset.refl [])
    rw [← hmarks.decides ⟨0, 0, startScopes globals { p with body }, []⟩]
    simp only [lowerProc, bind_eq_ok]
    constructor
    · rintro ⟨c, r, hr, -⟩
      exact ⟨r, hr⟩
    · rintro ⟨r, hr⟩
      exact ⟨_, r, hr, rfl⟩

end Procedural

namespace Source

section Programs

open Structured (Stmt)
open Procedural (Procedure Program)

def bounded : List Stmt := [.vardecl 1 "x" (.binary 1 .plus (.num 1 1) (.num 1 2)),
  .while 3 (.unary 2 .boolnot (.binary 2 .boolor (.bool 2 false) (.binary 2 .less (.var 2 "x") (.num 2 0)))) [.break 3]]

def clamping : Program := ⟨9, [
  .proc ⟨4, "f", [("x", .int)], .int, [
    .ifelse 3 (.binary 2 .less (.var 2 "x") (.num 2 0)) [.return 2 (some (.num 2 0))] (.block 3 [.return 3 (some (.var 3 "x"))])]⟩,
  .proc ⟨8, "main", [], .void, [.eval 7 (.call 7 "f" [.num 7 5])]⟩]⟩

def flagged : List Stmt := [.vardecl 1 "b" (.bool 1 true), .ifelse 2 (.var 2 "b") [] (.block 2 [])]

def forever : Procedure := ⟨3, "main", [], .void, [.while 2 (.bool 1 true) []]⟩

def compared : Procedure := ⟨3, "main", [], .void, [.vardecl 2 "b" (.binary 2 .less (.num 2 1) (.num 2 2)) .bool]⟩

end Programs

/-- A checked program or procedure is lowered just if its values are plain and its conditions are testable. -/
theorem lowers_iff_lowerable {program : List Structured.Stmt} {p p' : Procedural.Program} (h : Structured.check program = .ok ())
    (hp : Procedural.check p = .ok p') :
    ((∃ code, Structured.lower program = .ok code) ↔ Structured.allLowerable program = true) ∧
    ∀ globals q, .proc q ∈ p'.decls → ((∃ c, Procedural.lowerProc globals q = .ok c) ↔ Procedural.allLowerable q.body = true) :=
  ⟨Structured.exists_lower_iff h, fun globals _ => Procedural.exists_lowerProc_iff hp globals⟩

theorem lowers_iff_lowerable_bounded : (∃ code, Structured.lower bounded = .ok code) ∧
    ∀ globals q, .proc q ∈ clamping.decls → ∃ c, Procedural.lowerProc globals q = .ok c := by
  have hcheck : Structured.check bounded = .ok () := rfl
  have hcheck' : Procedural.check clamping = .ok clamping := rfl
  obtain ⟨hbounded, hclamping⟩ := lowers_iff_lowerable hcheck hcheck'
  refine ⟨hbounded.2 rfl, fun globals q hq => (hclamping globals q hq).2 ?_⟩
  simp only [clamping, List.mem_cons, Procedural.Decl.proc.injEq, List.not_mem_nil, or_false] at hq
  obtain rfl | rfl := hq <;> rfl

/-- Variables, constants and comparisons for a variable may be of the type of a condition; none of them is lowered. -/
theorem not_lowers_flagged :
    (Structured.check flagged = .ok () ∧ Structured.lower flagged = .error (.notCondition "Variable")) ∧
    (Procedural.check ⟨3, [.proc forever]⟩ = .ok ⟨3, [.proc forever]⟩ ∧
      Procedural.lowerProc [] forever = .error (.notCondition "Boolean")) ∧
    (Procedural.check ⟨3, [.proc compared]⟩ = .ok ⟨3, [.proc compared]⟩ ∧
      Procedural.lowerProc [] compared = .error (.noOpcode .less)) :=
  ⟨⟨rfl, rfl⟩, ⟨rfl, rfl⟩, rfl, rfl⟩

end Source

end Bx
