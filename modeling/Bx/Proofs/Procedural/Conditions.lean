import Bx.Procedural.Check
import Bx.Procedural.Lower
import Bx.Proofs.Basic

namespace Bx.Procedural

open Source

variable {op : Op} {s sc : Scopes} {line : Int} {e' : Expr} {t : Ty}

def Expr.Formed : Expr → Prop
  | .unary _ op e => op ∈ [Op.boolnot, .bitcompl, .uminus] ∧ e.Formed
  | .binary _ op l r => op ∉ [Op.boolnot, .bitcompl, .uminus] ∧ l.Formed ∧ r.Formed
  | _ => True

def Expr.Tests : Expr → Prop
  | .unary _ op e => op = .boolnot ∧ e.Tests
  | .binary _ op l r => (comparison? op).isSome = true ∨ (op = .booland ∨ op = .boolor) ∧ l.Tests ∧ r.Tests
  | _ => True

mutual

def Stmt.Conds (P : Expr → Prop) : Stmt → Prop
  | .block _ body => AllConds P body
  | .ifelse _ c yes no => P c ∧ AllConds P yes ∧ no.Conds P
  | .while _ c body => P c ∧ AllConds P body
  | _ => True

def AllConds (P : Expr → Prop) : List Stmt → Prop
  | [] => True
  | s :: rest => s.Conds P ∧ AllConds P rest

end

def Program.Formed (p : Program) : Prop := ∀ q, .proc q ∈ p.decls → AllConds Expr.Formed q.body

theorem require_eq_ok {b : Bool} {e : CheckError} {u : Unit} : require b e = .ok u ↔ b := by
  cases b <;> simp [require]

theorem resultType_bool (h : resultType op = .base .bool) (hop : op ∉ [Op.boolnot, .bitcompl, .uminus]) :
    (comparison? op).isSome ∨ (op = .booland ∨ op = .boolor) := by
  cases op <;> simp_all [resultType, Op.isBoolean, comparison?]

theorem resultType_boolnot (h : resultType op = .base .bool) (hop : op ∈ [Op.boolnot, .bitcompl, .uminus]) : op = .boolnot := by
  cases op <;> simp_all [resultType, Op.isBoolean]

theorem Expr.check_unary {e : Expr} (h : (Expr.unary line op e).check s = .ok (t, e')) :
    ∃ e₁, e.check s = .ok (.base (if op.wantsBoolean then .bool else .int), e₁) ∧ t = resultType op ∧ e' = .unary line op e₁ := by
  rw [Expr.check, bind_eq_ok] at h
  obtain ⟨⟨u, e₁⟩, he, h⟩ := h
  dsimp only at h
  cases hop : op.wantsBoolean with
  | true =>
    rw [hop, if_pos rfl, bind_eq_ok] at h
    obtain ⟨_, hu, h⟩ := h
    cases h
    obtain rfl : u = .base .bool := eq_of_beq (require_eq_ok.1 hu)
    exact ⟨e₁, he, rfl, rfl⟩
  | false =>
    rw [hop, if_neg Bool.false_ne_true, bind_eq_ok] at h
    obtain ⟨_, hu, h⟩ := h
    cases h
    obtain rfl : u = .base .int := eq_of_beq (require_eq_ok.1 hu)
    exact ⟨e₁, he, rfl, rfl⟩

theorem Expr.check_binary {l r : Expr} (h : (Expr.binary line op l r).check s = .ok (t, e')) :
    ∃ u l₁ r₁, l.check s = .ok (u, l₁) ∧ r.check s = .ok (u, r₁) ∧ (op.wantsBoolean → u = .base .bool) ∧
      t = resultType op ∧ e' = .binary line op l₁ r₁ := by
  rw [Expr.check, bind_eq_ok] at h
  obtain ⟨⟨u, l₁⟩, hl, h⟩ := h
  rw [bind_eq_ok] at h
  obtain ⟨⟨u', r₁⟩, hr, h⟩ := h
  rw [bind_eq_ok] at h
  obtain ⟨_, hu, h⟩ := h
  obtain rfl : u = u' := eq_of_beq (require_eq_ok.1 hu)
  dsimp only at h
  split at h
  · rw [bind_eq_ok] at h
    obtain ⟨_, hu, h⟩ := h
    cases h
    exact ⟨u, l₁, r₁, hl, hr, fun _ => eq_of_beq (require_eq_ok.1 hu), rfl, rfl⟩
  · next hop =>
      cases h
      exact ⟨u, l₁, r₁, hl, hr, fun h => absurd h hop, rfl, rfl⟩

theorem Expr.check_call {f : String} {args : List Expr} (h : (Expr.call line f args).check s = .ok (t, e')) :
    (f = "print" ∧ t = .base .void ∧ ∃ e u e₁ g, args = [e] ∧ e.check s = .ok (u, e₁) ∧ printer u = .ok g ∧ e' = .call line g [e₁]) ∨
    (f ≠ "print" ∧ ∃ params ret args', s.globals.lookup f = some (.proc params ret) ∧ args.length = params.length ∧
      checkArgs s line 0 params args = .ok args' ∧ t = .base ret ∧ e' = .call line f args') := by
  rw [Expr.check.eq_def] at h
  dsimp only at h
  split at h
  · next hf =>
      split at h
      · simp only [bind_eq_ok] at h
        obtain ⟨⟨u, e₁⟩, he, g, hg, h⟩ := h
        cases h
        exact .inl ⟨eq_of_beq hf, rfl, _, u, e₁, g, rfl, he, hg, rfl⟩
      · cases h
  · next hf =>
      split at h
      · cases h
      · cases h
      · next params ret hlookup =>
          simp only [bind_eq_ok] at h
          obtain ⟨_, hlength, args', hargs, h⟩ := h
          cases h
          exact .inr ⟨fun he => hf (beq_iff_eq.2 he), params, ret, args', hlookup, by simpa using require_eq_ok.1 hlength, hargs, rfl, rfl⟩

theorem Expr.check_tests {s : Scopes} {e e' : Expr} (hf : e.Formed) (h : e.check s = .ok (.base .bool, e')) : e'.Tests := by
  cases e with
  | var line x =>
    rw [Expr.check, bind_eq_ok] at h
    obtain ⟨t, -, h⟩ := h
    cases h
    trivial
  | num line n =>
    rw [Expr.check, bind_eq_ok] at h
    obtain ⟨u, -, h⟩ := h
    cases h
  | bool line b =>
    cases h
    trivial
  | unary line op e =>
    obtain ⟨e₁, he, ht, rfl⟩ := Expr.check_unary h
    have hop := resultType_boolnot ht.symm hf.1
    subst hop
    exact ⟨rfl, Expr.check_tests hf.2 he⟩
  | binary line op l r =>
    obtain ⟨u, l₁, r₁, hl, hr, hu, ht, rfl⟩ := Expr.check_binary h
    obtain hop | hop := resultType_bool ht.symm hf.1
    · exact .inl hop
    · have hbool : u = .base .bool := hu (by obtain rfl | rfl := hop <;> rfl)
      rw [hbool] at hl hr
      exact .inr ⟨hop, Expr.check_tests hf.2.1 hl, Expr.check_tests hf.2.2 hr⟩
  | call line f args =>
    obtain ⟨-, -, _, _, _, _, -, -, -, rfl⟩ | ⟨-, _, _, _, -, -, -, -, rfl⟩ := Expr.check_call h
    · trivial
    · trivial

theorem variableType_eq_ok {x : String} : variableType s line x = .ok t ↔ s.find? x = some t := by
  rw [variableType]
  cases s.find? x <;> simp

mutual

inductive Stmt.Checked (w : Within) : Bool → Scopes → Stmt → Scopes → Stmt → Prop
  | vardecl {loop s s' line x e e' t ty : _} (he : e.check s = .ok (t, e')) (hs : declare s line x t ty = .ok s') :
      Stmt.Checked w loop s (.vardecl line x e ty) s' (.vardecl line x e' ty)
  | assign {loop s line varLine x e e' t : _} (hx : s.find? x = some t) (he : e.check s = .ok (t, e')) :
      Stmt.Checked w loop s (.assign line varLine x e) s (.assign line varLine x e')
  | eval {loop s line e e' t : _} (he : e.check s = .ok (t, e')) : Stmt.Checked w loop s (.eval line e) s (.eval line e')
  | block {loop s s' line body body' : _} (hb : AllChecked w loop (s.enter []) body s' body') :
      Stmt.Checked w loop s (.block line body) s' (.block line body')
  | ifelse {loop s s₁ s' line c c' yes yes' no no' : _} (hc : c.check s = .ok (.base .bool, c'))
      (hy : AllChecked w loop (s.enter []) yes s₁ yes') (hn : Stmt.Checked w loop s₁ no s' no') :
      Stmt.Checked w loop s (.ifelse line c yes no) s' (.ifelse line c' yes' no')
  | while {loop s s' line c c' body body' : _} (hc : c.check s = .ok (.base .bool, c'))
      (hb : AllChecked w true (s.enter []) body s' body') :
      Stmt.Checked w loop s (.while line c body) s' (.while line c' body')
  | break {loop s line : _} (hl : loop = true) : Stmt.Checked w loop s (.break line) s (.break line)
  | continue {loop s line : _} (hl : loop = true) : Stmt.Checked w loop s (.continue line) s (.continue line)
  | leave {loop s line : _} (hw : w.ret = .void) : Stmt.Checked w loop s (.return line none) s (.return line none)
  | answer {loop s line e e' : _} (he : e.check s = .ok (.base w.ret, e')) :
      Stmt.Checked w loop s (.return line (some e)) s (.return line (some e'))

inductive AllChecked (w : Within) : Bool → Scopes → List Stmt → Scopes → List Stmt → Prop
  | nil {loop s : _} : AllChecked w loop s [] s []
  | cons {loop s s₁ s' a a' rest rest' : _} (ha : Stmt.Checked w loop s a s₁ a') (hr : AllChecked w loop s₁ rest s' rest') :
      AllChecked w loop s (a :: rest) s' (a' :: rest')

end

mutual

theorem Stmt.check_checked {w : Within} {loop : Bool} {s s' : Scopes} {a a' : Stmt} (h : a.check w loop s = .ok (s', a')) :
    a.Checked w loop s s' a' := by
  cases a with
  | vardecl line x e ty =>
    simp only [Stmt.check, bind_eq_ok] at h
    obtain ⟨_, he, _, hs, h⟩ := h
    cases h
    exact .vardecl he hs
  | assign line varLine x e =>
    simp only [Stmt.check, bind_eq_ok, variableType_eq_ok, require_eq_ok, beq_iff_eq] at h
    obtain ⟨t, hx, ⟨_, e'⟩, he, _, rfl, h⟩ := h
    cases h
    exact .assign hx he
  | eval line e =>
    simp only [Stmt.check, bind_eq_ok] at h
    obtain ⟨_, he, h⟩ := h
    cases h
    exact .eval he
  | block line body =>
    simp only [Stmt.check, bind_eq_ok] at h
    obtain ⟨_, hb, h⟩ := h
    cases h
    exact .block (checkAll_checked hb)
  | ifelse line c yes no =>
    simp only [Stmt.check, bind_eq_ok, require_eq_ok, beq_iff_eq] at h
    obtain ⟨⟨_, c'⟩, hc, _, hy, _, hn, _, rfl, h⟩ := h
    cases h
    exact .ifelse hc (checkAll_checked hy) (Stmt.check_checked hn)
  | «while» line c body =>
    simp only [Stmt.check, bind_eq_ok, require_eq_ok, beq_iff_eq] at h
    obtain ⟨⟨_, c'⟩, hc, _, hb, _, rfl, h⟩ := h
    cases h
    exact .while hc (checkAll_checked hb)
  | «break» line =>
    simp only [Stmt.check, bind_eq_ok, require_eq_ok] at h
    obtain ⟨_, hl, h⟩ := h
    cases h
    exact .break hl
  | «continue» line =>
    simp only [Stmt.check, bind_eq_ok, require_eq_ok] at h
    obtain ⟨_, hl, h⟩ := h
    cases h
    exact .continue hl
  | «return» line e =>
    cases e with
    | none =>
      simp only [Stmt.check, bind_eq_ok, require_eq_ok, beq_iff_eq] at h
      obtain ⟨_, hw, h⟩ := h
      cases h
      exact .leave hw
    | some e =>
      simp only [Stmt.check, bind_eq_ok, require_eq_ok, beq_iff_eq] at h
      obtain ⟨⟨_, e'⟩, he, _, rfl, h⟩ := h
      cases h
      exact .answer he

theorem checkAll_checked {w : Within} {loop : Bool} {s s' : Scopes} {body body' : List Stmt}
    (h : checkAll w loop s body = .ok (s', body')) : AllChecked w loop s body s' body' := by
  cases body with
  | nil =>
    cases h
    exact .nil
  | cons a rest =>
    simp only [checkAll, bind_eq_ok] at h
    obtain ⟨_, ha, _, hr, h⟩ := h
    cases h
    exact .cons (Stmt.check_checked ha) (checkAll_checked hr)

end

mutual

theorem Stmt.Checked.conds {w : Within} {loop : Bool} {s s' : Scopes} {a a' : Stmt} (h : a.Checked w loop s s' a')
    (hf : a.Conds Expr.Formed) : a'.Conds Expr.Tests := by
  cases h with
  | block hb => exact hb.conds hf
  | ifelse hc hy hn => exact ⟨Expr.check_tests hf.1 hc, hy.conds hf.2.1, hn.conds hf.2.2⟩
  | «while» hc hb => exact ⟨Expr.check_tests hf.1 hc, hb.conds hf.2⟩
  | _ => trivial

theorem AllChecked.conds {w : Within} {loop : Bool} {s s' : Scopes} {body body' : List Stmt}
    (h : AllChecked w loop s body s' body') (hf : AllConds Expr.Formed body) : AllConds Expr.Tests body' := by
  cases h with
  | nil => trivial
  | cons ha hr => exact ⟨ha.conds hf.1, hr.conds hf.2⟩

end

def Procedure.start (sc : Scopes) (p : Procedure) : Scopes :=
  (sc.enter (p.params.foldl (fun (acc : Scope) (x, t) => Datum.put x (.base t) acc) [])).enter []

theorem Procedure.check_eq_ok {p q : Procedure} {sc' : Scopes} (h : p.check sc = .ok (sc', q)) :
    ∃ body, checkAll ⟨p.name, p.ret⟩ false (p.start sc) p.body = .ok (sc', body) ∧ q = { p with body } ∧
      (anyReturns body ∨ p.ret = .void) := by
  simp only [Procedure.check, bind_eq_ok] at h
  obtain ⟨⟨_, body⟩, hbody, _, hreturns, h⟩ := h
  cases h
  exact ⟨body, hbody, rfl, by simpa using require_eq_ok.1 hreturns⟩

inductive Decl.Checked : Decl → Decl → Prop
  | var {line x e ty : _} : Checked (.var line x e ty) (.var line x e ty)
  | proc {p body sc sc' : _} (h : checkAll ⟨p.name, p.ret⟩ false sc p.body = .ok (sc', body))
      (hreturns : anyReturns body = true ∨ p.ret = .void) : Checked (.proc p) (.proc { p with body })

theorem checkDecls_checked {ds ds' : List Decl} (h : checkDecls sc ds = .ok ds') : List.Forall₂ Decl.Checked ds ds' := by
  induction ds generalizing sc ds' with
  | nil =>
    cases h
    exact .nil
  | cons d ds ih =>
    cases d with
    | var line x e ty =>
      simp only [checkDecls, bind_eq_ok] at h
      obtain ⟨rest, hr, h⟩ := h
      cases h
      exact .cons .var (ih hr)
    | proc p =>
      simp only [checkDecls, bind_eq_ok] at h
      obtain ⟨⟨_, q⟩, hp, rest, hr, h⟩ := h
      cases h
      obtain ⟨body, hbody, rfl, hreturns⟩ := Procedure.check_eq_ok hp
      exact .cons (.proc hbody hreturns) (ih hr)

theorem check_checked {p p' : Program} (h : check p = .ok p') : List.Forall₂ Decl.Checked p.decls p'.decls := by
  simp only [check, bind_eq_ok] at h
  obtain ⟨_, -, _, -, ds, hd, h⟩ := h
  cases h
  exact checkDecls_checked hd

theorem check_conds {p p' : Program} (hf : p.Formed) (h : check p = .ok p') {q : Procedure} (hq : .proc q ∈ p'.decls) :
    AllConds Expr.Tests q.body := by
  obtain ⟨d, hd, hdq⟩ := forall₂_exists_left (check_checked h) hq
  cases hdq with
  | proc hbody => exact (checkAll_checked hbody).conds (hf _ hd)

end Bx.Procedural
