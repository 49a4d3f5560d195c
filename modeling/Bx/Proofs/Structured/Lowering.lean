import Bx.Proofs.Basic
import Bx.Proofs.Structured.Evaluation
import Bx.Structured.Check
import Bx.Structured.Lower

namespace Bx.Structured

open List Source Tac
open Tac.Body (Code)

variable {m n : Nat} {t name : String} {u : Unit} {e l r : Expr} {op : Op} {s : Scopes}

abbrev Instruction := Tac.Body.Op

def tempName (k : Nat) : String := "%" ++ toString k

def labelName (k : Nat) : String := ".L" ++ toString k

abbrev Places := List (String × String)

def Unused (Γ : Places) (k : Nat) : Prop := tempName k ∉ Γ.map Prod.snd

def conditionOf? : Op → Option Asm.Cond
  | .booleq => some .z
  | .boolneq => some .nz
  | .less => some .l
  | .lesseq => some .le
  | .greater => some .g
  | .greatereq => some .ge
  | _ => none

/-- The value is put into a temporary, and only temporaries from a number on are used besides. -/
inductive IntCode (Γ : Places) : Nat → String → Expr → List Instruction → Prop
  | var {n t line x s : _} (h : Γ.lookup x = some s) : IntCode Γ n t (.var line x) [.copy s t]
  | num {n t line v : _} : IntCode Γ n t (.num line v) [.const (.int v) t]
  | bool {n t line b : _} : IntCode Γ n t (.bool line b) [.const (.int (if b then 1 else 0)) t]
  | unary {n t line op e k u c : _} (hk : n ≤ k) (hu : Unused Γ k) (hop : unopOf? op = some u)
      (he : IntCode Γ (k + 1) (tempName k) e c) : IntCode Γ n t (.unary line op e) (c ++ [.unop u (tempName k) t])
  | binary {n t line op l r k j b c d : _} (hk : n ≤ k) (hj : k < j) (huk : Unused Γ k) (huj : Unused Γ j)
      (hop : binopOf? op = some b) (hl : IntCode Γ (k + 1) (tempName k) l c) (hr : IntCode Γ (j + 1) (tempName j) r d) :
      IntCode Γ n t (.binary line op l r) (c ++ d ++ [.binop b (tempName k) (tempName j) t])

/-- Jumps to the first label if a condition holds, else to the second; a conjunction never does the latter. The labels that
are set have numbers from the first up to the second. -/
inductive BoolCode (Γ : Places) : Nat → Nat → String → String → Expr → List Instruction → Prop
  | bool {lo yes no line b} : BoolCode Γ lo lo yes no (.bool line b) [.jmp (if b then yes else no)]
  | not {lo hi yes no line e c : _} (he : BoolCode Γ lo hi no yes e c) : BoolCode Γ lo hi yes no (.unary line .boolnot e) c
  | and {lo mid hi yes no line l r c d : _} (hl : BoolCode Γ (lo + 1) mid (labelName lo) yes l c)
      (hr : BoolCode Γ mid hi (labelName lo) yes r d) :
      BoolCode Γ lo hi yes no (.binary line .booland l r) (c ++ .label (labelName lo) :: d)
  | or {lo mid hi yes no line l r c d : _} (hl : BoolCode Γ (lo + 1) mid yes (labelName lo) l c)
      (hr : BoolCode Γ mid hi yes no r d) :
      BoolCode Γ lo hi yes no (.binary line .boolor l r) (c ++ .label (labelName lo) :: d)
  | compare {lo yes no line op l r k j cond c d : _} (hj : k < j) (huk : Unused Γ k) (huj : Unused Γ j)
      (hop : conditionOf? op = some cond) (hl : IntCode Γ (j + 1) (tempName k) l c)
      (hr : IntCode Γ (j + 1) (tempName j) r d) :
      BoolCode Γ lo lo yes no (.binary line op l r)
        (c ++ d ++ [.binop .sub (tempName k) (tempName j) (tempName k), .jcc cond (tempName k) yes, .jmp no])

inductive StmtCode (Γ : Places) : Nat → Nat → Option Loop → List Stmt → List Instruction → Prop
  | nil {lo loop} : StmtCode Γ lo lo loop [] []
  | cons {lo mid hi loop s rest c d : _} (hs : StmtCode Γ lo mid loop [s] c) (hr : StmtCode Γ mid hi loop rest d) :
      StmtCode Γ lo hi loop (s :: rest) (c ++ d)
  | vardecl {lo loop line x e t c : _} (hx : Γ.lookup x = some t) (he : IntCode Γ 0 t e c) :
      StmtCode Γ lo lo loop [.vardecl line x e] c
  | assign {lo loop line varLine x e t c : _} (hx : Γ.lookup x = some t) (he : IntCode Γ 0 t e c) :
      StmtCode Γ lo lo loop [.assign line varLine x e] c
  | print {lo loop line e k c : _} (hk : Unused Γ k) (he : IntCode Γ (k + 1) (tempName k) e c) :
      StmtCode Γ lo lo loop [.print line e] (c ++ [.print (tempName k)])
  | block {lo hi loop line body c} (hb : StmtCode Γ lo hi loop body c) : StmtCode Γ lo hi loop [.block line body] c
  | ifelse {lo l₁ l₂ hi loop line cond yes no c cy cn}
      (hc : BoolCode Γ (lo + 3) l₁ (labelName lo) (labelName (lo + 1)) cond c) (hy : StmtCode Γ l₁ l₂ loop yes cy)
      (hn : StmtCode Γ l₂ hi loop [no] cn) :
      StmtCode Γ lo hi loop [.ifelse line cond yes no]
        (c ++ .label (labelName lo) :: (cy ++ .jmp (labelName (lo + 2)) :: .label (labelName (lo + 1)) ::
          (cn ++ [.label (labelName (lo + 2))])))
  | while {lo mid hi loop line cond body c cb}
      (hc : BoolCode Γ (lo + 3) mid (labelName (lo + 1)) (labelName (lo + 2)) cond c)
      (hb : StmtCode Γ mid hi (some ⟨labelName lo, labelName (lo + 2)⟩) body cb) :
      StmtCode Γ lo hi loop [.while line cond body]
        (.label (labelName lo) :: (c ++ .label (labelName (lo + 1)) ::
          (cb ++ [.jmp (labelName lo), .label (labelName (lo + 2))])))
  | break {lo line l : _} : StmtCode Γ lo lo (some l) [.break line] [.jmp l.exit]
  | continue {lo line l : _} : StmtCode Γ lo lo (some l) [.continue line] [.jmp l.head]

def Expr.Formed : Expr → Prop
  | .unary _ op e => op ∈ [.boolnot, .bitcompl, .uminus] ∧ e.Formed
  | .binary _ op l r => op ∉ [.boolnot, .bitcompl, .uminus] ∧ l.Formed ∧ r.Formed
  | _ => True

def Expr.ConjunctionFree : Expr → Prop
  | .unary _ _ e => e.ConjunctionFree
  | .binary _ op l r => op ≠ .booland ∧ l.ConjunctionFree ∧ r.ConjunctionFree
  | _ => True

mutual

def Stmt.Exprs (P : Expr → Prop) : Stmt → Prop
  | .vardecl _ _ e | .assign _ _ _ e | .print _ e => P e
  | .block _ body => AllExprs P body
  | .ifelse _ c yes no => P c ∧ AllExprs P yes ∧ no.Exprs P
  | .while _ c body => P c ∧ AllExprs P body
  | .break _ | .continue _ => True

def AllExprs (P : Expr → Prop) : List Stmt → Prop
  | [] => True
  | s :: rest => s.Exprs P ∧ AllExprs P rest

end

/-- The variables met so far have places of their own among the temporaries given so far. -/
structure Gen.Sound (g : Gen) : Prop where
  vars : (g.temps.map Prod.fst).Nodup
  places : (g.temps.map Prod.snd).Nodup
  given : ∀ t ∈ g.temps.map Prod.snd, ∃ k < g.next, t = tempName k

def Gen.Later (g : Gen) (Γ : Places) : Prop :=
  ∃ new, Γ = g.temps ++ new ∧ ∀ t ∈ new.map Prod.snd, ∃ k, g.next ≤ k ∧ t = tempName k

structure Emits (g : Gen) (c : List Instruction) (g' : Gen) : Prop where
  code : g'.code = g.code ++ c.map Body.Op.record
  next : g.next ≤ g'.next
  later : ∀ {Γ}, g'.Later Γ → g.Later Γ
  sound : g.Sound → g'.Sound

theorem Emits.trans {g g₁ g₂ : Gen} {c d : List Instruction} (h : Emits g c g₁) (h' : Emits g₁ d g₂) :
    Emits g (c ++ d) g₂ where
  code := by rw [h'.code, h.code, map_append, append_assoc]
  next := Nat.le_trans h.next h'.next
  later hl := h.later (h'.later hl)
  sound hs := h'.sound (h.sound hs)

theorem tempName_inj : tempName m = tempName n ↔ m = n := append_toString_inj

theorem not_run_throw {α : Type} {e : LowerError} {g : Gen} {r : α × Gen} : ¬ (throw e : Lower α).run g = .ok r := nofun

variable {g g' : Gen} {Γ : Places}

structure Fresh (g : Gen) (t : String) (g' : Gen) : Prop where
  name : t = tempName g.next
  next : g'.next = g.next + 1
  label : g'.nextLabel = g.nextLabel
  emits : Emits g [] g'
  unused : ∀ {Γ}, g.Sound → g'.Later Γ → Unused Γ g.next

theorem fresh_spec (h : fresh.run g = .ok (t, g')) : Fresh g t g' := by
  cases h
  refine ⟨rfl, rfl, rfl, ⟨by simp, Nat.le_succ _, ?_, ?_⟩, ?_⟩
  · rintro Γ ⟨new, hΓ, hnew⟩
    refine ⟨new, hΓ, fun t ht => ?_⟩
    obtain ⟨k, hk, rfl⟩ := hnew t ht
    exact ⟨k, Nat.le_of_succ_le hk, rfl⟩
  · intro hs
    refine ⟨hs.vars, hs.places, fun t ht => ?_⟩
    obtain ⟨k, hk, rfl⟩ := hs.given t ht
    exact ⟨k, Nat.lt_succ_of_lt hk, rfl⟩
  · rintro Γ hs ⟨new, rfl, hnew⟩ hmem
    rw [map_append, mem_append] at hmem
    rcases hmem with hmem | hmem
    · obtain ⟨k, hk, he⟩ := hs.given _ hmem
      rw [tempName_inj] at he
      omega
    · obtain ⟨k, hk, he⟩ := hnew _ hmem
      rw [tempName_inj] at he
      change g.next + 1 ≤ k at hk
      omega

theorem freshLabel_spec {l : String} (h : freshLabel.run g = .ok (l, g')) :
    l = labelName g.nextLabel ∧ g'.nextLabel = g.nextLabel + 1 ∧ Emits g [] g' := by
  cases h
  exact ⟨rfl, rfl, ⟨by simp, Nat.le_refl _, id, fun hs => ⟨hs.vars, hs.places, hs.given⟩⟩⟩

theorem emit_spec (op : Instruction) {args : List Datum} {result : Datum} (hop : op.record = .of name args result)
    (h : (emit name args result).run g = .ok (u, g')) : g'.nextLabel = g.nextLabel ∧ Emits g [op] g' := by
  cases h
  exact ⟨rfl, ⟨by simp [hop], Nat.le_refl _, id, fun hs => ⟨hs.vars, hs.places, hs.given⟩⟩⟩

theorem lookup_spec {x : String} (h : (lookup x).run g = .ok (t, g')) :
    g'.nextLabel = g.nextLabel ∧ Emits g [] g' ∧ ∀ {Γ}, g'.Later Γ → Γ.lookup x = some t := by
  cases hx : g.temps.lookup x with
  | some s =>
    have hrun : (lookup x).run g = .ok (s, g) := by
      simp only [lookup, StateT.run_bind, StateT.run_get, pure_bind, hx]
      rfl
    rw [hrun] at h
    cases h
    refine ⟨rfl, ⟨by simp, Nat.le_refl _, id, id⟩, ?_⟩
    rintro Γ ⟨new, rfl, -⟩
    rw [lookup_append, hx, Option.some_or]
  | none =>
    have hrun : (lookup x).run g =
        .ok (tempName g.next, { g with next := g.next + 1, temps := g.temps ++ [(x, tempName g.next)] }) := by
      simp only [lookup, StateT.run_bind, StateT.run_get, pure_bind, hx]
      rfl
    rw [hrun] at h
    cases h
    refine ⟨rfl, ⟨by simp, Nat.le_succ _, ?_, fun hs => ⟨?_, ?_, ?_⟩⟩, ?_⟩
    · rintro Γ ⟨new, rfl, hnew⟩
      refine ⟨(x, tempName g.next) :: new, by simp, fun t ht => ?_⟩
      rcases mem_cons.1 ht with rfl | ht
      · exact ⟨g.next, Nat.le_refl _, rfl⟩
      · obtain ⟨k, hk, rfl⟩ := hnew t ht
        exact ⟨k, Nat.le_of_succ_le hk, rfl⟩
    · have hnot : x ∉ g.temps.map Prod.fst := fun hmem => by simp [← lookup_isSome, hx] at hmem
      simpa [nodup_append] using ⟨hs.vars, fun a b hab hax => hnot (mem_map.2 ⟨(a, b), hab, hax⟩)⟩
    · have hnot : tempName g.next ∉ g.temps.map Prod.snd := fun hmem => by
        obtain ⟨k, hk, he⟩ := hs.given _ hmem
        rw [tempName_inj] at he
        omega
      simpa [nodup_append] using ⟨hs.places, fun b a hab hb => hnot (mem_map.2 ⟨(a, b), hab, hb⟩)⟩
    · intro t ht
      rw [map_append, mem_append] at ht
      rcases ht with ht | ht
      · obtain ⟨k, hk, rfl⟩ := hs.given t ht
        exact ⟨k, Nat.lt_succ_of_lt hk, rfl⟩
      · exact ⟨g.next, Nat.lt_succ_self _, by simpa using ht⟩
    · rintro Γ ⟨new, rfl, -⟩
      simp [lookup_append, hx]

theorem IntCode.mono {c : List Instruction} (h : IntCode Γ m t e c) (hn : n ≤ m) : IntCode Γ n t e c := by
  cases h with
  | var h => exact .var h
  | num => exact .num
  | bool => exact .bool
  | unary hk hu hop he => exact .unary (Nat.le_trans hn hk) hu hop he
  | binary hk hj huk huj hop hl hr => exact .binary (Nat.le_trans hn hk) hj huk huj hop hl hr

theorem unopOf?_of_opcode? (hf : op ∈ [Op.boolnot, .bitcompl, .uminus]) (h : op.opcode? = some name) :
    ∃ u, unopOf? op = some u ∧ name = u.name := by
  cases op <;> simp_all [Op.opcode?, unopOf?]

theorem binopOf?_of_opcode? (hf : op ∉ [Op.boolnot, .bitcompl, .uminus]) (h : op.opcode? = some name) :
    ∃ b, binopOf? op = some b ∧ name = b.name := by
  cases op <;> simp_all [Op.opcode?, binopOf?]

theorem opcode_spec (h : (opcode op).run g = .ok (name, g')) : op.opcode? = some name ∧ g' = g := by
  rw [opcode] at h
  cases hop : op.opcode? with
  | none =>
    rw [hop] at h
    exact absurd h not_run_throw
  | some s =>
    rw [hop] at h
    cases h
    exact ⟨rfl, rfl⟩

theorem intExpr_spec (hf : e.Formed) (h : (intExpr t e).run g = .ok (u, g')) :
    ∃ c, Emits g c g' ∧ g'.nextLabel = g.nextLabel ∧ ∀ {Γ}, g.Sound → g'.Later Γ → IntCode Γ g.next t e c := by
  induction e generalizing t g g' with
  | var line x =>
    rw [intExpr, run_bind_eq_ok] at h
    obtain ⟨s, g₁, hx, h⟩ := h
    obtain ⟨hl, hem, hlook⟩ := lookup_spec hx
    obtain ⟨hl', hem'⟩ := emit_spec (.copy s t) rfl h
    exact ⟨_, hem.trans hem', hl'.trans hl, fun _ hlater => .var (hlook (hem'.later hlater))⟩
  | num line n =>
    obtain ⟨hl, hem⟩ := emit_spec (.const (.int n) t) rfl h
    exact ⟨_, hem, hl, fun _ _ => .num⟩
  | bool line b =>
    obtain ⟨hl, hem⟩ := emit_spec (.const (.int (if b then 1 else 0)) t) rfl h
    exact ⟨_, hem, hl, fun _ _ => .bool⟩
  | unary line op e ih =>
    simp only [intExpr, run_bind_eq_ok] at h
    obtain ⟨s, g₁, hs, _, g₂, he, name, g₃, hname, h⟩ := h
    obtain ⟨hop, rfl⟩ := opcode_spec hname
    obtain ⟨v, hv, rfl⟩ := unopOf?_of_opcode? hf.1 hop
    have hfresh := fresh_spec hs
    obtain ⟨c, hem, hl, hc⟩ := ih hf.2 he
    obtain ⟨hl', hem'⟩ := emit_spec (.unop v s t) rfl h
    refine ⟨_, (hfresh.emits.trans hem).trans hem', by rw [hl', hl, hfresh.label], fun hsound hlater => ?_⟩
    have hc := hc (hfresh.emits.sound hsound) (hem'.later hlater)
    rw [hfresh.next, hfresh.name] at hc
    rw [hfresh.name]
    exact .unary (Nat.le_refl _) (hfresh.unused hsound (hem.later (hem'.later hlater))) hv hc
  | binary line op l r ihl ihr =>
    simp only [intExpr, run_bind_eq_ok] at h
    obtain ⟨s, g₁, hs, _, g₂, hl, s', g₃, hs', _, g₄, hr, name, g₅, hname, h⟩ := h
    obtain ⟨hop, rfl⟩ := opcode_spec hname
    obtain ⟨b, hb, rfl⟩ := binopOf?_of_opcode? hf.1 hop
    have hfresh := fresh_spec hs
    obtain ⟨c, hemc, hlc, hc⟩ := ihl hf.2.1 hl
    have hfresh' := fresh_spec hs'
    obtain ⟨d, hemd, hld, hd⟩ := ihr hf.2.2 hr
    obtain ⟨hl', hem'⟩ := emit_spec (.binop b s s' t) rfl h
    have hpre := hfresh.emits.trans hemc
    have hall := (hpre.trans (hfresh'.emits.trans hemd)).trans hem'
    refine ⟨_, hall, by rw [hl', hld, hfresh'.label, hlc, hfresh.label], fun hsound hlater => ?_⟩
    have hlater₄ := hem'.later hlater
    have hlater₃ := hemd.later hlater₄
    have hlater₂ := hfresh'.emits.later hlater₃
    have hc := hc (hfresh.emits.sound hsound) hlater₂
    have hd := hd (hfresh'.emits.sound (hpre.sound hsound)) hlater₄
    have hlt : g.next < g₂.next := by
      have := hemc.next
      rw [hfresh.next] at this
      exact this
    rw [hfresh.next, hfresh.name] at hc
    rw [hfresh'.next, hfresh'.name] at hd
    rw [hfresh.name, hfresh'.name]
    exact .binary (Nat.le_refl _) hlt (hfresh.unused hsound (hemc.later hlater₂))
      (hfresh'.unused (hpre.sound hsound) hlater₃) hb hc hd

def Lowers {α : Type} (x : Lower α) (P : Places → Nat → Nat → α → List Instruction → Prop) : Prop :=
  ∀ g g' a, x.run g = .ok (a, g') → ∃ c, Emits g c g' ∧ ∀ Γ, g.Sound → g'.Later Γ → P Γ g.nextLabel g'.nextLabel a c

namespace Lowers

variable {α β : Type} {P Q : Places → Nat → Nat → α → List Instruction → Prop} {x : Lower α}

theorem imp (h : Lowers x P) (hpq : ∀ Γ lo hi a c, P Γ lo hi a c → Q Γ lo hi a c) : Lowers x Q := by
  intro g g' a hx
  obtain ⟨c, hem, hc⟩ := h g g' a hx
  exact ⟨c, hem, fun Γ hs hl => hpq Γ _ _ a c (hc Γ hs hl)⟩

theorem bind {k : α → Lower β} {R : Places → Nat → Nat → β → List Instruction → Prop} (hx : Lowers x P)
    (hk : ∀ a, Lowers (k a) fun Γ mid hi b d => ∀ lo c, P Γ lo mid a c → R Γ lo hi b (c ++ d)) : Lowers (x >>= k) R := by
  intro g g' b h
  obtain ⟨a, g₁, ha, hb⟩ := run_bind_eq_ok.1 h
  obtain ⟨c, hemc, hc⟩ := hx g g₁ a ha
  obtain ⟨d, hemd, hd⟩ := hk a g₁ g' b hb
  exact ⟨c ++ d, hemc.trans hemd, fun Γ hs hl => hd Γ (hemc.sound hs) hl _ c (hc Γ hs (hemd.later hl))⟩

theorem emit (op : Instruction) {args : List Datum} {result : Datum} (hop : op.record = .of name args result) :
    Lowers (Structured.emit name args result) fun _ lo hi _ c => hi = lo ∧ c = [op] := by
  intro g g' u h
  obtain ⟨hl, hem⟩ := emit_spec op hop h
  exact ⟨_, hem, fun _ _ _ => ⟨hl, rfl⟩⟩

theorem emitLabel (l : String) : Lowers (emitLabel l) fun _ lo hi _ c => hi = lo ∧ c = [.label l] := emit _ rfl

theorem emitJump (l : String) : Lowers (emitJump l) fun _ lo hi _ c => hi = lo ∧ c = [.jmp l] := emit _ rfl

theorem freshLabel : Lowers freshLabel fun _ lo hi l c => hi = lo + 1 ∧ l = labelName lo ∧ c = [] := by
  intro g g' l h
  obtain ⟨hl, hnext, hem⟩ := freshLabel_spec h
  exact ⟨_, hem, fun _ _ _ => ⟨hnext, hl, rfl⟩⟩

theorem lookup (y : String) : Lowers (lookup y) fun Γ lo hi t c => hi = lo ∧ Γ.lookup y = some t ∧ c = [] := by
  intro g g' t h
  obtain ⟨hl, hem, ht⟩ := lookup_spec h
  exact ⟨_, hem, fun _ _ hlater => ⟨hl, ht hlater, rfl⟩⟩

theorem intExpr (hf : e.Formed) (t : String) : Lowers (intExpr t e) fun Γ lo hi _ c => hi = lo ∧ IntCode Γ 0 t e c := by
  intro g g' u h
  obtain ⟨c, hem, hl, hc⟩ := intExpr_spec hf h
  exact ⟨c, hem, fun _ hs hlater => ⟨hl, (hc hs hlater).mono (Nat.zero_le _)⟩⟩

theorem print (hf : e.Formed) : Lowers (do
      let t ← fresh
      Structured.intExpr t e
      Structured.emit "print" [.str t] .null) fun Γ lo hi _ c => hi = lo ∧
    ∃ k d, Unused Γ k ∧ IntCode Γ (k + 1) (tempName k) e d ∧ c = d ++ [.print (tempName k)] := by
  intro g g' u h
  simp only [run_bind_eq_ok] at h
  obtain ⟨t, g₁, ht, _, g₂, he, h⟩ := h
  have hfresh := fresh_spec ht
  obtain ⟨d, hem, hl, hd⟩ := intExpr_spec hf he
  obtain ⟨hl', hem'⟩ := emit_spec (.print t) rfl h
  refine ⟨_, (hfresh.emits.trans hem).trans hem', fun Γ hs hlater => ⟨by rw [hl', hl, hfresh.label], g.next, d, ?_, ?_, ?_⟩⟩
  · exact hfresh.unused hs (hem.later (hem'.later hlater))
  · rw [← hfresh.name, ← hfresh.next]
    exact hd (hfresh.emits.sound hs) (hem'.later hlater)
  · rw [hfresh.name]
    rfl

theorem compare (hfl : l.Formed) (hfr : r.Formed) (cond : Asm.Cond) (yes no : String) :
    Lowers (compare cond.text l r yes no) fun Γ lo hi _ c => hi = lo ∧ ∃ k j d₁ d₂, k < j ∧ Unused Γ k ∧ Unused Γ j ∧
      IntCode Γ (j + 1) (tempName k) l d₁ ∧ IntCode Γ (j + 1) (tempName j) r d₂ ∧
      c = d₁ ++ d₂ ++ [.binop .sub (tempName k) (tempName j) (tempName k), .jcc cond (tempName k) yes, .jmp no] := by
  intro g g' u h
  simp only [Structured.compare, run_bind_eq_ok] at h
  obtain ⟨t, g₁, ht, t', g₂, ht', _, g₃, hl, _, g₄, hr, _, g₅, h₁, _, g₆, h₂, h₃⟩ := h
  have hfresh := fresh_spec ht
  have hfresh' := fresh_spec ht'
  obtain ⟨d₁, hem₁, hl₁, hd₁⟩ := intExpr_spec hfl hl
  obtain ⟨d₂, hem₂, hl₂, hd₂⟩ := intExpr_spec hfr hr
  obtain ⟨hl₃, hem₃⟩ := emit_spec (.binop .sub t t' t) rfl h₁
  obtain ⟨hl₄, hem₄⟩ := emit_spec (.jcc cond t yes) rfl h₂
  obtain ⟨hl₅, hem₅⟩ := emit_spec (.jmp no) rfl h₃
  have htwo := hfresh.emits.trans hfresh'.emits
  have hend := hem₃.trans (hem₄.trans hem₅)
  refine ⟨_, (htwo.trans (hem₁.trans hem₂)).trans hend, fun Γ hs hlater => ⟨?_, g.next, g₁.next, d₁, d₂, ?_, ?_, ?_, ?_, ?_, ?_⟩⟩
  · rw [hl₅, hl₄, hl₃, hl₂, hl₁, hfresh'.label, hfresh.label]
  · rw [hfresh.next]
    exact Nat.lt_succ_self _
  · exact hfresh.unused hs (hfresh'.emits.later (hem₁.later (hem₂.later (hend.later hlater))))
  · exact hfresh'.unused (hfresh.emits.sound hs) (hem₁.later (hem₂.later (hend.later hlater)))
  · rw [← hfresh.name, ← hfresh'.next]
    exact hd₁ (htwo.sound hs) (hem₂.later (hend.later hlater))
  · rw [← hfresh'.name, ← hfresh'.next]
    exact (hd₂ (hem₁.sound (htwo.sound hs)) (hend.later hlater)).mono hem₁.next
  · rw [← hfresh.name, ← hfresh'.name]
    rfl

end Lowers

theorem require_eq_ok {b : Bool} {e : CheckError} : require b e = .ok u ↔ b := by
  cases b <;> simp [require]

theorem check_unary {line : Int} {t : Ty} (h : (Expr.unary line op e).check s = .ok t) :
    ∃ u, e.check s = .ok u ∧ (op.wantsBoolean → u = .bool) ∧ t = resultType op := by
  simp only [Expr.check, bind_eq_ok] at h
  obtain ⟨u, hu, h⟩ := h
  refine ⟨u, hu, ?_⟩
  cases hw : op.wantsBoolean <;> simp only [hw, if_true, if_false, Bool.false_eq_true, bind_eq_ok, require_eq_ok] at h <;>
    obtain ⟨_, hreq, hr⟩ := h <;> cases hr <;> simp_all

theorem check_binary {line : Int} {t : Ty} (h : (Expr.binary line op l r).check s = .ok t) :
    ∃ u, l.check s = .ok u ∧ r.check s = .ok u ∧ (op.wantsBoolean → u = .bool) ∧ t = resultType op := by
  simp only [Expr.check, bind_eq_ok, require_eq_ok, beq_iff_eq] at h
  obtain ⟨u, hl, u', hr, _, rfl, h⟩ := h
  refine ⟨u, hl, hr, ?_⟩
  cases hw : op.wantsBoolean <;> simp only [hw, if_true, if_false, Bool.false_eq_true, bind_eq_ok, require_eq_ok] at h
  · cases h
    simp
  · obtain ⟨_, hreq, hres⟩ := h
    cases hres
    simp_all

theorem condition_cases (hb : op.isBoolean) :
    op = .boolnot ∨ op = .booland ∨ op = .boolor ∨ ∃ c, conditionOf? op = some c ∧ comparison? op = some c.text := by
  cases op <;> simp_all [Op.isBoolean, conditionOf?, comparison?, Asm.Cond.text]

theorem resultType_eq_bool : resultType op = .bool ↔ op.isBoolean := by
  cases h : op.isBoolean <;> simp [resultType, h]

theorem boolExpr_compare {jump : String} (h : comparison? op = some jump) (yes no : String) (line : Int) (l r : Expr) :
    boolExpr yes no (.binary line op l r) = compare jump l r yes no := by
  cases op <;> simp_all [boolExpr, comparison?]

theorem Lowers.boolExpr (hf : e.Formed) (ht : e.check s = .ok .bool) (yes no : String) :
    Lowers (boolExpr yes no e) fun Γ lo hi _ c => BoolCode Γ lo hi yes no e c := by
  induction e generalizing yes no with
  | var line x => exact fun _ _ _ h => absurd h not_run_throw
  | num line n => exact fun _ _ _ h => absurd h not_run_throw
  | bool line b =>
    refine (Lowers.emitJump _).imp ?_
    rintro Γ lo hi u c ⟨rfl, rfl⟩
    exact .bool
  | unary line op e ih =>
    obtain ⟨hop, hf⟩ := hf
    obtain ⟨t, hte, hwants, hres⟩ := check_unary ht
    obtain rfl : op = .boolnot := by
      have hb : op.isBoolean := resultType_eq_bool.1 hres.symm
      cases op <;> simp_all [Op.isBoolean]
    rw [hwants rfl] at hte
    exact (ih hf hte no yes).imp fun _ _ _ _ _ h => .not h
  | binary line op l r ihl ihr =>
    obtain ⟨hop, hfl, hfr⟩ := hf
    obtain ⟨t, htl, htr, hwants, hres⟩ := check_binary ht
    rcases condition_cases (resultType_eq_bool.1 hres.symm) with rfl | rfl | rfl | ⟨cond, hcond, hjump⟩
    · simp at hop
    · obtain rfl := hwants rfl
      refine Lowers.freshLabel.bind fun between => (ihl hfl htl between yes).bind fun _ =>
        (Lowers.emitLabel between).bind fun _ => (ihr hfr htr between yes).imp ?_
      rintro Γ mid hi u d hr _ _ ⟨rfl, rfl⟩ _ c hl lo _ ⟨rfl, rfl, rfl⟩
      exact .and hl hr
    · obtain rfl := hwants rfl
      refine Lowers.freshLabel.bind fun between => (ihl hfl htl yes between).bind fun _ =>
        (Lowers.emitLabel between).bind fun _ => (ihr hfr htr yes no).imp ?_
      rintro Γ mid hi u d hr _ _ ⟨rfl, rfl⟩ _ c hl lo _ ⟨rfl, rfl, rfl⟩
      exact .or hl hr
    · rw [boolExpr_compare hjump]
      refine (Lowers.compare hfl hfr cond yes no).imp ?_
      rintro Γ lo hi u c ⟨rfl, k, j, d₁, d₂, hj, huk, huj, hl, hr, rfl⟩
      exact .compare hj huk huj hcond hl hr

mutual

theorem Lowers.stmt {st : Stmt} (hf : st.Exprs Expr.Formed) {b : Bool} {s s' : Scopes} (ht : st.check b s = .ok s') (loop : Option Loop) :
    Lowers (stmt loop st) fun Γ lo hi _ c => StmtCode Γ lo hi loop [st] c := by
  cases st with
  | vardecl line x e =>
    refine (Lowers.lookup x).bind fun t => (Lowers.intExpr hf t).imp ?_
    rintro Γ lo hi u c ⟨rfl, he⟩ _ _ ⟨rfl, hx, rfl⟩
    exact .vardecl hx he
  | assign line varLine x e =>
    refine (Lowers.lookup x).bind fun t => (Lowers.intExpr hf t).imp ?_
    rintro Γ lo hi u c ⟨rfl, he⟩ _ _ ⟨rfl, hx, rfl⟩
    exact .assign hx he
  | print line e =>
    refine (Lowers.print hf).imp ?_
    rintro Γ lo hi u c ⟨rfl, k, d, hk, he, rfl⟩
    exact .print hk he
  | block line body => exact (Lowers.stmts hf ht loop).imp fun _ _ _ _ _ h => .block h
  | ifelse line cond yes no =>
    simp only [Stmt.check, bind_eq_ok] at ht
    obtain ⟨t, htc, s₁, hty, s₂, htn, _, hreq, -⟩ := ht
    obtain rfl : t = .bool := by simpa [require_eq_ok] using hreq
    refine Lowers.freshLabel.bind fun onYes => Lowers.freshLabel.bind fun onNo => Lowers.freshLabel.bind fun done =>
      (Lowers.boolExpr hf.1 htc onYes onNo).bind fun _ => (Lowers.emitLabel onYes).bind fun _ =>
      (Lowers.stmts hf.2.1 hty loop).bind fun _ => (Lowers.emitJump done).bind fun _ =>
      (Lowers.emitLabel onNo).bind fun _ => (Lowers.stmt hf.2.2 htn loop).bind fun _ =>
      (Lowers.emitLabel done).imp ?_
    rintro Γ _ hi u _ ⟨rfl, rfl⟩ _ cn hno _ _ ⟨rfl, rfl⟩ _ _ ⟨rfl, rfl⟩ _ cy hyes _ _ ⟨rfl, rfl⟩ _ c hcond
      _ _ ⟨rfl, rfl, rfl⟩ _ _ ⟨rfl, rfl, rfl⟩ lo _ ⟨rfl, rfl, rfl⟩
    exact .ifelse hcond hyes hno
  | «while» line cond body =>
    simp only [Stmt.check, bind_eq_ok] at ht
    obtain ⟨t, htc, s₁, htb, _, hreq, -⟩ := ht
    obtain rfl : t = .bool := by simpa [require_eq_ok] using hreq
    refine Lowers.freshLabel.bind fun head => Lowers.freshLabel.bind fun inside => Lowers.freshLabel.bind fun exit =>
      (Lowers.emitLabel head).bind fun _ => (Lowers.boolExpr hf.1 htc inside exit).bind fun _ =>
      (Lowers.emitLabel inside).bind fun _ => (Lowers.stmts hf.2 htb (some ⟨head, exit⟩)).bind fun _ =>
      (Lowers.emitJump head).bind fun _ => (Lowers.emitLabel exit).imp ?_
    rintro Γ _ hi u _ ⟨rfl, rfl⟩ _ _ ⟨rfl, rfl⟩ _ cb hbody _ _ ⟨rfl, rfl⟩ _ c hcond _ _ ⟨rfl, rfl⟩
      _ _ ⟨rfl, rfl, rfl⟩ _ _ ⟨rfl, rfl, rfl⟩ lo _ ⟨rfl, rfl, rfl⟩
    exact .while hcond hbody
  | «break» line =>
    cases loop with
    | none => exact fun _ _ _ h => absurd h not_run_throw
    | some l =>
      refine (Lowers.emitJump l.exit).imp ?_
      rintro Γ lo hi u c ⟨rfl, rfl⟩
      exact .break
  | «continue» line =>
    cases loop with
    | none => exact fun _ _ _ h => absurd h not_run_throw
    | some l =>
      refine (Lowers.emitJump l.head).imp ?_
      rintro Γ lo hi u c ⟨rfl, rfl⟩
      exact .continue

theorem Lowers.stmts {body : List Stmt} (hf : AllExprs Expr.Formed body) {b : Bool} {s s' : Scopes} (ht : checkAll b s body = .ok s') (loop : Option Loop) :
    Lowers (stmts loop body) fun Γ lo hi _ c => StmtCode Γ lo hi loop body c := by
  cases body with
  | nil =>
    rintro g g' u h
    obtain ⟨-, rfl⟩ := run_pure_eq_ok.1 h
    exact ⟨[], ⟨by simp, Nat.le_refl _, id, id⟩, fun _ _ _ => .nil⟩
  | cons st rest =>
    simp only [checkAll, bind_eq_ok] at ht
    obtain ⟨s₁, hst, hrest⟩ := ht
    exact (Lowers.stmt hf.1 hst loop).bind fun _ => (Lowers.stmts hf.2 hrest loop).imp
      fun _ _ _ _ _ hr _ _ hs => .cons hs hr

end

theorem exists_stmtCode {program : List Stmt} {body : List Record} (hf : AllExprs Expr.Formed program)
    (ht : check program = .ok ()) (h : lower program = .ok body) :
    ∃ Γ hi c, body = c.map Body.Op.record ∧ (Γ.map Prod.fst).Nodup ∧ (Γ.map Prod.snd).Nodup ∧
      StmtCode Γ 0 hi none program c := by
  simp only [check, bind_eq_ok] at ht
  obtain ⟨s', hck, -⟩ := ht
  simp only [lower, bind_eq_ok, Prod.exists] at h
  obtain ⟨u, g, hrun, hbody⟩ := h
  cases hbody
  obtain ⟨c, hem, hcode⟩ := Lowers.stmts hf hck none .start g u hrun
  have hs : g.Sound := hem.sound ⟨.nil, .nil, by simp [Gen.start]⟩
  exact ⟨g.temps, g.nextLabel, c, by simpa [Gen.start] using hem.code, hs.vars, hs.places,
    hcode g.temps ⟨.nil, .nil, by simp [Gen.start]⟩ ⟨[], by simp, by simp⟩⟩

end Bx.Structured
