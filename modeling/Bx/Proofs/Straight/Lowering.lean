import Bx.Proofs.Straight.Evaluation
import Bx.Proofs.Structured.Running
import Bx.Straight.Lower

namespace Bx.Straight

open List Tac
open Structured (Instruction tempName tempName_inj)

abbrev Places := List (Datum × String)

def place? (Γ : Places) (x : Datum) : Option String := (Γ.find? fun e => e.1.same x).map Prod.snd

def Own (lo hi : Nat) (x : String) : Prop := ∃ k, lo ≤ k ∧ k < hi ∧ x = tempName k

/-- The value is left in a temporary, and only temporaries of the code's own are written before. Operands from elsewhere are
places of variables. -/
inductive ExprCode (Γ : Places) : Nat → Nat → String → Expr → List Instruction → Prop
  | place {lo hi t x} (h : place? Γ x = some t) : ExprCode Γ lo hi t (.var x) []
  | copy {lo hi t x s} (h : place? Γ x = some s) : ExprCode Γ lo hi t (.var x) [.copy s t]
  | num {lo hi t} (n : Numeral) : ExprCode Γ lo hi t (.num n.toDatum) [.const n t]
  | unary {lo hi t op e u s c} (hop : unopNamed? op = some u) (he : ExprCode Γ lo hi s e c) (hs : Own lo hi s ∨ c = []) :
      ExprCode Γ lo hi t (.unary op e) (c ++ [.unop u s t])
  | binary {lo mid hi t op l r b s s' c d} (hop : binopNamed? op = some b) (hlo : lo ≤ mid) (hhi : mid ≤ hi)
      (hl : ExprCode Γ lo mid s l c) (hs : Own lo mid s ∨ c = []) (hr : ExprCode Γ mid hi s' r d) (hs' : Own mid hi s' ∨ d = []) :
      ExprCode Γ lo hi t (.binary op l r) (c ++ d ++ [.binop b s s' t])

def placed (Γ : Places) (n : Nat) (x : Datum) : String × Places × Nat :=
  match place? Γ x with
  | some t => (t, Γ, n)
  | none => (tempName n, Γ ++ [(x, tempName n)], n + 1)

inductive ProgramCode : Places → Nat → List Stmt → List Instruction → Prop
  | nil {Γ n} : ProgramCode Γ n [] []
  | into {Γ n s x e t Γ' n' hi c rest d} (hs : s.assigns? = some (x, e)) (hx : placed Γ n x = (t, Γ', n')) (hn : n' ≤ hi)
      (he : ExprCode Γ' n' hi t e c) (hr : ProgramCode Γ' hi rest d) : ProgramCode Γ n (s :: rest) (c ++ d)
  | through {Γ n s x e t Γ' n' hi y c rest d} (hs : s.assigns? = some (x, e)) (hx : placed Γ n x = (t, Γ', n')) (hn : n' ≤ hi)
      (he : ExprCode Γ' n' hi y e c) (hy : Own n' hi y ∨ c = []) (hr : ProgramCode Γ' hi rest d) :
      ProgramCode Γ n (s :: rest) (c ++ .copy y t :: d)
  | print {Γ n e hi y c rest d} (hn : n ≤ hi) (he : ExprCode Γ n hi y e c) (hy : Own n hi y ∨ c = []) (hr : ProgramCode Γ hi rest d) :
      ProgramCode Γ n (.print e :: rest) (c ++ .print y :: d)

section Steps

variable {g : Gen} {x : Datum}

theorem run_fresh (g : Gen) : fresh.run g = .ok (tempName g.next, { g with next := g.next + 1 }) := rfl

theorem run_emit (op : Instruction) {name : String} {args : List Datum} {result : Datum} (h : op.record = .of name args result)
    (g : Gen) : (emit name args result).run g = .ok ((), { g with code := g.code ++ [op.record] }) := by
  rw [h]
  rfl

theorem run_opcode_unop {op : String} {u : Word.Unop} (h : unopNamed? op = some u) (g : Gen) :
    (opcode op).run g = .ok (u.name, g) := by
  obtain ⟨o, ho, hu⟩ := Option.bind_eq_some_iff.1 h
  have hname : o.opcode? = some u.name := by
    cases o <;> cases hu <;> rfl
  rw [opcode, ho, Option.bind_some, hname]
  rfl

theorem run_opcode_binop {op : String} {b : Word.Binop} (h : binopNamed? op = some b) (g : Gen) :
    (opcode op).run g = .ok (b.name, g) := by
  obtain ⟨o, ho, hb⟩ := Option.bind_eq_some_iff.1 h
  have hname : o.opcode? = some b.name := by
    cases o <;> cases hb <;> rfl
  rw [opcode, ho, Option.bind_some, hname]
  rfl

theorem run_lookup (hx : x.isKey) (g : Gen) : (lookup x).run g =
    .ok ((placed g.temps g.next x).1, { g with temps := (placed g.temps g.next x).2.1, next := (placed g.temps g.next x).2.2 }) := by
  simp only [lookup, hx, Bool.not_true, Bool.false_eq_true, if_false, StateT.run_bind, StateT.run_get, pure_bind, placed, place?]
  cases g.temps.find? fun e => e.1.same x with
  | none => rfl
  | some e => rfl

theorem exists_place (h : known (g.temps.map Prod.fst) x) : ∃ t, place? g.temps x = some t := by
  rw [known, any_map] at h
  rw [← Option.isSome_iff_exists, place?, Option.isSome_map, isSome_find?]
  exact h

theorem run_lookup_of_place {t : String} (hx : x.isKey) (h : place? g.temps x = some t) : (lookup x).run g = .ok (t, g) := by
  rw [run_lookup hx, placed, h]

theorem exists_numeral {n : Datum} (h : n.isNumber) : ∃ k : Numeral, n = k.toDatum := by
  cases n with
  | int n => exact ⟨.int n, rfl⟩
  | bool b => exact ⟨.bool b, rfl⟩
  | _ => cases h

end Steps

section Expressions

variable {Γ : Places} {lo lo' hi hi' : Nat} {t : String} {e : Expr} {c d : List Instruction} {g g₁ g' : Gen}

theorem Own.mono (h : Own lo hi t) (hlo : lo' ≤ lo) (hhi : hi ≤ hi') : Own lo' hi' t := by
  obtain ⟨k, hk, hk', rfl⟩ := h
  exact ⟨k, Nat.le_trans hlo hk, Nat.lt_of_lt_of_le hk' hhi, rfl⟩

theorem ExprCode.mono (h : ExprCode Γ lo hi t e c) (hlo : lo' ≤ lo) (hhi : hi ≤ hi') : ExprCode Γ lo' hi' t e c := by
  induction h generalizing lo' hi' with
  | place h => exact .place h
  | copy h => exact .copy h
  | num n => exact .num n
  | unary hop _ hs ih => exact .unary hop (ih hlo hhi) (hs.imp_left fun h => h.mono hlo hhi)
  | binary hop hle hle' _ hs _ hs' ihl ihr =>
    exact .binary hop (Nat.le_trans hlo hle) (Nat.le_trans hle' hhi) (ihl hlo (Nat.le_refl _))
      (hs.imp_left fun h => h.mono hlo (Nat.le_refl _)) (ihr (Nat.le_refl _) hhi) (hs'.imp_left fun h => h.mono (Nat.le_refl _) hhi)

structure Adds (g : Gen) (c : List Instruction) (g' : Gen) : Prop where
  code : g'.code = g.code ++ c.map Body.Op.record
  temps : g'.temps = g.temps
  next : g.next ≤ g'.next

theorem Adds.refl (g : Gen) : Adds g [] g := ⟨by simp, rfl, Nat.le_refl _⟩

theorem Adds.trans (h : Adds g c g₁) (h' : Adds g₁ d g') : Adds g (c ++ d) g' where
  code := by rw [h'.code, h.code, map_append, append_assoc]
  temps := h'.temps.trans h.temps
  next := Nat.le_trans h.next h'.next

theorem adds_fresh (g : Gen) : Adds g [] { g with next := g.next + 1 } := ⟨by simp, rfl, Nat.le_succ _⟩

theorem adds_emit (op : Instruction) (g : Gen) : Adds g [op] { g with code := g.code ++ [op.record] } := ⟨rfl, rfl, Nat.le_refl _⟩

theorem topDown_expr (hf : e.Formed) (hd : e.Declared (g.temps.map Prod.fst)) (t : String) :
    ∃ c g', (TopDown.expr t e).run g = .ok ((), g') ∧ Adds g c g' ∧ ExprCode g.temps g.next g'.next t e c := by
  induction e generalizing g t with
  | var x =>
    obtain ⟨s, hs⟩ := exists_place hd
    refine ⟨[.copy s t], _, ?_, adds_emit (.copy s t) g, .copy hs⟩
    rw [TopDown.expr, StateT.run_bind, run_lookup_of_place hf hs, ok_bind, run_emit (.copy s t) rfl]
  | num n =>
    obtain ⟨k, rfl⟩ := exists_numeral hf
    exact ⟨[.const k t], _, run_emit (.const k t) rfl g, adds_emit (.const k t) g, .num k⟩
  | unary op e ih =>
    obtain ⟨u, hu⟩ := Option.isSome_iff_exists.1 hf.1
    obtain ⟨c, g₁, hrun, hadds, hcode⟩ := ih hf.2 (g := { g with next := g.next + 1 }) hd (tempName g.next)
    have hlt : g.next < g₁.next := hadds.next
    refine ⟨c ++ [.unop u (tempName g.next) t], _, ?_, ((adds_fresh g).trans hadds).trans (adds_emit _ g₁), ?_⟩
    · simp only [TopDown.expr, StateT.run_bind, run_fresh, ok_bind, hrun, run_opcode_unop hu, run_emit (.unop u (tempName g.next) t) rfl]
    · exact .unary hu (hcode.mono (Nat.le_succ _) (Nat.le_refl _)) (.inl ⟨g.next, Nat.le_refl _, hlt, rfl⟩)
  | binary op l r ihl ihr =>
    obtain ⟨b, hb⟩ := Option.isSome_iff_exists.1 hf.1
    obtain ⟨c, g₁, hrun₁, hadds₁, hcode₁⟩ := ihl hf.2.1 (g := { g with next := g.next + 1 }) hd.1 (tempName g.next)
    have hlt₁ : g.next < g₁.next := hadds₁.next
    have htemps : g₁.temps = g.temps := hadds₁.temps
    obtain ⟨d, g₂, hrun₂, hadds₂, hcode₂⟩ := ihr hf.2.2 (g := { g₁ with next := g₁.next + 1 }) (by rw [htemps]; exact hd.2) (tempName g₁.next)
    have hlt₂ : g₁.next < g₂.next := hadds₂.next
    refine ⟨c ++ d ++ [.binop b (tempName g.next) (tempName g₁.next) t], _, ?_,
      (((adds_fresh g).trans hadds₁).trans ((adds_fresh g₁).trans hadds₂)).trans (adds_emit _ g₂), ?_⟩
    · simp only [TopDown.expr, StateT.run_bind, run_fresh, ok_bind, hrun₁, hrun₂, run_opcode_binop hb,
        run_emit (.binop b (tempName g.next) (tempName g₁.next) t) rfl]
    · refine .binary hb (Nat.le_of_lt hlt₁) (Nat.le_of_lt hlt₂) (hcode₁.mono (Nat.le_succ _) (Nat.le_refl _)) (.inl ⟨g.next, Nat.le_refl _, hlt₁, rfl⟩) ?_
        (.inl ⟨g₁.next, Nat.le_refl _, hlt₂, rfl⟩)
      rw [← htemps]
      exact hcode₂.mono (Nat.le_succ _) (Nat.le_refl _)

theorem bottomUp_expr (hf : e.Formed) (hd : e.Declared (g.temps.map Prod.fst)) :
    ∃ t c g', (BottomUp.expr e).run g = .ok (t, g') ∧ Adds g c g' ∧ ExprCode g.temps g.next g'.next t e c ∧
      (Own g.next g'.next t ∨ c = []) := by
  induction e generalizing g with
  | var x =>
    obtain ⟨s, hs⟩ := exists_place hd
    exact ⟨s, [], g, run_lookup_of_place hf hs, .refl g, .place hs, .inr rfl⟩
  | num n =>
    obtain ⟨k, rfl⟩ := exists_numeral hf
    refine ⟨tempName g.next, [.const k (tempName g.next)], _, ?_, (adds_fresh g).trans (adds_emit _ _), .num k,
      .inl ⟨g.next, Nat.le_refl _, Nat.lt_succ_self _, rfl⟩⟩
    simp only [BottomUp.expr, StateT.run_bind, run_fresh, ok_bind, run_emit (.const k (tempName g.next)) rfl]
    rfl
  | unary op e ih =>
    obtain ⟨u, hu⟩ := Option.isSome_iff_exists.1 hf.1
    obtain ⟨s, c, g₁, hrun, hadds, hcode, hs⟩ := ih hf.2 hd
    refine ⟨tempName g₁.next, c ++ [.unop u s (tempName g₁.next)], _, ?_, hadds.trans ((adds_fresh g₁).trans (adds_emit _ _)), ?_, ?_⟩
    · simp only [BottomUp.expr, StateT.run_bind, run_fresh, ok_bind, hrun, run_opcode_unop hu, run_emit (.unop u s (tempName g₁.next)) rfl]
      rfl
    · exact .unary hu (hcode.mono (Nat.le_refl _) (Nat.le_succ _)) (hs.imp_left fun h => h.mono (Nat.le_refl _) (Nat.le_succ _))
    · exact .inl ⟨g₁.next, hadds.next, Nat.lt_succ_self _, rfl⟩
  | binary op l r ihl ihr =>
    obtain ⟨b, hb⟩ := Option.isSome_iff_exists.1 hf.1
    obtain ⟨s, c, g₁, hrun₁, hadds₁, hcode₁, hs⟩ := ihl hf.2.1 hd.1
    obtain ⟨s', d, g₂, hrun₂, hadds₂, hcode₂, hs'⟩ := ihr hf.2.2 (g := g₁) (by rw [hadds₁.temps]; exact hd.2)
    rw [hadds₁.temps] at hcode₂
    refine ⟨tempName g₂.next, c ++ d ++ [.binop b s s' (tempName g₂.next)], _, ?_,
      (hadds₁.trans hadds₂).trans ((adds_fresh g₂).trans (adds_emit _ _)), ?_, ?_⟩
    · simp only [BottomUp.expr, StateT.run_bind, run_fresh, ok_bind, hrun₁, hrun₂, run_opcode_binop hb,
        run_emit (.binop b s s' (tempName g₂.next)) rfl]
      rfl
    · exact .binary hb hadds₁.next (Nat.le_succ_of_le hadds₂.next) hcode₁ hs (hcode₂.mono (Nat.le_refl _) (Nat.le_succ _))
        (hs'.imp_left fun h => h.mono (Nat.le_refl _) (Nat.le_succ _))
    · exact .inl ⟨g₂.next, Nat.le_trans hadds₁.next hadds₂.next, Nat.lt_succ_self _, rfl⟩

end Expressions

section Programs

variable {g : Gen} {x : Datum} {e : Expr} {s : Stmt} {names names' : List Datum}

theorem Expr.Declared.mono (h : e.Declared names) (hn : names <+: names') : e.Declared names' := by
  obtain ⟨new, rfl⟩ := hn
  induction e with
  | var x => simp_all [Expr.Declared, known]
  | num n => trivial
  | unary op e ih => exact ih h
  | binary op l r ihl ihr => exact ⟨ihl h.1, ihr h.2⟩

theorem map_fst_placed (Γ : Places) (n : Nat) (x : Datum) :
    (placed Γ n x).2.1.map Prod.fst = declare (Γ.map Prod.fst) x := by
  have hknown : known (Γ.map Prod.fst) x = (place? Γ x).isSome := by
    rw [known, any_map, place?, Option.isSome_map, isSome_find?]
    rfl
  rw [placed, declare, hknown]
  cases place? Γ x with
  | none => simp
  | some t => rfl

theorem prefix_declare (names : List Datum) (x : Datum) : names <+: declare names x := by
  rw [declare]
  split
  · exact prefix_refl names
  · exact prefix_append names [x]

theorem lower_assign (scheme : Scheme) (hs : s.assigns? = some (x, e)) (hx : x.isKey) (hf : e.Formed)
    (hd : e.Declared (g.temps.map Prod.fst)) :
    ∃ c g', (scheme.stmt s).run g = .ok ((), g') ∧ g'.code = g.code ++ c.map Body.Op.record ∧
      g'.temps = (placed g.temps g.next x).2.1 ∧
      ∀ rest d, ProgramCode g'.temps g'.next rest d → ProgramCode g.temps g.next (s :: rest) (c ++ d) := by
  obtain ⟨t, Γ, n, hplaced⟩ : ∃ t Γ n, placed g.temps g.next x = (t, Γ, n) := ⟨_, _, _, rfl⟩
  have hlookup : (lookup x).run g = .ok (t, { g with temps := Γ, next := n }) := by rw [run_lookup hx, hplaced]
  have hnames : Γ.map Prod.fst = declare (g.temps.map Prod.fst) x := by rw [← map_fst_placed _ g.next, hplaced]
  have hd : e.Declared (Γ.map Prod.fst) := hnames ▸ hd.mono (prefix_declare _ x)
  rw [hplaced]
  cases scheme with
  | topDown =>
    obtain ⟨c, g', hrun, hadds, hcode⟩ := topDown_expr (g := { g with temps := Γ, next := n }) hf hd t
    have htemps : g'.temps = Γ := hadds.temps
    refine ⟨c, g', ?_, hadds.code, htemps, fun rest d hr => .into hs hplaced hadds.next hcode (htemps ▸ hr)⟩
    rw [show Scheme.topDown.stmt s = TopDown.assign x (some e) by obtain rfl | rfl := Stmt.assigns?_cases hs <;> rfl,
      TopDown.assign, StateT.run_bind, hlookup]
    exact hrun
  | bottomUp =>
    obtain ⟨y, c, g', hrun, hadds, hcode, hy⟩ := bottomUp_expr (g := { g with temps := Γ, next := n }) hf hd
    have htemps : g'.temps = Γ := hadds.temps
    have hall := hadds.trans (adds_emit (.copy y t) g')
    refine ⟨c ++ [.copy y t], { g' with code := g'.code ++ [Body.Op.record (.copy y t)] }, ?_, hall.code, htemps, fun rest d hr => ?_⟩
    · rw [show Scheme.bottomUp.stmt s = BottomUp.assign x (some e) by obtain rfl | rfl := Stmt.assigns?_cases hs <;> rfl,
        BottomUp.assign, StateT.run_bind, hlookup]
      simp only [ok_bind, StateT.run_bind, hrun, run_emit (.copy y t) rfl]
    · rw [append_assoc]
      exact .through hs hplaced hadds.next hcode hy (htemps ▸ hr)

theorem lower_print (scheme : Scheme) (hf : e.Formed) (hd : e.Declared (g.temps.map Prod.fst)) :
    ∃ c g', (scheme.stmt (.print e)).run g = .ok ((), g') ∧ g'.code = g.code ++ c.map Body.Op.record ∧ g'.temps = g.temps ∧
      ∀ rest d, ProgramCode g'.temps g'.next rest d → ProgramCode g.temps g.next (.print e :: rest) (c ++ d) := by
  cases scheme with
  | topDown =>
    obtain ⟨c, g', hrun, hadds, hcode⟩ := topDown_expr (g := { g with next := g.next + 1 }) hf hd (tempName g.next)
    have hall := ((adds_fresh g).trans hadds).trans (adds_emit (.print (tempName g.next)) g')
    refine ⟨c ++ [.print (tempName g.next)], _, ?_, hall.code, hall.temps, fun rest d hr => ?_⟩
    · simp only [Scheme.stmt, TopDown.stmt, StateT.run_bind, run_fresh, ok_bind, hrun, run_emit (.print (tempName g.next)) rfl]
    · rw [append_assoc]
      exact .print hall.next (hcode.mono (Nat.le_succ _) (Nat.le_refl _)) (.inl ⟨g.next, Nat.le_refl _, hadds.next, rfl⟩) (hall.temps ▸ hr)
  | bottomUp =>
    obtain ⟨y, c, g', hrun, hadds, hcode, hy⟩ := bottomUp_expr hf hd
    have hall := hadds.trans (adds_emit (.print y) g')
    refine ⟨c ++ [.print y], _, ?_, hall.code, hall.temps, fun rest d hr => ?_⟩
    · simp only [Scheme.stmt, BottomUp.stmt, StateT.run_bind, ok_bind, hrun, run_emit (.print y) rfl]
    · rw [append_assoc]
      exact .print hall.next hcode hy (hall.temps ▸ hr)

theorem exists_programCode (scheme : Scheme) {program : List Stmt} (hf : ∀ s ∈ program, s.Formed)
    (hd : Declared (g.temps.map Prod.fst) program) :
    ∃ c g', (program.forM scheme.stmt).run g = .ok ((), g') ∧ g'.code = g.code ++ c.map Body.Op.record ∧
      ProgramCode g.temps g.next program c := by
  induction program generalizing g with
  | nil => exact ⟨[], g, rfl, by simp, .nil⟩
  | cons s rest ih =>
    rw [forall_mem_cons] at hf
    have hcons : ∀ {c g₁}, (scheme.stmt s).run g = .ok ((), g₁) → g₁.code = g.code ++ c.map Body.Op.record →
        Declared (g₁.temps.map Prod.fst) rest →
        (∀ rest d, ProgramCode g₁.temps g₁.next rest d → ProgramCode g.temps g.next (s :: rest) (c ++ d)) →
        ∃ c g', ((s :: rest).forM scheme.stmt).run g = .ok ((), g') ∧ g'.code = g.code ++ c.map Body.Op.record ∧
          ProgramCode g.temps g.next (s :: rest) c := by
      intro c g₁ hrun hcode hd hprogram
      obtain ⟨d, g', hrun', hcode', hrest⟩ := ih hf.2 hd
      refine ⟨c ++ d, g', ?_, ?_, hprogram rest d hrest⟩
      · change (scheme.stmt s >>= fun _ => rest.forM scheme.stmt).run g = _
        rw [StateT.run_bind, hrun]
        exact hrun'
      · rw [hcode', hcode, map_append, append_assoc]
    obtain ⟨x, e, hs, hx, he⟩ | ⟨e, rfl, he⟩ := hf.1.cases
    · obtain ⟨hde, hdr⟩ := hd.of_assigns hs
      obtain ⟨c, g₁, hrun, hcode, htemps, hprogram⟩ := lower_assign scheme hs hx he hde
      exact hcons hrun hcode (by rw [htemps, map_fst_placed]; exact hdr) hprogram
    · obtain ⟨c, g₁, hrun, hcode, htemps, hprogram⟩ := lower_print scheme he hd.1
      exact hcons hrun hcode (by rw [htemps]; exact hd.2) hprogram

end Programs

end Bx.Straight
