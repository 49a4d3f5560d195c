import Bx.Procedural.Lower
import Bx.Proofs.Basic

namespace Bx.Procedural

open List Source Tac

def tempName (k : Nat) : String := "%" ++ toString k

def labelName (k : Nat) : String := ".L" ++ toString k

theorem tempName_inj {m n : Nat} : tempName m = tempName n ↔ m = n := append_toString_inj

theorem labelName_inj {m n : Nat} : labelName m = labelName n ↔ m = n := append_toString_inj

def isName (x : String) : Bool :=
  match x.toList with
  | [] => false
  | c :: cs => (c.isAlpha || c == '_') && cs.all fun c => c.isAlphanum || c == '_'

theorem isDigit_of_mem_toString {k : Nat} {c : Char} (h : c ∈ (toString k).toList) : c.isDigit := by
  rw [Nat.toString_eq_repr, Nat.toList_repr] at h
  exact Nat.isDigit_of_mem_toDigits (by decide) (by decide) h

theorem isDigit_eq_false {c : Char} (h : (c.isAlpha || c == '_')) : c.isDigit = false := by
  simp only [Bool.or_eq_true, beq_iff_eq] at h
  obtain h | rfl := h
  · change (decide ('A'.val ≤ c.val ∧ c.val ≤ 'Z'.val) || (decide ('a'.val ≤ c.val) && decide (c.val ≤ 'z'.val))) = true at h
    change (decide ('0'.val ≤ c.val) && decide (c.val ≤ '9'.val)) = false
    simp only [Bool.or_eq_true, Bool.and_eq_true, decide_eq_true_eq, Bool.and_eq_false_imp, decide_eq_false_iff_not,
      UInt32.le_iff_toNat_le] at h ⊢
    grind
  · rfl

theorem exists_of_isName {x : String} (h : isName x) :
    ∃ c cs, x.toList = c :: cs ∧ (c.isAlpha || c == '_') ∧ ∀ d ∈ cs, (d.isAlphanum || d == '_') := by
  unfold isName at h
  split at h
  · cases h
  · next c cs hc =>
      rw [Bool.and_eq_true, all_eq_true] at h
      exact ⟨c, cs, hc, h.1, h.2⟩

theorem ne_toString_of_isName {x : String} (h : isName x) (k : Nat) : x ≠ toString k := by
  rintro rfl
  obtain ⟨c, cs, hc, hletter, -⟩ := exists_of_isName h
  have hmem : c ∈ (toString k).toList := by
    rw [hc]
    exact mem_cons_self
  have hdigit := isDigit_of_mem_toString hmem
  rw [isDigit_eq_false hletter] at hdigit
  cases hdigit

/-- The next temporary, the next label, and the operands of the variables that are in scope. -/
structure Stage where
  next : Nat
  nextLabel : Nat
  scopes : List Names

namespace Stage

def find? (g : Stage) (x : String) : Option String := g.scopes.findSome? fun scope => scope.lookup x

def taken (g : Stage) : Stage := { g with next := g.next + 1 }

def labelled (g : Stage) (n : Nat) : Stage := { g with nextLabel := g.nextLabel + n }

def enter (g : Stage) : Stage := { g with scopes := [] :: g.scopes }

def leave (g : Stage) : Stage := { g with scopes := g.scopes.drop 1 }

def bound (g : Stage) (x t : String) : Stage := { g with scopes := bindName x t g.scopes }

/-- A variable that is not in scope gets a temporary in the innermost one. -/
inductive Look : Stage → String → String → Stage → Prop
  | found {g x t} (h : g.find? x = some t) : Look g x t g
  | new {g x} (h : g.find? x = none) : Look g x (tempName g.next) (g.taken.bound x (tempName g.next))

end Stage

/-- That of an expression, into a target, or those of the arguments from a place on. -/
inductive Work
  | value (target : Datum) (e : Expr)
  | args (k : Nat) (es : List Expr)

/-- Operands of variables are in the order of the text. Arguments behind the sixth are computed from the last on. -/
inductive ExprCode : Stage → Work → List String → List Record → Stage → Prop
  | var {g g' t line x s} (h : g.Look x s g') : ExprCode g (.value t (.var line x)) [s] [.of "copy" [.str s] t] g'
  | num {g t line n} : ExprCode g (.value t (.num line n)) [] [.of "const" [.int n] t] g
  | bool {g t line b} : ExprCode g (.value t (.bool line b)) [] [.of "const" [.int (if b then 1 else 0)] t] g
  | unary {g g' t line op e name os c} (hop : op.opcode? = some name)
      (he : ExprCode g.taken (.value (.str (tempName g.next)) e) os c g') :
      ExprCode g (.value t (.unary line op e)) os (c ++ [.of name [.str (tempName g.next)] t]) g'
  | binary {g g₁ g₂ t line op l r name os os' c d} (hop : op.opcode? = some name)
      (hl : ExprCode g.taken (.value (.str (tempName g.next)) l) os c g₁)
      (hr : ExprCode g₁.taken (.value (.str (tempName g₁.next)) r) os' d g₂) :
      ExprCode g (.value t (.binary line op l r)) (os ++ os')
        (c ++ (d ++ [.of name [.str (tempName g.next), .str (tempName g₁.next)] t])) g₂
  | call {g g' t line f args os c} (h : ExprCode g (.args 0 args) os c g') :
      ExprCode g (.value t (.call line f args)) os (c ++ [.of "call" [.str ("@" ++ f), .int args.length] t]) g'
  | nil {g k} : ExprCode g (.args k []) [] [] g
  | early {g g₁ g₂ k e rest os os' c d} (hk : k < inOrder) (he : ExprCode g.taken (.value (.str (tempName g.next)) e) os c g₁)
      (hr : ExprCode g₁ (.args (k + 1) rest) os' d g₂) :
      ExprCode g (.args k (e :: rest)) (os ++ os') (c ++ .of "param" [.int (k + 1), .str (tempName g.next)] .null :: d) g₂
  | late {g g₁ g₂ k e rest os os' c d} (hk : ¬ k < inOrder) (hr : ExprCode g (.args (k + 1) rest) os' d g₁)
      (he : ExprCode g₁.taken (.value (.str (tempName g₁.next)) e) os c g₂) :
      ExprCode g (.args k (e :: rest)) (os ++ os') (d ++ (c ++ [.of "param" [.int (k + 1), .str (tempName g₁.next)] .null])) g₂

def Expr.isIdle : Expr → Bool
  | .unary _ op _ => op != .boolnot
  | .binary _ op _ _ => op != .booland && op != .boolor && (comparison? op).isNone
  | _ => false

def labelRecord (l : String) : Record := .of "label" [.str l] .null

def jumpRecord (l : String) : Record := .of "jmp" [.str l] .null

/-- Code of a condition, which jumps to one of two labels. -/
inductive CondCode : Stage → String → String → Expr → List String → List Record → Stage → Prop
  | not {g g' yes no line e os c} (h : CondCode g no yes e os c g') : CondCode g yes no (.unary line .boolnot e) os c g'
  | and {g g₁ g₂ yes no line l r os os' c d} (hl : CondCode (g.labelled 1) (labelName g.nextLabel) yes l os c g₁)
      (hr : CondCode g₁ (labelName g.nextLabel) yes r os' d g₂) :
      CondCode g yes no (.binary line .booland l r) (os ++ os') (c ++ labelRecord (labelName g.nextLabel) :: d) g₂
  | or {g g₁ g₂ yes no line l r os os' c d} (hl : CondCode (g.labelled 1) yes (labelName g.nextLabel) l os c g₁)
      (hr : CondCode g₁ yes no r os' d g₂) :
      CondCode g yes no (.binary line .boolor l r) (os ++ os') (c ++ labelRecord (labelName g.nextLabel) :: d) g₂
  | compare {g g₁ g₂ yes no line op l r jump os os' c d} (hop : comparison? op = some jump)
      (hl : ExprCode g.taken.taken (.value (.str (tempName g.next)) l) os c g₁)
      (hr : ExprCode g₁ (.value (.str (tempName (g.next + 1))) r) os' d g₂) :
      CondCode g yes no (.binary line op l r) (os ++ os')
        (c ++ (d ++ [.of "sub" [.str (tempName g.next), .str (tempName (g.next + 1))] (.str (tempName g.next)),
          .of jump [.str (tempName g.next), .str yes] .null, jumpRecord no])) g₂
  | idle {g yes no e} (h : e.isIdle = true) : CondCode g yes no e [] [] g

inductive StmtCode : Stage → Option Loop → List Stmt → List String → List Record → Stage → Prop
  | nil {g loop} : StmtCode g loop [] [] [] g
  | cons {g g₁ g₂ loop s rest os os' c d} (hs : StmtCode g loop [s] os c g₁) (hr : StmtCode g₁ loop rest os' d g₂) :
      StmtCode g loop (s :: rest) (os ++ os') (c ++ d) g₂
  | vardecl {g g₁ g₂ loop line x e ty t os c} (hx : g.Look x t g₁) (he : ExprCode g₁ (.value (.str t) e) os c g₂) :
      StmtCode g loop [.vardecl line x e ty] (os ++ [t]) c g₂
  | assign {g g₁ g₂ loop line varLine x e t os c} (hx : g.Look x t g₁) (he : ExprCode g₁ (.value (.str t) e) os c g₂) :
      StmtCode g loop [.assign line varLine x e] (t :: os) c g₂
  | eval {g g' loop line e os c} (he : ExprCode g (.value .null e) os c g') : StmtCode g loop [.eval line e] os c g'
  | block {g g' loop line body os c} (hb : StmtCode g.enter loop body os c g') : StmtCode g loop [.block line body] os c g'.leave
  | ifelse {g g₁ g₂ g₃ loop line cond yes no oc oy on c cy cn}
      (hc : CondCode (g.labelled 3) (labelName g.nextLabel) (labelName (g.nextLabel + 1)) cond oc c g₁)
      (hy : StmtCode g₁.enter loop yes oy cy g₂) (hn : StmtCode g₂.leave loop [no] on cn g₃) :
      StmtCode g loop [.ifelse line cond yes no] (oc ++ (oy ++ on))
        (c ++ labelRecord (labelName g.nextLabel) :: (cy ++ jumpRecord (labelName (g.nextLabel + 2)) ::
          labelRecord (labelName (g.nextLabel + 1)) :: (cn ++ [labelRecord (labelName (g.nextLabel + 2))]))) g₃
  | while {g g₁ g₂ loop line cond body oc ob c cb}
      (hc : CondCode (g.labelled 3) (labelName (g.nextLabel + 1)) (labelName (g.nextLabel + 2)) cond oc c g₁)
      (hb : StmtCode g₁.enter (some ⟨labelName g.nextLabel, labelName (g.nextLabel + 2)⟩) body ob cb g₂) :
      StmtCode g loop [.while line cond body] (oc ++ ob)
        (labelRecord (labelName g.nextLabel) :: (c ++ labelRecord (labelName (g.nextLabel + 1)) ::
          (cb ++ [jumpRecord (labelName g.nextLabel), labelRecord (labelName (g.nextLabel + 2))]))) g₂.leave
  | break {g line l} : StmtCode g (some l) [.break line] [] [jumpRecord l.exit] g
  | continue {g line l} : StmtCode g (some l) [.continue line] [] [jumpRecord l.head] g
  | return {g g' loop line e os c} (he : ExprCode g.taken (.value (.str (tempName g.next)) e) os c g') :
      StmtCode g loop [.return line (some e)] os (c ++ [.of "ret" [.str (tempName g.next)] .null]) g'
  | leave {g loop line} : StmtCode g loop [.return line none] [] [.of "ret" [.str "%_"] .null] g

def Gen.stage (g : Gen) : Stage := ⟨g.next, g.nextLabel, g.scopes⟩

def Lowers {α : Type} (x : Lower α) (P : Stage → α → List Record → Stage → Prop) : Prop :=
  ∀ g g' a, x.run g = .ok (a, g') → ∃ c, g'.code = g.code ++ c ∧ P g.stage a c g'.stage

namespace Lowers

variable {α β : Type} {P Q : Stage → α → List Record → Stage → Prop} {x : Lower α}

theorem imp (h : Lowers x P) (hpq : ∀ g a c g', P g a c g' → Q g a c g') : Lowers x Q := by
  intro g g' a hx
  obtain ⟨c, hcode, hc⟩ := h g g' a hx
  exact ⟨c, hcode, hpq _ a c _ hc⟩

theorem bind {k : α → Lower β} {R : Stage → β → List Record → Stage → Prop} (hx : Lowers x P)
    (hk : ∀ a, Lowers (k a) fun g₁ b d g₂ => ∀ g c, P g a c g₁ → R g b (c ++ d) g₂) : Lowers (x >>= k) R := by
  intro g g' b h
  rw [StateT.run_bind, bind_eq_ok, Prod.exists] at h
  obtain ⟨a, g₁, ha, hb⟩ := h
  obtain ⟨c, hcode, hc⟩ := hx g g₁ a ha
  obtain ⟨d, hcode', hd⟩ := hk a g₁ g' b hb
  exact ⟨c ++ d, by rw [hcode', hcode, append_assoc], hd _ c hc⟩

theorem pure (a : α) : Lowers (Pure.pure a) fun g b c g' => b = a ∧ c = [] ∧ g' = g := by
  intro g g' b h
  cases h
  exact ⟨[], by simp, rfl, rfl, rfl⟩

theorem throw {e : LowerError} : Lowers (throw e : Lower α) P := nofun

theorem fresh : Lowers fresh fun g t c g' => t = tempName g.next ∧ c = [] ∧ g' = g.taken := by
  intro g g' t h
  cases h
  exact ⟨[], by simp, rfl, rfl, rfl⟩

theorem freshLabel : Lowers freshLabel fun g l c g' => l = labelName g.nextLabel ∧ c = [] ∧ g' = g.labelled 1 := by
  intro g g' l h
  cases h
  exact ⟨[], by simp, rfl, rfl, rfl⟩

theorem emit (op : String) (args : List Datum) (result : Datum) :
    Lowers (Procedural.emit op args result) fun g _ c g' => c = [.of op args result] ∧ g' = g := by
  intro g g' u h
  cases h
  exact ⟨_, rfl, rfl, rfl⟩

theorem enterScope : Lowers enterScope fun g _ c g' => c = [] ∧ g' = g.enter := by
  intro g g' u h
  cases h
  exact ⟨[], by simp, rfl, rfl⟩

theorem leaveScope : Lowers leaveScope fun g _ c g' => c = [] ∧ g' = g.leave := by
  intro g g' u h
  cases h
  exact ⟨[], by simp, rfl, rfl⟩

theorem lookup (y : String) : Lowers (lookup y) fun g t c g' => g.Look y t g' ∧ c = [] := by
  intro g g' t h
  cases hy : g.scopes.findSome? fun scope => scope.lookup y with
  | some s =>
    have hrun : (Procedural.lookup y).run g = .ok (s, g) := by
      simp only [Procedural.lookup, StateT.run_bind, StateT.run_get, pure_bind, hy]
      rfl
    rw [hrun] at h
    cases h
    exact ⟨[], by simp, .found hy, rfl⟩
  | none =>
    have hrun : (Procedural.lookup y).run g =
        .ok (tempName g.next, { g with next := g.next + 1, scopes := bindName y (tempName g.next) g.scopes }) := by
      simp only [Procedural.lookup, StateT.run_bind, StateT.run_get, pure_bind, hy]
      rfl
    rw [hrun] at h
    cases h
    exact ⟨[], by simp, .new hy, rfl⟩

theorem opcode (op : Op) : Lowers (opcode op) fun g s c g' => op.opcode? = some s ∧ c = [] ∧ g' = g := by
  rw [Procedural.opcode]
  cases op.opcode? with
  | none => exact throw
  | some s =>
    refine (Lowers.pure s).imp ?_
    rintro g a c g' ⟨rfl, rfl, rfl⟩
    exact ⟨rfl, rfl, rfl⟩

end Lowers

mutual

theorem Lowers.intExpr (target : Datum) (e : Expr) :
    Lowers (intExpr target e) fun g _ c g' => ∃ os, ExprCode g (.value target e) os c g' := by
  cases e with
  | var line x =>
    refine (Lowers.lookup x).bind fun s => (Lowers.emit _ _ _).imp ?_
    rintro _ _ _ g' ⟨rfl, rfl⟩ g _ ⟨hx, rfl⟩
    exact ⟨_, .var hx⟩
  | num line n =>
    refine (Lowers.emit _ _ _).imp ?_
    rintro g _ _ _ ⟨rfl, rfl⟩
    exact ⟨_, .num⟩
  | bool line b =>
    refine (Lowers.emit _ _ _).imp ?_
    rintro g _ _ _ ⟨rfl, rfl⟩
    exact ⟨_, .bool⟩
  | unary line op e =>
    refine Lowers.fresh.bind fun t => (Lowers.intExpr (.str t) e).bind fun _ =>
      (Lowers.opcode op).bind fun name => (Lowers.emit _ _ _).imp ?_
    rintro _ _ _ _ ⟨rfl, rfl⟩ _ _ ⟨hop, rfl, rfl⟩ _ c ⟨os, he⟩ g _ ⟨rfl, rfl, rfl⟩
    exact ⟨os, .unary hop he⟩
  | binary line op l r =>
    refine Lowers.fresh.bind fun t => (Lowers.intExpr (.str t) l).bind fun _ => Lowers.fresh.bind fun u =>
      (Lowers.intExpr (.str u) r).bind fun _ => (Lowers.opcode op).bind fun name => (Lowers.emit _ _ _).imp ?_
    rintro _ _ _ _ ⟨rfl, rfl⟩ _ _ ⟨hop, rfl, rfl⟩ _ d ⟨os', hr⟩ _ _ ⟨rfl, rfl, rfl⟩ _ c ⟨os, hl⟩ g _ ⟨rfl, rfl, rfl⟩
    exact ⟨os ++ os', .binary hop hl hr⟩
  | call line f args =>
    refine (Lowers.params 0 args).bind fun _ => (Lowers.emit _ _ _).imp ?_
    rintro _ _ _ _ ⟨rfl, rfl⟩ g c ⟨os, h⟩
    exact ⟨os, .call h⟩

theorem Lowers.params (k : Nat) (es : List Expr) :
    Lowers (params k es) fun g _ c g' => ∃ os, ExprCode g (.args k es) os c g' := by
  cases es with
  | nil =>
    refine (Lowers.pure ()).imp ?_
    rintro g _ _ _ ⟨-, rfl, rfl⟩
    exact ⟨[], .nil⟩
  | cons e rest =>
    rw [Procedural.params]
    split
    · next hk =>
        refine Lowers.fresh.bind fun t => (Lowers.intExpr (.str t) e).bind fun _ => (Lowers.emit _ _ _).bind fun _ =>
          (Lowers.params (k + 1) rest).imp ?_
        rintro _ _ d _ ⟨os', hr⟩ _ _ ⟨rfl, rfl⟩ _ c ⟨os, he⟩ g _ ⟨rfl, rfl, rfl⟩
        exact ⟨os ++ os', .early hk he hr⟩
    · next hk =>
        refine (Lowers.params (k + 1) rest).bind fun _ => Lowers.fresh.bind fun t => (Lowers.intExpr (.str t) e).bind fun _ =>
          (Lowers.emit _ _ _).imp ?_
        rintro _ _ _ _ ⟨rfl, rfl⟩ _ c ⟨os, he⟩ _ _ ⟨rfl, rfl, rfl⟩ g d ⟨os', hr⟩
        exact ⟨os ++ os', .late hk hr he⟩

end

theorem boolExpr_compare {op : Op} {jump : String} (h : comparison? op = some jump) (yes no : String) (line : Int) (l r : Expr) :
    boolExpr yes no (.binary line op l r) = compare jump l r yes no := by
  cases op <;> simp_all [boolExpr, comparison?]

theorem boolExpr_idle {e : Expr} (h : e.isIdle) (yes no : String) : boolExpr yes no e = pure () := by
  cases e with
  | unary line op e => cases op <;> simp_all [boolExpr, Expr.isIdle]
  | binary line op l r => cases op <;> simp_all [boolExpr, Expr.isIdle, comparison?]
  | _ => cases h

theorem Lowers.idle {e : Expr} (he : e.isIdle) (yes no : String) :
    Lowers (boolExpr yes no e) fun g _ c g' => ∃ os, CondCode g yes no e os c g' := by
  rw [boolExpr_idle he]
  refine (Lowers.pure ()).imp ?_
  rintro g _ _ _ ⟨-, rfl, rfl⟩
  exact ⟨[], .idle he⟩

theorem Lowers.compare (line : Int) {op : Op} {jump : String} (hop : comparison? op = some jump) (l r : Expr) (yes no : String) :
    Lowers (compare jump l r yes no) fun g _ c g' => ∃ os, CondCode g yes no (.binary line op l r) os c g' := by
  refine Lowers.fresh.bind fun t => Lowers.fresh.bind fun u => (Lowers.intExpr (.str t) l).bind fun _ =>
    (Lowers.intExpr (.str u) r).bind fun _ => (Lowers.emit _ _ _).bind fun _ => (Lowers.emit _ _ _).bind fun _ =>
    (Lowers.emit _ _ _).imp ?_
  rintro _ _ _ _ ⟨rfl, rfl⟩ _ _ ⟨rfl, rfl⟩ _ _ ⟨rfl, rfl⟩ _ d ⟨os', hr⟩ _ c ⟨os, hl⟩ _ _ ⟨rfl, rfl, rfl⟩ g _ ⟨rfl, rfl, rfl⟩
  exact ⟨os ++ os', .compare hop hl hr⟩

theorem Lowers.boolExpr (yes no : String) (e : Expr) :
    Lowers (boolExpr yes no e) fun g _ c g' => ∃ os, CondCode g yes no e os c g' := by
  cases e with
  | var line x | num line n | bool line b | call line f args => exact Lowers.throw
  | unary line op e =>
    by_cases hop : op = .boolnot
    · subst hop
      refine (Lowers.boolExpr no yes e).imp ?_
      rintro g _ c g' ⟨os, h⟩
      exact ⟨os, .not h⟩
    · exact Lowers.idle (by simp [Expr.isIdle, hop]) yes no
  | binary line op l r =>
    by_cases hand : op = .booland
    · subst hand
      refine Lowers.freshLabel.bind fun between => (Lowers.boolExpr between yes l).bind fun _ => (Lowers.emit _ _ _).bind fun _ =>
        (Lowers.boolExpr between yes r).imp ?_
      rintro _ _ d _ ⟨os', hr⟩ _ _ ⟨rfl, rfl⟩ _ c ⟨os, hl⟩ g _ ⟨rfl, rfl, rfl⟩
      exact ⟨os ++ os', .and hl hr⟩
    · by_cases hor : op = .boolor
      · subst hor
        refine Lowers.freshLabel.bind fun between => (Lowers.boolExpr yes between l).bind fun _ => (Lowers.emit _ _ _).bind fun _ =>
          (Lowers.boolExpr yes no r).imp ?_
        rintro _ _ d _ ⟨os', hr⟩ _ _ ⟨rfl, rfl⟩ _ c ⟨os, hl⟩ g _ ⟨rfl, rfl, rfl⟩
        exact ⟨os ++ os', .or hl hr⟩
      · cases hop : comparison? op with
        | some jump =>
          rw [boolExpr_compare hop]
          exact Lowers.compare line hop l r yes no
        | none => exact Lowers.idle (by simp [Expr.isIdle, hand, hor, hop]) yes no

mutual

theorem Lowers.stmt (loop : Option Loop) (s : Stmt) :
    Lowers (stmt loop s) fun g _ c g' => ∃ os, StmtCode g loop [s] os c g' := by
  cases s with
  | vardecl line x e ty =>
    refine (Lowers.lookup x).bind fun t => (Lowers.intExpr (.str t) e).imp ?_
    rintro _ _ c _ ⟨os, he⟩ g _ ⟨hx, rfl⟩
    exact ⟨_, .vardecl hx he⟩
  | assign line varLine x e =>
    refine (Lowers.lookup x).bind fun t => (Lowers.intExpr (.str t) e).imp ?_
    rintro _ _ c _ ⟨os, he⟩ g _ ⟨hx, rfl⟩
    exact ⟨_, .assign hx he⟩
  | eval line e =>
    refine (Lowers.intExpr .null e).imp ?_
    rintro g _ c g' ⟨os, he⟩
    exact ⟨os, .eval he⟩
  | block line body =>
    refine Lowers.enterScope.bind fun _ => (Lowers.stmts loop body).bind fun _ => Lowers.leaveScope.imp ?_
    rintro _ _ _ _ ⟨rfl, rfl⟩ _ c ⟨os, hb⟩ g _ ⟨rfl, rfl⟩
    rw [append_nil]
    exact ⟨os, .block hb⟩
  | ifelse line cond yes no =>
    refine Lowers.freshLabel.bind fun onYes => Lowers.freshLabel.bind fun onNo => Lowers.freshLabel.bind fun done =>
      (Lowers.boolExpr onYes onNo cond).bind fun _ => (Lowers.emit _ _ _).bind fun _ => Lowers.enterScope.bind fun _ =>
      (Lowers.stmts loop yes).bind fun _ => Lowers.leaveScope.bind fun _ => (Lowers.emit _ _ _).bind fun _ =>
      (Lowers.emit _ _ _).bind fun _ => (Lowers.stmt loop no).bind fun _ => (Lowers.emit _ _ _).imp ?_
    rintro _ _ _ _ ⟨rfl, rfl⟩ _ cn ⟨on, hn⟩ _ _ ⟨rfl, rfl⟩ _ _ ⟨rfl, rfl⟩ _ _ ⟨rfl, rfl⟩ _ cy ⟨oy, hy⟩ _ _ ⟨rfl, rfl⟩
      _ _ ⟨rfl, rfl⟩ _ c ⟨oc, hc⟩ _ _ ⟨rfl, rfl, rfl⟩ _ _ ⟨rfl, rfl, rfl⟩ g _ ⟨rfl, rfl, rfl⟩
    exact ⟨_, .ifelse hc hy hn⟩
  | «while» line cond body =>
    refine Lowers.freshLabel.bind fun head => Lowers.freshLabel.bind fun inside => Lowers.freshLabel.bind fun exit =>
      (Lowers.emit _ _ _).bind fun _ => (Lowers.boolExpr inside exit cond).bind fun _ => (Lowers.emit _ _ _).bind fun _ =>
      Lowers.enterScope.bind fun _ => (Lowers.stmts (some ⟨head, exit⟩) body).bind fun _ => Lowers.leaveScope.bind fun _ =>
      (Lowers.emit _ _ _).bind fun _ => (Lowers.emit _ _ _).imp ?_
    rintro _ _ _ _ ⟨rfl, rfl⟩ _ _ ⟨rfl, rfl⟩ _ _ ⟨rfl, rfl⟩ _ cb ⟨ob, hb⟩ _ _ ⟨rfl, rfl⟩ _ _ ⟨rfl, rfl⟩ _ c ⟨oc, hc⟩
      _ _ ⟨rfl, rfl⟩ _ _ ⟨rfl, rfl, rfl⟩ _ _ ⟨rfl, rfl, rfl⟩ g _ ⟨rfl, rfl, rfl⟩
    exact ⟨_, .while hc hb⟩
  | «break» line =>
    cases loop with
    | none => exact Lowers.throw
    | some l =>
      refine (Lowers.emit _ _ _).imp ?_
      rintro g _ _ _ ⟨rfl, rfl⟩
      exact ⟨_, .break⟩
  | «continue» line =>
    cases loop with
    | none => exact Lowers.throw
    | some l =>
      refine (Lowers.emit _ _ _).imp ?_
      rintro g _ _ _ ⟨rfl, rfl⟩
      exact ⟨_, .continue⟩
  | «return» line e =>
    cases e with
    | none =>
      refine (Lowers.emit _ _ _).imp ?_
      rintro g _ _ _ ⟨rfl, rfl⟩
      exact ⟨_, .leave⟩
    | some e =>
      refine Lowers.fresh.bind fun t => (Lowers.intExpr (.str t) e).bind fun _ => (Lowers.emit _ _ _).imp ?_
      rintro _ _ _ _ ⟨rfl, rfl⟩ _ c ⟨os, he⟩ g _ ⟨rfl, rfl, rfl⟩
      exact ⟨os, .return he⟩

theorem Lowers.stmts (loop : Option Loop) (body : List Stmt) :
    Lowers (stmts loop body) fun g _ c g' => ∃ os, StmtCode g loop body os c g' := by
  cases body with
  | nil =>
    refine (Lowers.pure ()).imp ?_
    rintro g _ _ _ ⟨-, rfl, rfl⟩
    exact ⟨[], .nil⟩
  | cons s rest =>
    refine (Lowers.stmt loop s).bind fun _ => (Lowers.stmts loop rest).imp ?_
    rintro _ _ d _ ⟨os', hr⟩ g c ⟨os, hs⟩
    exact ⟨_, .cons hs hr⟩

end

def startStage (globals : List Gvar) (p : Procedure) : Stage := ⟨0, 0, startScopes globals p⟩

theorem lowerProc_spec {globals : List Gvar} {p : Procedure} {q : Proc Record} (h : lowerProc globals p = .ok q) :
    q.name = "@" ++ p.name ∧ (q.params = p.params.map fun x => .str ("%" ++ x.1)) ∧
      ∃ os g, StmtCode (startStage globals p) none p.body os q.body g := by
  rw [lowerProc, bind_eq_ok] at h
  obtain ⟨⟨u, g⟩, hrun, h⟩ := h
  cases h
  obtain ⟨c, hcode, os, hc⟩ := Lowers.stmts none p.body _ _ _ hrun
  have hbody : g.code = c := hcode
  exact ⟨rfl, rfl, os, g.stage, hbody ▸ hc⟩

end Bx.Procedural
