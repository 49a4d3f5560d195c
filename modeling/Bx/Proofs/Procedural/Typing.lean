import Bx.Proofs.Procedural.Conditions

namespace Bx

open List

variable {x : String} {line : Int} {s s' : Scopes}

def Source.Op.takes : Source.Op → Procedural.Base → Bool
  | .booleq, b | .boolneq, b => b != .void
  | .boolnot, b | .booland, b | .boolor, b => b == .bool
  | _, b => b == .int

def Source.Op.gives (op : Source.Op) : Procedural.Base := if op.isBoolean then .bool else .int

namespace Procedural

open Source

def InRange (n : Int) : Prop := -Word.half ≤ n ∧ n < Word.half

mutual

inductive HasType (s : Scopes) : Expr → Base → Prop
  | var {line x b : _} (h : s.find? x = some (.base b)) : HasType s (.var line x) b
  | num {line n : _} (h : InRange n) : HasType s (.num line n) .int
  | bool {line v : _} : HasType s (.bool line v) .bool
  | unary {line op e b : _} (h : HasType s e b) (hop : op.takes b = true) : HasType s (.unary line op e) op.gives
  | binary {line op l r b : _} (hl : HasType s l b) (hr : HasType s r b) (hop : op.takes b = true) :
      HasType s (.binary line op l r) op.gives
  | print {line e b : _} (h : HasType s e b) (hb : b ≠ .void) : HasType s (.call line "print" [e]) .void
  | call {line f args params ret : _} (hf : f ≠ "print") (h : s.globals.lookup f = some (.proc params ret))
      (hargs : HaveTypes s args params) : HasType s (.call line f args) ret

inductive HaveTypes (s : Scopes) : List Expr → List Base → Prop
  | nil : HaveTypes s [] []
  | cons {e b es bs} (h : HasType s e b) (hs : HaveTypes s es bs) : HaveTypes s (e :: es) (b :: bs)

end

def Expr.type? (s : Scopes) : Expr → Option Ty
  | .var _ x => s.find? x
  | .num _ _ => some (.base .int)
  | .bool _ _ => some (.base .bool)
  | .unary _ op _ | .binary _ op _ _ => some (resultType op)
  | .call _ f _ =>
    if f == "print" then some (.base .void) else match s.globals.lookup f with
      | some (.proc _ ret) => some (.base ret)
      | _ => none

def Ty.fits (op : Op) : Ty → Bool
  | .base b => op.takes b
  | .proc _ _ => false

def Ty.isBase : Ty → Bool
  | .base _ => true
  | .proc _ _ => false

mutual

def Expr.isTight (s : Scopes) : Expr → Bool
  | .var _ x => (s.find? x).any Ty.isBase
  | .num _ _ | .bool _ _ => true
  | .unary _ _ e => e.isTight s
  | .binary _ op l r => l.isTight s && r.isTight s && (l.type? s).any (Ty.fits op)
  | .call _ _ args => allTight s args

def allTight (s : Scopes) : List Expr → Bool
  | [] => true
  | e :: rest => e.isTight s && allTight s rest

end

section Expr

variable {s : Scopes} {e e' : Expr} {t : Ty} {b : Base}

theorem HasType.type?_eq (h : HasType s e b) : e.type? s = some (.base b) := by
  cases h with
  | var h => exact h
  | num | bool | unary | binary | print => rfl
  | call hf h => simp [Expr.type?, hf, h]

theorem any_isBase : (s.find? x).any Ty.isBase ↔ ∃ b, s.find? x = some (.base b) := by
  rw [Option.any_eq_true]
  constructor
  · rintro ⟨t, hx, ht⟩
    cases t with
    | base b => exact ⟨b, hx⟩
    | proc params ret => cases ht
  · rintro ⟨b, hx⟩
    exact ⟨.base b, hx, rfl⟩

theorem Expr.check_type? (h : e.check s = .ok (t, e')) : e.type? s = some t := by
  cases e with
  | var line x =>
    simp only [Expr.check, bind_eq_ok, variableType_eq_ok] at h
    obtain ⟨_, hx, h⟩ := h
    cases h
    exact hx
  | num line n =>
    simp only [Expr.check, bind_eq_ok] at h
    obtain ⟨_, -, h⟩ := h
    cases h
    rfl
  | bool line v =>
    cases h
    rfl
  | unary line op e =>
    obtain ⟨_, -, rfl, -⟩ := Expr.check_unary h
    rfl
  | binary line op l r =>
    obtain ⟨_, _, _, -, -, -, rfl, -⟩ := Expr.check_binary h
    rfl
  | call line f args =>
    obtain ⟨rfl, rfl, -⟩ | ⟨hf, params, ret, _, hlookup, -, -, rfl, -⟩ := Expr.check_call h
    · rfl
    · simp [Expr.type?, hf, hlookup]

theorem HasType.check_eq (h : HasType s e b) (hc : e.check s = .ok (t, e')) : t = .base b :=
  Option.some.inj ((Expr.check_type? hc).symm.trans h.type?_eq)

theorem takes_operand (op : Op) : op.takes (if op.wantsBoolean then .bool else .int) := by
  cases op <;> rfl

theorem printer_eq_ok {g : String} (h : printer (.base b) = .ok g) : b ≠ .void := by
  rintro rfl
  cases h

mutual

theorem Expr.check_hasType_iff {s : Scopes} {e e' : Expr} {t : Ty} (h : e.check s = .ok (t, e')) :
    (∃ b, HasType s e b) ↔ e.isTight s := by
  cases e with
  | var line x =>
    rw [Expr.isTight, any_isBase]
    constructor
    · rintro ⟨b, ⟨hx⟩⟩
      exact ⟨b, hx⟩
    · rintro ⟨b, hx⟩
      exact ⟨b, .var hx⟩
  | num line n =>
    simp only [Expr.check, bind_eq_ok, require_eq_ok, Bool.and_eq_true, decide_eq_true_eq] at h
    obtain ⟨_, hn, -⟩ := h
    exact iff_of_true ⟨.int, .num hn⟩ rfl
  | bool line v => exact iff_of_true ⟨.bool, .bool⟩ rfl
  | unary line op e =>
    obtain ⟨e₁, he, -, -⟩ := Expr.check_unary h
    rw [Expr.isTight, ← Expr.check_hasType_iff he]
    constructor
    · rintro ⟨_, htype⟩
      cases htype with
      | unary htype => exact ⟨_, htype⟩
    · rintro ⟨b, htype⟩
      cases htype.check_eq he
      exact ⟨op.gives, .unary htype (takes_operand op)⟩
  | binary line op l r =>
    obtain ⟨u, l₁, r₁, hl, hr, -, -, -⟩ := Expr.check_binary h
    rw [Expr.isTight, Bool.and_eq_true, Bool.and_eq_true, ← Expr.check_hasType_iff hl, ← Expr.check_hasType_iff hr,
      Expr.check_type? hl, Option.any_some]
    constructor
    · rintro ⟨_, htype⟩
      cases htype with
      | binary htypel htyper hop =>
        cases htypel.check_eq hl
        exact ⟨⟨⟨_, htypel⟩, _, htyper⟩, hop⟩
    · rintro ⟨⟨⟨b, htypel⟩, c, htyper⟩, hop⟩
      -- both operands are checked to be of one type
      cases htypel.check_eq hl
      cases htyper.check_eq hr
      exact ⟨op.gives, .binary htypel htyper hop⟩
  | call line f args =>
    rw [Expr.isTight]
    obtain ⟨rfl, -, e, u, e₁, g, hargs, he, hg, -⟩ | ⟨hf, params, ret, args', hlookup, hlength, hargs, -, -⟩ := Expr.check_call h
    · cases args with
      | nil => cases hargs
      | cons e₀ rest =>
        obtain ⟨rfl, rfl⟩ := List.cons.inj hargs
        rw [allTight, allTight, Bool.and_true, ← Expr.check_hasType_iff he]
        constructor
        · rintro ⟨_, htype⟩
          cases htype with
          | print htype => exact ⟨_, htype⟩
          | call hf => exact absurd rfl hf
        · rintro ⟨b, htype⟩
          cases htype.check_eq he
          exact ⟨.void, .print htype (printer_eq_ok hg)⟩
    · rw [← checkArgs_haveTypes_iff hargs hlength]
      constructor
      · rintro ⟨_, htype⟩
        cases htype with
        | print => exact absurd rfl hf
        | call _ hlookup' htypes =>
          cases hlookup.symm.trans hlookup'
          exact htypes
      · exact fun htypes => ⟨ret, .call hf hlookup htypes⟩

theorem checkArgs_haveTypes_iff {s : Scopes} {line : Int} {k : Nat} {params : List Base} {args args' : List Expr}
    (h : checkArgs s line k params args = .ok args') (hlength : args.length = params.length) :
    HaveTypes s args params ↔ allTight s args := by
  cases args with
  | nil =>
    obtain rfl := eq_nil_of_length_eq_zero hlength.symm
    exact iff_of_true .nil rfl
  | cons e rest =>
    cases params with
    | nil => cases hlength
    | cons b params =>
      simp only [checkArgs, bind_eq_ok, require_eq_ok, beq_iff_eq] at h
      obtain ⟨⟨_, e₁⟩, he, _, rfl, rest', hrest, -⟩ := h
      rw [allTight, Bool.and_eq_true, ← Expr.check_hasType_iff he, ← checkArgs_haveTypes_iff hrest (Nat.succ.inj hlength)]
      constructor
      · intro h
        cases h with
        | cons htype htypes => exact ⟨⟨b, htype⟩, htypes⟩
      · rintro ⟨⟨c, htype⟩, htypes⟩
        cases htype.check_eq he
        exact .cons htype htypes

end

end Expr

/-- How far declarations reach: to the end of their block, or of the program. -/
inductive Reach
  | block | program

def Reach.leave : Reach → Scopes → Scopes → Scopes
  | .block, outside, _ => outside
  | .program, _, inside => inside

def Scopes.add (s : Scopes) (x : String) (b : Base) : Scopes :=
  match s.inner with
  | [] => { s with globals := s.globals ++ [(x, .base b)] }
  | scope :: rest => { s with inner := (scope ++ [(x, .base b)]) :: rest }

mutual

def Stmt.after (r : Reach) (s : Scopes) : Stmt → Scopes
  | .vardecl _ x _ ty => s.add x ty
  | .block _ body | .while _ _ body => r.leave s (afterAll r (s.enter []) body)
  | .ifelse _ _ yes no => no.after r (r.leave s (afterAll r (s.enter []) yes))
  | .assign _ _ _ _ | .eval _ _ | .break _ | .continue _ | .return _ _ => s

def afterAll (r : Reach) (s : Scopes) : List Stmt → Scopes
  | [] => s
  | a :: rest => afterAll r (a.after r s) rest

end

/-- That an expression has a type, a given one or that of a variable, and, of a return without a value, that there is none to
return. -/
inductive Demand
  | value (s : Scopes) (e : Expr)
  | typed (s : Scopes) (e : Expr) (b : Base)
  | assigned (s : Scopes) (x : String) (e : Expr)
  | nothing (ret : Base)

mutual

def Stmt.demands (r : Reach) (ret : Base) (s : Scopes) : Stmt → List Demand
  | .vardecl _ _ e ty => [.typed s e ty]
  | .assign _ _ x e => [.assigned s x e]
  | .eval _ e => [.value s e]
  | .block _ body => demandsOf r ret (s.enter []) body
  | .ifelse _ c yes no =>
    .typed s c .bool :: demandsOf r ret (s.enter []) yes ++ no.demands r ret (r.leave s (afterAll r (s.enter []) yes))
  | .while _ c body => .typed s c .bool :: demandsOf r ret (s.enter []) body
  | .break _ | .continue _ => []
  | .return _ (some e) => [.typed s e ret]
  | .return _ none => [.nothing ret]

def demandsOf (r : Reach) (ret : Base) (s : Scopes) : List Stmt → List Demand
  | [] => []
  | a :: rest => a.demands r ret s ++ demandsOf r ret (a.after r s) rest

end

def Demand.Met : Demand → Prop
  | .value s e => ∃ b, HasType s e b
  | .typed s e b => HasType s e b
  | .assigned s x e => ∃ b, s.find? x = some (.base b) ∧ HasType s e b
  | .nothing ret => ret = .void

def Demand.isTight : Demand → Bool
  | .value s e | .typed s e _ => e.isTight s
  | .assigned s x e => (s.find? x).any Ty.isBase && e.isTight s
  | .nothing _ => true

def Demand.Passed : Demand → Prop
  | .value s e => ∃ t e', e.check s = .ok (t, e')
  | .typed s e b => ∃ e', e.check s = .ok (.base b, e')
  | .assigned s x e => ∃ t e', s.find? x = some t ∧ e.check s = .ok (t, e')
  | .nothing ret => ret = .void

theorem Demand.Passed.met_iff {d : Demand} (h : d.Passed) : d.Met ↔ d.isTight := by
  cases d with
  | value s e =>
    obtain ⟨t, e', he⟩ := h
    exact Expr.check_hasType_iff he
  | typed s e b =>
    obtain ⟨e', he⟩ := h
    rw [Demand.Met, Demand.isTight, ← Expr.check_hasType_iff he]
    constructor
    · exact fun htype => ⟨b, htype⟩
    · rintro ⟨c, htype⟩
      cases htype.check_eq he
      exact htype
  | assigned s x e =>
    obtain ⟨t, e', hx, he⟩ := h
    rw [Demand.Met, Demand.isTight, Bool.and_eq_true, any_isBase, ← Expr.check_hasType_iff he]
    constructor
    · rintro ⟨b, hb, htype⟩
      exact ⟨⟨b, hb⟩, b, htype⟩
    · rintro ⟨⟨b, hb⟩, c, htype⟩
      -- the variable and its new value are checked to be of one type
      cases htype.check_eq he
      exact ⟨c, hx, htype⟩
  | nothing ret => exact iff_of_true h rfl

theorem declare_eq_ok {t : Ty} {ty : Base} (h : declare s line x t ty = .ok s') : t = .base ty ∧ s' = s.add x ty := by
  rw [declare] at h
  rw [Scopes.add]
  cases hinner : s.inner with
  | nil | cons scope rest =>
    rw [hinner] at h
    simp only [bind_eq_ok, require_eq_ok, beq_iff_eq] at h
    obtain ⟨_, -, _, rfl, h⟩ := h
    cases h
    exact ⟨rfl, rfl⟩

mutual

theorem Stmt.Checked.passed {w : Within} {loop : Bool} {s s' : Scopes} {a a' : Stmt} (h : a.Checked w loop s s' a') :
    s' = a.after .program s ∧ ∀ d ∈ a.demands .program w.ret s, d.Passed := by
  cases h with
  | vardecl he hs =>
    obtain ⟨rfl, rfl⟩ := declare_eq_ok hs
    exact ⟨rfl, forall_mem_singleton.2 ⟨_, he⟩⟩
  | assign hx he => exact ⟨rfl, forall_mem_singleton.2 ⟨_, _, hx, he⟩⟩
  | eval he => exact ⟨rfl, forall_mem_singleton.2 ⟨_, _, he⟩⟩
  | block hb => exact hb.passed
  | ifelse hc hy hn =>
    obtain ⟨rfl, hyes⟩ := hy.passed
    obtain ⟨rfl, hno⟩ := hn.passed
    exact ⟨rfl, forall_mem_append.2 ⟨forall_mem_cons.2 ⟨⟨_, hc⟩, hyes⟩, hno⟩⟩
  | «while» hc hb =>
    obtain ⟨rfl, hbody⟩ := hb.passed
    exact ⟨rfl, forall_mem_cons.2 ⟨⟨_, hc⟩, hbody⟩⟩
  | «break» | «continue» => exact ⟨rfl, forall_mem_nil _⟩
  | leave hw => exact ⟨rfl, forall_mem_singleton.2 hw⟩
  | answer he => exact ⟨rfl, forall_mem_singleton.2 ⟨_, he⟩⟩

theorem AllChecked.passed {w : Within} {loop : Bool} {s s' : Scopes} {body body' : List Stmt}
    (h : AllChecked w loop s body s' body') :
    s' = afterAll .program s body ∧ ∀ d ∈ demandsOf .program w.ret s body, d.Passed := by
  cases h with
  | nil => exact ⟨rfl, forall_mem_nil _⟩
  | cons ha hr =>
    obtain ⟨rfl, hfirst⟩ := ha.passed
    obtain ⟨rfl, hrest⟩ := hr.passed
    exact ⟨rfl, forall_mem_append.2 ⟨hfirst, hrest⟩⟩

end

def declDemands (r : Reach) (s : Scopes) : List Decl → List Demand
  | [] => []
  | .var _ _ _ _ :: rest => declDemands r s rest
  | .proc p :: rest =>
    demandsOf r p.ret (p.start s) p.body ++ declDemands r (r.leave s (afterAll r (p.start s) p.body)) rest

def Decl.entry : Decl → String × Ty
  | .var _ x _ ty => (x, .base ty)
  | .proc p => (p.name, .proc (p.params.map (·.2)) p.ret)

def Program.demands (r : Reach) (p : Program) : List Demand := declDemands r ⟨[], p.decls.map Decl.entry⟩ p.decls

def Decl.Initialised : Decl → Prop
  | .var _ _ e ty => HasType ⟨[], []⟩ e ty
  | .proc _ => True

def Decl.isInitialised : Decl → Bool
  | .var _ _ (.num _ n) ty => ty == .int && -Word.half ≤ n && n < Word.half
  | .var _ _ (.bool _ _) ty => ty == .bool
  | _ => true

structure Program.WellTyped (r : Reach) (p : Program) : Prop where
  globals : ∀ d ∈ p.decls, d.Initialised
  demands : ∀ d ∈ p.demands r, d.Met

def Program.isTight (p : Program) : Bool := p.decls.all Decl.isInitialised && (p.demands .program).all Demand.isTight

theorem checkDecls_passed {ds ds' : List Decl} (h : checkDecls s ds = .ok ds') : ∀ d ∈ declDemands .program s ds, d.Passed := by
  induction ds generalizing s ds' with
  | nil => exact forall_mem_nil _
  | cons d ds ih =>
    cases d with
    | var line x e ty =>
      simp only [checkDecls, bind_eq_ok] at h
      obtain ⟨rest, hrest, -⟩ := h
      exact ih hrest
    | proc p =>
      simp only [checkDecls, bind_eq_ok] at h
      obtain ⟨⟨_, q⟩, hp, rest, hrest, -⟩ := h
      obtain ⟨body, hbody, -, -⟩ := Procedure.check_eq_ok hp
      obtain ⟨rfl, hpassed⟩ := (checkAll_checked hbody).passed
      exact forall_mem_append.2 ⟨hpassed, ih hrest⟩

theorem declareGlobal_entry {globals globals' : Scope} {d : Decl} (h : declareGlobal line globals d = .ok globals') :
    globals' = globals ++ [d.entry] ∧ (d.Initialised ↔ d.isInitialised) := by
  cases d with
  | var l x e ty =>
    simp only [declareGlobal, bind_eq_ok, require_eq_ok] at h
    obtain ⟨_, -, _, he, h⟩ := h
    cases h
    refine ⟨rfl, ?_⟩
    cases e with
    | num l n =>
      simp only [Decl.isInitialised, Bool.and_eq_true, beq_iff_eq, decide_eq_true_eq]
      constructor
      · intro h
        cases h with
        | num h => exact ⟨⟨rfl, h.1⟩, h.2⟩
      · rintro ⟨⟨rfl, hl⟩, hu⟩
        exact .num ⟨hl, hu⟩
    | bool l b =>
      simp only [Decl.isInitialised, beq_iff_eq]
      constructor
      · intro h
        cases h
        rfl
      · rintro rfl
        exact .bool
    | _ => cases he
  | proc p =>
    refine ⟨?_, iff_of_true trivial rfl⟩
    simp only [declareGlobal, bind_eq_ok] at h
    obtain ⟨_, -, _, -, h⟩ := h
    split at h
    · simp only [bind_eq_ok] at h
      obtain ⟨_, -, _, -, h⟩ := h
      cases h
      rfl
    · cases h
      rfl

theorem declared_entries {globals globals' : Scope} {ds : List Decl} (h : ds.foldlM (declareGlobal line) globals = .ok globals') :
    globals' = globals ++ ds.map Decl.entry ∧ ∀ d ∈ ds, d.Initialised ↔ d.isInitialised := by
  induction ds generalizing globals with
  | nil =>
    cases h
    exact ⟨by simp, forall_mem_nil _⟩
  | cons d ds ih =>
    rw [foldlM_cons, bind_eq_ok] at h
    obtain ⟨globals₁, hd, h⟩ := h
    obtain ⟨rfl, hinit⟩ := declareGlobal_entry hd
    obtain ⟨rfl, hds⟩ := ih h
    exact ⟨by simp, forall_mem_cons.2 ⟨hinit, hds⟩⟩

theorem wellTyped_program_iff {p p' : Program} (h : check p = .ok p') : p.WellTyped .program ↔ p.isTight := by
  simp only [check, bind_eq_ok] at h
  obtain ⟨globals, hglobals, _, -, ds, hds, -⟩ := h
  obtain ⟨rfl, hinit⟩ := declared_entries hglobals
  have hpassed : ∀ d ∈ p.demands .program, d.Passed := checkDecls_passed hds
  rw [Program.isTight, Bool.and_eq_true, all_eq_true, all_eq_true]
  constructor
  · rintro ⟨hdecls, hdemands⟩
    exact ⟨fun d hd => (hinit d hd).1 (hdecls d hd), fun d hd => (hpassed d hd).met_iff.1 (hdemands d hd)⟩
  · rintro ⟨hdecls, hdemands⟩
    exact ⟨fun d hd => (hinit d hd).2 (hdecls d hd), fun d hd => (hpassed d hd).met_iff.2 (hdemands d hd)⟩

mutual

def Expr.names : Expr → List String
  | .var _ x => [x]
  | .num _ _ | .bool _ _ => []
  | .unary _ _ e => e.names
  | .binary _ _ l r => l.names ++ r.names
  | .call _ _ args => namesOf args

def namesOf : List Expr → List String
  | [] => []
  | e :: rest => e.names ++ namesOf rest

end

def Demand.found : Demand → List (Option Ty)
  | .value s e | .typed s e _ => e.names.map s.find?
  | .assigned s x e => s.find? x :: e.names.map s.find?
  | .nothing _ => []

/-- The same is asked for in other scopes with the same globals. -/
inductive Demand.Alike : Demand → Demand → Prop
  | value {s s' e : _} (h : s.globals = s'.globals) : Alike (.value s e) (.value s' e)
  | typed {s s' e b : _} (h : s.globals = s'.globals) : Alike (.typed s e b) (.typed s' e b)
  | assigned {s s' x e : _} (h : s.globals = s'.globals) : Alike (.assigned s x e) (.assigned s' x e)
  | nothing {ret} : Alike (.nothing ret) (.nothing ret)

mutual

theorem HasType.mono {s s' : Scopes} {e : Expr} {b : Base} (h : HasType s e b) (hg : s.globals = s'.globals)
    (hx : ∀ x ∈ e.names, s.find? x = s'.find? x) : HasType s' e b := by
  cases h with
  | var h => exact .var ((hx _ (.head _)).symm.trans h)
  | num h => exact .num h
  | bool => exact .bool
  | unary h hop => exact .unary (h.mono hg hx) hop
  | binary hl hr hop =>
    obtain ⟨hxl, hxr⟩ := forall_mem_append.1 hx
    exact .binary (hl.mono hg hxl) (hr.mono hg hxr) hop
  | print h hb => exact .print (h.mono hg (forall_mem_append.1 hx).1) hb
  | call hf h hargs => exact .call hf (hg ▸ h) (hargs.mono hg hx)

theorem HaveTypes.mono {s s' : Scopes} {es : List Expr} {bs : List Base} (h : HaveTypes s es bs) (hg : s.globals = s'.globals)
    (hx : ∀ x ∈ namesOf es, s.find? x = s'.find? x) : HaveTypes s' es bs := by
  cases h with
  | nil => exact .nil
  | cons h hs =>
    obtain ⟨hxe, hxs⟩ := forall_mem_append.1 hx
    exact .cons (h.mono hg hxe) (hs.mono hg hxs)

end

theorem Demand.Alike.met {d d' : Demand} (h : d.Alike d') (hfound : d.found = d'.found) (hd : d.Met) : d'.Met := by
  cases h with
  | value hg =>
    obtain ⟨b, hb⟩ := hd
    exact ⟨b, hb.mono hg (map_inj_left.1 hfound)⟩
  | typed hg => exact HasType.mono hd hg (map_inj_left.1 hfound)
  | assigned hg =>
    obtain ⟨b, hx, hb⟩ := hd
    obtain ⟨hfx, hfound⟩ := List.cons.inj hfound
    exact ⟨b, hfx.symm.trans hx, hb.mono hg (map_inj_left.1 hfound)⟩
  | nothing => exact hd

theorem met_of_found {ds ds' : List Demand} (h : List.Forall₂ Demand.Alike ds ds') (hfound : ds.map Demand.found = ds'.map Demand.found)
    (hds : ∀ d ∈ ds, d.Met) : ∀ d ∈ ds', d.Met := by
  induction h with
  | nil => exact hds
  | cons halike _ ih =>
    obtain ⟨hd, hds⟩ := forall_mem_cons.1 hds
    obtain ⟨hfound, hfounds⟩ := List.cons.inj hfound
    exact forall_mem_cons.2 ⟨halike.met hfound hd, ih hfounds hds⟩

/-- Inside a procedure there is a scope for declarations that is not the global one. -/
structure Scopes.Inside (globals : Scope) (s : Scopes) : Prop where
  globals : s.globals = globals
  inner : s.inner ≠ []

section Inside

variable {globals : Scope} {r r' : Reach} {ret : Base}

theorem Scopes.Inside.add (h : s.Inside globals) (x : String) (b : Base) : (s.add x b).Inside globals := by
  rw [Scopes.add]
  cases hinner : s.inner with
  | nil => exact absurd hinner h.inner
  | cons scope rest => exact ⟨h.globals, cons_ne_nil _ _⟩

theorem Scopes.Inside.leave (h : s.Inside globals) (h' : s'.Inside globals) : (r.leave s s').Inside globals := by
  cases r with
  | block => exact h
  | program => exact h'

theorem Scopes.Inside.enter (h : s.Inside globals) (scope : Scope) : (s.enter scope).Inside globals :=
  ⟨h.globals, cons_ne_nil _ _⟩

mutual

theorem Stmt.inside_after {s : Scopes} (h : s.Inside globals) (a : Stmt) : (a.after r s).Inside globals := by
  cases a with
  | vardecl line x e ty => exact h.add x ty
  | block line body | «while» line c body => exact h.leave (inside_afterAll (h.enter []) body)
  | ifelse line c yes no => exact Stmt.inside_after (h.leave (inside_afterAll (h.enter []) yes)) no
  | assign | eval | «break» | «continue» | «return» => exact h

theorem inside_afterAll {s : Scopes} (h : s.Inside globals) (body : List Stmt) : (afterAll r s body).Inside globals := by
  cases body with
  | nil => exact h
  | cons a rest => exact inside_afterAll (Stmt.inside_after h a) rest

end

mutual

theorem Stmt.demands_alike {s s' : Scopes} (h : s.Inside globals) (h' : s'.Inside globals) (a : Stmt) :
    List.Forall₂ Demand.Alike (a.demands r ret s) (a.demands r' ret s') := by
  have hg : s.globals = s'.globals := h.globals.trans h'.globals.symm
  cases a with
  | vardecl line x e ty => exact .cons (.typed hg) .nil
  | assign line varLine x e => exact .cons (.assigned hg) .nil
  | eval line e => exact .cons (.value hg) .nil
  | block line body => exact demandsOf_alike (h.enter []) (h'.enter []) body
  | ifelse line c yes no =>
    have hyes := h.leave (r := r) (inside_afterAll (r := r) (h.enter []) yes)
    have hyes' := h'.leave (r := r') (inside_afterAll (r := r') (h'.enter []) yes)
    exact rel_append (.cons (.typed hg) (demandsOf_alike (h.enter []) (h'.enter []) yes)) (Stmt.demands_alike hyes hyes' no)
  | «while» line c body => exact .cons (.typed hg) (demandsOf_alike (h.enter []) (h'.enter []) body)
  | «break» | «continue» => exact .nil
  | «return» line e =>
    cases e with
    | none => exact .cons .nothing .nil
    | some e => exact .cons (.typed hg) .nil

theorem demandsOf_alike {s s' : Scopes} (h : s.Inside globals) (h' : s'.Inside globals) (body : List Stmt) :
    List.Forall₂ Demand.Alike (demandsOf r ret s body) (demandsOf r' ret s' body) := by
  cases body with
  | nil => exact .nil
  | cons a rest =>
    exact rel_append (Stmt.demands_alike h h' a) (demandsOf_alike (Stmt.inside_after h a) (Stmt.inside_after h' a) rest)

end

theorem Procedure.inside_start (s : Scopes) (p : Procedure) : (p.start s).Inside s.globals := ⟨rfl, cons_ne_nil _ _⟩

theorem Reach.globals_leave (h : s'.globals = s.globals) : (r.leave s s').globals = s.globals := by
  cases r with
  | block => rfl
  | program => exact h

theorem declDemands_alike (h : s.globals = s'.globals) (ds : List Decl) :
    List.Forall₂ Demand.Alike (declDemands r s ds) (declDemands r' s' ds) := by
  induction ds generalizing s s' with
  | nil => exact .nil
  | cons d ds ih =>
    cases d with
    | var line x e ty => exact ih h
    | proc p =>
      have hstart' : (p.start s').Inside s.globals := h ▸ p.inside_start s'
      refine rel_append (demandsOf_alike (p.inside_start s) hstart' p.body) (ih ?_)
      rw [Reach.globals_leave (inside_afterAll (p.inside_start s) p.body).globals,
        Reach.globals_leave (inside_afterAll (p.inside_start s') p.body).globals, h]

end Inside

theorem Program.WellTyped.of_found {r r' : Reach} {p : Program} (h : (p.demands r).map Demand.found = (p.demands r').map Demand.found)
    (hp : p.WellTyped r) : p.WellTyped r' :=
  ⟨hp.globals, met_of_found (declDemands_alike rfl p.decls) h hp.demands⟩

section Programs

def scaling : Program := ⟨12, [
  .var 1 "n" (.num 1 5) .int, .var 2 "on" (.bool 2 true) .bool,
  .proc ⟨6, "f", [("x", .int), ("b", .bool)], .int, [
    .ifelse 5 (.binary 4 .booland (.var 4 "b") (.binary 4 .less (.var 4 "x") (.var 4 "n"))) [.return 4 (some (.var 4 "x"))]
      (.block 5 [.return 5 (some (.unary 5 .uminus (.var 5 "x")))])]⟩,
  .proc ⟨11, "main", [], .void, [
    .vardecl 8 "y" (.call 8 "f" [.num 8 1, .binary 8 .booleq (.var 8 "on") (.bool 8 false)]) .int,
    .block 9 [.vardecl 9 "y" (.num 9 2) .int],
    .assign 10 10 "y" (.binary 10 .times (.var 10 "y") (.num 10 3))]⟩]⟩

def withMain (body : List Stmt) : Program := ⟨9, [.proc ⟨2, "f", [], .void, []⟩, .proc ⟨9, "main", [], .void, body⟩]⟩

def withGlobal (e : Expr) (ty : Base) : Program := ⟨9, [.var 1 "n" e ty, .proc ⟨9, "main", [], .void, []⟩]⟩

def loose : List Program := [
  withMain [.eval 1 (.binary 1 .plus (.bool 1 true) (.bool 1 false))],
  withMain [.eval 1 (.binary 1 .less (.bool 1 true) (.bool 1 false))],
  withMain [.eval 1 (.binary 1 .booleq (.var 1 "f") (.var 1 "f"))],
  withMain [.assign 1 1 "f" (.var 1 "f")],
  withMain [.eval 1 (.binary 1 .booleq (.call 1 "f" []) (.call 1 "f" []))],
  withGlobal (.bool 1 true) .int,
  withGlobal (.num 1 9223372036854775808) .int]

def leaking : Program := withMain [.vardecl 1 "x" (.num 1 1) .int, .block 2 [.vardecl 2 "x" (.bool 2 true) .bool],
  .assign 3 3 "x" (.bool 3 false)]

end Programs

/-- A checked program is well typed, as declarations reach for the checks, just if it is tight; and also as they reach in
blocks, if all variables are found to be of the same types then. -/
theorem check_wellTyped_iff {p p' : Program} (h : check p = .ok p') :
    (p.WellTyped .program ↔ p.isTight = true) ∧
    ((p.demands .block).map Demand.found = (p.demands .program).map Demand.found → (p.WellTyped .block ↔ p.isTight = true)) := by
  have hprogram := wellTyped_program_iff h
  refine ⟨hprogram, fun hfound => ?_⟩
  rw [← hprogram]
  exact ⟨Program.WellTyped.of_found hfound, Program.WellTyped.of_found hfound.symm⟩

theorem check_wellTyped_iff_scaling : check scaling = .ok scaling ∧ scaling.WellTyped .program ∧ scaling.WellTyped .block := by
  have hcheck : check scaling = .ok scaling := rfl
  obtain ⟨hprogram, hblock⟩ := check_wellTyped_iff hcheck
  exact ⟨hcheck, hprogram.2 (by decide), (hblock (by decide)).2 (by decide)⟩

/-- Programs may be checked and not well typed, for both reaches of declarations or for one. -/
theorem not_wellTyped_loose : (∀ p ∈ loose, (∃ p', check p = .ok p') ∧ ¬ p.WellTyped .program ∧ ¬ p.WellTyped .block) ∧
    (∃ p', check leaking = .ok p') ∧ leaking.WellTyped .program ∧ ¬ leaking.WellTyped .block := by
  constructor
  · intro p hp
    have hloose : ∀ p ∈ loose, (check p).isOk = true ∧ p.isTight = false ∧
        (p.demands .block).map Demand.found = (p.demands .program).map Demand.found := by decide
    obtain ⟨hcheck, htight, hfound⟩ := hloose p hp
    obtain ⟨p', hcheck⟩ := exists_of_isOk hcheck
    have hnot : ¬ p.WellTyped .program := fun h => Bool.eq_false_iff.1 htight ((wellTyped_program_iff hcheck).1 h)
    exact ⟨⟨p', hcheck⟩, hnot, fun h => hnot (h.of_found hfound)⟩
  · obtain ⟨p', hcheck⟩ : ∃ p', check leaking = .ok p' := ⟨_, rfl⟩
    refine ⟨⟨p', hcheck⟩, (wellTyped_program_iff hcheck).2 (by decide), fun h => ?_⟩
    obtain ⟨b, hx, hb⟩ := h.demands _ (.tail _ (.tail _ (.head _)))
    cases hb
    cases hx

end Procedural

end Bx
