import Bx.Proofs.Procedural.Conditions
import Bx.Proofs.Procedural.Lowering
import Bx.Proofs.Procedural.Scoping
import Bx.Proofs.Scoping.Operands
import Mathlib

namespace Bx.Procedural

open List Source Scoping Tac

variable {g g' : Stage} {os : List String} {c : List Record} {e : Expr} {x yes no t : String} {line : Int}

section Operands

mutual

theorem Expr.events_use (e : Expr) : ∀ a ∈ e.events, ∃ line x, a = .use line x := by
  intro a ha
  cases e with
  | var line x => exact ⟨line, x, mem_singleton.1 ha⟩
  | num line n | bool line b => cases ha
  | unary line op e => exact e.events_use a ha
  | binary line op l r =>
    rw [Expr.events, mem_append] at ha
    obtain ha | ha := ha
    · exact l.events_use a ha
    · exact r.events_use a ha
  | call line f args => exact argEvents_use args a ha

theorem argEvents_use (es : List Expr) : ∀ a ∈ argEvents es, ∃ line x, a = .use line x := by
  intro a ha
  cases es with
  | nil => cases ha
  | cons e rest =>
    rw [argEvents, mem_append] at ha
    obtain ha | ha := ha
    · exact e.events_use a ha
    · exact argEvents_use rest a ha

end

def Work.events : Work → List Event
  | .value _ e => e.events
  | .args _ es => argEvents es

namespace Stage

def Past (g g' : Stage) : Prop := g'.scopes = g.scopes ∧ g.next ≤ g'.next

variable {g g₁ g₂ : Stage}

theorem Past.trans (h : g.Past g₁) (h' : g₁.Past g₂) : g.Past g₂ := ⟨h'.1.trans h.1, Nat.le_trans h.2 h'.2⟩

theorem Past.refl (g : Stage) : g.Past g := ⟨rfl, Nat.le_refl _⟩

theorem Past.find (h : g.Past g₁) : g₁.find? = g.find? := by
  funext x
  rw [find?, find?, h.1]

theorem past_taken (g : Stage) : g.Past g.taken := ⟨rfl, Nat.le_succ _⟩

theorem find?_bound (g : Stage) (x t : String) : (g.bound x t).find? = Function.update g.find? x (some t) := by
  obtain ⟨m, l, scopes⟩ := g
  funext y
  by_cases h : y = x
  · subst h
    cases scopes <;> simp [find?, bound, bindName, lookup_put_self]
  · rw [Function.update_of_ne h]
    cases scopes with
    | nil => simp [find?, bound, bindName, List.lookup, beq_eq_false_iff_ne.2 h]
    | cons scope rest => simp only [find?, bound, bindName, List.findSome?_cons, lookup_put_ne h]

end Stage

def AllFound (g : Stage) (es : List Event) : Prop := ∀ line x, .use line x ∈ es → (g.find? x).isSome = true

theorem AllFound.past {es : List Event} (h : AllFound g es) (hg : g.Past g') : AllFound g' es := by
  intro line x hx
  rw [hg.find]
  exact h line x hx

theorem allFound_append {es es' : List Event} : AllFound g (es ++ es') ↔ AllFound g es ∧ AllFound g es' := by
  simp only [AllFound, mem_append]
  constructor
  · intro h
    exact ⟨fun line x hx => h line x (.inl hx), fun line x hx => h line x (.inr hx)⟩
  · rintro ⟨h, h'⟩ line x (hx | hx)
    · exact h line x hx
    · exact h' line x hx

theorem ExprCode.reads {w : Work} (h : ExprCode g w os c g') (hf : AllFound g w.events) :
    g.Past g' ∧ Reads g.find? w.events os := by
  induction h with
  | @var g g' t line x s h =>
    cases h with
    | found h => exact ⟨.refl g, .cons ⟨line, x, rfl, h⟩ .nil⟩
    | new h =>
      have hx := hf line x (.head _)
      rw [h] at hx
      cases hx
  | num | bool | nil => exact ⟨.refl _, .nil⟩
  | unary _ _ ih =>
    obtain ⟨hg, hr⟩ := ih hf
    exact ⟨(Stage.past_taken _).trans hg, hr⟩
  | call _ ih => exact ih hf
  | binary _ _ _ ihl ihr =>
    obtain ⟨hl, hr⟩ := allFound_append.1 hf
    obtain ⟨hg, hreads⟩ := ihl hl
    have hg := (Stage.past_taken _).trans (hg.trans (Stage.past_taken _))
    obtain ⟨hg', hreads'⟩ := ihr (hr.past hg)
    rw [hg.find] at hreads'
    exact ⟨hg.trans hg', hreads.append hreads'⟩
  | early _ _ _ ihe ihr =>
    obtain ⟨he, hr⟩ := allFound_append.1 hf
    obtain ⟨hg, hreads⟩ := ihe he
    have hg := (Stage.past_taken _).trans hg
    obtain ⟨hg', hreads'⟩ := ihr (hr.past hg)
    rw [hg.find] at hreads'
    exact ⟨hg.trans hg', hreads.append hreads'⟩
  | late _ _ _ ihr ihe =>
    obtain ⟨he, hr⟩ := allFound_append.1 hf
    obtain ⟨hg, hreads'⟩ := ihr hr
    have hg := hg.trans (Stage.past_taken _)
    obtain ⟨hg', hreads⟩ := ihe (he.past hg)
    rw [hg.find] at hreads
    exact ⟨hg.trans hg', hreads.append hreads'⟩

theorem CondCode.reads (h : CondCode g yes no e os c g') (ht : e.Tests) (hf : AllFound g e.events) :
    g.Past g' ∧ Reads g.find? e.events os := by
  induction h with
  | not _ ih => exact ih ht.2 hf
  | and _ _ ihl ihr | or _ _ ihl ihr =>
    obtain hop | ⟨-, htl, htr⟩ := ht
    · cases hop
    · obtain ⟨hl, hr⟩ := allFound_append.1 hf
      obtain ⟨hg, hreads⟩ := ihl htl hl
      obtain ⟨hg', hreads'⟩ := ihr htr (hr.past hg)
      rw [hg.find] at hreads'
      exact ⟨hg.trans hg', hreads.append hreads'⟩
  | compare _ hl hr =>
    obtain ⟨hfl, hfr⟩ := allFound_append.1 hf
    obtain ⟨hg, hreads⟩ := hl.reads hfl
    have hg := (Stage.past_taken _).trans ((Stage.past_taken _).trans hg)
    obtain ⟨hg', hreads'⟩ := hr.reads (hfr.past hg)
    rw [hg.find] at hreads'
    exact ⟨hg.trans hg', hreads.append hreads'⟩
  | @idle g yes no e h =>
    cases e with
    | unary line op e => simp [Expr.isIdle, ht.1] at h
    | binary line op l r =>
      obtain hop | ⟨rfl | rfl, -⟩ := ht
      · simp [Expr.isIdle, Option.isSome_iff_ne_none.1 hop] at h
      · cases h
      · cases h
    | _ => cases h

def Visible (g : Stage) (s : State) : Prop := ∀ x, (g.find? x).isSome = (s.find? x).isSome

def Translates (g : Stage) (es : List Event) (os : List String) (g' : Stage) : Prop :=
  ∀ s s', run s es = .ok s' → Visible g s → Visible g' s' ∧ g'.scopes.tail = g.scopes.tail ∧ s'.scopes.tail = s.scopes.tail ∧
    ∀ vs, Operands tempName g.next (g.find? :: vs) es os g'.next (g'.find? :: vs)

namespace Translates

variable {g g₁ g₂ : Stage} {es es' : List Event} {os os' : List String}

theorem nil (g : Stage) : Translates g [] [] g := by
  rintro s _ ⟨⟩ hv
  exact ⟨hv, rfl, rfl, fun vs => .nil (Nat.le_refl _)⟩

theorem append (h : Translates g es os g₁) (h' : Translates g₁ es' os' g₂) : Translates g (es ++ es') (os ++ os') g₂ := by
  intro s s' hs hv
  rw [run_append, bind_eq_ok] at hs
  obtain ⟨s₁, hs, hs'⟩ := hs
  obtain ⟨hv, hg, hs, ho⟩ := h s s₁ hs hv
  obtain ⟨hv, hg', hs', ho'⟩ := h' s₁ s' hs' hv
  exact ⟨hv, hg'.trans hg, hs'.trans hs, fun vs => (ho vs).append (ho' vs)⟩

theorem block (h : Translates g.enter es os g₁) : Translates g (.enter [] :: es ++ [.leave]) os g₁.leave := by
  intro s s' hs hv
  rw [cons_append, run_cons, step_enter, ok_bind, run_append, bind_eq_ok] at hs
  obtain ⟨s₁, hs, hs'⟩ := hs
  cases hs'
  obtain ⟨-, hg, hs, ho⟩ := h _ s₁ hs hv
  have hscopes : g₁.leave.scopes = g.scopes := by
    rw [Stage.leave, drop_one]
    exact hg
  have hfind : g₁.leave.find? = g.find? := by
    funext x
    rw [Stage.find?, Stage.find?, hscopes]
  refine ⟨fun x => ?_, by rw [hscopes], congrArg List.tail hs, fun vs => .enter ?_⟩
  · rw [hfind, State.find?]
    simp only [hs]
    exact hv x
  · rw [hfind]
    have hleave : Operands tempName g₁.next (g₁.find? :: g.find? :: vs) [.leave] [] g₁.next (g.find? :: vs) :=
      .leave (.nil (Nat.le_refl _))
    have happend := (ho (g.find? :: vs)).append hleave
    rw [append_nil] at happend
    exact happend

theorem of_reads (he : ∀ e ∈ es, ∃ line x, e = .use line x)
    (h : AllFound g es → g.Past g₁ ∧ Reads g.find? es os) : Translates g es os g₁ := by
  intro s s' hs hv
  obtain ⟨rfl, hfound⟩ := run_uses he hs
  obtain ⟨hg, hreads⟩ := h fun line x hx => (hv x).trans (hfound line x hx)
  refine ⟨fun x => ?_, by rw [hg.1], rfl, fun vs => ?_⟩
  · rw [hg.find]
    exact hv x
  · rw [hg.find]
    exact hreads.operands hg.2

theorem value {target : Datum} (h : ExprCode g (.value target e) os c g₁) :
    Translates g e.events os g₁ := of_reads e.events_use h.reads

theorem cond (h : CondCode g yes no e os c g₁) (ht : e.Tests) : Translates g e.events os g₁ := of_reads e.events_use (h.reads ht)

theorem vardecl (hx : g.Look x t g₁) (he : ExprCode g₁ (.value (.str t) e) os c g₂) :
    Translates g (e.events ++ [.declare line x]) (os ++ [t]) g₂ := by
  intro s s' hs hv
  rw [run_append, bind_eq_ok] at hs
  obtain ⟨s₁, hs, hs'⟩ := hs
  obtain ⟨rfl, hfound⟩ := run_uses e.events_use hs
  obtain ⟨-, hs'⟩ := run_declare hs'
  cases hs'
  have hall : AllFound g e.events := fun line y hy => (hv y).trans (hfound line y hy)
  cases hx with
  | found hx =>
    obtain ⟨hg, hreads⟩ := he.reads hall
    refine ⟨fun y => ?_, by rw [hg.1], rfl, fun vs => ?_⟩
    · rw [hg.find, find?_add]
      by_cases hy : y = x
      · simp [hy, hx]
      · rw [if_neg hy]
        exact hv y
    · rw [hg.find]
      exact (hreads.operands hg.2).append (.known hx (.nil (Nat.le_refl _)))
  | new hx =>
    -- the new name is in scope in its own initial value, where it cannot occur
    have hfind : (g.taken.bound x (tempName g.next)).find? = Function.update g.find? x (some (tempName g.next)) :=
      g.taken.find?_bound x (tempName g.next)
    have hne : ∀ line y, .use line y ∈ e.events → y ≠ x := by
      rintro line y hy rfl
      have hsome := hall line y hy
      rw [hx] at hsome
      cases hsome
    obtain ⟨hg, hreads⟩ := he.reads fun line y hy => by
      rw [hfind, Function.update_of_ne (hne line y hy)]
      exact hall line y hy
    rw [hfind] at hreads
    have hreads : Reads g.find? e.events os := by
      refine forall₂_imp_of_mem hreads fun a ha o _ h => ?_
      obtain ⟨line, y, rfl, hy⟩ := h
      rw [Function.update_of_ne (hne line y ha)] at hy
      exact ⟨line, y, rfl, hy⟩
    refine ⟨fun y => ?_, ?_, rfl, fun vs => ?_⟩
    · rw [hg.find, hfind, find?_add]
      by_cases hy : y = x
      · simp [hy]
      · rw [Function.update_of_ne hy, if_neg hy]
        exact hv y
    · rw [hg.1, Stage.bound, Stage.taken]
      cases g.scopes <;> rfl
    · rw [hg.find, hfind]
      exact (hreads.operands (Nat.le_refl _)).append (.new hx (Nat.le_refl _) (.nil hg.2))

theorem assign (hx : g.Look x t g₁) (he : ExprCode g₁ (.value (.str t) e) os c g₂) :
    Translates g (.use line x :: e.events) (t :: os) g₂ := by
  refine of_reads (forall_mem_cons.2 ⟨⟨line, x, rfl⟩, e.events_use⟩) fun hf => ?_
  cases hx with
  | found hx =>
    obtain ⟨hg, hreads⟩ := he.reads fun line y hy => hf line y (.tail _ hy)
    exact ⟨hg, .cons ⟨line, x, rfl, hx⟩ hreads⟩
  | new hx =>
    have hsome := hf line x (.head _)
    rw [hx] at hsome
    cases hsome

end Translates

theorem eventsOf_singleton (a : Stmt) : eventsOf [a] = a.events := by rw [eventsOf, eventsOf, append_nil]

theorem StmtCode.translates {loop : Option Loop} {body : List Stmt} (h : StmtCode g loop body os c g')
    (hc : AllConds Expr.Tests body) : Translates g (eventsOf body) os g' := by
  induction h with
  | nil => exact .nil _
  | cons _ _ ihs ihr =>
    have hs := ihs ⟨hc.1, trivial⟩
    rw [eventsOf_singleton] at hs
    exact hs.append (ihr hc.2)
  | vardecl hx he =>
    rw [eventsOf_singleton]
    exact .vardecl hx he
  | assign hx he =>
    rw [eventsOf_singleton]
    exact .assign hx he
  | eval he =>
    rw [eventsOf_singleton]
    exact .value he
  | block _ ih =>
    rw [eventsOf_singleton]
    exact (ih hc.1).block
  | @ifelse g g₁ g₂ g₃ loop line cond yes no oc oy on c cy cn hcond _ _ ihy ihn =>
    obtain ⟨ht, hy, hn⟩ := hc.1
    have hno := ihn ⟨hn, trivial⟩
    rw [eventsOf_singleton] at hno ⊢
    have hall : Translates g _ _ g₃ := (Translates.cond hcond ht).append ((ihy hy).block.append hno)
    simpa [Stmt.events] using hall
  | «while» hcond _ ih =>
    obtain ⟨ht, hb⟩ := hc.1
    rw [eventsOf_singleton, Stmt.events, append_assoc]
    exact (Translates.cond hcond ht).append (ih hb).block
  | «break» | «continue» | leave => exact .nil _
  | @«return» g g' loop line e os c he =>
    rw [eventsOf_singleton]
    refine .of_reads e.events_use fun hf => ?_
    obtain ⟨hg, hreads⟩ := he.reads hf
    exact ⟨g.past_taken.trans hg, hreads⟩

end Operands

section Procedures

def Decl.variable? : Decl → Option String
  | .var _ x _ _ => some x
  | .proc _ => none

def opening (p : Program) (q : Procedure) : State :=
  ⟨[[], q.params.map fun x => (x.1, .param x.1), (p.decls.filterMap Decl.variable?).map fun x => (x, .global x)], 0⟩

def Procedure.occurrences (q : Procedure) (p : Program) : List Occurrence := Scoping.occurrences (opening p q) (eventsOf q.body)

def entries (p : Program) (q : Procedure) : List (String × Declaration) :=
  (p.decls.filterMap Decl.variable?).map (fun x => ("@" ++ x, .global x)) ++ q.params.map fun x => ("%" ++ x.1, .param x.1)

theorem declareGlobal_constant {l : Int} {ty : Base} {ds : List Decl} {globals globals' : Scope}
    (h : ds.foldlM (declareGlobal line) globals = .ok globals') (hd : .var l x e ty ∈ ds) : isConstant e := by
  induction ds generalizing globals with
  | nil => cases hd
  | cons d ds ih =>
    rw [foldlM_cons, bind_eq_ok] at h
    obtain ⟨_, hdecl, h⟩ := h
    obtain _ | ⟨_, hd⟩ := hd
    · simp only [declareGlobal, bind_eq_ok] at hdecl
      obtain ⟨_, -, _, he, -⟩ := hdecl
      exact require_eq_ok.1 he
    · exact ih h hd

theorem check_constant {p p' : Program} (h : check p = .ok p') {ty : Base} (hd : .var line x e ty ∈ p'.decls) :
    isConstant e := by
  obtain ⟨d, hd, hdx⟩ := forall₂_exists_left (check_checked h) hd
  cases hdx with
  | var =>
    simp only [check, bind_eq_ok] at h
    obtain ⟨_, hg, -⟩ := h
    exact declareGlobal_constant hg hd

theorem names_lowerGlobal {ds : List Decl} (h : ∀ line x e ty, .var line x e ty ∈ ds → isConstant e) :
    (ds.filterMap lowerGlobal).map Gvar.name = (ds.filterMap Decl.variable?).map ("@" ++ ·) := by
  induction ds with
  | nil => rfl
  | cons d ds ih =>
    have ih := ih fun line x e ty hd => h line x e ty (.tail _ hd)
    cases d with
    | proc p => exact ih
    | var line x e ty =>
      have he := h line x e ty (.head _)
      cases e with
      | num l n => exact congrArg _ ih
      | bool l b => exact congrArg _ ih
      | _ => cases he

theorem find?_startStage {globals : List Gvar} {xs : List String} (h : globals.map Gvar.name = xs.map ("@" ++ ·)) (q : Procedure)
    (x : String) : (startStage globals q).find? x =
      if x ∈ q.params.map Prod.fst then some ("%" ++ x) else if x ∈ xs then some ("@" ++ x) else none := by
  let bind := fun (acc : Names) (s : String) => Datum.put (String.ofList (s.toList.drop 1)) s acc
  have hglobals : globals.foldl (fun acc g => bind acc g.name) [] = xs.foldl (fun acc y => Datum.put y ("@" ++ y) acc) [] := by
    rw [← foldl_map (f := Gvar.name) (g := bind), h, foldl_map]
    simp [bind]
  have hparams : (q.params.foldl (fun (acc : Names) y => Datum.put y.1 ("%" ++ y.1) acc) []).lookup x = _ :=
    lookup_foldl_put_key (f := Prod.fst) ("%" ++ ·) x
  have hvars : (xs.foldl (fun (acc : Names) y => Datum.put y ("@" ++ y) acc) []).lookup x = _ :=
    lookup_foldl_put_key (f := id) ("@" ++ ·) x
  rw [map_id] at hvars
  change [q.params.foldl (fun (acc : Names) y => Datum.put y.1 ("%" ++ y.1) acc) [],
    globals.foldl (fun acc g => bind acc g.name) []].findSome? (fun scope => scope.lookup x) = _
  simp only [hglobals, List.findSome?_cons, List.findSome?_nil, hparams, hvars, lookup_nil]
  split <;> split <;> simp_all

theorem find?_opening (p : Program) (q : Procedure) (x : String) : (opening p q).find? x =
    if x ∈ q.params.map Prod.fst then some (.param x) else if x ∈ p.decls.filterMap Decl.variable? then some (.global x) else none := by
  have hparams := lookup_map_key_eq (f := Prod.fst) Declaration.param x q.params
  have hvars := lookup_map_key_eq (f := id) Declaration.global x (p.decls.filterMap Decl.variable?)
  rw [map_id] at hvars
  simp only [id_eq] at hvars
  simp only [State.find?, opening, List.findSome?_cons, List.findSome?_nil, lookup_nil, hparams, hvars]
  split <;> split <;> simp_all

variable {p : Program} {q : Procedure} {globals : List Gvar}

theorem faithful_entries (p : Program) (q : Procedure) : Faithful (entries p q) := by
  intro a ha b hb
  simp only [entries, mem_append, mem_map] at ha hb
  obtain ⟨x, -, rfl⟩ | ⟨x, -, rfl⟩ := ha
  · obtain ⟨y, -, rfl⟩ | ⟨y, -, rfl⟩ := hb
    · simp [String.append_right_inj]
    · simp [String.ext_iff]
  · obtain ⟨y, -, rfl⟩ | ⟨y, -, rfl⟩ := hb
    · simp [String.ext_iff]
    · simp [String.append_right_inj]

theorem below_entries (p : Program) (hq : ∀ x ∈ q.params, isName x.1) : Below tempName (entries p q) 0 0 := by
  intro a ha
  simp only [entries, mem_append, mem_map] at ha
  obtain ⟨x, -, rfl⟩ | ⟨x, hx, rfl⟩ := ha
  · refine ⟨fun k hk => ?_, nofun⟩
    simp [tempName, String.ext_iff] at hk
  · refine ⟨fun k hk => ?_, nofun⟩
    rw [tempName, String.append_right_inj] at hk
    exact absurd hk (ne_toString_of_isName (hq x hx) k)

theorem linked_entries (h : globals.map Gvar.name = (p.decls.filterMap Decl.variable?).map ("@" ++ ·)) :
    Linked (entries p q) [(startStage globals q).find?] (opening p q).scopes := by
  refine ⟨⟨fun x o hx => ?_, fun x hx => ?_⟩, trivial⟩
  · change ∃ d, (opening p q).find? x = some d ∧ _
    rw [find?_startStage h] at hx
    rw [find?_opening]
    split at hx
    · next hmem =>
        cases hx
        obtain ⟨y, hy, rfl⟩ := mem_map.1 hmem
        exact ⟨_, if_pos hmem, mem_append_right _ (mem_map_of_mem (f := fun x => _) hy)⟩
    · next hmem =>
        split at hx
        · next hvar =>
            cases hx
            rw [if_neg hmem, if_pos hvar]
            exact ⟨_, rfl, mem_append_left _ (mem_map_of_mem (f := fun x => _) hvar)⟩
        · cases hx
  · change (opening p q).find? x = none
    rw [find?_startStage h] at hx
    rw [find?_opening]
    split at hx
    · cases hx
    · next hmem =>
        rw [if_neg hmem]
        split at hx
        · cases hx
        · next hvar => exact if_neg hvar

theorem visible_of_agrees {s : State} {pairs : List (String × Declaration)} (h : Agrees pairs g.find? s.scopes) :
    Visible g s := by
  intro x
  cases hx : g.find? x with
  | none => exact congrArg Option.isSome (h.unknown x hx).symm
  | some o =>
    obtain ⟨d, hd, -⟩ := h.known x o hx
    exact congrArg Option.isSome hd.symm

theorem StmtCode.faithful_iff {s : State} (h : StmtCode (startStage globals q) none q.body os c g)
    (hglobals : globals.map Gvar.name = (p.decls.filterMap Decl.variable?).map ("@" ++ ·)) (hc : AllConds Expr.Tests q.body)
    (hq : ∀ x ∈ q.params, isName x.1) (hs : run (opening p q) (eventsOf q.body) = .ok s) :
    os.length = (q.occurrences p).length ∧
      (Faithful (entries p q ++ os.zip ((q.occurrences p).map Occurrence.refersTo)) ↔
        ∀ o ∈ q.occurrences p, o.hides = none) := by
  have hlinked := linked_entries (q := q) hglobals
  obtain ⟨-, -, -, ho⟩ := h.translates hc _ _ hs (visible_of_agrees hlinked.1)
  exact ⟨(ho []).length_eq hs,
    (ho []).faithful_iff (fun _ _ => tempName_inj.1) hs hlinked (below_entries p hq) (faithful_entries p q)⟩

/-- The operands of a procedure, its parameters and the global variables stand for declarations one for one just if none of
its declarations hides another. -/
theorem lowerProc_faithful_iff {p p' : Program} {q : Procedure} {code : Proc Record} {s : State} (hform : p.Formed)
    (hcheck : check p = .ok p') (hq : .proc q ∈ p'.decls) (hparams : ∀ x ∈ q.params, isName x.1 = true)
    (hlower : lowerProc (p'.decls.filterMap lowerGlobal) q = .ok code) (hs : run (opening p' q) (eventsOf q.body) = .ok s) :
    (∃ os g, StmtCode (startStage (p'.decls.filterMap lowerGlobal) q) none q.body os code.body g) ∧
    ∀ os g, StmtCode (startStage (p'.decls.filterMap lowerGlobal) q) none q.body os code.body g →
      os.length = (q.occurrences p').length ∧
      (Faithful (entries p' q ++ os.zip ((q.occurrences p').map Occurrence.refersTo)) ↔
        ∀ o ∈ q.occurrences p', o.hides = none) := by
  obtain ⟨-, -, hcode⟩ := lowerProc_spec hlower
  have hglobals := names_lowerGlobal fun line x e ty hd => check_constant hcheck hd
  exact ⟨hcode, fun os g h => h.faithful_iff hglobals (check_conds hform hcheck hq) hparams hs⟩

end Procedures

def siblings (print : String) : Procedure := ⟨8, "f", [("n", .int)], .void, [
  .ifelse 7 (.binary 2 .less (.var 2 "n") (.var 2 "limit")) [
    .vardecl 3 "x" (.binary 3 .plus (.var 3 "n") (.num 3 1)) .int,
    .assign 4 4 "limit" (.var 4 "x")] (.block 7 [
    .vardecl 5 "x" (.var 5 "limit") .int,
    .eval 6 (.call 6 print [.var 6 "x"])])]⟩

def withSiblings (print : String) : Program :=
  ⟨10, [.var 1 "limit" (.num 1 10) .int, .proc (siblings print), .proc ⟨9, "main", [], .void, []⟩]⟩

theorem lowerProc_faithful_siblings : ∃ code os g,
    check (withSiblings "print") = .ok (withSiblings "__bx_print_int") ∧
    lowerProc [⟨"@limit", .int 10⟩] (siblings "__bx_print_int") = .ok code ∧
    StmtCode (startStage [⟨"@limit", .int 10⟩] (siblings "__bx_print_int")) none (siblings "__bx_print_int").body os code.body g ∧
    os.length = 9 ∧
    Faithful (entries (withSiblings "__bx_print_int") (siblings "__bx_print_int") ++
      os.zip (((siblings "__bx_print_int").occurrences (withSiblings "__bx_print_int")).map Occurrence.refersTo)) := by
  have hform : (withSiblings "print").Formed := by
    intro q hq
    simp only [withSiblings, mem_cons, Decl.proc.injEq, reduceCtorEq, false_or, not_mem_nil, or_false] at hq
    obtain rfl | rfl := hq
    · simp [siblings, AllConds, Stmt.Conds, Expr.Formed]
    · trivial
  have hcheck : check (withSiblings "print") = .ok (withSiblings "__bx_print_int") := by cbv
  obtain ⟨code, hlower⟩ : ∃ code, lowerProc [⟨"@limit", .int 10⟩] (siblings "__bx_print_int") = .ok code := ⟨_, by cbv⟩
  obtain ⟨s, hs⟩ := exists_of_isOk (x := run (opening (withSiblings "__bx_print_int") (siblings "__bx_print_int"))
    (eventsOf (siblings "__bx_print_int").body)) (by decide)
  obtain ⟨⟨os, g, hcode⟩, hall⟩ := lowerProc_faithful_iff hform hcheck (q := siblings "__bx_print_int") (by simp [withSiblings])
    (by decide) hlower hs
  obtain ⟨hlength, hiff⟩ := hall os g hcode
  exact ⟨code, os, g, hcheck, hlower, hcode, hlength.trans rfl, hiff.2 (by decide)⟩

def shadowing (print : String) : Procedure := ⟨5, "main", [], .void, [
  .vardecl 2 "x" (.num 2 1) .int,
  .block 3 [.vardecl 3 "x" (.num 3 2) .int],
  .eval 4 (.call 4 print [.var 4 "x"])]⟩

theorem not_faithful_shadowing : ∃ code g,
    check ⟨6, [.proc (shadowing "print")]⟩ = .ok ⟨6, [.proc (shadowing "__bx_print_int")]⟩ ∧
    lowerProc [] (shadowing "__bx_print_int") = .ok code ∧
    StmtCode (startStage [] (shadowing "__bx_print_int")) none (shadowing "__bx_print_int").body [tempName 0, tempName 0, tempName 0]
      code.body g ∧
    (shadowing "__bx_print_int").occurrences ⟨6, [.proc (shadowing "__bx_print_int")]⟩ =
      [⟨.var 0, none⟩, ⟨.var 1, some (.var 0)⟩, ⟨.var 0, none⟩] ∧
    ¬ Faithful [(tempName 0, .var 0), (tempName 0, .var 1), (tempName 0, .var 0)] := by
  refine ⟨_, _, rfl, rfl, .cons (.vardecl (.new rfl) .num) (.cons (.block (.cons (.vardecl (.found rfl) .num) .nil))
    (.cons (.eval (.call (.early (by decide) (.var (.found rfl)) .nil))) .nil)), rfl, ?_⟩
  decide

end Bx.Procedural
