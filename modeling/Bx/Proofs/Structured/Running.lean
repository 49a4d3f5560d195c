import Bx.Proofs.Structured.Lowering
import Mathlib.Data.List.Nodup

namespace Bx.Structured

open List Source Tac
open Tac.Body

variable {k j pc lo hi ky kn mid : Nat} {x yes no : String} {e : Expr} {c : List Instruction} {s₀ : State} {m : Memory}

def CodeAt (p : Code) (k : Nat) (c : List Instruction) : Prop := StandsAt p k (c.map some)

section CodeAt

variable {p : Code} {k : Nat} {op : Instruction} {c d : List Instruction}

theorem codeAt_append : CodeAt p k (c ++ d) ↔ CodeAt p k c ∧ CodeAt p (k + c.length) d := by
  rw [CodeAt, CodeAt, CodeAt, map_append, standsAt_append, length_map]

theorem codeAt_singleton : CodeAt p k [op] ↔ p[k]? = some (some op) := standsAt_singleton

theorem codeAt_cons : CodeAt p k (op :: c) ↔ p[k]? = some (some op) ∧ CodeAt p (k + 1) c := standsAt_cons

end CodeAt

def Resolved (p : Code) : Prop := ∀ k l, p[k]? = some (some (.label l)) → labelAt p l = some k

def Holds (Γ : Places) (vars : String → BitVec 64) (temps : String → Option (BitVec 64)) : Prop :=
  ∀ x t, Γ.lookup x = some t → temps t = some (vars x)

/-- A target has a value; else only temporaries from a number on that are the place of no variable have changed. -/
structure Computed (Γ : Places) (n : Nat) (t : String) (v : BitVec 64) (σ σ' : String → Option (BitVec 64)) : Prop where
  value : σ' t = some v
  frame : ∀ x, x ≠ t → (∀ k, n ≤ k → Unused Γ k → x ≠ tempName k) → σ' x = σ x

variable {Γ : Places} {n : Nat} {t : String} {v : BitVec 64} {σ σ' : String → Option (BitVec 64)} {vars : String → BitVec 64}

theorem Unused.ne_place (hk : Unused Γ k) (h : Γ.lookup x = some t) : t ≠ tempName k := by
  rintro rfl
  exact hk (mem_map_of_mem (mem_of_lookup h))

theorem Computed.of_put (Γ : Places) (n : Nat) (t : String) (v : BitVec 64) (σ : String → Option (BitVec 64)) :
    Computed Γ n t v σ (put σ t v) := ⟨put_self σ t v, fun _ hx _ => put_of_ne hx σ v⟩

theorem Computed.holds (h : Computed Γ n (tempName k) v σ σ') (hk : Unused Γ k) (hσ : Holds Γ vars σ) : Holds Γ vars σ' := by
  intro x t ht
  rw [h.frame t (hk.ne_place ht) fun j _ hj => hj.ne_place ht]
  exact hσ x t ht

theorem Computed.keeps (h : Computed Γ n (tempName j) v σ σ') (hk : k < n) (hne : k ≠ j) : σ' (tempName k) = σ (tempName k) := by
  refine h.frame _ (mt tempName_inj.1 hne) fun i hi _ he => ?_
  rw [tempName_inj] at he
  omega

theorem Computed.trans {m : Nat} {u : BitVec 64} {σ₁ : String → Option (BitVec 64)} (h : Computed Γ m (tempName k) u σ σ₁)
    (hk : Unused Γ k) (hn : n ≤ k) (hm : n ≤ m) (h' : Computed Γ n t v σ₁ σ') : Computed Γ n t v σ σ' := by
  refine ⟨h'.value, fun x hx hfree => ?_⟩
  rw [h'.frame x hx hfree]
  exact h.frame x (hfree k hn hk) fun j hj => hfree j (Nat.le_trans hm hj)

variable {ops : Operators} {p : Code}

theorem IntCode.runs (ops : Operators) (h : IntCode Γ n t e c) (hat : CodeAt p pc c) (hσ : Holds Γ vars σ)
    (ws : List (BitVec 64)) :
    (∀ v, e.value ops vars = some v → ∃ j σ', (machine ops p).Reaches j ⟨pc, σ, ws⟩ ⟨pc + c.length, σ', ws⟩ ∧
      Computed Γ n t v σ σ') ∧
    (e.value ops vars = none → (machine ops p).Ends ⟨pc, σ, ws⟩ .trapped ws) := by
  induction h generalizing pc σ with
  | var hx =>
    refine ⟨fun v hv => ⟨1, _, .one (next_copy (codeAt_singleton.1 hat) ?_), .of_put ..⟩, nofun⟩
    rw [hσ _ _ hx]
    exact hv
  | num =>
    refine ⟨fun v hv => ?_, nofun⟩
    cases hv
    exact ⟨1, _, .one (next_const (codeAt_singleton.1 hat)), .of_put ..⟩
  | @bool n t line b =>
    refine ⟨fun v hv => ?_, nofun⟩
    obtain rfl : BitVec.ofInt 64 (if b then 1 else 0) = v := by
      cases hv
      cases b <;> rfl
    exact ⟨1, _, .one (next_const (codeAt_singleton.1 hat)), .of_put ..⟩
  | @unary n t line op e k u c hk hu hop he ih =>
    obtain ⟨hat, hlast⟩ := codeAt_append.1 hat
    obtain ⟨ihv, iht⟩ := ih hat hσ
    simp only [Expr.value, hop, Option.bind_eq_bind, Option.bind_some, Option.pure_def]
    cases hval : e.value ops vars with
    | none => exact ⟨nofun, fun _ => iht hval⟩
    | some w =>
      refine ⟨fun v hv => ?_, nofun⟩
      obtain ⟨j, σ', hj, hcomp⟩ := ihv w hval
      cases hv
      rw [length_append, ← Nat.add_assoc]
      exact ⟨_, _, hj.trans (.one (next_unop (codeAt_singleton.1 hlast) hcomp.value)), hcomp.trans hu hk (Nat.le_succ_of_le hk) (.of_put ..)⟩
  | @binary n t line op l r k j b c d hk hj huk huj hop hl hr ihl ihr =>
    obtain ⟨hat, hlast⟩ := codeAt_append.1 hat
    obtain ⟨hatl, hatr⟩ := codeAt_append.1 hat
    obtain ⟨ihlv, ihlt⟩ := ihl hatl hσ
    simp only [Expr.value, hop, Option.bind_eq_bind, Option.bind_some]
    cases hvl : l.value ops vars with
    | none => exact ⟨nofun, fun _ => ihlt hvl⟩
    | some w =>
      obtain ⟨i₁, σ₁, hi₁, hcomp₁⟩ := ihlv w hvl
      obtain ⟨ihrv, ihrt⟩ := ihr hatr (hcomp₁.holds huk hσ)
      cases hvr : r.value ops vars with
      | none => exact ⟨nofun, fun _ => (ihrt hvr).after hi₁⟩
      | some w' =>
        obtain ⟨i₂, σ₂, hi₂, hcomp₂⟩ := ihrv w' hvr
        have hw : σ₂ (tempName k) = some w := by
          rw [hcomp₂.keeps (Nat.lt_succ_of_lt hj) (Nat.ne_of_lt hj), hcomp₁.value]
        have hrun := hi₁.trans hi₂
        rw [Nat.add_assoc, ← length_append] at hrun
        have hnj : n ≤ j := Nat.le_trans hk (Nat.le_of_lt hj)
        refine ⟨fun v hv => ?_, fun hv => ?_⟩
        · rw [length_append, ← Nat.add_assoc]
          refine ⟨_, _, hrun.trans (.one (next_binop (codeAt_singleton.1 hlast) hw hcomp₂.value hv)), ?_⟩
          exact hcomp₁.trans huk hk (Nat.le_succ_of_le hk) (hcomp₂.trans huj hnj (Nat.le_succ_of_le hnj) (.of_put ..))
        · exact ⟨_, _, hrun, next_binop_trapped (codeAt_singleton.1 hlast) hw hcomp₂.value hv, rfl⟩

theorem truth_compare {op : Source.Op} {cond : Asm.Cond} (h : conditionOf? op = some cond) (line : Int) (l r : Expr) :
    (Expr.binary line op l r).truth ops vars =
      (l.value ops vars).bind fun u => (r.value ops vars).bind fun v => some (holds cond (u - v)) := by
  cases op <;> simp only [conditionOf?, Option.some.injEq, reduceCtorEq] at h <;> subst h <;> rfl

/-- To the label for a truth value, to a trap, or round and round. -/
inductive Course
  | goes (b : Bool)
  | trapped
  | endless

def Course.ofTruth : Option Bool → Course
  | some b => .goes b
  | none => .trapped

def Course.andThen (c : Course) (k : Bool → Course) : Course :=
  match c with
  | .goes b => k b
  | c => c

def Expr.course (ops : Operators) (vars : String → BitVec 64) : Expr → Course
  | .unary _ .boolnot e => (e.course ops vars).andThen fun b => .goes (!b)
  | .binary _ .booland l r => (l.course ops vars).andThen fun b =>
    if b then (r.course ops vars).andThen fun b => if b then .endless else .goes true else .goes true
  | .binary _ .boolor l r => (l.course ops vars).andThen fun b => if b then .goes true else r.course ops vars
  | e => .ofTruth (e.truth ops vars)

theorem course_compare {op : Source.Op} {cond : Asm.Cond} (h : conditionOf? op = some cond) (line : Int) (l r : Expr) :
    (Expr.binary line op l r).course ops vars = .ofTruth ((Expr.binary line op l r).truth ops vars) := by
  cases op <;> simp only [conditionOf?, reduceCtorEq] at h <;> rfl

theorem course_eq (h : e.ConjunctionFree) : e.course ops vars = .ofTruth (e.truth ops vars) := by
  induction e with
  | var | num | bool => rfl
  | unary line op e ih =>
    by_cases hop : op = .boolnot
    · subst hop
      rw [Expr.course, ih h, Expr.truth]
      cases e.truth ops vars <;> rfl
    · cases op <;> first | rfl | exact absurd rfl hop
  | binary line op l r ihl ihr =>
    obtain ⟨hand, hl, hr⟩ := h
    by_cases hop : op = .boolor
    · subst hop
      rw [Expr.course, ihl hl, ihr hr, Expr.truth]
      cases l.truth ops vars with
      | none => rfl
      | some b => cases b <;> rfl
    · cases op <;> first | rfl | exact absurd rfl hop | exact absurd rfl hand

section Takes

variable (ops p Γ vars) in
def Takes (lo hi ky kn : Nat) (s : State) : Course → Prop
  | .goes b => ∃ j σ, (machine ops p).Reaches j s ⟨if b then ky else kn, σ, s.printed⟩ ∧ Holds Γ vars σ
  | .trapped => (machine ops p).Ends s .trapped s.printed
  | .endless => ∃ k, lo ≤ k ∧ k < hi ∧ ∀ n, ∃ j σ, n ≤ j ∧ (machine ops p).Reaches j s ⟨k, σ, s.printed⟩ ∧ Holds Γ vars σ

variable {lo hi ky kn : Nat} {s : State} {c : Course}
variable (h : Takes Γ vars ops p lo hi ky kn s c)
include h

theorem Takes.widen {lo' hi' : Nat} (hlo : lo' ≤ lo) (hhi : hi ≤ hi') :
    Takes Γ vars ops p lo' hi' ky kn s c := by
  cases c with
  | goes | trapped => exact h
  | endless =>
    obtain ⟨k, hk, hk', hback⟩ := h
    exact ⟨k, Nat.le_trans hlo hk, Nat.lt_of_lt_of_le hk' hhi, hback⟩

theorem Takes.after (hj : (machine ops p).Reaches j s₀ s) (hs : s.printed = s₀.printed) :
    Takes Γ vars ops p lo hi ky kn s₀ c := by
  cases c with
  | goes b =>
    obtain ⟨i, σ, hi, hσ⟩ := h
    exact ⟨j + i, σ, hs ▸ hj.trans hi, hσ⟩
  | trapped =>
    have hend : (machine ops p).Ends s .trapped s.printed := h
    rw [hs] at hend
    exact hend.after hj
  | endless =>
    obtain ⟨k, hk, hk', hback⟩ := h
    refine ⟨k, hk, hk', fun n => ?_⟩
    obtain ⟨i, σ, hn, hi, hσ⟩ := hback n
    exact ⟨j + i, σ, Nat.le_add_left_of_le hn, hs ▸ hj.trans hi, hσ⟩

theorem Takes.andThen {ky' kn' : Nat} {k : Bool → Course}
    (hk : ∀ b σ, Holds Γ vars σ → Takes Γ vars ops p lo hi ky' kn' ⟨if b then ky else kn, σ, s.printed⟩ (k b)) :
    Takes Γ vars ops p lo hi ky' kn' s (c.andThen k) := by
  cases c with
  | goes b =>
    obtain ⟨j, σ, hj, hσ⟩ := h
    exact (hk b σ hσ).after hj rfl
  | trapped | endless => exact h

omit h

theorem takes_endless {ws : List (BitVec 64)} (hlo : lo ≤ k) (hhi : k < hi)
    (hback : ∀ σ, Holds Γ vars σ → ∃ j σ', 0 < j ∧ (machine ops p).Reaches j ⟨k, σ, ws⟩ ⟨k, σ', ws⟩ ∧ Holds Γ vars σ')
    (hσ : Holds Γ vars σ) : Takes Γ vars ops p lo hi ky kn ⟨k, σ, ws⟩ .endless := by
  refine ⟨k, hlo, hhi, fun n => ?_⟩
  induction n generalizing σ with
  | zero => exact ⟨0, σ, Nat.le_refl 0, .refl _, hσ⟩
  | succ n ih =>
    obtain ⟨j, σ₁, hj, hr, hσ₁⟩ := hback σ hσ
    obtain ⟨i, σ₂, hi, hr₂, hσ₂⟩ := ih hσ₁
    exact ⟨j + i, σ₂, by omega, hr.trans hr₂, hσ₂⟩

end Takes

theorem BoolCode.takes (hsub : ∀ a b, ops.binop .sub a b = some (a - b)) (hp : Resolved p) (h : BoolCode Γ lo hi yes no e c)
    (hat : CodeAt p pc c) (hy : labelAt p yes = some ky) (hn : labelAt p no = some kn) (hσ : Holds Γ vars σ)
    (ws : List (BitVec 64)) : Takes Γ vars ops p pc (pc + c.length) ky kn ⟨pc, σ, ws⟩ (e.course ops vars) := by
  induction h generalizing pc ky kn σ with
  | @bool lo yes no line b =>
    refine ⟨1, σ, .one (next_jmp (codeAt_singleton.1 hat) ?_), hσ⟩
    cases b
    · exact hn
    · exact hy
  | @not lo hi yes no line e c he ih =>
    refine (ih hat hn hy hσ).andThen fun b σ hσ => ?_
    cases b <;> exact ⟨0, σ, .refl _, hσ⟩
  | @and lo mid hi yes no line l r c d hl hr ihl ihr =>
    obtain ⟨hatl, hrest⟩ := codeAt_append.1 hat
    obtain ⟨hlabel, hatr⟩ := codeAt_cons.1 hrest
    have hbetween := hp _ _ hlabel
    have hlen : pc + (c ++ .label (labelName lo) :: d).length = pc + c.length + 1 + d.length := by
      simp only [length_append, length_cons]
      omega
    rw [hlen]
    have hstep : ∀ σ, (machine ops p).Reaches 1 ⟨pc + c.length, σ, ws⟩ ⟨pc + c.length + 1, σ, ws⟩ := fun σ => .one (next_label hlabel)
    refine ((ihl hatl hbetween hy hσ).widen (Nat.le_refl pc) (by omega)).andThen fun b σ hσ => ?_
    cases b with
    | false => exact ⟨0, σ, .refl _, hσ⟩
    | true =>
      have ihr := fun σ hσ => (ihr hatr hbetween hy (σ := σ) hσ).widen (show pc ≤ pc + c.length + 1 by omega) (Nat.le_refl _)
      refine Takes.after ?_ (hstep σ) rfl
      simp only [if_true]
      -- Whatever the second operand does, it does again when the code comes back to it.
      cases hcourse : r.course ops vars with
      | trapped | endless =>
        simp only [hcourse] at ihr
        exact ihr σ hσ
      | goes b =>
        simp only [hcourse] at ihr
        obtain ⟨j, σ₁, hj, hσ₁⟩ := ihr σ hσ
        cases b with
        | false => exact ⟨j, σ₁, hj, hσ₁⟩
        | true =>
          refine (takes_endless (k := pc + c.length) (by omega) (by omega) (fun σ hσ => ?_) hσ₁).after hj rfl
          obtain ⟨i, σ₂, hi, hσ₂⟩ := ihr σ hσ
          exact ⟨1 + i, σ₂, Nat.lt_add_right i Nat.one_pos, (hstep σ).trans hi, hσ₂⟩
  | @or lo mid hi yes no line l r c d hl hr ihl ihr =>
    obtain ⟨hatl, hrest⟩ := codeAt_append.1 hat
    obtain ⟨hlabel, hatr⟩ := codeAt_cons.1 hrest
    have hlen : pc + (c ++ .label (labelName lo) :: d).length = pc + c.length + 1 + d.length := by
      simp only [length_append, length_cons]
      omega
    rw [hlen]
    refine ((ihl hatl hy (hp _ _ hlabel) hσ).widen (Nat.le_refl pc) (by omega)).andThen fun b σ hσ => ?_
    cases b with
    | true => exact ⟨0, σ, .refl _, hσ⟩
    | false => exact ((ihr hatr hy hn hσ).widen (by omega) (Nat.le_refl _)).after (.one (next_label hlabel)) rfl
  | @compare lo yes no line op l r k j cond c d hkj huk huj hop hl hr =>
    obtain ⟨hat, hrest⟩ := codeAt_append.1 hat
    obtain ⟨hatl, hatr⟩ := codeAt_append.1 hat
    obtain ⟨hsubAt, hrest⟩ := codeAt_cons.1 hrest
    obtain ⟨hjccAt, hjmpAt⟩ := codeAt_cons.1 hrest
    rw [course_compare hop, truth_compare hop]
    obtain ⟨hlv, hlt⟩ := hl.runs ops hatl hσ ws
    cases hvl : l.value ops vars with
    | none => exact hlt hvl
    | some u =>
      obtain ⟨i₁, σ₁, hi₁, hcomp₁⟩ := hlv u hvl
      obtain ⟨hrv, hrt⟩ := hr.runs ops hatr (hcomp₁.holds huk hσ) ws
      cases hvr : r.value ops vars with
      | none => exact (hrt hvr).after hi₁
      | some v =>
        obtain ⟨i₂, σ₂, hi₂, hcomp₂⟩ := hrv v hvr
        have hu : σ₂ (tempName k) = some u := by
          rw [hcomp₂.keeps (Nat.lt_succ_of_lt hkj) (Nat.ne_of_lt hkj), hcomp₁.value]
        have hrun := hi₁.trans hi₂
        rw [Nat.add_assoc, ← length_append] at hrun
        have hrun := hrun.trans (.one (next_binop hsubAt hu hcomp₂.value (hsub u v)))
        have hrun := hrun.trans (.one (next_jcc hjccAt (put_self ..) hy))
        have hσ₂ := (Computed.of_put Γ 0 (tempName k) (u - v) σ₂).holds huk (hcomp₂.holds huj (hcomp₁.holds huk hσ))
        change Takes _ _ _ _ _ _ _ _ _ (.goes (holds cond (u - v)))
        cases hc : holds cond (u - v) with
        | true =>
          rw [hc] at hrun
          exact ⟨_, _, hrun, hσ₂⟩
        | false =>
          rw [hc] at hrun
          exact ⟨_, _, hrun.trans (.one (next_jmp (codeAt_singleton.1 hjmpAt) hn)), hσ₂⟩

theorem BoolCode.runs (hsub : ∀ a b, ops.binop .sub a b = some (a - b)) (hp : Resolved p) (h : BoolCode Γ lo hi yes no e c)
    (hfree : e.ConjunctionFree) (hat : CodeAt p pc c) (hy : labelAt p yes = some ky) (hn : labelAt p no = some kn)
    (hσ : Holds Γ vars σ) (ws : List (BitVec 64)) :
    (∀ b, e.truth ops vars = some b →
      ∃ j σ', (machine ops p).Reaches j ⟨pc, σ, ws⟩ ⟨if b then ky else kn, σ', ws⟩ ∧ Holds Γ vars σ') ∧
    (e.truth ops vars = none → (machine ops p).Ends ⟨pc, σ, ws⟩ .trapped ws) := by
  have htakes := h.takes hsub hp hat hy hn hσ ws
  rw [course_eq hfree] at htakes
  constructor
  · intro b hb
    rwa [hb] at htakes
  · intro hnone
    rwa [hnone] at htakes

variable (ops p Γ)

def Follows (loop : Option Loop) (bound fin : Nat) (s : State) : Outcome → Prop
  | .normal m => ∃ j σ, (machine ops p).Reaches j s ⟨fin, σ, m.printed⟩ ∧ Holds Γ m.vars σ
  | .break m => ∃ l k j σ, loop = some l ∧ labelAt p l.exit = some k ∧
      (machine ops p).Reaches j s ⟨k, σ, m.printed⟩ ∧ Holds Γ m.vars σ
  | .continue m => ∃ l k j σ, loop = some l ∧ labelAt p l.head = some k ∧
      (machine ops p).Reaches j s ⟨k, σ, m.printed⟩ ∧ Holds Γ m.vars σ
  | .trapped m => (machine ops p).Ends s .trapped m.printed
  | .cut m => ∃ j s', bound ≤ j ∧ (machine ops p).Reaches j s s' ∧ s'.printed = m.printed

variable {ops p Γ} {loop : Option Loop} {bound fin : Nat} {s : State} {o : Outcome}

theorem Follows.after_le {b : Nat} (h : Follows Γ ops p loop bound fin s o) (hj : (machine ops p).Reaches j s₀ s)
    (hb : b ≤ j + bound) : Follows Γ ops p loop b fin s₀ o := by
  cases o with
  | normal m =>
    obtain ⟨i, σ, hi, hσ⟩ := h
    exact ⟨_, σ, hj.trans hi, hσ⟩
  | «break» m | «continue» m =>
    obtain ⟨l, k, i, σ, hl, hk, hi, hσ⟩ := h
    exact ⟨l, k, _, σ, hl, hk, hj.trans hi, hσ⟩
  | trapped m => exact h.after hj
  | cut m =>
    obtain ⟨i, s', hi, hr, hs'⟩ := h
    exact ⟨j + i, s', by omega, hj.trans hr, hs'⟩

theorem Follows.after (h : Follows Γ ops p loop bound fin s o) (hj : (machine ops p).Reaches j s₀ s) :
    Follows Γ ops p loop bound fin s₀ o :=
  h.after_le hj (Nat.le_add_left bound j)

theorem Follows.andThen {k : Memory → Outcome} (h : Follows Γ ops p loop bound mid s o)
    (hk : ∀ m σ, Holds Γ m.vars σ → Follows Γ ops p loop bound fin ⟨mid, σ, m.printed⟩ (k m)) :
    Follows Γ ops p loop bound fin s (o.andThen k) := by
  cases o with
  | normal m =>
    obtain ⟨i, σ, hi, hσ⟩ := h
    exact (hk m σ hσ).after hi
  | «break» | «continue» | trapped | cut => exact h

theorem Follows.extend (h : Follows Γ ops p loop bound mid s o)
    (hk : ∀ σ ws, ∃ j, (machine ops p).Reaches j ⟨mid, σ, ws⟩ ⟨fin, σ, ws⟩) : Follows Γ ops p loop bound fin s o := by
  cases o with
  | normal m =>
    obtain ⟨i, σ, hi, hσ⟩ := h
    obtain ⟨j, hj⟩ := hk σ m.printed
    exact ⟨_, σ, hi.trans hj, hσ⟩
  | «break» | «continue» | trapped | cut => exact h

theorem runAll_singleton (st : Stmt) (m : Memory) : runAll ops bound [st] m = st.run ops bound m := by
  rw [runAll]
  cases st.run ops bound m <;> rfl

theorem lookup_inj {y : String} (hΓ : (Γ.map Prod.snd).Nodup) (hx : Γ.lookup x = some t) (hy : Γ.lookup y = some t) : x = y :=
  congrArg Prod.fst (inj_on_of_nodup_map hΓ (mem_of_lookup hx) (mem_of_lookup hy) rfl)

theorem Computed.holds_set (h : Computed Γ n t v σ σ') (hΓ : (Γ.map Prod.snd).Nodup) (hx : Γ.lookup x = some t)
    (hσ : Holds Γ m.vars σ) : Holds Γ (m.set x v).vars σ' := by
  intro y t' hy
  by_cases hyx : y = x
  · subst hyx
    rw [hx] at hy
    cases hy
    simp [Memory.set, h.value]
  · have hne : t' ≠ t := by
      rintro rfl
      exact hyx (lookup_inj hΓ hy hx)
    rw [h.frame t' hne fun j _ hj => hj.ne_place hy]
    simpa [Memory.set, hyx] using hσ y t' hy

theorem follows_using {k : BitVec 64 → Memory}
    (hv : ∀ v, e.value ops m.vars = some v → ∃ j σ, (machine ops p).Reaches j s ⟨fin, σ, (k v).printed⟩ ∧ Holds Γ (k v).vars σ)
    (ht : e.value ops m.vars = none → (machine ops p).Ends s .trapped m.printed) :
    Follows Γ ops p loop bound fin s (e.using ops m k) := by
  rw [Expr.using]
  cases hval : e.value ops m.vars with
  | none => exact ht hval
  | some v => exact hv v hval

theorem follows_assign (hΓ : (Γ.map Prod.snd).Nodup) (hx : Γ.lookup x = some t) (he : IntCode Γ 0 t e c) (hat : CodeAt p pc c)
    (hσ : Holds Γ m.vars σ) : Follows Γ ops p loop bound (pc + c.length) ⟨pc, σ, m.printed⟩ (e.using ops m (m.set x)) := by
  obtain ⟨hv, ht⟩ := he.runs ops hat hσ m.printed
  refine follows_using (fun v hval => ?_) ht
  obtain ⟨j, σ', hj, hcomp⟩ := hv v hval
  exact ⟨j, σ', hj, hcomp.holds_set hΓ hx hσ⟩

theorem follows_turns {kh kb ke kj : Nat} {l : Loop} {test : Memory → Option Bool} {body : Memory → Outcome} {turn : Nat}
    (hhead : labelAt p l.head = some kh) (hexit : labelAt p l.exit = some ke)
    (htest : ∀ m σ, Holds Γ m.vars σ →
      (∀ b, test m = some b → ∃ j σ', 0 < j ∧
        (machine ops p).Reaches j ⟨kh, σ, m.printed⟩ ⟨if b then kb else ke, σ', m.printed⟩ ∧ Holds Γ m.vars σ') ∧
      (test m = none → (machine ops p).Ends ⟨kh, σ, m.printed⟩ .trapped m.printed))
    (hbody : ∀ m σ, Holds Γ m.vars σ → Follows Γ ops p (some l) bound kj ⟨kb, σ, m.printed⟩ (body m))
    (hback : p[kj]? = some (some (.jmp l.head))) (hturn : turn ≤ bound) (m : Memory) (hσ : Holds Γ m.vars σ) :
    Follows Γ ops p loop turn ke ⟨kh, σ, m.printed⟩ (turns test body turn m) := by
  induction turn generalizing m σ with
  | zero => exact ⟨0, _, Nat.le_refl 0, .refl _, rfl⟩
  | succ turn ih =>
    -- a turn takes at least one step, which pays for the turn in the bound
    have again : ∀ {j : Nat} {m' : Memory} {σ' : String → Option (BitVec 64)}, 0 < j → Holds Γ m'.vars σ' →
        (machine ops p).Reaches j ⟨kh, σ, m.printed⟩ ⟨kh, σ', m'.printed⟩ →
        Follows Γ ops p loop (turn + 1) ke ⟨kh, σ, m.printed⟩ (turns test body turn m') :=
      fun hj hσ' hr => (ih (Nat.le_of_succ_le hturn) _ hσ').after_le hr (by omega)
    obtain ⟨hv, ht⟩ := htest m σ hσ
    rw [turns]
    cases htm : test m with
    | none => exact ht htm
    | some b =>
      obtain ⟨j, σ₁, hj, hr, hσ₁⟩ := hv b htm
      cases b with
      | false => exact ⟨j, σ₁, hr, hσ₁⟩
      | true =>
        have hf := hbody m σ₁ hσ₁
        cases ho : body m with
        | normal m' =>
          rw [ho] at hf
          obtain ⟨i, σ₂, hr₂, hσ₂⟩ := hf
          exact again (Nat.lt_add_right _ hj) hσ₂ (hr.trans (hr₂.trans (.one (next_jmp hback hhead))))
        | «continue» m' =>
          rw [ho] at hf
          obtain ⟨_, k, i, σ₂, hl, hk, hr₂, hσ₂⟩ := hf
          cases hl
          rw [hhead] at hk
          cases hk
          exact again (Nat.lt_add_right _ hj) hσ₂ (hr.trans hr₂)
        | «break» m' =>
          rw [ho] at hf
          obtain ⟨_, k, i, σ₂, hl, hk, hr₂, hσ₂⟩ := hf
          cases hl
          rw [hexit] at hk
          cases hk
          exact ⟨_, σ₂, hr.trans hr₂, hσ₂⟩
        | trapped m' =>
          rw [ho] at hf
          exact hf.after hr
        | cut m' =>
          rw [ho] at hf
          obtain ⟨i, s', hi, hr', hs'⟩ := hf
          exact ⟨_, s', Nat.le_trans hturn (Nat.le_trans hi (Nat.le_add_left i j)), hr.trans hr', hs'⟩

theorem StmtCode.runs {body : List Stmt} (hsub : ∀ a b, ops.binop .sub a b = some (a - b)) (hp : Resolved p)
    (hΓ : (Γ.map Prod.snd).Nodup) (bound : Nat) (h : StmtCode Γ lo hi loop body c) (hfree : AllExprs Expr.ConjunctionFree body)
    (hloop : ∀ l, loop = some l → (∃ k, labelAt p l.head = some k) ∧ ∃ k, labelAt p l.exit = some k) (hat : CodeAt p pc c)
    (hσ : Holds Γ m.vars σ) : Follows Γ ops p loop bound (pc + c.length) ⟨pc, σ, m.printed⟩ (runAll ops bound body m) := by
  induction h generalizing pc σ m with
  | nil => exact ⟨0, σ, .refl _, hσ⟩
  | cons hs hr ihs ihr =>
    obtain ⟨hats, hatr⟩ := codeAt_append.1 hat
    have hf := ihs ⟨hfree.1, trivial⟩ hloop hats hσ
    rw [runAll_singleton] at hf
    rw [length_append, ← Nat.add_assoc]
    exact hf.andThen fun m σ hσ => ihr hfree.2 hloop hatr hσ
  | vardecl hx he | assign hx he =>
    rw [runAll_singleton]
    exact follows_assign hΓ hx he hat hσ
  | @print lo loop line e k c hk he =>
    rw [runAll_singleton, Stmt.run]
    obtain ⟨hate, hatp⟩ := codeAt_append.1 hat
    obtain ⟨hv, ht⟩ := he.runs ops hate hσ m.printed
    refine follows_using (fun v hval => ?_) ht
    obtain ⟨j, σ', hj, hcomp⟩ := hv v hval
    rw [length_append, ← Nat.add_assoc]
    exact ⟨_, σ', hj.trans (.one (next_print (codeAt_singleton.1 hatp) hcomp.value)), hcomp.holds hk hσ⟩
  | block hb ih =>
    rw [runAll_singleton]
    exact ih hfree.1 hloop hat hσ
  | @ifelse lo l₁ l₂ hi loop line cond yes no c cy cn hc hy hn ihy ihn =>
    obtain ⟨hatc, hat⟩ := codeAt_append.1 hat
    obtain ⟨hyesAt, hat⟩ := codeAt_cons.1 hat
    obtain ⟨haty, hat⟩ := codeAt_append.1 hat
    obtain ⟨hjmpAt, hat⟩ := codeAt_cons.1 hat
    obtain ⟨hnoAt, hat⟩ := codeAt_cons.1 hat
    obtain ⟨hatn, hdoneAt⟩ := codeAt_append.1 hat
    have hdoneAt := codeAt_singleton.1 hdoneAt
    obtain ⟨hv, ht⟩ := hc.runs hsub hp hfree.1.1 hatc (hp _ _ hyesAt) (hp _ _ hnoAt) hσ m.printed
    rw [runAll_singleton, Stmt.run]
    have hfin : pc + (c ++ Body.Op.label (labelName lo) :: (cy ++ Body.Op.jmp (labelName (lo + 2)) ::
        Body.Op.label (labelName (lo + 1)) :: (cn ++ [Body.Op.label (labelName (lo + 2))]))).length = pc + c.length + 1 + cy.length + 1 + 1 + cn.length + 1 := by
      simp only [length_append, length_cons, length_nil]
      omega
    rw [hfin]
    cases hcond : cond.truth ops m.vars with
    | none => exact ht hcond
    | some b =>
      obtain ⟨j, σ', hj, hσ'⟩ := hv b hcond
      cases b with
      | true =>
        refine ((ihy hfree.1.2.1 hloop haty hσ').extend fun σ ws => ⟨1 + 1, ?_⟩).after (hj.trans (.one (next_label hyesAt)))
        exact (Machine.Reaches.one (next_jmp hjmpAt (hp _ _ hdoneAt))).trans (.one (next_label hdoneAt))
      | false =>
        have hf := ihn ⟨hfree.1.2.2, trivial⟩ hloop hatn hσ'
        rw [runAll_singleton] at hf
        exact (hf.extend fun σ ws => ⟨1, .one (next_label hdoneAt)⟩).after (hj.trans (.one (next_label hnoAt)))
  | @«while» lo mid hi loop line cond body c cb hc hb ih =>
    obtain ⟨hheadAt, hat⟩ := codeAt_cons.1 hat
    obtain ⟨hatc, hat⟩ := codeAt_append.1 hat
    obtain ⟨hinsideAt, hat⟩ := codeAt_cons.1 hat
    obtain ⟨hatb, hat⟩ := codeAt_append.1 hat
    obtain ⟨hbackAt, hexitAt⟩ := codeAt_cons.1 hat
    have hexitAt := codeAt_singleton.1 hexitAt
    have hfin : pc + (Body.Op.label (labelName lo) :: (c ++ Body.Op.label (labelName (lo + 1)) ::
        (cb ++ [Body.Op.jmp (labelName lo), Body.Op.label (labelName (lo + 2))]))).length = pc + 1 + c.length + 1 + cb.length + 1 + 1 := by
      simp only [length_append, length_cons, length_nil]
      omega
    rw [hfin, runAll_singleton, Stmt.run]
    have hlabels : ∀ l, some (Loop.mk (labelName lo) (labelName (lo + 2))) = some l →
        (∃ k, labelAt p l.head = some k) ∧ ∃ k, labelAt p l.exit = some k := by
      rintro _ ⟨⟩
      exact ⟨⟨_, hp _ _ hheadAt⟩, _, hp _ _ hexitAt⟩
    refine Follows.extend ?_ fun σ ws => ⟨1, .one (next_label hexitAt)⟩
    refine follows_turns (hp _ _ hheadAt) (hp _ _ hexitAt) (fun m σ hσ => ?_)
      (fun m σ hσ => (ih hfree.1.2 hlabels hatb hσ).after (.one (next_label hinsideAt))) hbackAt (Nat.le_refl bound) m hσ
    have hstart : (machine ops p).Reaches 1 ⟨pc, σ, m.printed⟩ ⟨pc + 1, σ, m.printed⟩ := .one (next_label hheadAt)
    obtain ⟨hv, ht⟩ := hc.runs hsub hp hfree.1.1 hatc (hp _ _ hinsideAt) (hp _ _ hexitAt) hσ m.printed
    refine ⟨fun b hb => ?_, fun hb => (ht hb).after hstart⟩
    obtain ⟨j, σ', hj, hσ'⟩ := hv b hb
    exact ⟨1 + j, σ', Nat.lt_add_right j Nat.one_pos, hstart.trans hj, hσ'⟩
  | @«break» lo line l =>
    obtain ⟨-, k, hk⟩ := hloop l rfl
    exact ⟨l, k, 1, σ, rfl, hk, .one (next_jmp (codeAt_singleton.1 hat) hk), hσ⟩
  | @«continue» lo line l =>
    obtain ⟨⟨k, hk⟩, -⟩ := hloop l rfl
    exact ⟨l, k, 1, σ, rfl, hk, .one (next_jmp (codeAt_singleton.1 hat) hk), hσ⟩

end Bx.Structured
