import Bx.Proofs.Straight.Lowering

namespace Bx.Straight

open List Tac Tac.Body
open Structured (Instruction CodeAt codeAt_append codeAt_singleton codeAt_cons tempName tempName_inj)

abbrev Temps := String → Option (BitVec 64)

section Expressions

variable {Γ : Places} {lo mid hi : Nat} {s t x : String} {e : Expr} {c d : List Instruction} {vs : Values} {σ σ' : Temps}

theorem mem_of_place? {x : Datum} (h : place? Γ x = some t) : t ∈ Γ.map Prod.snd := by
  obtain ⟨e, he, rfl⟩ := Option.map_eq_some_iff.1 h
  exact mem_map_of_mem (mem_of_find?_eq_some he)

theorem ExprCode.mem_of_nil (h : ExprCode Γ lo hi t e c) (hc : c = []) : t ∈ Γ.map Prod.snd := by
  cases h with
  | place h => exact mem_of_place? h
  | copy | num | unary | binary => simp at hc

def Holds (Γ : Places) (vs : Values) (σ : Temps) : Prop :=
  ∀ x v, vs.get? x = some v → ∃ t, place? Γ x = some t ∧ σ t = some v

def Apart (Γ : Places) (lo hi : Nat) : Prop := ∀ t ∈ Γ.map Prod.snd, ¬Own lo hi t

def Keeps (lo hi : Nat) (t : String) (c : List Instruction) (σ σ' : Temps) : Prop :=
  ∀ x, (x = t → c = []) → ¬Own lo hi x → σ' x = σ x

theorem Apart.mono {lo' hi' : Nat} (h : Apart Γ lo hi) (hlo : lo ≤ lo') (hhi : hi' ≤ hi) : Apart Γ lo' hi' :=
  fun t ht hown => h t ht (hown.mono hlo hhi)

theorem Keeps.place (h : Keeps lo hi s c σ σ') (hΓ : Apart Γ lo hi) (hs : Own lo hi s ∨ c = []) (ht : t ∈ Γ.map Prod.snd) :
    σ' t = σ t := by
  refine h t ?_ (hΓ t ht)
  rintro rfl
  exact hs.resolve_left (hΓ t ht)

theorem Keeps.holds (h : Keeps lo hi s c σ σ') (hΓ : Apart Γ lo hi) (hs : Own lo hi s ∨ c = []) (hσ : Holds Γ vs σ) :
    Holds Γ vs σ' := by
  intro x v hv
  obtain ⟨t, ht, hσt⟩ := hσ x v hv
  exact ⟨t, ht, (h.place hΓ hs (mem_of_place? ht)).trans hσt⟩

theorem Keeps.operand (h : Keeps mid hi t d σ σ') (hΓ : Apart Γ mid hi) (ht : Own mid hi t ∨ d = []) (hs : Own lo mid s ∨ s ∈ Γ.map Prod.snd) :
    σ' s = σ s := by
  rcases hs with ⟨k, -, hk, rfl⟩ | hs
  · have hnot : ¬Own mid hi (tempName k) := by
      rintro ⟨j, hj, -, hkj⟩
      rw [tempName_inj] at hkj
      omega
    refine h _ ?_ hnot
    rintro rfl
    exact ht.resolve_left hnot
  · exact h.place hΓ ht hs

theorem keeps_put {op : Instruction} {v : BitVec 64} : Keeps lo hi t [op] σ (put σ t v) :=
  fun _ hx _ => put_of_ne (fun h => nomatch hx h) σ v

theorem Keeps.trans {lo' hi' : Nat} {σ₁ : Temps} (h : Keeps lo hi s c σ σ₁) (hs : Own lo hi s ∨ c = []) (hlo : lo' ≤ lo) (hhi : hi ≤ hi')
    (h' : Keeps lo' hi' t d σ₁ σ') : Keeps lo' hi' t (c ++ d) σ σ' := by
  intro x hx hown
  have hfree : ¬Own lo hi x := fun h => hown (h.mono hlo hhi)
  rw [h' x (fun he => (append_eq_nil_iff.1 (hx he)).2) hown]
  refine h x ?_ hfree
  rintro rfl
  exact hs.resolve_left hfree

variable {ops : Operators} {p : Code}

theorem ExprCode.runs (ops : Operators) {pc : Nat} (h : ExprCode Γ lo hi t e c) (hΓ : Apart Γ lo hi) (hat : CodeAt p pc c) (hσ : Holds Γ vs σ)
    (hd : e.Declared (vs.map Prod.fst)) (ws : List (BitVec 64)) :
    (∀ v, e.value ops vs = some v → ∃ j σ', (machine ops p).Reaches j ⟨pc, σ, ws⟩ ⟨pc + c.length, σ', ws⟩ ∧ σ' t = some v ∧
      Keeps lo hi t c σ σ') ∧
    (e.value ops vs = none → (machine ops p).Ends ⟨pc, σ, ws⟩ .trapped ws) := by
  induction h generalizing pc σ with
  | @place lo hi t x h =>
    obtain ⟨v, hv⟩ := Option.isSome_iff_exists.1 ((get?_isSome_iff vs x).trans hd)
    obtain ⟨s, hs, hσs⟩ := hσ x v hv
    cases h.symm.trans hs
    simp only [Expr.value, hv]
    refine ⟨fun w hw => ?_, by simp⟩
    cases hw
    exact ⟨0, σ, .refl _, hσs, fun _ _ _ => rfl⟩
  | @copy lo hi t x s h =>
    obtain ⟨v, hv⟩ := Option.isSome_iff_exists.1 ((get?_isSome_iff vs x).trans hd)
    obtain ⟨s', hs, hσs⟩ := hσ x v hv
    cases h.symm.trans hs
    simp only [Expr.value, hv]
    refine ⟨fun w hw => ?_, by simp⟩
    cases hw
    exact ⟨1, _, .one (next_copy (codeAt_singleton.1 hat) hσs), put_self .., keeps_put⟩
  | @num lo hi t n =>
    have hn : n.toDatum.number? = some n.value := by cases n <;> rfl
    simp only [Expr.value, hn, Option.map_some]
    refine ⟨fun w hw => ?_, by simp⟩
    cases hw
    exact ⟨1, _, .one (next_const (codeAt_singleton.1 hat)), put_self .., keeps_put⟩
  | @unary lo hi t op e u s c hop he hs ih =>
    obtain ⟨hat, hlast⟩ := codeAt_append.1 hat
    obtain ⟨ihv, iht⟩ := ih hΓ hat hσ hd
    simp only [Expr.value, hop, Option.bind_eq_bind, Option.bind_some, Option.pure_def]
    cases hval : e.value ops vs with
    | none => exact ⟨by simp, fun _ => iht hval⟩
    | some w =>
      obtain ⟨j, σ₁, hj, hw, hkeeps⟩ := ihv w hval
      refine ⟨fun v hv => ?_, by simp⟩
      cases hv
      rw [length_append, ← Nat.add_assoc]
      exact ⟨_, _, hj.trans (.one (next_unop (codeAt_singleton.1 hlast) hw)), put_self .., hkeeps.trans hs (Nat.le_refl _) (Nat.le_refl _) keeps_put⟩
  | @binary lo mid hi t op l r b s s' c d hop hlo hhi hl hs hr hs' ihl ihr =>
    obtain ⟨hat, hlast⟩ := codeAt_append.1 hat
    obtain ⟨hatl, hatr⟩ := codeAt_append.1 hat
    have hΓl : Apart Γ lo mid := hΓ.mono (Nat.le_refl _) hhi
    have hΓr : Apart Γ mid hi := hΓ.mono hlo (Nat.le_refl _)
    obtain ⟨ihlv, ihlt⟩ := ihl hΓl hatl hσ hd.1
    simp only [Expr.value, hop, Option.bind_eq_bind, Option.bind_some]
    cases hvl : l.value ops vs with
    | none => exact ⟨by simp, fun _ => ihlt hvl⟩
    | some w =>
      obtain ⟨i, σ₁, hi₁, hw, hkeeps₁⟩ := ihlv w hvl
      obtain ⟨ihrv, ihrt⟩ := ihr hΓr hatr (hkeeps₁.holds hΓl hs hσ) hd.2
      cases hvr : r.value ops vs with
      | none => exact ⟨by simp, fun _ => (ihrt hvr).after hi₁⟩
      | some w' =>
        obtain ⟨j, σ₂, hj, hw', hkeeps₂⟩ := ihrv w' hvr
        have hleft : σ₂ s = some w := by
          rw [hkeeps₂.operand hΓr hs' (hs.imp_right hl.mem_of_nil), hw]
        have hrun := hi₁.trans hj
        rw [Nat.add_assoc, ← length_append] at hrun
        refine ⟨fun v hv => ?_, fun hv => ?_⟩
        · rw [length_append, ← Nat.add_assoc]
          refine ⟨_, _, hrun.trans (.one (next_binop (codeAt_singleton.1 hlast) hleft hw' hv)), put_self .., ?_⟩
          rw [append_assoc]
          exact hkeeps₁.trans hs (Nat.le_refl _) hhi (hkeeps₂.trans hs' hlo (Nat.le_refl _) keeps_put)
        · exact ⟨_, _, hrun, next_binop_trapped (codeAt_singleton.1 hlast) hleft hw' hv, rfl⟩

end Expressions

section Programs

variable {Γ Γ' : Places} {n n' : Nat} {t : String} {x : Datum} {v : BitVec 64} {vs : Values} {σ σ' : Temps}

structure Sound (Γ : Places) (n : Nat) : Prop where
  nodup : (Γ.map Prod.snd).Nodup
  below : ∀ t ∈ Γ.map Prod.snd, ∃ k < n, t = tempName k

theorem Sound.mono (h : Sound Γ n) (hn : n ≤ n') : Sound Γ n' where
  nodup := h.nodup
  below t ht := by
    obtain ⟨k, hk, rfl⟩ := h.below t ht
    exact ⟨k, Nat.lt_of_lt_of_le hk hn, rfl⟩

theorem Sound.apart (h : Sound Γ n) (hi : Nat) : Apart Γ n hi := by
  rintro t ht ⟨j, hj, -, rfl⟩
  obtain ⟨k, hk, hjk⟩ := h.below _ ht
  rw [tempName_inj] at hjk
  omega

theorem Sound.fresh (h : Sound Γ n) : tempName n ∉ Γ.map Prod.snd :=
  fun hmem => h.apart (n + 1) _ hmem ⟨n, Nat.le_refl _, Nat.lt_succ_self _, rfl⟩

theorem Sound.placed (h : Sound Γ n) (hx : placed Γ n x = (t, Γ', n')) : Sound Γ' n' := by
  rw [Straight.placed] at hx
  split at hx
  next => cases hx; exact h
  next =>
    cases hx
    constructor
    · rw [map_append, nodup_append]
      exact ⟨h.nodup, by simp, fun a ha b hb hab => h.fresh (by simp_all)⟩
    · intro t ht
      rw [map_append, mem_append] at ht
      rcases ht with ht | ht
      · exact (h.mono (Nat.le_succ n)).below t ht
      · exact ⟨n, Nat.lt_succ_self n, by simpa using ht⟩

def Mirrors (Γ : Places) (vs : Values) (σ : Temps) : Prop := List.Forall₂ (fun p e => p.1 = e.1 ∧ σ p.2 = some e.2) Γ vs

variable (h : Mirrors Γ vs σ)
include h

theorem Mirrors.holds : Holds Γ vs σ := by
  intro x v hv
  induction h with
  | nil => cases hv
  | @cons p e Γ vs hpe _ ih =>
    rw [Values.get?, List.find?_cons] at hv
    rw [place?, List.find?_cons, hpe.1]
    cases hx : e.1.same x with
    | true =>
      rw [hx] at hv
      cases hv
      exact ⟨p.2, rfl, hpe.2⟩
    | false =>
      rw [hx] at hv
      exact ih hv

theorem Mirrors.placed (hx : placed Γ n x = (t, Γ', n')) : Holds Γ' vs σ := by
  intro y v hv
  obtain ⟨s, hs, hσ⟩ := h.holds y v hv
  refine ⟨s, ?_, hσ⟩
  rw [Straight.placed] at hx
  split at hx
  next => cases hx; exact hs
  next =>
    cases hx
    obtain ⟨e, he, rfl⟩ := Option.map_eq_some_iff.1 hs
    rw [place?, List.find?_append, he]
    rfl

theorem Mirrors.keep (hkeep : ∀ s ∈ Γ.map Prod.snd, σ' s = σ s) : Mirrors Γ vs σ' := by
  refine forall₂_imp_of_mem h fun p hp e _ hpe => ⟨hpe.1, ?_⟩
  rw [hkeep p.2 (mem_map_of_mem hp), hpe.2]

theorem Mirrors.set (hΓ : (Γ.map Prod.snd).Nodup) (hx : place? Γ x = some t) (hv : σ' t = some v)
    (hkeep : ∀ s ∈ Γ.map Prod.snd, s ≠ t → σ' s = σ s) : Mirrors Γ (vs.set x v) σ' := by
  induction h with
  | nil => cases hx
  | @cons p e Γ vs hpe hrest ih =>
    rw [map_cons, nodup_cons] at hΓ
    rw [map_cons, forall_mem_cons] at hkeep
    rw [place?, List.find?_cons, hpe.1] at hx
    rw [Values.set]
    cases hsame : e.1.same x with
    | true =>
      rw [hsame] at hx
      cases hx
      exact .cons ⟨hpe.1, hv⟩ (Mirrors.keep hrest fun s hs => hkeep.2 s hs fun he => hΓ.1 (he ▸ hs))
    | false =>
      rw [hsame] at hx
      have hne : p.2 ≠ t := fun he => hΓ.1 (he ▸ mem_of_place? hx)
      exact .cons ⟨hpe.1, (hkeep.1 hne).trans hpe.2⟩ (ih hΓ.2 hx hkeep.2)

theorem Mirrors.add (hx : place? Γ x = none) (hv : σ' t = some v)
    (hkeep : ∀ s ∈ Γ.map Prod.snd, σ' s = σ s) : Mirrors (Γ ++ [(x, t)]) (vs.set x v) σ' := by
  induction h with
  | nil => exact .cons ⟨rfl, hv⟩ .nil
  | @cons p e Γ vs hpe _ ih =>
    rw [map_cons, forall_mem_cons] at hkeep
    rw [place?, List.find?_cons, hpe.1] at hx
    rw [Values.set]
    cases hsame : e.1.same x with
    | true =>
      rw [hsame] at hx
      cases hx
    | false =>
      rw [hsame] at hx
      exact .cons ⟨hpe.1, hkeep.1.trans hpe.2⟩ (ih hx hkeep.2)

theorem Mirrors.assign (hΓ : Sound Γ n) (hx : Straight.placed Γ n x = (t, Γ', n')) (hv : σ' t = some v)
    (hkeep : ∀ s ∈ Γ'.map Prod.snd, s ≠ t → σ' s = σ s) : Mirrors Γ' (vs.set x v) σ' := by
  rw [Straight.placed] at hx
  split at hx
  next hplace =>
    cases hx
    exact h.set hΓ.nodup hplace hv hkeep
  next hplace =>
    cases hx
    refine h.add hplace hv fun s hs => hkeep s (by simp_all) ?_
    rintro rfl
    exact hΓ.fresh hs

omit h

variable {ops : Operators} {p : Code}

theorem ProgramCode.ends (ops : Operators) {program : List Stmt} {c : List Instruction} {pc : Nat} {m : Memory} (h : ProgramCode Γ n program c)
    (hΓ : Sound Γ n) (hat : CodeAt p pc c) (hend : p.length = pc + c.length) (hσ : Mirrors Γ m.values σ)
    (hd : Declared (m.values.map Prod.fst) program) :
    (machine ops p).Ends ⟨pc, σ, m.printed⟩ (runFrom ops program m).1 (runFrom ops program m).2 := by
  induction h generalizing pc σ m with
  | nil =>
    have hnone : p[pc]? = none := List.getElem?_eq_none (Nat.le_of_eq hend)
    exact ⟨0, _, .refl _, by simp [machine, hnone, runFrom], rfl⟩
  | @into Γ n s x e t Γ' n' hi c rest d hs hx hn he hr ih =>
    obtain ⟨hde, hdr⟩ := hd.of_assigns hs
    obtain ⟨hatc, hatd⟩ := codeAt_append.1 hat
    have hΓ' := hΓ.placed hx
    obtain ⟨hvalue, htrap⟩ := he.runs ops (hΓ'.apart hi) hatc (hσ.placed hx) hde m.printed
    rw [runFrom, Stmt.run_of_assigns hs]
    cases hval : e.value ops m.values with
    | none => exact htrap hval
    | some v =>
      obtain ⟨j, σ', hj, ht, hkeeps⟩ := hvalue v hval
      have hσ' := hσ.assign hΓ hx ht fun s hs hne => hkeeps s (fun h => absurd h hne) (hΓ'.apart hi s hs)
      have hrest := ih (m := { m with values := m.values.set x v }) (hΓ'.mono hn) hatd
        (by rw [hend, length_append, Nat.add_assoc]) hσ' (by rw [map_fst_set]; exact hdr)
      exact hrest.after hj
  | @through Γ n s x e t Γ' n' hi y c rest d hs hx hn he hy hr ih =>
    obtain ⟨hde, hdr⟩ := hd.of_assigns hs
    obtain ⟨hatc, hrest⟩ := codeAt_append.1 hat
    obtain ⟨hcopy, hatd⟩ := codeAt_cons.1 hrest
    have hΓ' := hΓ.placed hx
    obtain ⟨hvalue, htrap⟩ := he.runs ops (hΓ'.apart hi) hatc (hσ.placed hx) hde m.printed
    rw [runFrom, Stmt.run_of_assigns hs]
    cases hval : e.value ops m.values with
    | none => exact htrap hval
    | some v =>
      obtain ⟨j, σ', hj, hv, hkeeps⟩ := hvalue v hval
      have hσ' := hσ.assign hΓ hx (put_self σ' t v) fun s hs hne =>
        (put_of_ne hne σ' v).trans (hkeeps.place (hΓ'.apart hi) hy hs)
      have hrest := ih (m := { m with values := m.values.set x v }) (hΓ'.mono hn) hatd
        (by rw [hend, length_append, length_cons]; omega) hσ' (by rw [map_fst_set]; exact hdr)
      exact hrest.after (hj.trans (.one (next_copy hcopy hv)))
  | @print Γ n e hi y c rest d hn he hy hr ih =>
    obtain ⟨hatc, hrest⟩ := codeAt_append.1 hat
    obtain ⟨hprint, hatd⟩ := codeAt_cons.1 hrest
    obtain ⟨hvalue, htrap⟩ := he.runs ops (hΓ.apart hi) hatc hσ.holds hd.1 m.printed
    rw [runFrom]
    simp only [Stmt.run, Option.bind_eq_bind]
    cases hval : e.value ops m.values with
    | none => exact htrap hval
    | some v =>
      obtain ⟨j, σ', hj, hv, hkeeps⟩ := hvalue v hval
      have hσ' := hσ.keep fun s hs => hkeeps.place (hΓ.apart hi) hy hs
      have hrest := ih (m := { m with printed := m.printed ++ [v] }) (hΓ.mono hn) hatd
        (by rw [hend, length_append, length_cons]; omega) hσ' hd.2
      exact hrest.after (hj.trans (.one (next_print hprint hv)))

/-- Top-down and bottom-up code print the same and end in the same way, as the direct evaluation does, whatever the operators
compute and whatever is in the temporaries before. If all operators have values, the program comes to its end. -/
theorem lower_ends_as_evaluated (ops : Operators) (σ : Temps) {program : List Stmt} (hf : ∀ s ∈ program, s.Formed)
    (hd : Declared [] program) :
    (∀ scheme, ∃ body n, lower scheme program = .ok (body, n) ∧
      (machine ops (code body)).Ends ⟨0, σ, []⟩ (run ops program).1 (run ops program).2) ∧
    ((∀ op u v, (ops.binop op u v).isSome) → (run ops program).1 = .returned) := by
  refine ⟨fun scheme => ?_, fun ht => runFrom_returned ht hf hd⟩
  obtain ⟨c, g, hrun, hcode, hprogram⟩ := exists_programCode (g := .start) scheme hf hd
  refine ⟨g.code, g.next, by rw [lower, hrun]; rfl, ?_⟩
  rw [hcode, show Gen.start.code = [] from rfl, nil_append, code_records]
  have hat : CodeAt (c.map some) 0 c := prefix_refl _
  exact hprogram.ends (m := ⟨[], []⟩) ops ⟨.nil, nofun⟩ hat (by simp) .nil hd

end Programs

def shuffling : List Stmt := [
  .vardecl (.str "x") (some (.num (.int 7))),
  .vardecl (.str "y") (some (.binary "MINUS" (.var (.str "x")) (.unary "UMINUS" (.num (.int 3))))),
  .assign (.str "x") (some (.binary "DIV" (.binary "TIMES" (.var (.str "x")) (.var (.str "x"))) (.var (.str "y")))),
  .print (.binary "PLUS" (.var (.str "x")) (.var (.str "y"))),
  .vardecl (.str "y") (some (.unary "BITCOMPL" (.var (.str "y")))),
  .print (.var (.str "y"))]

theorem lower_ends_as_evaluated_shuffling : (∀ s ∈ shuffling, s.Formed) ∧ Declared [] shuffling ∧ run .words shuffling = (.returned, [14, -11]) ∧
    ∀ scheme, ∃ body n, lower scheme shuffling = .ok (body, n) ∧
      (machine .words (code body)).Ends ⟨0, fun _ => none, []⟩ .returned [14, -11] := by
  have hf : ∀ s ∈ shuffling, s.Formed := by
    simp [shuffling, Stmt.Formed, Expr.Formed, Datum.isKey, Datum.isNumber, Datum.number?]
    decide
  have hd : Declared [] shuffling := by
    simp [shuffling, Declared, Expr.Declared, declare, known, Datum.same]
  have hrun : run .words shuffling = (.returned, [14, -11]) := by decide
  refine ⟨hf, hd, hrun, ?_⟩
  have h := (lower_ends_as_evaluated .words (fun _ => none) hf hd).1
  rwa [hrun] at h

end Bx.Straight
