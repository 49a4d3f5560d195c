import Bx.Proofs.Procedural.Labels
import Bx.Proofs.Run.Loose
import Mathlib.Data.List.Pairwise
import Mathlib.Logic.Relation

namespace Bx.Procedural

open List Tac Asm.Procedure

open Run.Loose (labelNames labelNames_append)

variable {r : Record} {l : String} {g g' : Stage} {os : List String} {body : List Stmt}

/-- To the label that it may jump to, and to the next instruction unless it always jumps or returns. -/
inductive Follows (p : List Record) : Nat → Nat → Prop
  | jump {k m r r' l : _} (h : p[k]? = some r) (hl : r.target? = some l) (h' : p[m]? = some r') (hl' : r'.label? = some l) : Follows p k m
  | next {k r : _} (h : p[k]? = some r) (hj : r.opcode.is "jmp" = false) (hr : r.opcode.is "ret" = false) : Follows p k (k + 1)

def Unambiguous (p : List Record) : Prop :=
  ∀ {k m : Nat} {r r' : Record} {l : String}, p[k]? = some r → p[m]? = some r' → r.label? = some l → r'.label? = some l → k = m

def Aims (ls : List String) (c : List Record) : Prop :=
  ∀ r ∈ c, (r.opcode.is "jmp" = true → r.target?.isSome = true) ∧ ∀ l ∈ r.target?, l ∈ ls

section Targets

variable {ls ls' : List String} {c d : List Record}

theorem Aims.mono (h : Aims ls c) (hsub : ∀ l ∈ ls, l ∈ ls') : Aims ls' c :=
  fun r hr => ⟨(h r hr).1, fun l hl => hsub l ((h r hr).2 l hl)⟩

theorem Aims.append (hc : Aims ls c) (hd : Aims ls d) : Aims ls (c ++ d) := forall_mem_append.2 ⟨hc, hd⟩

theorem Aims.cons (hr : r.opcode.is "jmp" → r.target?.isSome) (hl : ∀ l ∈ r.target?, l ∈ ls) (hd : Aims ls d) :
    Aims ls (r :: d) := forall_mem_cons.2 ⟨⟨hr, hl⟩, hd⟩

theorem aims_nil : Aims ls [] := nofun

theorem Aims.label (l : String) (hd : Aims ls d) : Aims ls (labelRecord l :: d) := hd.cons nofun nofun

theorem Aims.jump (hl : l ∈ ls) (hd : Aims ls d) : Aims ls (jumpRecord l :: d) :=
  hd.cons (fun _ => rfl) fun _ h => Option.some.inj h ▸ hl

def Straight (c : List Record) : Prop := ∀ r ∈ c, r.target? = none ∧ r.opcode.is "jmp" = false

theorem Straight.append (hc : Straight c) (hd : Straight d) : Straight (c ++ d) := forall_mem_append.2 ⟨hc, hd⟩

theorem Straight.cons (hr : r.target? = none ∧ r.opcode.is "jmp" = false) (hd : Straight d) : Straight (r :: d) :=
  forall_mem_cons.2 ⟨hr, hd⟩

theorem straight_nil : Straight [] := nofun

theorem Straight.aims (h : Straight c) : Aims ls c :=
  fun r hr => ⟨fun hj => absurd hj (by simp [(h r hr).2]), fun l hl => absurd hl (by simp [(h r hr).1])⟩

theorem target?_of_opcode {op : Source.Op} {name : String} (h : op.opcode? = some name) (args : List Datum) (t : Datum) :
    (Record.of name args t).target? = none ∧ (Record.of name args t).opcode.is "jmp" = false := by
  cases op <;> cases h <;> exact ⟨rfl, rfl⟩

theorem target?_of_comparison {op : Source.Op} {jump : String} (h : comparison? op = some jump) (x l : String) :
    (Record.of jump [.str x, .str l] .null).target? = some l ∧ (Record.of jump [.str x, .str l] .null).opcode.is "jmp" = false := by
  cases op <;> cases h <;> exact ⟨rfl, rfl⟩

theorem ExprCode.straight {w : Work} (h : ExprCode g w os c g') : Straight c := by
  induction h with
  | var | num | bool => exact straight_nil.cons ⟨rfl, rfl⟩
  | nil => exact straight_nil
  | unary hop _ ih => exact ih.append (straight_nil.cons (target?_of_opcode hop _ _))
  | binary hop _ _ ihl ihr => exact ihl.append (ihr.append (straight_nil.cons (target?_of_opcode hop _ _)))
  | call _ ih => exact ih.append (straight_nil.cons ⟨rfl, rfl⟩)
  | early _ _ _ ihe ihr => exact ihe.append (ihr.cons ⟨rfl, rfl⟩)
  | late _ _ _ ihr ihe => exact ihr.append (ihe.append (straight_nil.cons ⟨rfl, rfl⟩))

@[simp]
theorem labelNames_label (l : String) (d : List Record) : labelNames (labelRecord l :: d) = l :: labelNames d := rfl

@[simp]
theorem labelNames_jump (l : String) (d : List Record) : labelNames (jumpRecord l :: d) = labelNames d := rfl

theorem CondCode.aims {yes no : String} {e : Expr} (h : CondCode g yes no e os c g') : Aims (yes :: no :: labelNames c) c := by
  induction h with
  | not _ ih => exact ih.mono (by grind)
  | and _ _ ihl ihr | or _ _ ihl ihr =>
    rw [labelNames_append, labelNames_label]
    exact (ihl.mono (by grind)).append (Aims.label _ (ihr.mono (by grind)))
  | compare hop hl hr =>
    obtain ⟨htarget, hjmp⟩ := target?_of_comparison hop _ _
    refine hl.straight.aims.append (hr.straight.aims.append ?_)
    refine Aims.cons nofun nofun (Aims.cons (fun h => absurd h (by rw [hjmp]; decide)) (fun l h => ?_) (aims_nil.jump (by simp)))
    rw [htarget] at h
    simp [Option.some.inj h]
  | idle => exact aims_nil

def loopLabels : Option Loop → List String
  | none => []
  | some l => [l.head, l.exit]

theorem StmtCode.aims {loop : Option Loop} (h : StmtCode g loop body os c g') : Aims (loopLabels loop ++ labelNames c) c := by
  induction h with
  | nil => exact aims_nil
  | cons _ _ ihs ihr =>
    rw [labelNames_append]
    exact (ihs.mono (by grind)).append (ihr.mono (by grind))
  | vardecl _ he | assign _ he | eval he => exact he.straight.aims
  | «return» he => exact he.straight.aims.append (aims_nil.cons nofun nofun)
  | leave => exact aims_nil.cons nofun nofun
  | block _ ih => exact ih
  | ifelse hc _ _ ihy ihn =>
    simp only [labelNames_append, labelNames_label, labelNames_jump]
    exact (hc.aims.mono (by grind)).append (Aims.label _ ((ihy.mono (by grind)).append (Aims.jump (by simp)
      (Aims.label _ ((ihn.mono (by grind)).append (Aims.label _ aims_nil))))))
  | «while» hc _ ih =>
    simp only [labelNames_append, labelNames_label, labelNames_jump]
    exact Aims.label _ ((hc.aims.mono (by grind)).append (Aims.label _ ((ih.mono (by grind [loopLabels])).append (Aims.jump (by simp)
      (Aims.label _ aims_nil)))))
  | «break» | «continue» => exact aims_nil.jump (by simp [loopLabels])

end Targets

section Paths

variable {p c : List Record} {a k m : Nat}

theorem Unambiguous.place (hp : Unambiguous p) (hat : StandsAt p a c) (hl : l ∈ labelNames c) (hm : p[m]? = some r)
    (hr : r.label? = some l) : a ≤ m ∧ m < a + c.length := by
  obtain ⟨r', hr', hl'⟩ := mem_filterMap.1 hl
  obtain ⟨k, hk, rfl⟩ := getElem_of_mem hr'
  have hplace := (getElem?_of_standsAt hat hk).trans (List.getElem?_eq_getElem hk)
  obtain rfl := hp hm hplace hr hl'
  omega

theorem Aims.follows {ls : List String} (h : Aims (ls ++ labelNames c) c) (hp : Unambiguous p) (hat : StandsAt p a c)
    (hk : a ≤ k ∧ k < a + c.length) (hf : Follows p k m) :
    a ≤ m ∧ m ≤ a + c.length ∨ ∃ l ∈ ls, ∃ r, p[m]? = some r ∧ r.label? = some l := by
  cases hf with
  | next => exact .inl (by omega)
  | @jump _ r r' l hr hl hr' hl' =>
    obtain ⟨i, rfl⟩ := Nat.exists_eq_add_of_le hk.1
    rw [getElem?_of_standsAt hat (by omega)] at hr
    rcases mem_append.1 ((h r (mem_of_getElem? hr)).2 l hl) with hls | hls
    · exact .inr ⟨l, hls, r', hr', hl'⟩
    · have hplace := hp.place hat hls hr' hl'
      exact .inl (by omega)

theorem follows_label (hk : p[k]? = some (labelRecord l)) (h : Follows p k m) : m = k + 1 := by
  cases h with
  | next => rfl
  | jump hr hl =>
    rw [hk] at hr
    cases hr
    cases hl

/-- Places of a piece of code that control never leaves once it has entered at the first of them. -/
structure Holds (p : List Record) (a b : Nat) (places : Set Nat) : Prop where
  start : a ∈ places
  inside : ∀ k ∈ places, a ≤ k ∧ k < b
  step : ∀ k ∈ places, ∀ m, Follows p k m → m ∈ places

theorem holds_of_straight (hc : Straight c) (hr : r.opcode = .str "ret") (hat : StandsAt p a (c ++ [r])) :
    ∃ places, Holds p a (a + (c ++ [r]).length) places := by
  obtain ⟨hat, hlast⟩ := standsAt_append.1 hat
  rw [standsAt_singleton] at hlast
  rw [length_append, length_singleton]
  refine ⟨{k | a ≤ k ∧ k ≤ a + c.length}, ⟨Nat.le_refl a, by omega⟩, fun k hk => ⟨hk.1, by have := hk.2; omega⟩, ?_⟩
  rintro k ⟨hk, hk'⟩ m hm
  rcases Nat.lt_or_eq_of_le hk' with hlt | rfl
  · obtain ⟨i, rfl⟩ := Nat.exists_eq_add_of_le hk
    cases hm with
    | next => exact ⟨by omega, by omega⟩
    | jump h hl =>
      rw [getElem?_of_standsAt hat (by omega)] at h
      rw [(hc _ (mem_of_getElem? h)).1] at hl
      cases hl
  · cases hm with
    | next h _ hret =>
      rw [hlast] at h
      cases h
      simp [hr, Datum.is] at hret
    | jump h hl =>
      rw [hlast] at h
      cases h
      simp [Record.target?, Record.test?, hr, Datum.is, Datum.string?, Word.Cond.ofName?, Word.Cond.name] at hl

theorem StmtCode.holds (h : StmtCode g none body os c g') (hp : Unambiguous p) (hr : anyReturns body)
    (hat : StandsAt p a c) : ∃ places, Holds p a (a + c.length) places := by
  generalize hloop : none = loop at h
  induction h generalizing a with
  | nil | vardecl | assign | eval | «while» | «break» | «continue» => simp [anyReturns, Stmt.returns] at hr
  | @cons g g₁ g₂ loop s rest os os' c d hs hrest ihs ihr =>
    subst hloop
    obtain ⟨hc, hd⟩ := standsAt_append.1 hat
    rw [length_append]
    rw [anyReturns, Bool.or_eq_true] at hr
    rcases hr with hr | hr
    · obtain ⟨places, h⟩ := ihs (by simpa [anyReturns] using hr) hc rfl
      exact ⟨places, h.start, fun k hk => by have := h.inside k hk; omega, h.step⟩
    · obtain ⟨places, h⟩ := ihr hr hd rfl
      refine ⟨{k | a ≤ k ∧ k < a + c.length} ∪ places, ?_, ?_, ?_⟩
      · rcases Nat.eq_zero_or_pos c.length with hzero | hpos
        · exact .inr (by simpa [hzero] using h.start)
        · exact .inl ⟨Nat.le_refl a, by omega⟩
      · rintro k (hk | hk)
        · exact ⟨hk.1, by have := hk.2; omega⟩
        · have := h.inside k hk
          omega
      · rintro k (hk | hk) m hm
        · rcases hs.aims.follows hp hc hk hm with hle | ⟨l, hl, -⟩
          · rcases Nat.lt_or_ge m (a + c.length) with hlt | hge
            · exact .inl ⟨hle.1, hlt⟩
            · obtain rfl : m = a + c.length := by omega
              exact .inr h.start
          · cases hl
        · exact .inr (h.step k hk m hm)
  | block _ ih =>
    rw [anyReturns, anyReturns, Bool.or_false, Stmt.returns] at hr
    exact ih hr hat hloop
  | @ifelse g g₁ g₂ g₃ loop line cond yes no oc oy on c cy cn hc hy hn ihy ihn =>
    subst hloop
    simp only [anyReturns, Bool.or_false, Stmt.returns, Bool.and_eq_true] at hr
    obtain ⟨hcond, hrest⟩ := standsAt_append.1 hat
    obtain ⟨hyesLabel, hrest⟩ := standsAt_cons.1 hrest
    obtain ⟨hyes, hrest⟩ := standsAt_append.1 hrest
    obtain ⟨-, hrest⟩ := standsAt_cons.1 hrest
    obtain ⟨hnoLabel, hrest⟩ := standsAt_cons.1 hrest
    obtain ⟨hno, -⟩ := standsAt_append.1 hrest
    obtain ⟨onYes, hY⟩ := ihy hr.1 hyes rfl
    obtain ⟨onNo, hN⟩ := ihn (by simpa [anyReturns] using hr.2) hno rfl
    -- the condition with the label behind it, then either branch, the second one with the label in front of it
    refine ⟨{k | a ≤ k ∧ k ≤ a + c.length} ∪ onYes ∪ {a + c.length + 1 + cy.length + 1} ∪ onNo, ?_, ?_, ?_⟩
    · exact .inl (.inl (.inl ⟨Nat.le_refl a, by omega⟩))
    · simp only [length_append, length_cons, length_nil]
      rintro k (((hk | hk) | rfl) | hk)
      · exact ⟨hk.1, by have := hk.2; omega⟩
      · have := hY.inside k hk
        omega
      · omega
      · have := hN.inside k hk
        omega
    · rintro k (((⟨hk, hk'⟩ | hk) | rfl) | hk) m hm
      · rcases Nat.lt_or_eq_of_le hk' with hlt | rfl
        · rcases (show Aims ([_, _] ++ _) _ from hc.aims).follows hp hcond ⟨hk, hlt⟩ hm with hle | ⟨l, hl, r, hmr, hrl⟩
          · exact .inl (.inl (.inl hle))
          · simp only [mem_cons, not_mem_nil, or_false] at hl
            rcases hl with rfl | rfl
            · obtain rfl := hp hmr hyesLabel hrl rfl
              exact .inl (.inl (.inl ⟨by omega, Nat.le_refl _⟩))
            · obtain rfl := hp hmr hnoLabel hrl rfl
              exact .inl (.inr rfl)
        · obtain rfl := follows_label hyesLabel hm
          exact .inl (.inl (.inr hY.start))
      · exact .inl (.inl (.inr (hY.step k hk m hm)))
      · obtain rfl := follows_label hnoLabel hm
        exact .inr hN.start
      · exact .inr (hN.step k hk m hm)
  | «return» he => exact holds_of_straight he.straight rfl hat
  | leave => exact holds_of_straight (c := []) straight_nil rfl hat

end Paths

section Programs

theorem mark?_of_label? (h : r.label? = some l) : mark? r = some l := by
  rw [Record.label?] at h
  split at h
  · next hop =>
      rw [Datum.string?_eq_some, Record.arg] at h
      have harg : Asm.arg r.args 0 = .ok (.str l) := by
        cases hargs : r.args with
        | list xs | tuple xs =>
          rw [hargs] at h
          cases xs with
          | nil => cases h
          | cons x xs =>
            obtain rfl : x = .str l := h
            simp [Asm.arg, Datum.item, Datum.pick, Datum.position?, Asm.shape, Except.mapError]
        | _ => simp [hargs] at h
      simp only [mark?, Datum.is_iff.1 hop, harg]
      rfl
  · cases h

theorem StmtCode.unambiguous {loop : Option Loop} {c : List Record} (h : StmtCode g loop body os c g') : Unambiguous c := by
  obtain ⟨-, ns, hns, hcount⟩ := h.sets
  have hnodup : (c.filterMap mark?).Nodup := by
    rw [hns]
    refine List.Nodup.map (fun _ _ => labelName_inj.1) (nodup_iff_count_le_one.2 fun n => ?_)
    rw [hcount]
    split <;> omega
  rw [List.Nodup, pairwise_filterMap, pairwise_iff_getElem] at hnodup
  intro k m r r' l hr hr' hl hl'
  obtain ⟨hk, rfl⟩ := List.getElem?_eq_some_iff.1 hr
  obtain ⟨hm, rfl⟩ := List.getElem?_eq_some_iff.1 hr'
  rcases Nat.lt_trichotomy k m with hlt | rfl | hlt
  · exact absurd rfl (hnodup k m hk hm hlt l (mark?_of_label? hl) l (mark?_of_label? hl'))
  · rfl
  · exact absurd rfl (hnodup m k hm hk hlt l (mark?_of_label? hl') l (mark?_of_label? hl))

theorem check_returns {p p' : Program} (h : check p = .ok p') {q : Procedure} (hq : .proc q ∈ p'.decls) :
    anyReturns q.body ∨ q.ret = .void := by
  obtain ⟨d, -, hdq⟩ := forall₂_exists_left (check_checked h) hq
  cases hdq with
  | proc _ hreturns => exact hreturns

theorem StmtCode.exists_follows {b : List Record} (h : StmtCode g none body os b g') {k : Nat} (hk : b[k]? = some r)
    (hr : r.opcode.is "ret" = false) : ∃ m, Follows b k m := by
  cases hj : r.opcode.is "jmp" with
  | false => exact ⟨k + 1, .next hk hj hr⟩
  | true =>
    obtain ⟨hsome, hlabel⟩ := h.aims r (mem_of_getElem? hk)
    obtain ⟨l, hl⟩ := Option.isSome_iff_exists.1 (hsome hj)
    obtain ⟨r', hr', hl'⟩ := mem_filterMap.1 (hlabel l hl)
    obtain ⟨m, hm, rfl⟩ := getElem_of_mem hr'
    exact ⟨m, .jump hk hl (List.getElem?_eq_getElem hm) hl'⟩

/-- In a checked program no path through a procedure that has to return a value gets to the end of its code: there is an
instruction, and unless it returns control can go on. -/
theorem check_returns_on_paths {p p' : Program} (hcheck : check p = .ok p') {q : Procedure} (hq : .proc q ∈ p'.decls) (hret : q.ret ≠ .void)
    {globals : List Gvar} {c : Proc Record} (hlower : lowerProc globals q = .ok c) {k : Nat}
    (hk : Relation.ReflTransGen (Follows c.body) 0 k) :
    ∃ r, c.body[k]? = some r ∧ (r.opcode.is "ret" = true ∨ ∃ m, Follows c.body k m) := by
  obtain ⟨-, -, os, g, hcode⟩ := lowerProc_spec hlower
  obtain ⟨places, hplaces⟩ := hcode.holds hcode.unambiguous ((check_returns hcheck hq).resolve_right hret) (a := 0) (prefix_refl _)
  have hmem : k ∈ places := by
    induction hk with
    | refl => exact hplaces.start
    | tail _ hstep ih => exact hplaces.step _ ih _ hstep
  have hlt : k < c.body.length := by simpa using (hplaces.inside k hmem).2
  refine ⟨c.body[k], List.getElem?_eq_getElem hlt, ?_⟩
  cases hop : c.body[k].opcode.is "ret" with
  | true => exact .inl rfl
  | false => exact .inr (hcode.exists_follows (List.getElem?_eq_getElem hlt) hop)

end Programs

def clip : Procedure := ⟨8, "clip", [("x", .int)], .int, [
  .ifelse 7 (.binary 2 .less (.var 2 "x") (.num 2 0)) [.return 3 (some (.num 3 0))] (.block 7 [
    .while 5 (.binary 4 .greater (.var 4 "x") (.num 4 9)) [.break 5],
    .return 6 (some (.var 6 "x"))])]⟩

def clipping : Program := ⟨11, [.proc clip, .proc ⟨10, "main", [], .void, []⟩]⟩

def clipCode : List Record := [
  .of "copy" [.str "%x"] (.str "%0"), .of "const" [.int 0] (.str "%1"), .of "sub" [.str "%0", .str "%1"] (.str "%0"),
  .of "jl" [.str "%0", .str ".L0"] .null, .of "jmp" [.str ".L1"] .null,
  .of "label" [.str ".L0"] .null, .of "const" [.int 0] (.str "%2"), .of "ret" [.str "%2"] .null, .of "jmp" [.str ".L2"] .null,
  .of "label" [.str ".L1"] .null, .of "label" [.str ".L3"] .null,
  .of "copy" [.str "%x"] (.str "%3"), .of "const" [.int 9] (.str "%4"), .of "sub" [.str "%3", .str "%4"] (.str "%3"),
  .of "jnle" [.str "%3", .str ".L4"] .null, .of "jmp" [.str ".L5"] .null,
  .of "label" [.str ".L4"] .null, .of "jmp" [.str ".L5"] .null, .of "jmp" [.str ".L3"] .null,
  .of "label" [.str ".L5"] .null, .of "copy" [.str "%x"] (.str "%5"), .of "ret" [.str "%5"] .null,
  .of "label" [.str ".L2"] .null]

theorem check_returns_on_paths_clipping : check clipping = .ok clipping ∧ lowerProc [] clip = .ok ⟨"@clip", [.str "%x"], clipCode⟩ ∧
    Relation.ReflTransGen (Follows clipCode) 0 19 ∧ ∃ r, clipCode[19]? = some r ∧ (r.opcode.is "ret" = true ∨ ∃ m, Follows clipCode 19 m) := by
  have hcheck : check clipping = .ok clipping := by cbv
  have hlower : lowerProc [] clip = .ok ⟨"@clip", [.str "%x"], clipCode⟩ := by cbv
  have hnext : ∀ {j k}, Relation.ReflTransGen (Follows clipCode) j k → ∀ {r}, clipCode[k]? = some r → r.opcode.is "jmp" = false →
      r.opcode.is "ret" = false → Relation.ReflTransGen (Follows clipCode) j (k + 1) := fun h _ hr hj hret => h.tail (.next hr hj hret)
  have hjl : Relation.ReflTransGen (Follows clipCode) 0 4 :=
    hnext (hnext (hnext (hnext .refl rfl rfl rfl) rfl rfl rfl) rfl rfl rfl) rfl rfl rfl
  have hno : Relation.ReflTransGen (Follows clipCode) 0 9 := hjl.tail (.jump (l := ".L1") rfl rfl rfl rfl)
  have hjnle : Relation.ReflTransGen (Follows clipCode) 0 14 :=
    hnext (hnext (hnext (hnext (hnext hno rfl rfl rfl) rfl rfl rfl) rfl rfl rfl) rfl rfl rfl) rfl rfl rfl
  have hinside : Relation.ReflTransGen (Follows clipCode) 0 17 := hnext (hjnle.tail (.jump (l := ".L4") rfl rfl rfl rfl)) rfl rfl rfl
  have hout : Relation.ReflTransGen (Follows clipCode) 0 19 := hinside.tail (.jump (l := ".L5") rfl rfl rfl rfl)
  exact ⟨hcheck, hlower, hout, check_returns_on_paths hcheck (.head _) (by decide) hlower hout⟩

end Bx.Procedural
