import Bx.Proofs.Structured.Correct

namespace Bx.Structured

open List Source Tac Tac.Body

theorem course_booland_ne {ops : Operators} {vars : String → BitVec 64} {l r : Expr} (hl : l.ConjunctionFree) (hr : r.ConjunctionFree)
    (line : Int) {b : Bool} (hb : (Expr.binary line .booland l r).truth ops vars = some b) :
    (Expr.binary line .booland l r).course ops vars ≠ .goes b := by
  rw [Expr.truth] at hb
  rw [Expr.course, course_eq hl, course_eq hr]
  cases htl : l.truth ops vars with
  | none => simp [Course.ofTruth, Course.andThen]
  | some u =>
    rw [htl] at hb
    cases u with
    | false =>
      cases hb
      simp [Course.ofTruth, Course.andThen]
    | true =>
      obtain hb : r.truth ops vars = some b := hb
      rw [hb]
      cases b <;> simp [Course.ofTruth, Course.andThen]

/-- A checked condition made of comparisons can be lowered, and its code takes its course: the right one without
conjunctions, and never if it is a conjunction of two such conditions. -/
theorem boolExpr_takes_course {e : Expr} (hf : e.Formed) {s : Scopes} (ht : e.check s = .ok .bool) (htest : e.isTestable = true)
    (yes no : String) {g : Gen} (hg : g.Sound) :
    ∃ c g', (boolExpr yes no e).run g = .ok ((), g') ∧ g'.code = g.code ++ c.map Op.record ∧
      ∀ (ops : Operators) (vars : String → BitVec 64), (∀ a b, ops.binop .sub a b = some (a - b)) →
        (∀ (p : Code) (pc ky kn : Nat) (Γ : Places) (σ : String → Option (BitVec 64)) (ws : List (BitVec 64)),
          Resolved p → CodeAt p pc c → labelAt p yes = some ky → labelAt p no = some kn → g'.Later Γ → Holds Γ vars σ →
          Takes Γ vars ops p pc (pc + c.length) ky kn ⟨pc, σ, ws⟩ (e.course ops vars)) ∧
        (e.ConjunctionFree → e.course ops vars = .ofTruth (e.truth ops vars)) ∧
        (∀ line l r b, e = .binary line .booland l r → l.ConjunctionFree → r.ConjunctionFree → e.truth ops vars = some b →
          e.course ops vars ≠ .goes b) := by
  have hmarks : Marks (e.isTestable = true) [.str yes, .str no] [] (boolExpr yes no e) := boolExpr_marks e (.head _) (.tail _ (.head _))
  obtain ⟨⟨u, g'⟩, hrun⟩ := (hmarks.decides g).2 htest
  obtain ⟨c, hem, hc⟩ := Lowers.boolExpr hf ht yes no g g' u hrun
  refine ⟨c, g', hrun, hem.code, fun ops vars hsub => ⟨?_, course_eq, ?_⟩⟩
  · intro p pc ky kn Γ σ ws hp hat hy hn hlater hσ
    exact (hc Γ hg hlater).takes hsub hp hat hy hn hσ ws
  · rintro line l r b rfl hl hr hb
    exact course_booland_ne hl hr line hb

def either : Expr :=
  .binary 1 .boolor (.binary 1 .booleq (.var 1 "x") (.num 1 1)) (.unary 1 .boolnot (.binary 1 .booleq (.var 1 "y") (.num 1 2)))

def eitherCode : List Record :=
  [.of "copy" [.str "%0"] (.str "%2"), .of "const" [.int 1] (.str "%3"), .of "sub" [.str "%2", .str "%3"] (.str "%2"),
    .of "jz" [.str "%2", .str ".L0"] .null, .of "jmp" [.str ".L2"] .null, .of "label" [.str ".L2"] .null,
    .of "copy" [.str "%1"] (.str "%4"), .of "const" [.int 2] (.str "%5"), .of "sub" [.str "%4", .str "%5"] (.str "%4"),
    .of "jz" [.str "%4", .str ".L1"] .null, .of "jmp" [.str ".L0"] .null]

def fenced (body : List Record) : Code := code (body ++ [.of "label" [.str ".L0"] .null, .of "label" [.str ".L1"] .null])

theorem codeAt_fenced (c : List Instruction) : CodeAt (fenced (c.map Op.record)) 0 c := by
  rw [fenced, code, map_append]
  change c.map some <+: code (c.map Op.record) ++ _
  rw [code_records]
  exact prefix_append _ _

/-- If both variables are 0, the code goes to the first label. -/
theorem boolExpr_takes_course_either :
    (boolExpr ".L0" ".L1" either).run ⟨2, 2, [("x", "%0"), ("y", "%1")], []⟩ = .ok ((), ⟨6, 3, [("x", "%0"), ("y", "%1")], eitherCode⟩) ∧
    either.truth .words (fun _ => 0) = some true ∧ labelAt (fenced eitherCode) ".L0" = some 11 ∧
    ∃ j σ, (machine .words (fenced eitherCode)).Reaches j ⟨0, fun _ => some 0, []⟩ ⟨11, σ, []⟩ ∧
      Holds [("x", "%0"), ("y", "%1")] (fun _ => 0) σ := by
  have hf : either.Formed := by simp [either, Expr.Formed]
  have ht : either.check [[("x", .int), ("y", .int)]] = .ok .bool := by cbv
  have hg : Gen.Sound ⟨2, 2, [("x", "%0"), ("y", "%1")], []⟩ := by
    refine ⟨by decide, by decide, fun t ht => ?_⟩
    simp only [map_cons, map_nil, mem_cons, not_mem_nil, or_false] at ht
    rcases ht with rfl | rfl
    · exact ⟨0, by decide, by decide⟩
    · exact ⟨1, by decide, by decide⟩
  have hlower : (boolExpr ".L0" ".L1" either).run ⟨2, 2, [("x", "%0"), ("y", "%1")], []⟩ =
      .ok ((), ⟨6, 3, [("x", "%0"), ("y", "%1")], eitherCode⟩) := by cbv
  obtain ⟨c, g', hrun, hcode, h⟩ := boolExpr_takes_course hf ht rfl ".L0" ".L1" hg
  obtain rfl : g' = _ := (Prod.mk.inj (Except.ok.inj (hrun.symm.trans hlower))).2
  have hat : CodeAt (fenced eitherCode) 0 c := by
    rw [show eitherCode = c.map Op.record from hcode]
    exact codeAt_fenced c
  have hp : Resolved (fenced eitherCode) := fun k l hk => labelAt_eq_some (by decide) hk
  have hyes : labelAt (fenced eitherCode) ".L0" = some 11 := by decide
  have hno : labelAt (fenced eitherCode) ".L1" = some 12 := by decide
  have htakes := (h .words (fun _ => 0) fun _ _ => rfl).1 _ 0 11 12 [("x", "%0"), ("y", "%1")] (fun _ => some 0) [] hp hat hyes hno
    ⟨[], rfl, by simp⟩ fun _ _ _ => rfl
  exact ⟨hlower, by decide, hyes, htakes⟩

def conjunctionCode (l : String) : List Record :=
  [.of "jmp" [.str ".L2"] .null, .of "label" [.str ".L2"] .null, .of "jmp" [.str l] .null]

/-- One that does not hold goes to the label for one that does, and one that holds goes round for ever. -/
theorem booland_goes_wrong :
    (boolExpr ".L0" ".L1" (.binary 1 .booland (.bool 1 true) (.bool 1 false))).run ⟨0, 2, [], []⟩ =
      .ok ((), ⟨0, 3, [], conjunctionCode ".L0"⟩) ∧
    labelAt (fenced (conjunctionCode ".L0")) ".L0" = some 3 ∧
    (∀ σ ws, (machine .words (fenced (conjunctionCode ".L0"))).Reaches 3 ⟨0, σ, ws⟩ ⟨3, σ, ws⟩) ∧
    (boolExpr ".L0" ".L1" (.binary 1 .booland (.bool 1 true) (.bool 1 true))).run ⟨0, 2, [], []⟩ =
      .ok ((), ⟨0, 3, [], conjunctionCode ".L2"⟩) ∧
    ∀ n σ ws, ∃ k < 3, (machine .words (fenced (conjunctionCode ".L2"))).Reaches n ⟨0, σ, ws⟩ ⟨k, σ, ws⟩ := by
  refine ⟨by cbv, by decide, fun σ ws => .step rfl (.step rfl (.one rfl)), by cbv, fun n σ ws => ?_⟩
  -- From behind the first jump, the code is a cycle of two instructions.
  have hround : ∀ n k, k < 3 → ∃ k' < 3, (machine .words (fenced (conjunctionCode ".L2"))).Reaches n ⟨k, σ, ws⟩ ⟨k', σ, ws⟩ := by
    intro n
    induction n with
    | zero => exact fun k hk => ⟨k, hk, .refl _⟩
    | succ n ih =>
      intro k hk
      have hnext : ∃ k' < 3, (machine .words (fenced (conjunctionCode ".L2"))).next ⟨k, σ, ws⟩ = .go ⟨k', σ, ws⟩ := by
        interval_cases k
        · exact ⟨1, by decide, rfl⟩
        · exact ⟨2, by decide, rfl⟩
        · exact ⟨1, by decide, rfl⟩
      obtain ⟨k₁, hk₁, hstep⟩ := hnext
      obtain ⟨k₂, hk₂, hr⟩ := ih k₁ hk₁
      exact ⟨k₂, hk₂, .step hstep hr⟩
  exact hround n 0 (by decide)

end Bx.Structured
