import Bx.Proofs.Procedural.Running

namespace Bx.Procedural

open List Source Tac Run Run.Loose

def Expr.hasCall : Expr → Bool
  | .unary _ _ e => e.hasCall
  | .binary _ _ l r => l.hasCall || r.hasCall
  | .call _ _ _ => true
  | _ => false

def Expr.waiting (e : Expr) (ps : List Datum) : List Datum := if e.hasCall then [] else ps

theorem Expr.waiting_of_hasCall {e : Expr} (h : e.hasCall) (ps : List Datum) : e.waiting ps = [] := if_pos h

theorem Expr.waiting_of_free {e : Expr} (h : e.hasCall = false) (ps : List Datum) : e.waiting ps = ps := by
  rw [Expr.waiting, h]
  rfl

def passed : Nat → List Expr → List Datum → List Datum → List Datum
  | k, e :: es, v :: vs, ps =>
    if k < inOrder then passed (k + 1) es vs (placed (e.waiting ps) k v) else placed (e.waiting (passed (k + 1) es vs ps)) k v
  | _, _, _, ps => ps

def Task.waiting (vs ps : List Datum) : Task → List Datum
  | .value e => e.waiting ps
  | .args k es => passed k es vs ps

def Task.count : Task → Nat
  | .value _ => 1
  | .args _ es => es.length

section Evaluates

variable {φ : Type} {S : Semantics φ} {find : String → Option String} {memory : Fields} {depth : Int} {height : Nat} {task : Task}
  {ps vs ps' : List Datum} {w w' : World}

variable (h : Evaluates S find memory depth height task ps w vs ps' w')
include h

theorem Evaluates.waiting : ps' = task.waiting vs ps := by
  induction h with
  | var | num | bool | nil => rfl
  | unary _ _ _ ih => exact ih
  | binary _ _ _ _ ihl ihr =>
    rw [ihr, ihl]
    simp only [Task.waiting, Expr.waiting, Expr.hasCall]
    grind
  | call => rfl
  | early hk _ _ ihe ihr => rw [ihr, ihe, Task.waiting, Task.waiting, Task.waiting, passed, if_pos hk]
  | late hk _ _ ihr ihe => rw [ihe, ihr, Task.waiting, Task.waiting, Task.waiting, passed, if_neg hk]

theorem Evaluates.length : vs.length = task.count := by
  induction h with
  | var | num | bool | unary | binary | call | nil => rfl
  | early _ _ _ _ ih | late _ _ _ ih _ => exact congrArg (· + 1) ih

theorem Evaluates.words : ∀ v ∈ vs, IsWord v := by
  induction h with
  | var _ _ hv | call _ _ _ _ _ hv => simpa using hv
  | num => simpa using isWord_int (Word.ofInt_range _)
  | @bool _ b => cases b <;> simpa using isWord_int (by decide)
  | unary _ _ hr => simpa using isWord_of_applyUnop hr
  | binary _ _ _ hz => simpa using isWord_of_applyBinop hz
  | nil => simp
  | early _ _ _ ihe ihr | late _ _ _ ihr ihe => simpa using ⟨ihe _ mem_cons_self, ihr⟩

end Evaluates

section Passed

variable {k : Nat} {e : Expr} {es : List Expr} {v : Datum} {vs ps : List Datum}

theorem getElem?_placed (ps : List Datum) (k : Nat) (v : Datum) (i : Nat) :
    (placed ps k v)[i]? = if i = k then some v else if i < k then some (ps[i]?.getD .null) else ps[i]? := by
  rw [placed, List.getElem?_set, List.getElem?_append]
  grind

theorem getElem?_passed (hlen : vs.length = es.length) (hfree : ∀ e ∈ es, e.hasCall = false) (i : Nat) :
    (passed k es vs ps)[i]? = if k ≤ i ∧ i < k + vs.length then vs[i - k]?
      else if i < k ∧ vs ≠ [] then some (ps[i]?.getD .null) else ps[i]? := by
  induction es generalizing k vs ps with
  | nil =>
    obtain rfl := length_eq_zero_iff.1 hlen
    simp [passed]
  | cons e es ih =>
    obtain ⟨v, vs, rfl⟩ := exists_cons_of_length_eq_add_one hlen
    have hlen' : vs.length = es.length := Nat.succ.inj hlen
    have hfree' : ∀ e ∈ es, e.hasCall = false := fun e he => hfree e (mem_cons_of_mem _ he)
    simp only [passed, Expr.waiting_of_free (hfree e mem_cons_self)]
    by_cases hk : k < inOrder
    · rw [if_pos hk, ih hlen' hfree', getElem?_placed]
      grind
    · rw [if_neg hk, getElem?_placed, ih hlen' hfree']
      grind

theorem passed_head_of_hasCall (hlen : vs.length = es.length) (hk : 0 < k) (hcall : ∃ e ∈ es, e.hasCall) :
    (passed k es vs ps)[0]? = some .null := by
  induction es generalizing k vs ps with
  | nil => simp at hcall
  | cons e es ih =>
    obtain ⟨v, vs, rfl⟩ := exists_cons_of_length_eq_add_one hlen
    have hlen' : vs.length = es.length := Nat.succ.inj hlen
    -- If there are more calls to come, the induction hypothesis is about them. The last one leaves no arguments in
    -- waiting, and whatever is passed after it goes behind the first place.
    by_cases hes : ∃ e ∈ es, e.hasCall
    · rw [passed]
      split
      · exact ih hlen' (Nat.succ_pos k) hes
      · rw [getElem?_placed, if_neg (Nat.ne_of_lt hk), if_pos hk, Expr.waiting]
        split
        · rfl
        · rw [ih hlen' (Nat.succ_pos k) hes]
          rfl
    · have hfree : ∀ e ∈ es, e.hasCall = false := by simpa using hes
      have he : e.hasCall := by simpa [hes] using hcall
      simp only [passed, Expr.waiting_of_hasCall he]
      split
      · rw [getElem?_passed hlen' hfree, getElem?_placed]
        grind
      · rw [getElem?_placed, if_neg (Nat.ne_of_lt hk), if_pos hk]
        rfl

theorem passed_eq_iff (hlen : vs.length = es.length) (hvs : ∀ v ∈ vs, v ≠ .null) :
    passed 0 es vs ps = vs ↔
      (∀ e ∈ es.tail, e.hasCall = false) ∧ (es.head?.any Expr.hasCall ∨ ps.length ≤ es.length) := by
  cases es with
  | nil =>
    obtain rfl := length_eq_zero_iff.1 hlen
    simp [passed]
  | cons e es =>
    obtain ⟨v, vs, rfl⟩ := exists_cons_of_length_eq_add_one hlen
    have hlen' : vs.length = es.length := Nat.succ.inj hlen
    rw [passed, if_pos (by decide)]
    by_cases hes : ∃ e ∈ es, e.hasCall
    · have hhead : (passed 1 es vs (placed (e.waiting ps) 0 v))[0]? = some .null := passed_head_of_hasCall hlen' Nat.one_pos hes
      constructor
      · intro heq
        rw [heq] at hhead
        exact absurd (Option.some.inj hhead) (hvs v mem_cons_self)
      · rintro ⟨hfree, -⟩
        obtain ⟨e, he, hcall⟩ := hes
        rw [hfree e he] at hcall
        cases hcall
    · have hfree : ∀ e ∈ es, e.hasCall = false := by simpa using hes
      have hwaiting : (e.waiting ps).length ≤ es.length + 1 ↔ e.hasCall ∨ ps.length ≤ es.length + 1 := by
        rw [Expr.waiting]
        grind
      have hall : passed 1 es vs (placed (e.waiting ps) 0 v) = v :: vs ++ (e.waiting ps).drop (vs.length + 1) := by
        apply ext_getElem?
        intro i
        rw [getElem?_passed hlen' hfree, getElem?_placed]
        grind
      simpa [hall, hlen', hwaiting] using fun _ => hfree

end Passed

section Calls

variable {o : Options} {procs : List (String × Proc Record)} {s s' : Gen} {target : Datum} {line : Int} {name : String} {args : List Expr}

theorem intExpr_call_leads (ho : o.showInstrs = false) (hfresh : s.stage.Fresh)
    (hlower : (intExpr target (.call line name args)).run s = .ok ((), s')) :
    ∃ c, s'.code = s.code ++ c ∧
      ∀ (f : Frame) (fs : List Frame) (k : List Record) (w w' : World) (vs ps' : List Datum), f.code = c ++ k →
        Evaluates (semantics o procs) s.stage.find? f.temps f.depth fs.length (.args 0 args) f.params w vs ps' w' →
        ∃ f', Reaches (semantics o procs) (f :: fs) w (f' :: fs) w' ∧
          f'.code = .of "call" [.str ("@" ++ name), .int args.length] target :: k ∧ f'.params = passed 0 args vs f.params := by
  obtain ⟨_, hadds, os, hcode⟩ := Lowers.intExpr target _ s s' () hlower
  cases hcode with
  | @call _ _ _ _ _ _ _ c hargs =>
    refine ⟨_, hadds, ?_⟩
    intro f fs k w w' vs ps' hc he
    rw [append_assoc] at hc
    obtain ⟨-, temps, -, hgoes⟩ := hargs.leads ho hfresh (fun _ _ _ => rfl) trivial hc he
    exact ⟨_, hgoes, Frame.code_moved hc .., he.waiting⟩

/-- When a call is reached, the arguments in waiting are what is left of those passed: the values of its arguments just if no
argument but the first has a call in it, and not more were in waiting before than there are places, or the first argument's
call took them. -/
theorem call_receives_iff (ho : o.showInstrs = false) (procs : List (String × Proc Record)) (hfresh : s.stage.Fresh)
    (hlower : (intExpr target (.call line name args)).run s = .ok ((), s')) :
    ∃ c, s'.code = s.code ++ c ∧
      ∀ (f : Frame) (fs : List Frame) (k : List Record) (w w' : World) (vs ps' : List Datum), f.code = c ++ k →
        Evaluates (semantics o procs) s.stage.find? f.temps f.depth fs.length (.args 0 args) f.params w vs ps' w' →
        ∃ f', Reaches (semantics o procs) (f :: fs) w (f' :: fs) w' ∧
          f'.code = .of "call" [.str ("@" ++ name), .int args.length] target :: k ∧ f'.params = passed 0 args vs f.params ∧
          vs.length = args.length ∧ (f'.params = vs ↔
            (∀ e ∈ args.tail, e.hasCall = false) ∧ (args.head?.any Expr.hasCall = true ∨ f.params.length ≤ args.length)) := by
  obtain ⟨c, hadds, hleads⟩ := intExpr_call_leads ho hfresh hlower
  refine ⟨c, hadds, ?_⟩
  intro f fs k w w' vs ps' hc he
  obtain ⟨f', hreach, hcode, hparams⟩ := hleads f fs k w w' vs ps' hc he
  have hvs : ∀ v ∈ vs, v ≠ .null := by
    rintro v hv rfl
    obtain ⟨n, hn, -⟩ := he.words _ hv
    cases hn
  refine ⟨f', hreach, hcode, hparams, he.length, ?_⟩
  rw [hparams]
  exact passed_eq_iff he.length hvs

end Calls

section Nested

def givenBack : List (String × Proc Record) := [("@g", ⟨"@g", [.str "%z"], [.of "ret" [.str "%z"] .null]⟩)]

def givingBack : Frame := ⟨"@g(%z=2)", #[.of "ret" [.str "%z"] .null], [], 1, 0, [], [("%z", .int 2)]⟩

theorem returns_givenBack : Returns (semantics {} givenBack) 1 "@g" [.int 2] 1 outside (.int 2) outside := by
  refine ⟨givingBack, outside, by cbv, ?_⟩
  intro fs _
  exact ⟨_, _, .refl _ _, by cbv⟩

def inner : Expr := .call 1 "g" [.num 1 2]

theorem evaluates_inner {find : String → Option String} {memory : Fields} {ps : List Datum} (h : placed ps 0 (.int 2) = [.int 2]) :
    Evaluates (semantics {} givenBack) find memory 0 0 (.value inner) ps outside [.int 2] [] outside := by
  refine .call (.early (by decide) .num .nil) rfl ?_ (by decide) ?_ (isWord_int (by decide))
  · change [Expr.num 1 2].length ≤ (placed ps 0 (.int 2)).length
    rw [h]
    rfl
  · change Returns _ _ _ (placed ps 0 (.int 2)) _ _ _ _
    rw [h]
    exact returns_givenBack

def calling (s : Gen) : Frame := ⟨"@h", s.code.toArray, [], 0, 0, [], [("%x", .int 1)]⟩

theorem code_calling {s : Gen} {c : List Record} (h : s.code = withParameter.code ++ c) : (calling s).code = c ++ [] := by
  simp [calling, Frame.code, h, withParameter]

end Nested

theorem call_receives_iff_inner_first : ∃ s f', (intExpr (.str "%r") (.call 1 "f" [inner, .var 1 "x"])).run withParameter = .ok ((), s) ∧
    Reaches (semantics {} givenBack) [calling s] outside [f'] outside ∧
    f'.code = [.of "call" [.str "@f", .int 2] (.str "%r")] ∧ f'.params = [.int 2, .int 1] := by
  obtain ⟨s, hs⟩ : ∃ s, (intExpr (.str "%r") (.call 1 "f" [inner, .var 1 "x"])).run withParameter = .ok ((), s) := ⟨_, rfl⟩
  obtain ⟨c, hc, hruns⟩ := call_receives_iff (o := {}) rfl givenBack fresh_withParameter hs
  obtain ⟨f', hreach, hcall, -, -, hiff⟩ := hruns (calling s) [] [] outside outside _ _ (code_calling hc)
    (.early (by decide) (evaluates_inner rfl) (.early (by decide) (evaluates_parameter (isWord_int (by decide))) .nil))
  refine ⟨s, f', hs, hreach, hcall, hiff.2 ⟨?_, .inl rfl⟩⟩
  simp [Expr.hasCall]

/-- An argument that was passed before a call in the next one is lost. -/
theorem call_loses_argument : ∃ s f', (intExpr (.str "%r") (.call 1 "f" [.num 1 1, inner])).run withParameter = .ok ((), s) ∧
    Reaches (semantics {} givenBack) [calling s] outside [f'] outside ∧
    f'.code = [.of "call" [.str "@f", .int 2] (.str "%r")] ∧ f'.params = [.null, .int 2] := by
  obtain ⟨s, hs⟩ : ∃ s, (intExpr (.str "%r") (.call 1 "f" [.num 1 1, inner])).run withParameter = .ok ((), s) := ⟨_, rfl⟩
  obtain ⟨c, hc, hruns⟩ := intExpr_call_leads (o := {}) rfl fresh_withParameter hs
  obtain ⟨f', hreach, hcall, hparams⟩ := hruns (calling s) [] [] outside outside _ _ (code_calling hc)
    (.early (by decide) .num (.early (by decide) (evaluates_inner rfl) .nil))
  exact ⟨s, f', hs, hreach, hcall, hparams⟩

end Bx.Procedural
