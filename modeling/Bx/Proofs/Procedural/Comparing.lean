import Bx.Proofs.Procedural.Running
import Bx.Proofs.Word

namespace Bx.Procedural

open Source Tac Run Run.Loose

def orderOf? : Op → Option (Int → Int → Bool)
  | .booleq => some (· == ·)
  | .boolneq => some (· != ·)
  | .less => some (· < ·)
  | .lesseq => some (· ≤ ·)
  | .greater => some (· > ·)
  | .greatereq => some (· ≥ ·)
  | _ => none

section Order

variable {op : Op} {R : Int → Int → Bool}

theorem holds_toNat (cond : Word.Cond) (d : BitVec 64) : holds cond (.int d.toNat) = .ok (cond.holds d.toNat) := by
  cases cond <;> rfl

theorem toNat_eq_zero_iff (d : BitVec 64) : (d.toNat : Int) = 0 ↔ d.toInt = 0 := by
  have hd := d.isLt
  rw [BitVec.toInt_eq_toNat_cond]
  omega

theorem exists_cond_of_order (h : orderOf? op = some R) :
    ∃ cond : Word.Cond, comparison? op = some cond.name ∧ ∀ d : BitVec 64, holds cond (.int d.toNat) = .ok (R d.toInt 0) := by
  simp only [holds_toNat]
  cases op <;> cases h
  case booleq => exact ⟨.z, rfl, fun d => by simp [Word.Cond.holds, ← toNat_eq_zero_iff]⟩
  case boolneq => exact ⟨.nz, rfl, fun d => by simp [Word.Cond.holds, bne, beq_eq_decide, ← toNat_eq_zero_iff]⟩
  case less => exact ⟨.l, rfl, fun d => by rw [Word.Cond.holds, Word.toSigned_toNat]⟩
  case lesseq => exact ⟨.le, rfl, fun d => by rw [Word.Cond.holds, Word.toSigned_toNat]⟩
  case greater => exact ⟨.nle, rfl, fun d => by rw [Word.Cond.holds, Word.toSigned_toNat]⟩
  case greatereq => exact ⟨.nl, rfl, fun d => by rw [Word.Cond.holds, Word.toSigned_toNat]⟩

theorem order_sub_iff (h : orderOf? op = some R) (u v : BitVec 64) :
    R (u - v).toInt 0 = R u.toInt v.toInt ↔ (op = .booleq ∨ op = .boolneq) ∨ u.ssubOverflow v = false := by
  have hu := u.isLt
  have hv := v.isLt
  rw [BitVec.toInt_sub, BitVec.ssubOverflow, Int.bmod_def]
  cases op <;> cases h <;> simp [BitVec.toInt_eq_toNat_cond] <;> grind

end Order

section Jumps

variable {o : Options} {procs : List (String × Proc Record)} {f : Frame} {fs : List Frame} {b k dy dn : List Record} {yes no : String}

theorem exec_cond {cond : Word.Cond} {x : String} {v : Datum} {t : Bool} {there : Nat} {w : World} (hx : IsLocal x)
    (hv : f.temps.lookup x = some v) (ht : holds cond v = .ok t) (hthere : Loose.jump f (.str yes) = .ok there) :
    result (exec o f (.of cond.name [.str x, .str yes] .null)) w = (.ok (.go { f with pc := if t then there else f.pc + 1 }), w) := by
  cases cond <;>
    simp [exec, compute, Record.of, Record.arg, Word.Cond.name, Word.Cond.ofName?, Store.read, get_local hx hv, ht, hthere]

theorem reaches_either (ho : o.showInstrs = false) {cond : Word.Cond} {x : String} {v : Datum} {t : Bool} {stack : List Frame} {w w' : World}
    (h : Reaches (semantics o procs) stack w (f :: fs) w')
    (hc : f.code = .of cond.name [.str x, .str yes] .null :: jumpRecord no :: k) (hf : f.Runs b) (hyes : after b yes = some dy)
    (hno : after b no = some dn) (hx : IsLocal x) (hv : f.temps.lookup x = some v) (ht : holds cond v = .ok t) :
    ∃ f', Reaches (semantics o procs) stack w (f' :: fs) w' ∧ f'.code = if t then dy else dn := by
  obtain ⟨there, hthere, hdy⟩ := hf.jump hyes
  have hgo : result ((semantics o procs).advance f) w' = (.ok (.go { f with pc := if t then there else f.pc + 1 }), w') := by
    rw [← exec_cond hx hv ht hthere, ← advance_of_cons ho hc]
    rfl
  have hstep := h.trans (reaches_go hgo)
  cases t with
  | true => exact ⟨_, hstep, hdy⟩
  | false =>
    obtain ⟨other, hother, hdn⟩ := Frame.Runs.jump (f := { f with pc := f.pc + 1 }) ⟨hf.body, hf.labels⟩ hno
    refine ⟨_, hstep.trans (reaches_go ?_), hdn⟩
    rw [← result_exec_jmp (o := o) (r := jumpRecord no) rfl rfl hother w', ← advance_of_cons ho (Frame.code_succ hc)]
    rfl

end Jumps

section Compare

variable {o : Options} {procs : List (String × Proc Record)} {g g' : Stage} {op : Op} {R : Int → Int → Bool} {line : Int} {l r : Expr}
  {yes no : String} {c b k dy dn : List Record} {memory : Fields} {f : Frame} {fs : List Frame} {x y : Datum} {u v : BitVec 64}
  {ps₁ ps₂ : List Datum} {w w₁ w₂ : World}

theorem applyBinop_sub (hu : x.number? = some (u.toNat : Int)) (hv : y.number? = some (v.toNat : Int)) :
    applyBinop .sub x y = .ok (.int (u - v).toNat) := by
  simp [applyBinop, Fault.number, hu, hv, Word.Binop.eval_toNat, Word.Binop.fault?, Word.Binop.value]

theorem CondCode.compares (ho : o.showInstrs = false) (hR : orderOf? op = some R) {os : List String}
    (h : CondCode g yes no (.binary line op l r) os c g') (hfresh : g.Fresh) (hmem : Agree g memory f.temps) (hf : f.Runs b)
    (hc : f.code = c ++ k) (hyes : after b yes = some dy) (hno : after b no = some dn)
    (hl : Evaluates (semantics o procs) g.find? memory f.depth fs.length (.value l) f.params w [x] ps₁ w₁)
    (hr : Evaluates (semantics o procs) g.find? memory f.depth fs.length (.value r) ps₁ w₁ [y] ps₂ w₂)
    (hu : x.number? = some (u.toNat : Int)) (hv : y.number? = some (v.toNat : Int)) :
    ∃ f', Reaches (semantics o procs) (f :: fs) w (f' :: fs) w₂ ∧ f'.code = if R (u - v).toInt 0 then dy else dn := by
  obtain ⟨cond, hcond, hholds⟩ := exists_cond_of_order hR
  cases h with
  | and | or => cases hR
  | idle hidle => simp [Expr.isIdle, hcond] at hidle
  | @compare _ g₁ _ _ _ _ _ _ _ jump os os' c d hop hcl hcr =>
    obtain rfl : jump = cond.name := Option.some.inj (hop.symm.trans hcond)
    simp only [List.append_assoc] at hc
    -- Both temporaries are taken before the operands are computed, so that the code of the second keeps the first.
    have htwo : g.Past g.taken.taken := g.past_taken.trans g.taken.past_taken
    obtain ⟨hg, temps, hold, hgoes⟩ := hcl.leads ho (hfresh.past htwo) hmem ⟨_, rfl, isLocal_tempName _⟩ hc hl
    have hg₁ := htwo.trans hg
    have hc₁ := Frame.code_moved hc ps₁ (Datum.put (tempName g.next) x temps)
    have hold₁ : Older g.next f.temps (Datum.put (tempName g.next) x temps) := (hold.mono htwo.2).put x
    rw [← hg₁.find] at hr
    obtain ⟨hg', temps', hold', hgoes'⟩ := hcr.leads ho (hfresh.past hg₁) (hmem.older hfresh hg₁ hold₁)
      ⟨_, rfl, isLocal_tempName _⟩ hc₁ hr
    have hc₂ := Frame.code_moved hc₁ ps₂ (Datum.put (tempName (g.next + 1)) y temps')
    have hx : (Datum.put (tempName (g.next + 1)) y temps').lookup (tempName g.next) = some x := by
      have hlt : g.next + 1 < g₁.next := hg.2
      rw [lookup_put_ne (by simp [tempName_inj]), hold'.temp (Nat.lt_of_succ_lt hlt)]
      exact lookup_put_self _ x temps
    have hsub := Reaches.trans hgoes (Reaches.trans hgoes' (goes_binop (b := .sub) ho hc₂ (isLocal_tempName _) (isLocal_tempName _)
      (isLocal_tempName _) hx (lookup_put_self _ y temps') (applyBinop_sub hu hv)))
    have hc₃ := Frame.code_moved (c := [_]) hc₂ ps₂
      (Datum.put (tempName g.next) (.int (u - v).toNat) (Datum.put (tempName (g.next + 1)) y temps'))
    exact reaches_either ho hsub hc₃ ⟨hf.body, hf.labels⟩ hyes hno (isLocal_tempName _) (lookup_put_self ..) (hholds (u - v))

/-- The code of a comparison goes by how the wrapped-around difference of its operands compares with 0: as the operands do,
just if only equality is asked for or the difference does not overflow. -/
theorem boolExpr_goes_by_difference (ho : o.showInstrs = false) (procs : List (String × Proc Record)) (hR : orderOf? op = some R)
    {s s' : Gen} (hfresh : s.stage.Fresh) (hlower : (boolExpr yes no (.binary line op l r)).run s = .ok ((), s')) :
    ∃ c, s'.code = s.code ++ c ∧ ∀ (f : Frame) (fs : List Frame) (b k dy dn : List Record), f.Runs b → f.code = c ++ k →
      after b yes = some dy → after b no = some dn → ∀ (x y : Datum) (u v : BitVec 64) (ps₁ ps₂ : List Datum) (w w₁ w₂ : World),
      x.number? = some (u.toNat : Int) → y.number? = some (v.toNat : Int) →
      Evaluates (semantics o procs) s.stage.find? f.temps f.depth fs.length (.value l) f.params w [x] ps₁ w₁ →
      Evaluates (semantics o procs) s.stage.find? f.temps f.depth fs.length (.value r) ps₁ w₁ [y] ps₂ w₂ →
      (∃ f', Reaches (semantics o procs) (f :: fs) w (f' :: fs) w₂ ∧ f'.code = if R (u - v).toInt 0 then dy else dn) ∧
      (R (u - v).toInt 0 = R u.toInt v.toInt ↔ (op = .booleq ∨ op = .boolneq) ∨ u.ssubOverflow v = false) := by
  obtain ⟨c, hadds, os, hcode⟩ := Lowers.boolExpr yes no _ s s' () hlower
  refine ⟨c, hadds, ?_⟩
  intro f fs b k dy dn hf hc hyes hno x y u v ps₁ ps₂ w w₁ w₂ hu hv hl hr
  exact ⟨hcode.compares ho hR hfresh (fun _ _ _ => rfl) hf hc hyes hno hl hr hu hv, order_sub_iff hR u v⟩

end Compare

section Parameter

def lessThanTwo : Expr := .binary 1 .less (.var 1 "x") (.num 1 2)

def lessThanTwoCode : List Record := [
  .of "copy" [.str "%x"] (.str "%0"), .of "const" [.int 2] (.str "%1"), .of "sub" [.str "%0", .str "%1"] (.str "%0"),
  .of "jl" [.str "%0", .str ".Lyes"] .null, jumpRecord ".Lno"]

theorem boolExpr_lessThanTwo : (boolExpr ".Lyes" ".Lno" lessThanTwo).run withParameter =
    .ok ((), { withParameter with next := 2, code := lessThanTwoCode }) := rfl

def asking (u : BitVec 64) : Frame :=
  let body := lessThanTwoCode ++ [labelRecord ".Lyes", labelRecord ".Lno"]
  ⟨"@h", body.toArray, placesFrom 0 body, 0, 0, [], [("%x", .int u.toNat)]⟩

theorem evaluates_asking {S : Semantics Frame} {depth : Int} {height : Nat} (ps : List Datum) (u : BitVec 64) :
    Evaluates S withParameter.stage.find? (asking u).temps depth height (.value (.var 1 "x")) ps outside [.int u.toNat] ps
      outside := by
  refine evaluates_parameter (isWord_int ⟨Int.natCast_nonneg _, ?_⟩)
  rw [Word.size]
  have hu := u.isLt
  omega

theorem asking_reaches (u : BitVec 64) : ∃ f', Reaches (semantics {} []) [asking u] outside [f'] outside ∧
    f'.code = if decide ((u - 2).toInt < 0) then [labelRecord ".Lno"] else [] := by
  obtain ⟨c, hc, os, hcode⟩ := Lowers.boolExpr ".Lyes" ".Lno" _ withParameter _ () boolExpr_lessThanTwo
  obtain rfl : lessThanTwoCode = c := hc
  have hx : (Datum.int u.toNat).number? = some (u.toNat : Int) := rfl
  exact hcode.compares (o := {}) (v := 2) rfl rfl fresh_withParameter (fun _ _ _ => rfl) ⟨rfl, rfl⟩ rfl rfl rfl
    (evaluates_asking [] u) .num hx rfl

end Parameter

theorem boolExpr_goes_by_difference_one : ∃ f', Reaches (semantics {} []) [asking 1] outside [f'] outside ∧
    f'.code = [labelRecord ".Lno"] := by
  obtain ⟨c, hc, hruns⟩ := boolExpr_goes_by_difference (o := {}) rfl [] rfl fresh_withParameter boolExpr_lessThanTwo
  obtain rfl : lessThanTwoCode = c := hc
  exact (hruns (asking 1) [] _ _ _ _ ⟨rfl, rfl⟩ rfl rfl rfl _ _ 1 2 _ _ outside _ _ rfl rfl (evaluates_asking [] 1) .num).1

/-- A number that is far less than 2 is taken not to be. -/
theorem less_goes_wrong : (9223372036854775809#64).toInt < 2 ∧
    ∃ f', Reaches (semantics {} []) [asking 9223372036854775809#64] outside [f'] outside ∧ f'.code = [] :=
  ⟨by decide, asking_reaches _⟩

end Bx.Procedural
