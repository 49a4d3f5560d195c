import Bx.Proofs.Procedural.Naming
import Bx.Proofs.Run.Loose
import Bx.Proofs.Run.Words
import Bx.Proofs.Structured.Evaluation

open List

namespace Bx.Tac.Run

variable {name : String} {n : Nat} {temps : Fields}

section Stack

variable {φ : Type} {S : Semantics φ} {f f' g h : φ} {fs gs hs : List φ} {v : Datum} {w w₁ w₂ : World}

theorem Reaches.trans (h : Reaches S fs w gs w₁) (h' : Reaches S gs w₁ hs w₂) : Reaches S fs w hs w₂ := by
  induction h with
  | refl => exact h'
  | step hs _ ih => exact .step hs (ih h')

theorem reaches_go (h : result (S.advance f) w = (.ok (.go f'), w₁)) : Reaches S (f :: fs) w (f' :: fs) w₁ := by
  refine .step ?_ (.refl _ _)
  simp [step, h]

theorem reaches_call {args : List Datum} {depth : Int} (hf : result (S.advance f) w = (.ok (.call f' name args depth), w₁))
    (hroom : fs.length < maxDepth) (hg : result (S.enter name (.list args) depth) w₁ = (.ok g, w₂)) :
    Reaches S (f :: fs) w (g :: f' :: fs) w₂ := by
  refine .step ?_ (.refl _ _)
  simp [step, hf, hg, Nat.not_le.2 hroom]

theorem reaches_ret (hh : result (S.advance h) w = (.ok (.ret v), w₁)) (hf : result (S.resume f v) w₁ = (.ok f', w₂)) :
    Reaches S (h :: f :: fs) w (f' :: fs) w₂ := by
  refine .step ?_ (.refl _ _)
  simp [step, hh, hf]

def Returns (S : Semantics φ) (height : Nat) (name : String) (args : List Datum) (depth : Int) (w : World) (v : Datum)
    (w' : World) : Prop :=
  ∃ g w₁, result (S.enter name (.list args) depth) w = (.ok g, w₁) ∧ ∀ fs : List φ, fs.length = height →
    ∃ h w₂, Reaches S (g :: fs) w₁ (h :: fs) w₂ ∧ result (S.advance h) w₂ = (.ok (.ret v), w')

theorem reaches_of_returns {args : List Datum} {depth : Int} (hf : result (S.advance f) w = (.ok (.call f' name args depth), w))
    (hroom : fs.length < maxDepth) (hr : Returns S (fs.length + 1) name args depth w v w₁)
    (hv : result (S.resume f' v) w₁ = (.ok g, w₂)) : Reaches S (f :: fs) w (g :: fs) w₂ := by
  obtain ⟨h, w', hh, hruns⟩ := hr
  obtain ⟨h', w'', hreach, hret⟩ := hruns (f' :: fs) rfl
  exact (reaches_call hf hroom hh).trans (hreach.trans (reaches_ret hret hv))

end Stack

def placed (ps : List Datum) (k : Nat) (v : Datum) : List Datum := (ps ++ List.replicate (k + 1 - ps.length) Datum.null).set k v

theorem setParam_eq (ps : List Datum) (k : Nat) (v : Datum) : setParam ps (k + 1) v = .ok (placed ps k v) := by
  have hpos : Datum.position? (ps ++ List.replicate (k + 1 - ps.length) Datum.null).length ((k : Int) + 1 - 1) = some k := by
    simp only [Datum.position?, length_append, length_replicate]
    grind
  have hroom : ((k : Int) + 1 - ps.length).toNat = k + 1 - ps.length := by omega
  rw [setParam, hroom, hpos]
  rfl

structure IsLocal (x : String) : Prop where
  var : isVarName x = true
  own : isGlobalName x = false

namespace Loose

variable {f : Frame} {fs : List Frame} {t x y : String} {u v r : Datum} {w w' : World} {k : List Record}

def Frame.moved (f : Frame) (n : Nat) (ps : List Datum) (temps : Fields) : Frame :=
  { f with pc := f.pc + n, params := ps, temps := temps }

theorem Frame.code_moved {c : List Record} (h : f.code = c ++ k) (ps : List Datum) (temps : Fields) :
    (f.moved c.length ps temps).code = k := by
  rw [Frame.code] at h
  rw [Frame.code, Frame.moved, ← drop_drop, h, drop_left]

def Goes (S : Semantics Frame) (f : Frame) (fs : List Frame) (w : World) (n : Nat) (ps : List Datum) (temps : Fields) (w' : World) : Prop :=
  Reaches S (f :: fs) w (f.moved n ps temps :: fs) w'

theorem Goes.refl (S : Semantics Frame) (f : Frame) (fs : List Frame) (w : World) : Goes S f fs w 0 f.params f.temps w :=
  Reaches.refl _ _

theorem Goes.trans {S : Semantics Frame} {m : Nat} {ps ps' : List Datum} {temps' : Fields} {w₁ : World}
    (h : Goes S f fs w m ps temps w₁) (h' : Goes S (f.moved m ps temps) fs w₁ n ps' temps' w') :
    Goes S f fs w (m + n) ps' temps' w' := by
  have hmoved : (f.moved m ps temps).moved n ps' temps' = f.moved (m + n) ps' temps' := by simp [Frame.moved, Nat.add_assoc]
  rw [Goes, hmoved] at h'
  exact Reaches.trans h h'

theorem result_assign (ht : IsLocal t) (hv : IsWord v) (f : Frame) (w : World) :
    result (assign f (.str t) v) w = (.ok (f.moved 1 f.params (Datum.put t v f.temps)), w) := by
  have hset : Store.write ⟨f.temps, w.globals⟩ (.str t) v = .ok ⟨Datum.put t v f.temps, w.globals⟩ := by
    simp [Store.write, Store.set, ht.var, ht.own, check_eq_ok.2 hv]
  simp [assign, hset, Frame.moved]

theorem isWord_of_applyUnop {op : Word.Unop} (h : applyUnop op v = .ok r) : IsWord r := by
  have hsound := Fits.applyUnop (E := fun _ => True) (fun _ _ => trivial) op v
  rwa [h] at hsound

theorem isWord_of_applyBinop {b : Word.Binop} (h : applyBinop b u v = .ok r) : IsWord r := by
  have hsound := Fits.applyBinop (E := fun _ => True) (fun _ _ => trivial) b u v
  rwa [h] at hsound

theorem get_local (ht : IsLocal t) (h : temps.lookup t = some v) (globals : Fields) : Store.get ⟨temps, globals⟩ t = .ok v := by
  simp [Store.get, Store.find, ht.own, h]

section Instructions

variable {o : Options} (ho : o.showInstrs = false) {procs : List (String × Proc Record)}
include ho

theorem goes_of_exec {i : Record} (hc : f.code = i :: k) {ps : List Datum}
    (h : result (exec o f i) w = (.ok (.go (f.moved 1 ps temps)), w')) : Goes (semantics o procs) f fs w 1 ps temps w' := by
  refine reaches_go ?_
  rw [← h, ← advance_of_cons ho hc]
  rfl

theorem goes_const {n : Int} (hc : f.code = .of "const" [.int n] (.str t) :: k) (ht : IsLocal t) :
    Goes (semantics o procs) f fs w 1 f.params (Datum.put t (.int (Word.ofInt n)) f.temps) w := by
  refine goes_of_exec ho hc ?_
  simp [exec, Record.of, Record.arg, Datum.number?, result_assign ht (isWord_int (Word.ofInt_range n))]

theorem goes_copy (hc : f.code = .of "copy" [.str x] (.str t) :: k) (ht : IsLocal t)
    (hx : Store.get ⟨f.temps, w.globals⟩ x = .ok v) (hv : IsWord v) :
    Goes (semantics o procs) f fs w 1 f.params (Datum.put t v f.temps) w := by
  refine goes_of_exec ho hc ?_
  simp [exec, Record.of, Record.arg, Store.read, hx, result_assign ht hv]

theorem goes_unop {op : Word.Unop} (hc : f.code = .of op.name [.str x] (.str t) :: k) (ht : IsLocal t) (hx : IsLocal x)
    (hv : f.temps.lookup x = some v) (hr : applyUnop op v = .ok r) :
    Goes (semantics o procs) f fs w 1 f.params (Datum.put t r f.temps) w := by
  have hword := isWord_of_applyUnop hr
  refine goes_of_exec ho hc ?_
  cases op <;>
    simp [exec, compute, Record.of, Record.arg, Word.Unop.name, Word.Cond.ofName?, Word.Binop.ofName?, Word.Unop.ofName?,
      Word.Cond.name, Word.Binop.name, Datum.isNull, Store.read, get_local hx hv, hr, result_assign ht hword]

theorem goes_binop {b : Word.Binop} (hc : f.code = .of b.name [.str x, .str y] (.str t) :: k) (ht : IsLocal t) (hx : IsLocal x)
    (hy : IsLocal y) (hu : f.temps.lookup x = some u) (hv : f.temps.lookup y = some v) (hr : applyBinop b u v = .ok r) :
    Goes (semantics o procs) f fs w 1 f.params (Datum.put t r f.temps) w := by
  have hword := isWord_of_applyBinop hr
  refine goes_of_exec ho hc ?_
  cases b <;>
    simp [exec, compute, Record.of, Record.arg, Word.Cond.ofName?, Word.Binop.ofName?, Word.Cond.name, Word.Binop.name, Store.read,
      get_local hx hu, get_local hy hv, hr, result_assign ht hword]

theorem goes_param (hc : f.code = .of "param" [.int (n + 1), .str x] .null :: k) (hx : IsLocal x)
    (hv : f.temps.lookup x = some v) : Goes (semantics o procs) f fs w 1 (placed f.params n v) f.temps w := by
  have hplace : (1 : Int) ≤ n + 1 := by omega
  refine goes_of_exec ho hc ?_
  simp [exec, passParam, Record.of, Record.arg, Datum.number?, Fault.number, hplace, Store.read, get_local hx hv, setParam_eq,
    Frame.moved]

theorem goes_call (hc : f.code = .of "call" [.str name, .int n] (.str t) :: k) (ht : IsLocal t) (hprint : isPrint name = false)
    (hn : n ≤ f.params.length) (hroom : fs.length < maxDepth)
    (hr : Returns (semantics o procs) (fs.length + 1) name f.params (f.depth + 1) w v w') (hv : IsWord v) :
    Goes (semantics o procs) f fs w 1 [] (Datum.put t v f.temps) w' := by
  have hcall : result (advance o f) w = (.ok (.call f name f.params (f.depth + 1)), w) := by
    have henough : ¬ (f.params.length : Int) < n := by omega
    rw [advance_of_cons ho hc]
    simp [exec, callProc, checkArity, Record.of, Record.arg, Datum.number?, Fault.number, hprint, henough]
  have hresume : result (resume f v) w' = (.ok (f.moved 1 [] (Datum.put t v f.temps)), w') := by
    simp [resume, Frame.getElem?_of_code hc, Record.of, result_assign ht hv, Frame.moved]
  exact reaches_of_returns hcall hroom hr hresume

end Instructions

end Loose

end Bx.Tac.Run

namespace Bx.Procedural

open Source Tac Run Run.Loose
open Structured (unopOf? binopOf?)

theorem isLocal_percent (x : String) : IsLocal ("%" ++ x) where
  var := by simp [isVarName, String.startsWith_string_iff]
  own := by
    rw [isGlobalName, Bool.eq_false_iff, Ne, String.startsWith_string_iff]
    simp

theorem isLocal_tempName (k : Nat) : IsLocal (tempName k) := isLocal_percent _

inductive Task
  | value (e : Expr)
  | args (k : Nat) (es : List Expr)

def Work.task : Work → Task
  | .value _ e => .value e
  | .args k es => .args k es

/-- In a procedure with some memory, at some height of the stack, with the arguments in waiting before and after. A call
takes all of them. -/
inductive Evaluates {φ : Type} (S : Semantics φ) (find : String → Option String) (memory : Fields) (depth : Int) (height : Nat) :
    Task → List Datum → World → List Datum → List Datum → World → Prop
  | var {line x s v ps w} (hx : find x = some s) (hs : Store.get ⟨memory, w.globals⟩ s = .ok v) (hv : IsWord v) :
      Evaluates S find memory depth height (.value (.var line x)) ps w [v] ps w
  | num {line n ps w} : Evaluates S find memory depth height (.value (.num line n)) ps w [.int (Word.ofInt n)] ps w
  | bool {line b ps w} : Evaluates S find memory depth height (.value (.bool line b)) ps w [.int (if b then 1 else 0)] ps w
  | unary {line op u e v r ps ps' w w'} (hop : unopOf? op = some u)
      (he : Evaluates S find memory depth height (.value e) ps w [v] ps' w') (hr : applyUnop u v = .ok r) :
      Evaluates S find memory depth height (.value (.unary line op e)) ps w [r] ps' w'
  | binary {line op b l r x y z ps ps₁ ps₂ w w₁ w₂} (hop : binopOf? op = some b)
      (hl : Evaluates S find memory depth height (.value l) ps w [x] ps₁ w₁)
      (hr : Evaluates S find memory depth height (.value r) ps₁ w₁ [y] ps₂ w₂) (hz : applyBinop b x y = .ok z) :
      Evaluates S find memory depth height (.value (.binary line op l r)) ps w [z] ps₂ w₂
  | call {line f args vs v ps ps' w w₁ w'} (ha : Evaluates S find memory depth height (.args 0 args) ps w vs ps' w₁)
      (hprint : isPrint ("@" ++ f) = false) (henough : args.length ≤ ps'.length) (hroom : height < maxDepth)
      (hret : Returns S (height + 1) ("@" ++ f) ps' (depth + 1) w₁ v w') (hv : IsWord v) :
      Evaluates S find memory depth height (.value (.call line f args)) ps w [v] [] w'
  | nil {k ps w} : Evaluates S find memory depth height (.args k []) ps w [] ps w
  | early {k e rest v vs ps ps₁ ps₂ w w₁ w₂} (hk : k < inOrder)
      (he : Evaluates S find memory depth height (.value e) ps w [v] ps₁ w₁)
      (hr : Evaluates S find memory depth height (.args (k + 1) rest) (placed ps₁ k v) w₁ vs ps₂ w₂) :
      Evaluates S find memory depth height (.args k (e :: rest)) ps w (v :: vs) ps₂ w₂
  | late {k e rest v vs ps ps₁ ps₂ w w₁ w₂} (hk : ¬ k < inOrder)
      (hr : Evaluates S find memory depth height (.args (k + 1) rest) ps w vs ps₁ w₁)
      (he : Evaluates S find memory depth height (.value e) ps₁ w₁ [v] ps₂ w₂) :
      Evaluates S find memory depth height (.args k (e :: rest)) ps w (v :: vs) (placed ps₂ k v) w₂

def Stage.Fresh (g : Stage) : Prop := ∀ x s, g.find? x = some s → ∀ j, g.next ≤ j → s ≠ tempName j

theorem Stage.Fresh.past {g g' : Stage} (h : g.Fresh) (hg : g.Past g') : g'.Fresh := by
  intro x s hs j hj
  rw [hg.find] at hs
  exact h x s hs j (Nat.le_trans hg.2 hj)

theorem fresh_startStage {globals : List Gvar} {xs : List String} (h : globals.map Gvar.name = xs.map ("@" ++ ·)) {q : Procedure}
    (hq : ∀ x ∈ q.params, isName x.1) : (startStage globals q).Fresh := by
  intro x s hs j _ hj
  rw [find?_startStage h, hj] at hs
  by_cases hx : x ∈ q.params.map Prod.fst
  · rw [if_pos hx, Option.some.injEq, tempName, String.append_right_inj] at hs
    obtain ⟨e, he, rfl⟩ := mem_map.1 hx
    exact ne_toString_of_isName (hq e he) j hs
  · rw [if_neg hx] at hs
    by_cases hglobal : x ∈ xs
    · simp [hglobal, tempName, String.ext_iff] at hs
    · simp [hglobal] at hs

def Older (n : Nat) (t t' : Fields) : Prop := ∀ y, (∀ j, n ≤ j → y ≠ tempName j) → t'.lookup y = t.lookup y

namespace Older

variable {m n : Nat} {t t' t'' : Fields}

theorem refl (n : Nat) (t : Fields) : Older n t t := fun _ _ => rfl

theorem trans (h : Older n t t') (h' : Older n t' t'') : Older n t t'' := fun y hy => (h' y hy).trans (h y hy)

theorem mono (h : Older n t t') (hm : m ≤ n) : Older m t t' := fun y hy => h y fun j hj => hy j (Nat.le_trans hm hj)

theorem put (h : Older n t t') (v : Datum) : Older n t (Datum.put (tempName n) v t') := by
  intro y hy
  rw [lookup_put_ne (hy n (Nat.le_refl n)), h y hy]

theorem temp (h : Older n t t') (hm : m < n) : t'.lookup (tempName m) = t.lookup (tempName m) := by
  refine h _ fun j hj he => ?_
  rw [tempName_inj] at he
  omega

end Older

def Agree (g : Stage) (memory temps : Fields) : Prop := ∀ x s, g.find? x = some s → temps.lookup s = memory.lookup s

theorem Agree.older {g g' : Stage} {memory t t' : Fields} (h : Agree g memory t) (hf : g.Fresh) (hg : g.Past g')
    (ht : Older g.next t t') : Agree g' memory t' := by
  intro x s hs
  rw [hg.find] at hs
  rw [ht s (hf x s hs), h x s hs]

def Work.stores (vs : List Datum) (temps : Fields) : Work → Fields
  | .value (.str t) _ => vs.foldl (fun temps v => Datum.put t v temps) temps
  | _ => temps

def Work.Aims : Work → Prop
  | .value t _ => ∃ x, t = .str x ∧ IsLocal x
  | .args _ _ => True

theorem unopOf?_opcode {op : Op} {name : String} {u : Word.Unop} (h : op.opcode? = some name) (hu : unopOf? op = some u) :
    name = u.name := by
  cases op <;> simp_all [Op.opcode?, unopOf?]

theorem binopOf?_opcode {op : Op} {name : String} {b : Word.Binop} (h : op.opcode? = some name) (hb : binopOf? op = some b) :
    name = b.name := by
  cases op <;> simp_all [Op.opcode?, binopOf?]

section Leads

variable {o : Options} {procs : List (String × Proc Record)} {g g' : Stage} {work : Work} {c : List Record} {memory : Fields}
  {f : Frame} {fs : List Frame} {v : Datum} {vs ps' : List Datum} {w w' : World}

def Leads (S : Semantics Frame) (g g' : Stage) (work : Work) (c : List Record) (f : Frame) (fs : List Frame) (w : World)
    (vs ps' : List Datum) (w' : World) : Prop :=
  g.Past g' ∧ ∃ temps, Older g.next f.temps temps ∧ Goes S f fs w c.length ps' (work.stores vs temps) w'

theorem Leads.temp {S : Semantics Frame} {e : Expr}
    (h : Leads S g.taken g' (.value (.str (tempName g.next)) e) c f fs w [v] ps' w') :
    g.taken.Past g' ∧ ∃ temps, Older g.next f.temps temps ∧ temps.lookup (tempName g.next) = some v ∧
      Goes S f fs w c.length ps' temps w' := by
  obtain ⟨hpast, temps, hold, hgoes⟩ := h
  exact ⟨hpast, _, (hold.mono (Nat.le_succ _)).put v, lookup_put_self _ v temps, hgoes⟩

theorem Agree.get {x s : String} (h : Agree g memory f.temps) (hs : g.find? x = some s) (globals : Fields) :
    Store.get ⟨f.temps, globals⟩ s = Store.get ⟨memory, globals⟩ s := by
  by_cases hg : isGlobalName s
  · simp [Store.get, hg]
  · simp [Store.get, Store.find, hg, h x s hs]

theorem ExprCode.leads (ho : o.showInstrs = false) {os : List String} {k : List Record} (h : ExprCode g work os c g')
    (hfresh : g.Fresh) (hmem : Agree g memory f.temps) (haim : work.Aims) (hc : f.code = c ++ k)
    (he : Evaluates (semantics o procs) g.find? memory f.depth fs.length work.task f.params w vs ps' w') :
    Leads (semantics o procs) g g' work c f fs w vs ps' w' := by
  -- Code only writes temporaries from the stage's next one on, and no variable has one of those: the memory that
  -- expressions are evaluated in stays the same while operands are computed.
  induction h generalizing vs ps' w w' f k with
  | @var g g' t line x s hx =>
    obtain ⟨t, rfl, ht⟩ := haim
    cases he with
    | var hs hv hword =>
      cases hx with
      | new h =>
        rw [h] at hs
        cases hs
      | found h =>
        rw [h] at hs
        cases hs
        rw [← hmem.get h] at hv
        exact ⟨.refl g, f.temps, .refl _ _, goes_copy ho hc ht hv hword⟩
  | @num g t line n =>
    obtain ⟨t, rfl, ht⟩ := haim
    cases he
    exact ⟨.refl g, f.temps, .refl _ _, goes_const ho hc ht⟩
  | @bool g t line b =>
    obtain ⟨t, rfl, ht⟩ := haim
    cases he
    have hb : Word.ofInt (if b then 1 else 0) = if b then 1 else 0 := by cases b <;> rfl
    refine ⟨.refl g, f.temps, .refl _ _, ?_⟩
    rw [← hb]
    exact goes_const ho hc ht
  | @unary g g' t line op e name os c hop _ ih =>
    obtain ⟨t, rfl, ht⟩ := haim
    cases he with
    | unary hu hv hr =>
      obtain rfl := unopOf?_opcode hop hu
      rw [append_assoc] at hc
      obtain ⟨hg, temps, hold, hlook, hgoes⟩ := (ih (hfresh.past g.past_taken) hmem ⟨_, rfl, isLocal_tempName _⟩ hc hv).temp
      refine ⟨g.past_taken.trans hg, temps, hold, ?_⟩
      rw [length_append]
      exact hgoes.trans (goes_unop ho (Frame.code_moved hc ps' temps) ht (isLocal_tempName _) hlook hr)
  | @binary g g₁ g₂ t line op l r name os os' c d hop _ _ ihl ihr =>
    obtain ⟨t, rfl, ht⟩ := haim
    cases he with
    | @binary _ _ _ _ _ _ _ _ _ ps₁ _ _ w₁ _ hb hx hy hz =>
      obtain rfl := binopOf?_opcode hop hb
      rw [append_assoc] at hc
      obtain ⟨hg, temps, hold, hlook, hgoes⟩ := (ihl (hfresh.past g.past_taken) hmem ⟨_, rfl, isLocal_tempName _⟩ hc hx).temp
      have hg₁ := g.past_taken.trans hg
      have hc₁ := Frame.code_moved hc ps₁ temps
      rw [append_assoc] at hc₁
      rw [← hg₁.find] at hy
      obtain ⟨hg', temps', hold', hlook', hgoes'⟩ := (ihr (hfresh.past (hg₁.trans g₁.past_taken))
        (hmem.older hfresh (hg₁.trans g₁.past_taken) hold) ⟨_, rfl, isLocal_tempName _⟩ hc₁ hy).temp
      refine ⟨hg₁.trans (g₁.past_taken.trans hg'), temps', hold.trans (hold'.mono hg₁.2), ?_⟩
      rw [length_append, length_append]
      exact hgoes.trans (hgoes'.trans (goes_binop ho (Frame.code_moved hc₁ ps' temps') ht (isLocal_tempName _)
        (isLocal_tempName _) ((hold'.temp hg.2).trans hlook) hlook' hz))
  | @call g g' t line name args os c _ ih =>
    obtain ⟨t, rfl, ht⟩ := haim
    cases he with
    | @call _ _ _ _ _ _ ps' _ _ _ ha hprint henough hroom hret hv =>
      rw [append_assoc] at hc
      obtain ⟨hg, temps, hold, hgoes⟩ := ih hfresh hmem trivial hc ha
      refine ⟨hg, temps, hold, ?_⟩
      rw [length_append]
      exact hgoes.trans (goes_call ho (Frame.code_moved hc ps' temps) ht hprint henough hroom hret hv)
  | @nil g n =>
    cases he
    exact ⟨.refl g, f.temps, .refl _ _, .refl _ _ _ _⟩
  | @early g g₁ g₂ n e rest os os' c d hn _ _ ihv ihr =>
    cases he with
    | late hn' => exact absurd hn hn'
    | @early _ _ _ v _ _ ps₁ _ _ _ _ _ hv hrest =>
      rw [append_assoc] at hc
      obtain ⟨hg, temps, hold, hlook, hgoes⟩ := (ihv (hfresh.past g.past_taken) hmem ⟨_, rfl, isLocal_tempName _⟩ hc hv).temp
      have hg₁ := g.past_taken.trans hg
      have hc₁ := Frame.code_moved hc ps₁ temps
      have hpassed := hgoes.trans (goes_param ho hc₁ (isLocal_tempName _) hlook)
      have hc₂ := Frame.code_moved (c := [_]) hc₁ (placed ps₁ n v) temps
      rw [← hg₁.find] at hrest
      obtain ⟨hg', temps', hold', hgoes'⟩ := ihr (hfresh.past hg₁) (hmem.older hfresh hg₁ hold) trivial hc₂ hrest
      refine ⟨hg₁.trans hg', temps', hold.trans (hold'.mono hg₁.2), ?_⟩
      rw [length_append, length_cons, Nat.add_comm d.length, ← Nat.add_assoc]
      exact hpassed.trans hgoes'
  | @late g g₁ g₂ n e rest os os' c d hn _ _ ihr ihv =>
    cases he with
    | early hn' => exact absurd hn' hn
    | @late _ _ _ v _ _ ps₁ ps₂ _ _ _ _ hrest hv =>
      rw [append_assoc] at hc
      obtain ⟨hg₁, temps, hold, hgoes⟩ := ihr hfresh hmem trivial hc hrest
      have hc₁ := Frame.code_moved hc ps₁ temps
      rw [append_assoc] at hc₁
      rw [← hg₁.find] at hv
      obtain ⟨hg', temps', hold', hlook, hgoes'⟩ := (ihv (hfresh.past (hg₁.trans g₁.past_taken))
        (hmem.older hfresh (hg₁.trans g₁.past_taken) hold) ⟨_, rfl, isLocal_tempName _⟩ hc₁ hv).temp
      refine ⟨hg₁.trans (g₁.past_taken.trans hg'), temps', hold.trans (hold'.mono hg₁.2), ?_⟩
      rw [length_append, length_append]
      exact hgoes.trans (hgoes'.trans (goes_param ho (Frame.code_moved hc₁ ps₂ temps') (isLocal_tempName _) hlook))

end Leads

section Parameter

def withParameter : Gen := ⟨0, 0, startScopes [] ⟨1, "h", [("x", .int)], .int, []⟩, []⟩

theorem fresh_withParameter : withParameter.stage.Fresh :=
  fresh_startStage (show ([] : List Gvar).map Gvar.name = [].map ("@" ++ ·) from rfl) (by decide)

def outside : World := ⟨[], #[]⟩

theorem evaluates_parameter {φ : Type} {S : Semantics φ} {depth : Int} {height : Nat} {ps : List Datum} {v : Datum} (hv : IsWord v) :
    Evaluates S withParameter.stage.find? [("%x", v)] depth height (.value (.var 1 "x")) ps outside [v] ps outside :=
  .var rfl (get_local (isLocal_percent "x") rfl _) hv

end Parameter

end Bx.Procedural
