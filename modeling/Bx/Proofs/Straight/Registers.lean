import Bx.Proofs.Basic
import Bx.Straight.Document
import Mathlib.Data.List.Nodup

namespace Bx.Straight

open List

/-- What numbers are, and what operators make of their operands. -/
structure Meaning (V : Type) where
  number : Datum → V
  operator : String → List V → V

def opcodeNamed? (op : String) : Option String := (Source.Op.ofName? op).bind Source.Op.opcode?

namespace Expr

/-- A part of a node stands first in a list; what comes behind it is not looked at. -/
inductive Shown : Expr → Datum → Prop
  | var (x : Datum) (rest : List Datum) : Shown (.var x) (.list (.str "<var>" :: x :: rest))
  | num (n : Datum) (rest : List Datum) : Shown (.num n) (.list (.str "<number>" :: n :: rest))
  | unary {o s : String} {e : Expr} {d : Datum} (hop : opcodeNamed? o = some s) (he : Shown e d)
      (as bs cs rest : List Datum) : Shown (.unary o e)
        (.list (.str "<unop>" :: .list (.list (.str o :: as) :: bs) :: .list (d :: cs) :: rest))
  | binary {o s : String} {l r : Expr} {d d' : Datum} (hop : opcodeNamed? o = some s) (hl : Shown l d) (hr : Shown r d')
      (as bs cs ds rest : List Datum) : Shown (.binary o l r)
        (.list (.str "<binop>" :: .list (d :: as) :: .list (.list (.str o :: bs) :: cs) :: .list (d' :: ds) :: rest))

def vars : Expr → List Datum
  | .var x => [x]
  | .num _ => []
  | .unary _ e => e.vars
  | .binary _ l r => l.vars ++ r.vars

def size : Expr → Nat
  | .var _ => 0
  | .num _ => 1
  | .unary _ e => e.size + 1
  | .binary _ l r => l.size + r.size + 1

def meaning {V : Type} (I : Meaning V) (f : Datum → V) : Expr → V
  | .var x => f x
  | .num n => I.number n
  | .unary op e => I.operator ((opcodeNamed? op).getD op) [e.meaning I f]
  | .binary op l r => I.operator ((opcodeNamed? op).getD op) [l.meaning I f, r.meaning I f]

theorem meaning_congr {V : Type} {I : Meaning V} {f f' : Datum → V} {e : Expr} (h : ∀ x ∈ e.vars, f x = f' x) :
    e.meaning I f = e.meaning I f' := by
  induction e with
  | var x => exact h x mem_cons_self
  | num n => rfl
  | unary op e ih => rw [meaning, meaning, ih h]
  | binary op l r ihl ihr =>
    rw [meaning, meaning, ihl fun x hx => h x (mem_append_left _ hx), ihr fun x hx => h x (mem_append_right _ hx)]

end Expr

namespace Document

open Tac

def operandsOf (r : Record) : List Datum :=
  match r.args with
  | .list xs => xs
  | _ => []

def isConst (r : Record) : Bool := r.opcode.is "const"

def readsOf (r : Record) : List Datum := if isConst r then [] else operandsOf r

open Classical in
noncomputable def perform {V : Type} (I : Meaning V) (σ : Datum → V) (r : Record) : Datum → V := fun x =>
  if x = r.result then
    if isConst r then I.number (r.arg 0) else I.operator r.opcode.text ((operandsOf r).map σ)
  else σ x

def ReadsWritten : List Datum → List Record → Prop
  | _, [] => True
  | there, r :: rest => readsOf r ⊆ there ∧ ReadsWritten (r.result :: there) rest

def numbered (k : Nat) : Datum := register (.int k)

def held (ρ : Datum → Nat) (e : Expr) : List Datum := e.vars.map fun x => numbered (ρ x)

/-- The value is left in register `r` if variables are in the registers `ρ`. Registers from `n` on are written one after
another, one for each node that is not a variable. -/
structure Computes (ρ : Datum → Nat) (e : Expr) (n r : Nat) (c : List Record) : Prop where
  lt : r < n + e.size
  results : c.map Record.result = (range' n e.size).map numbered
  reads : ReadsWritten (held ρ e) c
  there : numbered r ∈ held ρ e ++ c.map Record.result
  value : ∀ {V : Type} (I : Meaning V) (σ : Datum → V),
    c.foldl (perform I) σ (numbered r) = e.meaning I fun x => σ (numbered (ρ x))

section Code

variable {V : Type} {I : Meaning V} {σ : Datum → V} {c d : List Record} {x : Datum} {k m n r r' : Nat} {xs ys : List Datum}
variable {ρ : Datum → Nat} {e e' : Expr} {op s : String}

theorem numbered_inj : numbered m = numbered n ↔ m = n := by
  rw [numbered, numbered, register, register, Datum.str.injEq]
  exact append_toString_inj

theorem foldl_perform_of_notMem (h : x ∉ c.map Record.result) : c.foldl (perform I) σ x = σ x := by
  induction c generalizing σ with
  | nil => rfl
  | cons i c ih =>
    rw [map_cons, mem_cons, not_or] at h
    rw [foldl_cons, ih h.2, perform, if_neg h.1]

theorem ReadsWritten.mono (h : ReadsWritten xs c) (hs : xs ⊆ ys) : ReadsWritten ys c := by
  induction c generalizing xs ys with
  | nil => trivial
  | cons i c ih => exact ⟨fun _ hx => hs (h.1 hx), ih h.2 (cons_subset_cons _ hs)⟩

theorem ReadsWritten.append (h : ReadsWritten xs c) (h' : ReadsWritten (xs ++ c.map Record.result) d) :
    ReadsWritten xs (c ++ d) := by
  induction c generalizing xs with
  | nil => simpa using h'
  | cons i c ih => exact ⟨h.1, ih h.2 (h'.mono perm_middle.subset)⟩

theorem Computes.keeps (h : Computes ρ e n r c) (I : Meaning V) (σ : Datum → V) (hk : k < n) :
    c.foldl (perform I) σ (numbered k) = σ (numbered k) := by
  refine foldl_perform_of_notMem ?_
  simp only [h.results, mem_map, mem_range'_1, numbered_inj, not_exists, not_and]
  omega

theorem computes_var (hx : ρ x < n) : Computes ρ (.var x) n (ρ x) [] :=
  ⟨hx, rfl, trivial, mem_cons_self, fun _ _ => rfl⟩

theorem computes_num (x : Datum) : Computes ρ (.num x) n n [.of "const" [x] (numbered n)] :=
  ⟨Nat.lt_succ_self n, rfl, ⟨nil_subset _, trivial⟩, mem_cons_self, fun _ _ => if_pos rfl⟩

theorem isConst_of_opcode (h : opcodeNamed? op = some s) (args : List Datum) (x : Datum) : isConst (.of s args x) = false := by
  obtain ⟨o, -, ho⟩ := Option.bind_eq_some_iff.1 h
  cases o <;> cases ho <;> rfl

theorem foldl_perform_apply (h : opcodeNamed? op = some s) (q : List Nat) (I : Meaning V) (σ : Datum → V) :
    (c ++ [Record.of s (q.map numbered) x]).foldl (perform I) σ x =
      I.operator s (q.map fun r => c.foldl (perform I) σ (numbered r)) := by
  rw [foldl_append, foldl_cons, foldl_nil, perform, isConst_of_opcode h]
  exact (if_pos rfl).trans (congrArg (I.operator s) map_map)

theorem ReadsWritten.apply (hc : ReadsWritten xs c) (h : opcodeNamed? op = some s) {ks : List Datum}
    (hr : ks ⊆ xs ++ c.map Record.result) : ReadsWritten xs (c ++ [.of s ks x]) := by
  refine hc.append ⟨?_, trivial⟩
  rw [readsOf, isConst_of_opcode h]
  exact hr

theorem Computes.unary (hop : opcodeNamed? op = some s) (h : Computes ρ e n r c) :
    Computes ρ (.unary op e) n (n + e.size) (c ++ [.of s [numbered r] (numbered (n + e.size))]) where
  lt := Nat.lt_succ_self _
  results := by simp [h.results, Expr.size, range'_concat, Record.of]
  reads := h.reads.apply hop (cons_subset.2 ⟨h.there, nil_subset _⟩)
  there := by simp [Record.of]
  value I σ := by
    refine (foldl_perform_apply hop [r] I σ).trans ?_
    rw [Expr.meaning, hop, map_singleton, h.value I σ]
    rfl

theorem Computes.binary (hop : opcodeNamed? op = some s) (h : Computes ρ e n r c) (h' : Computes ρ e' (n + e.size) r' d)
    (hρ : ∀ x ∈ e'.vars, ρ x < n) : Computes ρ (.binary op e e') n (n + (e.size + e'.size))
      (c ++ d ++ [.of s [numbered r, numbered r'] (numbered (n + (e.size + e'.size)))]) where
  lt := Nat.lt_succ_self _
  results := by
    simp [h.results, h'.results, Expr.size, range'_concat, Record.of, ← range'_append_1]
  reads := by
    have hheld : held ρ (.binary op e e') = held ρ e ++ held ρ e' := map_append
    have hr := h.there
    have hr' := h'.there
    rw [hheld]
    refine .apply (.append (h.reads.mono (subset_append_left ..)) (h'.reads.mono ?_)) hop ?_
    · exact fun x hx => mem_append_left _ (mem_append_right _ hx)
    · rw [map_append]
      grind
  there := by simp [Record.of]
  value I σ := by
    have hr' : d.foldl (perform I) (c.foldl (perform I) σ) (numbered r') = e'.meaning I fun x => σ (numbered (ρ x)) := by
      rw [h'.value I]
      exact Expr.meaning_congr fun x hx => h.keeps I σ (hρ x hx)
    refine (foldl_perform_apply hop [r, r'] I σ).trans ?_
    rw [Expr.meaning, hop, map_cons, map_singleton, foldl_append, hr', h'.keeps I _ h.lt, h.value I σ]
    rfl

end Code

section Documents

variable {g : Gen} {d x : Datum} {ps prior : List Datum} {k n : Nat} {e : Expr} {ρ : Datum → Nat} {op s : String}

def part? : Datum → List Nat → Option Datum
  | d, [] => some d
  | .list xs, k :: ks => (xs[k]?).bind (part? · ks)
  | _, _ => none

theorem at?_of_part {p : List Nat} (h : part? d p = some x) : Load.at? d (p.map (↑)) = .ok x := by
  fun_induction part? d p with
  | case1 d => exact congrArg _ (Option.some.inj h)
  | case2 xs k ks ih =>
    obtain ⟨y, hy, hx⟩ := Option.bind_eq_some_iff.1 h
    obtain ⟨hk, rfl⟩ := List.getElem?_eq_some_iff.1 hy
    simpa [Load.at?, Datum.item, Datum.pick, Datum.position?, hk] using ih _ hx
  | case3 => cases h

theorem run_bind_eq {α β : Type} {p : Lower α} {f : α → Lower β} {a : α} {g' : Gen} (h : p.run g = .ok (a, g')) :
    (p >>= f).run g = (f a).run g' := by
  rw [StateT.run_bind, h, ok_bind]

theorem run_follow {β : Type} {f : Datum → Lower β} (p : List Nat) (h : part? d p = some x) (g : Gen) :
    (follow d (p.map (↑)) >>= f).run g = (f x).run g :=
  run_bind_eq (by rw [follow, at?_of_part h]; rfl)

theorem run_compute {p : Lower (String × List Datum)} {args : List Datum} (hn : g.next = .int n) (hb : g.before = .list ps)
    (hp : p.run g = .ok ((op, args), g)) : (compute p).run g =
      .ok (.int n, { g with next := .int (n + 1 : Nat), code := g.code ++ [.of op args (numbered n)] }) := by
  simp only [compute, StateT.run_bind, StateT.run_get, pure_bind, hb, hp, ok_bind, emit, fresh, StateT.run_modify, hn,
    Datum.number?]
  rfl

def Gen.register? (g : Gen) (x : Datum) : Except Datum.Fault Datum :=
  match g.registers.find? fun e => e.1.same x with
  | some e => .ok e.2
  | none => g.given.index x

theorem run_lookup {r : Datum} (h : g.register? x = .ok r) : (lookup x).run g = .ok (r, g) := by
  simp only [lookup, StateT.run_bind, StateT.run_get, pure_bind]
  unfold Gen.register? at h
  cases hx : g.registers.find? fun e => e.1.same x with
  | some e =>
    rw [hx] at h
    cases h
    rfl
  | none =>
    rw [hx] at h
    simp only [h]
    rfl

theorem run_opcode (h : opcodeNamed? op = some s) (g : Gen) : (opcode (.str op)).run g = .ok (s, g) := by
  rw [opcode]
  simp only [Datum.string?, Option.bind_some]
  rw [show ((Source.Op.ofName? op).bind Source.Op.opcode?) = some s from h]
  rfl

theorem expr_computes (hd : e.Shown d) (hn : g.next = .int n) (hb : g.before = .list ps)
    (hρ : ∀ x ∈ e.vars, ρ x < n ∧ g.register? x = .ok (.int (ρ x))) (hk : d.depth < k) : ∃ c r, (expr k d).run g =
      .ok (.int (r : Nat), { g with next := .int (n + e.size : Nat), code := g.code ++ c }) ∧ Computes ρ e n r c := by
  induction hd generalizing g n k with
  | var x rest =>
    obtain ⟨k, rfl⟩ := Nat.exists_eq_add_of_lt hk
    refine ⟨[], ρ x, (run_follow [0] rfl g).trans ((run_follow [1] rfl g).trans ?_), computes_var (hρ x mem_cons_self).1⟩
    rw [run_lookup (hρ x mem_cons_self).2, append_nil, Expr.size, Nat.add_zero, ← hn]
  | num x rest =>
    obtain ⟨k, rfl⟩ := Nat.exists_eq_add_of_lt hk
    refine ⟨_, n, (run_follow [0] rfl g).trans ?_, computes_num x⟩
    exact run_compute hn hb (run_follow [1] rfl g)
  | @unary op s e d hop he as bs cs rest ih =>
    simp only [Datum.depth, Datum.depthAll] at hk
    obtain ⟨k, rfl⟩ : ∃ j, k = j + 1 := ⟨k - 1, by omega⟩
    obtain ⟨c, r, hrun, hc⟩ := ih hn hb hρ (k := k) (by omega)
    refine ⟨_, _, ?_, hc.unary hop⟩
    refine (run_follow [0] rfl g).trans ((run_follow [1, 0, 0] rfl g).trans ((run_follow [2, 0] rfl g).trans ?_))
    refine (run_bind_eq hrun).trans ?_
    refine Eq.trans (run_compute rfl hb (run_bind_eq (run_opcode hop _))) ?_
    simp only [append_assoc, Expr.size]
    rfl
  | @binary op s l r d d' hop hl hr as bs cs ds rest ihl ihr =>
    simp only [Datum.depth, Datum.depthAll] at hk
    obtain ⟨k, rfl⟩ : ∃ j, k = j + 1 := ⟨k - 1, by omega⟩
    simp only [Expr.vars, forall_mem_append] at hρ
    obtain ⟨c, i, hrun, hc⟩ := ihl hn hb hρ.1 (k := k) (by omega)
    obtain ⟨c', i', hrun', hc'⟩ := ihr (g := { g with next := _, code := _ }) rfl hb
      (fun x hx => ⟨Nat.lt_add_right _ (hρ.2 x hx).1, (hρ.2 x hx).2⟩) (k := k) (by omega)
    refine ⟨_, _, ?_, hc.binary hop hc' fun x hx => (hρ.2 x hx).1⟩
    refine (run_follow [0] rfl g).trans ((run_follow [1, 0] rfl g).trans ((run_bind_eq hrun).trans ?_))
    refine (run_follow [3, 0] rfl _).trans ((run_bind_eq hrun').trans ((run_follow [2, 0, 0] rfl _).trans ?_))
    refine Eq.trans (run_compute rfl hb (run_bind_eq (run_opcode hop _))) ?_
    simp only [append_assoc, Expr.size, Nat.add_assoc]
    rfl

/-- The code of an expression is put behind what is there, and leaves its value in the register answered. Registers below
`n`, those of variables among them, are taken, and the code writes each register once. -/
theorem value_computes (hd : e.Shown d) (hn : g.next = .int n) (hb : g.body = .list prior)
    (hρ : ∀ x ∈ e.vars, ρ x < n ∧ g.register? x = .ok (.int (ρ x))) :
    ∃ c r h, (value d).run g = .ok (.int (r : Nat), h) ∧ h = { g with next := .int (n + e.size : Nat), code := g.code ++ c } ∧
      h.body = .list (prior ++ c.map Record.toDatum) ∧ Computes ρ e n r c ∧ (c.map Record.result).Nodup := by
  obtain ⟨ps, hps⟩ : ∃ ps, g.before = .list ps := by
    unfold Gen.body at hb
    split at hb
    · exact ⟨_, ‹_›⟩
    · exact ⟨_, hb⟩
  obtain ⟨c, r, hrun, hc⟩ := expr_computes hd hn hps hρ (Nat.lt_succ_self _)
  refine ⟨c, r, _, hrun, rfl, ?_, hc, ?_⟩
  · simp only [Gen.body, hps, Datum.list.injEq] at hb ⊢
    rw [← hb, map_append, append_assoc]
  · rw [hc.results]
    exact Nodup.map (fun _ _ => numbered_inj.1) nodup_range'

/-- The sum of a variable and `-7`. -/
theorem value_computes_sum : ∃ c r h, (value (.list [.str "<binop>", .list [.list [.str "<var>", .str "x"]],
      .list [.list [.str "PLUS"]],
      .list [.list [.str "<unop>", .list [.list [.str "UMINUS"]], .list [.list [.str "<number>", .int 7]]]]])).run
        { registers := [(.str "x", .int 0)], next := .int 1, before := .list [.null] } = .ok (.int (r : Nat), h) ∧
      h.body = .list (.null :: c.map Record.toDatum) ∧
      Computes (fun _ => 0) (.binary "PLUS" (.var (.str "x")) (.unary "UMINUS" (.num (.int 7)))) 1 r c := by
  obtain ⟨c, r, h, hrun, -, hb, hc, -⟩ := value_computes (n := 1) (ρ := fun _ => 0)
    (g := { registers := [(.str "x", .int 0)], next := .int 1, before := .list [.null] })
    (.binary (o := "PLUS") rfl (.var (.str "x") []) (.unary (o := "UMINUS") rfl (.num (.int 7) []) [] [] [] []) [] [] [] [] [])
    rfl rfl (by simp only [Expr.vars, append_nil, forall_mem_singleton]; exact ⟨Nat.one_pos, rfl⟩)
  exact ⟨c, r, h, hrun, hb, hc⟩

end Documents

end Document

end Bx.Straight
