import Bx.Proofs.Structured.Evaluation
import Bx.Straight.Tree

namespace Bx.Straight

open Source
open Structured (binopOf? unopOf?)
open Tac.Body (Operators)

abbrev Values := List (Datum × BitVec 64)

def Values.get? (vs : Values) (x : Datum) : Option (BitVec 64) := (vs.find? fun e => e.1.same x).map Prod.snd

def Values.set (vs : Values) (x : Datum) (v : BitVec 64) : Values :=
  match vs with
  | [] => [(x, v)]
  | e :: rest => if e.1.same x then (e.1, v) :: rest else e :: Values.set rest x v

def binopNamed? (op : String) : Option Word.Binop := (Op.ofName? op).bind binopOf?

def unopNamed? (op : String) : Option Word.Unop := (Op.ofName? op).bind unopOf?

structure Memory where
  values : Values
  printed : List (BitVec 64)

section Evaluation

variable (ops : Operators)

def Expr.value (vs : Values) : Expr → Option (BitVec 64)
  | .var x => vs.get? x
  | .num n => n.number?.map (BitVec.ofInt 64)
  | .unary op e => do return ops.unop (← unopNamed? op) (← e.value vs)
  | .binary op l r => do
    let u ← l.value vs
    let v ← r.value vs
    ops.binop (← binopNamed? op) u v

def Stmt.run (m : Memory) : Stmt → Option Memory
  | .vardecl x rhs | .assign x rhs => do
    let v ← (← rhs).value ops m.values
    return { m with values := m.values.set x v }
  | .print e => do return { m with printed := m.printed ++ [← e.value ops m.values] }

def runFrom : List Stmt → Memory → Stop × List (BitVec 64)
  | [], m => (.returned, m.printed)
  | s :: rest, m => match s.run ops m with
    | some m => runFrom rest m
    | none => (.trapped, m.printed)

def run (program : List Stmt) : Stop × List (BitVec 64) := runFrom ops program ⟨[], []⟩

end Evaluation

def Expr.Formed : Expr → Prop
  | .var x => x.isKey = true
  | .num n => n.isNumber = true
  | .unary op e => (unopNamed? op).isSome ∧ e.Formed
  | .binary op l r => (binopNamed? op).isSome ∧ l.Formed ∧ r.Formed

def Stmt.Formed : Stmt → Prop
  | .vardecl x rhs | .assign x rhs => x.isKey = true ∧ ∃ e, rhs = some e ∧ e.Formed
  | .print e => e.Formed

def known (names : List Datum) (x : Datum) : Bool := names.any (·.same x)

def declare (names : List Datum) (x : Datum) : List Datum := if known names x then names else names ++ [x]

def Expr.Declared (names : List Datum) : Expr → Prop
  | .var x => known names x = true
  | .num _ => True
  | .unary _ e => e.Declared names
  | .binary _ l r => l.Declared names ∧ r.Declared names

def Declared : List Datum → List Stmt → Prop
  | _, [] => True
  | names, .vardecl x rhs :: rest | names, .assign x rhs :: rest =>
    (∀ e ∈ rhs, e.Declared names) ∧ Declared (declare names x) rest
  | names, .print e :: rest => e.Declared names ∧ Declared names rest

def Stmt.assigns? : Stmt → Option (Datum × Expr)
  | .vardecl x (some e) | .assign x (some e) => some (x, e)
  | _ => none

section Assignments

variable {s : Stmt} {x : Datum} {e : Expr}

theorem Stmt.assigns?_cases (h : s.assigns? = some (x, e)) : s = .vardecl x (some e) ∨ s = .assign x (some e) := by
  cases s with
  | vardecl y rhs | assign y rhs => cases rhs <;> simp_all [Stmt.assigns?]
  | print e => cases h

theorem Stmt.Formed.cases (h : s.Formed) :
    (∃ x e, s.assigns? = some (x, e) ∧ x.isKey ∧ e.Formed) ∨ ∃ e, s = .print e ∧ e.Formed := by
  cases s with
  | vardecl x rhs | assign x rhs =>
    obtain ⟨hx, e, rfl, he⟩ := h
    exact .inl ⟨x, e, rfl, hx, he⟩
  | print e => exact .inr ⟨e, rfl, h⟩

theorem Declared.of_assigns {names : List Datum} {rest : List Stmt} (h : Declared names (s :: rest)) (hs : s.assigns? = some (x, e)) :
    e.Declared names ∧ Declared (declare names x) rest := by
  obtain rfl | rfl := Stmt.assigns?_cases hs <;> exact ⟨h.1 e rfl, h.2⟩

theorem Stmt.run_of_assigns (hs : s.assigns? = some (x, e)) (ops : Operators) (m : Memory) :
    s.run ops m = (e.value ops m.values).map fun v => { m with values := m.values.set x v } := by
  obtain rfl | rfl := Stmt.assigns?_cases hs <;> rw [Option.map_eq_bind] <;> rfl

end Assignments

section Total

variable {ops : Operators} {vs : Values}

theorem get?_isSome_iff (vs : Values) (x : Datum) : (vs.get? x).isSome = known (vs.map Prod.fst) x := by
  rw [Values.get?, Option.isSome_map, known, List.any_map, List.isSome_find?]
  rfl

theorem map_fst_set (vs : Values) (x : Datum) (v : BitVec 64) : (vs.set x v).map Prod.fst = declare (vs.map Prod.fst) x := by
  induction vs with
  | nil => rfl
  | cons e rest ih =>
    rw [Values.set]
    by_cases h : e.1.same x
    · simp [declare, known, h]
    · simp only [declare, known] at ih ⊢
      by_cases hr : (rest.map Prod.fst).any (·.same x)
      · simp [h, hr, ih]
      · simp [h, hr, ih]

theorem Expr.isSome_value (ht : ∀ op u v, (ops.binop op u v).isSome) {e : Expr} (hf : e.Formed)
    (hd : e.Declared (vs.map Prod.fst)) : (e.value ops vs).isSome := by
  induction e with
  | var x => rwa [Expr.value, get?_isSome_iff]
  | num n => rwa [Expr.value, Option.isSome_map]
  | unary op e ih =>
    obtain ⟨u, hu⟩ := Option.isSome_iff_exists.1 hf.1
    obtain ⟨v, hv⟩ := Option.isSome_iff_exists.1 (ih hf.2 hd)
    simp [Expr.value, hu, hv]
  | binary op l r ihl ihr =>
    obtain ⟨b, hb⟩ := Option.isSome_iff_exists.1 hf.1
    obtain ⟨u, hu⟩ := Option.isSome_iff_exists.1 (ihl hf.2.1 hd.1)
    obtain ⟨v, hv⟩ := Option.isSome_iff_exists.1 (ihr hf.2.2 hd.2)
    simp [Expr.value, hb, hu, hv, ht]

theorem runFrom_returned (ht : ∀ op u v, (ops.binop op u v).isSome) {program : List Stmt} {m : Memory}
    (hf : ∀ s ∈ program, s.Formed) (hd : Declared (m.values.map Prod.fst) program) : (runFrom ops program m).1 = .returned := by
  induction program generalizing m with
  | nil => rfl
  | cons s rest ih =>
    rw [List.forall_mem_cons] at hf
    obtain ⟨x, e, hs, -, he⟩ | ⟨e, rfl, he⟩ := hf.1.cases
    · obtain ⟨hde, hdr⟩ := hd.of_assigns hs
      obtain ⟨v, hv⟩ := Option.isSome_iff_exists.1 (e.isSome_value ht he hde)
      simp only [runFrom, Stmt.run_of_assigns hs, hv, Option.map_some]
      exact ih hf.2 (by rw [map_fst_set]; exact hdr)
    · obtain ⟨v, hv⟩ := Option.isSome_iff_exists.1 (e.isSome_value ht he hd.1)
      simp only [runFrom, Stmt.run, Option.bind_eq_bind, Option.bind_some, hv]
      exact ih hf.2 hd.2

end Total

end Bx.Straight
