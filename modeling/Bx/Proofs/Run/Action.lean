import Bx.Tac.Run.Basic

namespace Bx.Tac.Run

variable {α β : Type}

def result (a : Action α) (w : World) : Except Fault α × World := a.run.run w

def andThen (x : Except Fault α × World) (k : α → World → Except Fault β × World) : Except Fault β × World :=
  match x with
  | (.ok a, w) => k a w
  | (.error e, w) => (.error e, w)

@[simp]
theorem andThen_ok (a : α) (w : World) (k : α → World → Except Fault β × World) :
    andThen (.ok a, w) k = k a w := rfl

@[simp]
theorem andThen_error (e : Fault) (w : World) (k : α → World → Except Fault β × World) :
    andThen (.error e, w) k = (.error e, w) := rfl

theorem andThen_eq_ok {x : Except Fault α × World} {k : α → World → Except Fault β × World} {b : β}
    {w : World} (h : andThen x k = (.ok b, w)) : ∃ a w₁, x = (.ok a, w₁) ∧ k a w₁ = (.ok b, w) := by
  rcases x with ⟨e | a, w₁⟩
  · simp at h
  · exact ⟨a, w₁, rfl, h⟩

@[simp]
theorem result_pure (a : α) (w : World) : result (pure a) w = (.ok a, w) := rfl

@[simp]
theorem result_throw (e : Fault) (w : World) : result (throw e : Action α) w = (.error e, w) := rfl

@[simp]
theorem result_bind (a : Action α) (k : α → Action β) (w : World) :
    result (a >>= k) w = andThen (result a w) fun x w => result (k x) w := by
  simp only [result, ExceptT.run_bind, StateT.run_bind]
  rcases a.run.run w with ⟨e | x, w'⟩ <;> rfl

@[simp]
theorem result_map (f : α → β) (a : Action α) (w : World) :
    result (f <$> a) w = andThen (result a w) fun x w => (.ok (f x), w) := by
  rw [map_eq_pure_bind, result_bind]
  rfl

@[simp]
theorem result_lift (r : Except Fault α) (w : World) : result (lift r) w = (r, w) := by
  cases r <;> rfl

@[simp]
theorem result_ite (c : Prop) [Decidable c] (a b : Action α) (w : World) :
    result (if c then a else b) w = if c then result a w else result b w := by
  split <;> rfl

@[simp]
theorem result_print (s : String) (w : World) :
    result (print s) w = (.ok (), { w with output := w.output.push (s ++ "\n") }) := rfl

@[simp]
theorem result_store (temps : Fields) (w : World) : result (store temps) w = (.ok ⟨temps, w.globals⟩, w) := rfl

@[simp]
theorem result_commit (s : Store) (w : World) : result (commit s) w = (.ok s.temps, { w with globals := s.globals }) := rfl

@[simp]
theorem result_read (temps : Fields) (x : Datum) (w : World) :
    result (read temps x) w = (Store.read ⟨temps, w.globals⟩ x, w) := by
  simp [read]

@[simp]
theorem result_write (temps : Fields) (x v : Datum) (w : World) :
    result (write temps x v) w = andThen (Store.write ⟨temps, w.globals⟩ x v, w)
      fun s w => (.ok s.temps, { w with globals := s.globals }) := by
  simp [write]

end Bx.Tac.Run
