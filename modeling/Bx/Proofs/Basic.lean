import Bx.Datum
import Mathlib.Data.List.Forall2

namespace Bx

open List

variable {β γ : Type}

theorem lt_foldl_max {α : Type} (f : α → Nat) (xs : List α) (n : Nat) :
    n ≤ xs.foldl (fun n x => max n (f x + 1)) n ∧ ∀ x ∈ xs, f x < xs.foldl (fun n x => max n (f x + 1)) n := by
  induction xs generalizing n with
  | nil => simp
  | cons x xs ih =>
    obtain ⟨hle, hlt⟩ := ih (max n (f x + 1))
    exact ⟨Nat.le_trans (Nat.le_max_left ..) hle, forall_mem_cons.2 ⟨Nat.le_trans (Nat.le_max_right ..) hle, hlt⟩⟩

section Forall₂

variable {α β : Type} {R : α → β → Prop} {xs : List α} {ys : List β}
variable (h : List.Forall₂ R xs ys)
include h

theorem forall₂_exists_right {x : α} (hx : x ∈ xs) : ∃ y ∈ ys, R x y := by
  induction h with
  | nil => cases hx
  | cons hr _ ih =>
    rcases mem_cons.1 hx with rfl | hx
    · exact ⟨_, mem_cons_self, hr⟩
    · obtain ⟨y, hy, hr⟩ := ih hx
      exact ⟨y, mem_cons_of_mem _ hy, hr⟩

theorem forall₂_exists_left {y : β} (hy : y ∈ ys) : ∃ x ∈ xs, R x y :=
  forall₂_exists_right h.flip hy

theorem forall₂_trans {S : β → γ → Prop} {T : α → γ → Prop} {zs : List γ} (h' : List.Forall₂ S ys zs)
    (ht : ∀ x ∈ xs, ∀ y ∈ ys, ∀ z, R x y → S y z → T x z) : List.Forall₂ T xs zs := by
  induction h generalizing zs with
  | nil =>
    cases h'
    exact .nil
  | cons hr _ ih =>
    cases h' with
    | cons hs h' =>
      exact .cons (ht _ mem_cons_self _ mem_cons_self _ hr hs)
        (ih h' fun x hx y hy => ht x (mem_cons_of_mem _ hx) y (mem_cons_of_mem _ hy))

theorem forall₂_imp_of_mem {S : α → β → Prop} (hs : ∀ x ∈ xs, ∀ y ∈ ys, R x y → S x y) :
    List.Forall₂ S xs ys :=
  forall₂_trans h (forall₂_same.2 fun y _ => Eq.refl y) fun x hx y hy _ hr he => he ▸ hs x hx y hy hr

omit h

theorem exists_of_forall₂_comp {S : β → γ → Prop} {zs : List γ} (h : List.Forall₂ (fun x z => ∃ y, R x y ∧ S y z) xs zs) :
    ∃ ys, List.Forall₂ R xs ys ∧ List.Forall₂ S ys zs := by
  induction h with
  | nil => exact ⟨[], .nil, .nil⟩
  | cons hxz _ ih =>
    obtain ⟨y, hr, hs⟩ := hxz
    obtain ⟨ys, hrs, hss⟩ := ih
    exact ⟨y :: ys, .cons hr hrs, .cons hs hss⟩

end Forall₂

section Except

variable {ε α β : Type}
variable {x : Except ε α} {f : α → Except ε β} {xs : List α}

@[simp]
theorem ok_bind (a : α) (f : α → Except ε β) : (Except.ok a >>= f) = f a := rfl

@[simp]
theorem error_bind (e : ε) (f : α → Except ε β) : (Except.error e >>= f) = .error e := rfl

theorem bind_eq_ok {b : β} : (x >>= f) = .ok b ↔ ∃ a, x = .ok a ∧ f a = .ok b := by
  cases x with
  | error e => simp
  | ok a => simp

theorem exists_of_isOk (h : x.isOk) : ∃ a, x = .ok a := by
  cases x with
  | error e => cases h
  | ok a => exact ⟨a, rfl⟩

theorem eq_ok_of_toOption {a : α} (h : x.toOption = some a) : x = .ok a := by
  cases x with
  | error e => cases h
  | ok b => exact congrArg Except.ok (Option.some.inj h)

theorem mapM_eq_ok {ys : List β} : xs.mapM f = .ok ys ↔ List.Forall₂ (fun x y => f x = .ok y) xs ys := by
  induction xs generalizing ys with
  | nil =>
    rw [mapM_nil, forall₂_nil_left_iff]
    exact ⟨fun h => (Except.ok.inj h).symm, fun h => h ▸ rfl⟩
  | cons x xs ih =>
    simp only [mapM_cons, bind_eq_ok, forall₂_cons_left_iff]
    constructor
    · rintro ⟨y, hy, zs, hzs, h⟩
      cases h
      exact ⟨y, zs, hy, ih.1 hzs, rfl⟩
    · rintro ⟨y, zs, hy, hzs, rfl⟩
      exact ⟨y, hy, zs, ih.2 hzs, rfl⟩

theorem exists_mapM {P : α → β → Prop} (h : ∀ x ∈ xs, ∃ y, f x = .ok y ∧ P x y) :
    ∃ ys, xs.mapM f = .ok ys ∧ List.Forall₂ P xs ys := by
  induction xs with
  | nil => exact ⟨[], rfl, .nil⟩
  | cons x xs ih =>
    obtain ⟨y, hy, hp⟩ := h x mem_cons_self
    obtain ⟨ys, hys, hps⟩ := ih fun z hz => h z (mem_cons_of_mem x hz)
    exact ⟨y :: ys, by simp only [mapM_cons, hy, hys, ok_bind]; rfl, .cons hp hps⟩

theorem filterM_eq_ok {f : α → Except ε Bool} {p : α → Bool} (h : ∀ x ∈ xs, f x = .ok (p x)) :
    xs.filterM f = .ok (xs.filter p) := by
  have haux : ∀ acc, List.filterAuxM f xs acc = .ok ((xs.filter p).reverse ++ acc) := by
    induction xs with
    | nil => exact fun _ => rfl
    | cons x xs ih =>
      intro acc
      rw [List.filterAuxM, h x (.head _), ok_bind, ih fun y hy => h y (.tail _ hy)]
      cases hx : p x <;> simp [hx]
  rw [List.filterM, haux, ok_bind]
  simp [pure, Except.pure]

theorem forM_eq_ok {f : α → Except ε Unit} (h : ∀ x ∈ xs, f x = .ok ()) : xs.forM f = .ok () := by
  induction xs with
  | nil => rfl
  | cons x xs ih =>
    rw [List.forM, h x mem_cons_self, ok_bind]
    exact ih fun y hy => h y (mem_cons_of_mem x hy)

end Except

theorem lookup_map {κ α : Type} [BEq κ] (f : α → β) (k : κ) (t : List (κ × α)) :
    (t.map fun e => (e.1, f e.2)).lookup k = (t.lookup k).map f := by
  induction t with
  | nil => rfl
  | cons e t ih =>
    rw [map_cons, lookup_cons, lookup_cons]
    cases k == e.1 with
    | true => rfl
    | false => exact ih

section Table

variable {κ α : Type} [BEq κ] [LawfulBEq κ]
variable {k : κ} {t : List (κ × α)} {f : β → κ} {xs : List β}

theorem lookup_put (k k' : κ) (v : α) (t : List (κ × α)) :
    (Datum.put k v t).lookup k' = if k' == k then some v else t.lookup k' := by
  induction t with
  | nil => simp only [Datum.put, lookup_cons, lookup_nil]; split <;> simp_all
  | cons e t ih =>
    obtain ⟨k₁, v₁⟩ := e
    rw [Datum.put]
    by_cases h : k₁ = k
    · subst h
      simp only [beq_self_eq_true, if_true, lookup_cons]
      split <;> simp_all
    · have hk : (k₁ == k) = false := beq_eq_false_iff_ne.2 h
      simp only [hk, Bool.false_eq_true, if_false, lookup_cons, ih]
      by_cases h' : k' = k₁
      · subst h'
        simp [hk]
      · simp [beq_eq_false_iff_ne.2 h']

theorem lookup_put_self (k : κ) (v : α) (t : List (κ × α)) : (Datum.put k v t).lookup k = some v := by
  simp [lookup_put]

theorem lookup_put_ne {k' : κ} (h : k' ≠ k) (v : α) (t : List (κ × α)) : (Datum.put k v t).lookup k' = t.lookup k' := by
  simp [lookup_put, h]

theorem keys_put (k : κ) (v : α) (t : List (κ × α)) :
    (Datum.put k v t).map Prod.fst = if (t.lookup k).isSome then t.map Prod.fst else t.map Prod.fst ++ [k] := by
  induction t with
  | nil => simp [Datum.put]
  | cons e t ih =>
    obtain ⟨k₁, v₁⟩ := e
    rw [Datum.put]
    by_cases h : k₁ = k
    · subst h
      simp
    · have hk : (k == k₁) = false := beq_eq_false_iff_ne.2 (Ne.symm h)
      simp only [beq_eq_false_iff_ne.2 h, Bool.false_eq_true, if_false, map_cons, ih, lookup_cons, hk]
      split <;> simp

theorem put_of_notMem (h : k ∉ t.map Prod.fst) (v : α) : Datum.put k v t = t ++ [(k, v)] := by
  induction t with
  | nil => rfl
  | cons e t ih =>
    obtain ⟨k₁, v₁⟩ := e
    simp only [map_cons, mem_cons, not_or] at h
    rw [Datum.put, beq_eq_false_iff_ne.2 (Ne.symm h.1), cons_append, ← ih h.2]
    rfl

theorem foldl_put {v : β → α} (h : (t.map Prod.fst ++ xs.map f).Nodup) :
    xs.foldl (fun t x => Datum.put (f x) (v x) t) t = t ++ xs.map fun x => (f x, v x) := by
  induction xs generalizing t with
  | nil => simp
  | cons x xs ih =>
    have hx : f x ∉ t.map Prod.fst := fun hx => (nodup_append.1 h).2.2 _ hx _ (by simp) rfl
    rw [foldl_cons, put_of_notMem hx, ih (by simpa using h)]
    simp

theorem lookup_isSome : (t.lookup k).isSome ↔ k ∈ t.map Prod.fst := by
  simp only [lookup_isSome_iff, mem_map, beq_iff_eq]
  exact exists_congr fun _ => and_congr_right fun _ => eq_comm

theorem lookup_filter_ne (t : List (κ × α)) (l a : κ) :
    (t.filter (·.1 != l)).lookup a = if a == l then none else t.lookup a := by
  induction t with
  | nil => simp
  | cons e t ih =>
    rw [lookup_cons]
    by_cases he : e.1 = l
    · rw [filter_cons_of_neg (by simp [he]), ih, he]
      by_cases ha : a = l
      · simp [ha]
      · simp [beq_false_of_ne ha]
    · rw [filter_cons_of_pos (by simp [he]), lookup_cons, ih]
      by_cases ha : a = e.1
      · simp [ha, he]
      · simp [beq_false_of_ne ha]

theorem lookup_foldl_put_isSome {v : β → α} :
    ((xs.foldl (fun t x => Datum.put (f x) (v x) t) t).lookup k).isSome ↔ k ∈ xs.map f ∨ (t.lookup k).isSome := by
  induction xs generalizing t with
  | nil => simp
  | cons x xs ih =>
    rw [foldl_cons, ih, lookup_put, map_cons, mem_cons]
    by_cases hk : k = f x
    · simp [hk]
    · simp [hk]

theorem lookup_foldl_put_key (F : κ → α) (k : κ) :
    (xs.foldl (fun t x => Datum.put (f x) (F (f x)) t) t).lookup k = if k ∈ xs.map f then some (F k) else t.lookup k := by
  induction xs generalizing t with
  | nil => simp
  | cons x xs ih =>
    rw [foldl_cons, ih, lookup_put]
    by_cases hk : k = f x
    · simp [hk]
    · rw [beq_eq_false_iff_ne.2 hk]
      exact if_congr (by rw [map_cons, mem_cons, or_iff_right hk]) rfl rfl

theorem mem_of_lookup {v : α} (h : t.lookup k = some v) : (k, v) ∈ t := by
  obtain ⟨t₁, t₂, rfl, -⟩ := lookup_eq_some_iff.1 h
  exact mem_append_right _ mem_cons_self

theorem lookup_of_mem {v : α} (hn : (t.map Prod.fst).Nodup) (h : (k, v) ∈ t) : t.lookup k = some v := by
  induction t with
  | nil => simp at h
  | cons e t ih =>
    rw [map_cons, nodup_cons] at hn
    rw [lookup_cons]
    rcases mem_cons.1 h with rfl | h
    · simp
    · have hk : k ≠ e.1 := fun hk => hn.1 (hk ▸ mem_map_of_mem h)
      rw [beq_eq_false_iff_ne.2 hk, ih hn.2 h]

theorem lookup_map_key (F : κ → α) (h : k ∈ xs.map f) : (xs.map fun x => (f x, F (f x))).lookup k = some (F k) := by
  induction xs with
  | nil => simp at h
  | cons x xs ih =>
    rw [map_cons, lookup_cons]
    by_cases hk : k = f x
    · simp [hk]
    · rw [beq_eq_false_iff_ne.2 hk]
      exact ih ((mem_cons.1 h).resolve_left hk)

theorem lookup_map_key_eq (F : κ → α) (k : κ) (xs : List β) :
    (xs.map fun x => (f x, F (f x))).lookup k = if k ∈ xs.map f then some (F k) else none := by
  split
  · next h => exact lookup_map_key F h
  · next h =>
      rw [← Option.not_isSome_iff_eq_none, lookup_isSome]
      simpa using h

theorem lookup_forall₂ {R : κ → α → β → Prop} {t' : List (κ × β)}
    (h : List.Forall₂ (fun e e' => e.1 = e'.1 ∧ R e.1 e.2 e'.2) t t') (k : κ) :
    (t.lookup k = none ∧ t'.lookup k = none) ∨ ∃ a b, t.lookup k = some a ∧ t'.lookup k = some b ∧ R k a b := by
  induction h with
  | nil => exact .inl ⟨rfl, rfl⟩
  | @cons e e' t t' he _ ih =>
    obtain ⟨hk, hR⟩ := he
    rw [lookup_cons, lookup_cons, ← hk]
    rcases eq_or_ne k e.1 with rfl | hne
    · exact .inr ⟨e.2, e'.2, by simp, by simp, hR⟩
    · rw [beq_eq_false_iff_ne.2 hne]
      exact ih

end Table

theorem nodup_eraseDups {α : Type} [BEq α] [LawfulBEq α] (xs : List α) : xs.eraseDups.Nodup := by
  induction hn : xs.length using Nat.strongRecOn generalizing xs with
  | ind n ih =>
    cases xs with
    | nil => exact nodup_nil
    | cons x xs =>
      rw [eraseDups_cons, nodup_cons]
      have hlen := length_filter_le (fun y => !y == x) xs
      refine ⟨fun hx => ?_, ih _ (by simp only [length_cons] at hn; omega) _ rfl⟩
      simp [mem_filter] at hx

section StateT

variable {σ ε α β : Type} {s s' : σ}

theorem run_bind_eq_ok {x : StateT σ (Except ε) α} {k : α → StateT σ (Except ε) β} {b : β} :
    (x >>= k).run s = .ok (b, s') ↔ ∃ a s₁, x.run s = .ok (a, s₁) ∧ (k a).run s₁ = .ok (b, s') := by
  rw [StateT.run_bind, bind_eq_ok, Prod.exists]

theorem run_lift_eq_ok {x : Except ε α} {a : α} : (liftM x : StateT σ (Except ε) α).run s = .ok (a, s') ↔ x = .ok a ∧ s' = s := by
  cases x with
  | error e => exact iff_of_false nofun nofun
  | ok b =>
    constructor
    · rintro ⟨⟩
      exact ⟨rfl, rfl⟩
    · rintro ⟨⟨⟩, rfl⟩
      rfl

theorem run_modify_eq_ok {f : σ → σ} {u : Unit} : (modify f : StateT σ (Except ε) Unit).run s = .ok (u, s') ↔ s' = f s := by
  constructor
  · rintro ⟨⟩
    rfl
  · rintro rfl
    rfl

theorem run_pure_eq_ok {a b : α} : (pure a : StateT σ (Except ε) α).run s = .ok (b, s') ↔ b = a ∧ s' = s := by
  constructor
  · rintro ⟨⟩
    exact ⟨rfl, rfl⟩
  · rintro ⟨rfl, rfl⟩
    rfl

end StateT

def StandsAt {α : Type} (p : List α) (k : Nat) (c : List α) : Prop := c <+: p.drop k

section StandsAt

variable {α : Type} {p c d : List α} {k : Nat} {a : α}

theorem standsAt_append : StandsAt p k (c ++ d) ↔ StandsAt p k c ∧ StandsAt p (k + c.length) d := by
  rw [StandsAt, StandsAt, StandsAt, ← drop_drop]
  constructor
  · rintro ⟨rest, h⟩
    refine ⟨⟨_, by rw [← h, append_assoc]⟩, rest, ?_⟩
    rw [← h, append_assoc, drop_left]
  · rintro ⟨⟨rest, h⟩, rest', h'⟩
    rw [← h, drop_left] at h'
    exact ⟨rest', by rw [← h, ← h', append_assoc]⟩

theorem standsAt_singleton : StandsAt p k [a] ↔ p[k]? = some a := by
  rw [StandsAt, ← List.head?_drop]
  cases p.drop k with
  | nil => simp
  | cons b rest => simp [eq_comm]

theorem standsAt_cons : StandsAt p k (a :: c) ↔ p[k]? = some a ∧ StandsAt p (k + 1) c := by
  rw [show a :: c = [a] ++ c from rfl, standsAt_append, standsAt_singleton]
  rfl

theorem standsAt_self : StandsAt (c ++ d ++ p) c.length d := by
  rw [StandsAt, append_assoc, drop_left]
  exact prefix_append d p

theorem getElem?_of_standsAt (h : StandsAt p k d) {i : Nat} (hi : i < d.length) : p[k + i]? = d[i]? := by
  obtain ⟨rest, h⟩ := h
  rw [← List.getElem?_drop, ← h, List.getElem?_append_left hi]

end StandsAt

theorem append_toString_inj {s : String} {m n : Nat} : s ++ toString m = s ++ toString n ↔ m = n := by
  constructor
  · intro h
    have hd := congrArg (fun t : String => Nat.ofDigitChars 10 t.toList 0) ((String.append_right_inj s).1 h)
    simpa using hd
  · rintro rfl
    rfl

mutual

theorem Datum.same_self : (d : Datum) → d.isKey → d.same d
  | .null, _ => rfl
  | .bool b, _ => by simp [Datum.same]
  | .int n, _ => by simp [Datum.same]
  | .str s, _ => by simp [Datum.same]
  | .tuple xs, h => Datum.sameAll_self xs h

theorem Datum.sameAll_self : (xs : List Datum) → Datum.areKeys xs → Datum.sameAll xs xs
  | [], _ => rfl
  | x :: xs, h => by
    rw [Datum.areKeys, Bool.and_eq_true] at h
    rw [Datum.sameAll, Datum.same_self x h.1, Datum.sameAll_self xs h.2]
    rfl

end

end Bx
