import Mathlib.Order.Basic

namespace Bx

/-- Why a machine stops. A machine is stuck where its code has no meaning. -/
inductive Stop
  | returned | trapped | stuck
  deriving DecidableEq

inductive Next (σ : Type)
  | go (s : σ)
  | stop (e : Stop)

structure Machine (σ : Type) where
  next : σ → Next σ
  printed : σ → List (BitVec 64)

namespace Machine

variable {σ τ : Type}

inductive Reaches (M : Machine σ) : Nat → σ → σ → Prop
  | refl (s : σ) : Reaches M 0 s s
  | step {n s t u} (h : M.next s = .go t) (hr : Reaches M n t u) : Reaches M (n + 1) s u

inductive Slides (M : Machine σ) : Nat → σ → σ → Prop
  | refl (s : σ) : Slides M 0 s s
  | step {n s t u} (h : M.next s = .go t) (hp : M.printed t = M.printed s) (hr : Slides M n t u) : Slides M (n + 1) s u

def Prints (M : Machine σ) (s : σ) (ws : List (BitVec 64)) : Prop := ∃ n t, M.Reaches n s t ∧ M.printed t = ws

def Ends (M : Machine σ) (s : σ) (e : Stop) (ws : List (BitVec 64)) : Prop :=
  ∃ n t, M.Reaches n s t ∧ M.next t = .stop e ∧ M.printed t = ws

/-- They print the same words in the same order, and stop in the same way after the same words, if they stop. -/
structure Alike (M : Machine σ) (s : σ) (N : Machine τ) (t : τ) : Prop where
  prints : ∀ ws, M.Prints s ws ↔ N.Prints t ws
  ends : ∀ e ws, M.Ends s e ws ↔ N.Ends t e ws

variable {M : Machine σ} {N : Machine τ} {n m : Nat} {s t u : σ}

theorem Reaches.one (h : M.next s = .go t) : M.Reaches 1 s t := .step h (.refl t)

section

variable (h : M.Reaches n s t)
include h

theorem Reaches.trans (h' : M.Reaches m t u) : M.Reaches (n + m) s u := by
  induction h with
  | refl s => rwa [Nat.zero_add]
  | step h _ ih =>
    rw [Nat.add_right_comm]
    exact .step h (ih h')

theorem Reaches.invariant {I : σ → Prop} (hI : ∀ {s t}, I s → M.next s = .go t → I t) (hs : I s) : I t := by
  induction h with
  | refl s => exact hs
  | step h _ ih => exact ih (hI hs h)

theorem Reaches.det (h' : M.Reaches n s u) : t = u := by
  induction h with
  | refl s =>
    cases h'
    rfl
  | step h _ ih =>
    cases h' with
    | step h₁ h' =>
      rw [h] at h₁
      cases h₁
      exact ih h'

theorem Reaches.rest (h' : M.Reaches (n + m) s u) : M.Reaches m t u := by
  induction h with
  | refl s => rwa [Nat.zero_add] at h'
  | step h _ ih =>
    rw [Nat.add_right_comm] at h'
    cases h' with
    | step h₁ h' =>
      rw [h] at h₁
      cases h₁
      exact ih h'

theorem Reaches.le_of_stop {e : Stop} (ht : M.next t = .stop e) (h' : M.Reaches m s u) : m ≤ n := by
  by_contra hlt
  obtain ⟨k, rfl⟩ := Nat.exists_eq_add_of_lt (Nat.lt_of_not_le hlt)
  cases h.rest (show M.Reaches (n + (k + 1)) s u from h') with
  | step hn _ => simp [ht] at hn

end

theorem Ends.det {e e' : Stop} {ws ws' : List (BitVec 64)} (h : M.Ends s e ws) (h' : M.Ends s e' ws') : e = e' ∧ ws = ws' := by
  obtain ⟨n, t, ht, hstop, rfl⟩ := h
  obtain ⟨m, u, hu, hstop', rfl⟩ := h'
  obtain rfl : n = m := Nat.le_antisymm (hu.le_of_stop hstop' ht) (ht.le_of_stop hstop hu)
  obtain rfl := ht.det hu
  rw [hstop] at hstop'
  cases hstop'
  exact ⟨rfl, rfl⟩

theorem Ends.after {e : Stop} {ws : List (BitVec 64)} (h : M.Ends t e ws) (hr : M.Reaches n s t) : M.Ends s e ws := by
  obtain ⟨m, u, hu, hstop, hws⟩ := h
  exact ⟨n + m, u, hr.trans hu, hstop, hws⟩

section

variable (h : M.Slides n s t)
include h

theorem Slides.reaches : M.Reaches n s t := by
  induction h with
  | refl s => exact .refl s
  | step h _ _ ih => exact .step h ih

theorem Slides.printed : M.printed t = M.printed s := by
  induction h with
  | refl s => rfl
  | step _ hp _ ih => exact ih.trans hp

theorem Slides.trans (h' : M.Slides m t u) : M.Slides (n + m) s u := by
  induction h with
  | refl s => rwa [Nat.zero_add]
  | step h hp _ ih =>
    rw [Nat.add_right_comm]
    exact .step h hp (ih h')

theorem Slides.between {k : Nat} (hk : k ≤ n) {v : σ} (hv : M.Reaches k s v) : M.printed v = M.printed s := by
  induction h generalizing k with
  | refl s =>
    cases Nat.le_zero.1 hk
    cases hv
    rfl
  | step h hp _ ih =>
    cases hv with
    | refl => rfl
    | step h₁ hv =>
      rw [h] at h₁
      cases h₁
      exact (ih (Nat.le_of_succ_le_succ hk) hv).trans hp

omit h in
theorem Alike.of_slides {s : τ} (h : Alike N s M t) (hslides : M.Slides n u t) : Alike N s M u where
  prints ws := by
    rw [h.prints]
    constructor
    · rintro ⟨m, v, hv, hws⟩
      exact ⟨n + m, v, hslides.reaches.trans hv, hws⟩
    · rintro ⟨m, v, hv, rfl⟩
      rcases Nat.le_total m n with hmn | hnm
      · exact ⟨0, t, .refl t, hslides.printed.trans (hslides.between hmn hv).symm⟩
      · obtain ⟨k, rfl⟩ := Nat.exists_eq_add_of_le hnm
        exact ⟨k, v, hslides.reaches.rest hv, rfl⟩
  ends e ws := by
    rw [h.ends]
    refine ⟨fun hends => hends.after hslides.reaches, ?_⟩
    rintro ⟨m, v, hv, hstop, hws⟩
    obtain ⟨k, rfl⟩ := Nat.exists_eq_add_of_le (hv.le_of_stop hstop hslides.reaches)
    exact ⟨k, v, hslides.reaches.rest hv, hstop, hws⟩

def Covers (M : Machine σ) (n : Nat) (s t : σ) : Prop :=
  M.Reaches n s t ∧ ∀ k ≤ n, ∀ v, M.Reaches k s v → M.printed v = M.printed s ∨ M.printed v = M.printed t

theorem Slides.covers : M.Covers n s t := ⟨h.reaches, fun _ hk _ hv => .inl (h.between hk hv)⟩

theorem Slides.covers_step {v : σ} (hstep : M.next t = .go u) (h' : M.Slides m u v) :
    M.Covers (n + (m + 1)) s v := by
  refine ⟨h.reaches.trans (.step hstep h'.reaches), fun k hk w hw => ?_⟩
  rcases Nat.lt_or_ge n k |>.symm with hkn | hkn
  · exact .inl (h.between hkn hw)
  · obtain ⟨j, rfl⟩ := Nat.exists_eq_add_of_lt hkn
    cases h.reaches.rest (show M.Reaches (n + (j + 1)) s w from hw) with
    | step hn hw =>
      rw [hstep] at hn
      cases hn
      exact .inr ((h'.between (by omega) hw).trans h'.printed.symm)

end

/-- Steps of the first machine are made by some of the second; if by none, a rank falls. -/
structure Refinement (M : Machine σ) (N : Machine τ) where
  rel : σ → τ → Prop
  rank : σ → Nat
  printed : ∀ {s t}, rel s t → M.printed s = N.printed t
  step : ∀ {s t s'}, rel s t → M.next s = .go s' →
    ∃ k t', N.Covers k t t' ∧ rel s' t' ∧ (k = 0 → rank s' < rank s)
  stop : ∀ {s t e}, rel s t → M.next s = .stop e → ∃ k t', N.Slides k t t' ∧ N.next t' = .stop e

namespace Refinement

variable (R : Refinement M N) {t : τ}

theorem reaches (h : M.Reaches n s u) (hr : R.rel s t) : ∃ k v, N.Reaches k t v ∧ R.rel u v := by
  induction h generalizing t with
  | refl s => exact ⟨0, t, .refl t, hr⟩
  | step h _ ih =>
    obtain ⟨k, t', hc, hr', -⟩ := R.step hr h
    obtain ⟨k', v, hv, hrv⟩ := ih hr'
    exact ⟨k + k', v, hc.1.trans hv, hrv⟩

theorem back {k : Nat} {v : τ} (hv : N.Reaches k t v) (hr : R.rel s t) :
    M.Prints s (N.printed v) ∧ ∀ e, N.next v = .stop e → M.Ends s e (N.printed v) := by
  induction k using Nat.strongRecOn generalizing s t with
  | ind k ihk =>
    induction hrank : R.rank s using Nat.strongRecOn generalizing s t with
    | ind _ ihr =>
      cases hs : M.next s with
      | stop e =>
        obtain ⟨j, t', hsl, ht'⟩ := R.stop hr hs
        have hle := hsl.reaches.le_of_stop ht' hv
        have hp : M.printed s = N.printed v := (R.printed hr).trans (hsl.between hle hv).symm
        refine ⟨⟨0, s, .refl s, hp⟩, fun e' he' => ?_⟩
        have hj : j = k := Nat.le_antisymm (hv.le_of_stop he' hsl.reaches) hle
        subst hj
        rw [hsl.reaches.det hv, he'] at ht'
        cases ht'
        exact ⟨0, s, .refl s, hs, hp⟩
      | go s' =>
        obtain ⟨j, t', hc, hr', hrk⟩ := R.step hr hs
        have later : N.Reaches (k - j) t' v → j ≤ k →
            M.Prints s' (N.printed v) ∧ ∀ e, N.next v = .stop e → M.Ends s' e (N.printed v) := by
          intro hv' hjk
          rcases Nat.eq_zero_or_pos j with rfl | hj
          · exact ihr _ (hrank ▸ hrk rfl) hv' hr' rfl
          · exact ihk (k - j) (by omega) hv' hr'
        have after : M.Prints s' (N.printed v) → M.Prints s (N.printed v) :=
          fun ⟨n, u, hu, hp⟩ => ⟨n + 1, u, .step hs hu, hp⟩
        rcases Nat.lt_or_ge k j with hkj | hjk
        · refine ⟨?_, fun e he => absurd (hv.le_of_stop he hc.1) (Nat.not_le_of_lt hkj)⟩
          rcases hc.2 k (Nat.le_of_lt hkj) v hv with hp | hp
          · exact ⟨0, s, .refl s, (R.printed hr).trans hp.symm⟩
          · exact after ⟨0, s', .refl s', (R.printed hr').trans hp.symm⟩
        · have hv' : N.Reaches (k - j) t' v := hc.1.rest (by rwa [Nat.add_sub_cancel' hjk])
          obtain ⟨hp, he⟩ := later hv' hjk
          refine ⟨after hp, fun e hve => ?_⟩
          obtain ⟨n, u, hu, hue, hup⟩ := he e hve
          exact ⟨n + 1, u, .step hs hu, hue, hup⟩

theorem alike (hr : R.rel s t) : Alike M s N t := by
  constructor
  · intro ws
    constructor
    · rintro ⟨n, u, hu, rfl⟩
      obtain ⟨k, v, hv, hrv⟩ := R.reaches hu hr
      exact ⟨k, v, hv, (R.printed hrv).symm⟩
    · rintro ⟨k, v, hv, rfl⟩
      exact (R.back hv hr).1
  · intro e ws
    constructor
    · rintro ⟨n, u, hu, hue, rfl⟩
      obtain ⟨k, v, hv, hrv⟩ := R.reaches hu hr
      obtain ⟨j, w, hw, hwe⟩ := R.stop hrv hue
      exact ⟨k + j, w, hv.trans hw.reaches, hwe, hw.printed.trans (R.printed hrv).symm⟩
    · rintro ⟨k, v, hv, hve, rfl⟩
      exact (R.back hv hr).2 e hve

end Refinement

end Machine

end Bx
