import Bx.Regex.Basic

namespace Bx

open List

variable {c : Char} {s : CharSet} {w cs rest out : List Char} {r : Regex} {m : String}

theorem CharSet.mem_range {lo hi : Char} : (CharSet.range lo hi).mem c ↔ lo.toNat ≤ c.toNat ∧ c.toNat ≤ hi.toNat := by
  simp only [mem, Bool.and_eq_true, decide_eq_true_eq]
  exact Iff.rfl

theorem CharSet.mem_char {d : Char} : (CharSet.char d).mem c ↔ c.toNat = d.toNat := by
  simp [mem, Char.toNat_inj]

theorem CharSet.mem_union {t : CharSet} : (CharSet.union s t).mem c ↔ s.mem c ∨ t.mem c := by
  simp [mem]

namespace Regex

/-- The language of a pattern. -/
inductive Matches : Regex → List Char → Prop
  | empty : Matches .empty []
  | set {s : CharSet} {c : Char} (h : s.mem c = true) : Matches (.set s) [c]
  | seq {r s : Regex} {v w : List Char} (hr : Matches r v) (hs : Matches s w) : Matches (.seq r s) (v ++ w)
  | left {r s : Regex} {w : List Char} (h : Matches r w) : Matches (.alt r s) w
  | right {r s : Regex} {w : List Char} (h : Matches s w) : Matches (.alt r s) w
  | starNil {r : Regex} : Matches (.star r) []
  | starCons {r : Regex} {v w : List Char} (hv : Matches r v) (hw : Matches (.star r) w) : Matches (.star r) (v ++ w)
  | lazyNil {r : Regex} : Matches (.lazyStar r) []
  | lazyCons {r : Regex} {v w : List Char} (hv : Matches r v) (hw : Matches (.lazyStar r) w) : Matches (.lazyStar r) (v ++ w)
  | atomic {r : Regex} {w : List Char} (h : Matches r w) : Matches (.atomic r) w
  | anchor {a : Anchor} : Matches (.anchor a) []

theorem matches_empty : Matches .empty w ↔ w = [] :=
  ⟨fun h => by cases h; rfl, fun h => h ▸ .empty⟩

theorem matches_set : Matches (.set s) w ↔ ∃ c, w = [c] ∧ s.mem c :=
  ⟨fun h => by cases h with | set h => exact ⟨_, rfl, h⟩, fun ⟨_, hw, h⟩ => hw ▸ .set h⟩

theorem matches_seq {s : Regex} : Matches (.seq r s) w ↔ ∃ u v, w = u ++ v ∧ Matches r u ∧ Matches s v :=
  ⟨fun h => by cases h with | seq hr hs => exact ⟨_, _, rfl, hr, hs⟩, fun ⟨_, _, hw, hr, hs⟩ => hw ▸ .seq hr hs⟩

theorem matches_alt {s : Regex} : Matches (.alt r s) w ↔ Matches r w ∨ Matches s w :=
  ⟨fun h => by cases h with | left h => exact .inl h | right h => exact .inr h, fun h => h.elim .left .right⟩

theorem matches_set_seq : Matches (.seq (.set s) r) w ↔ ∃ c v, w = c :: v ∧ s.mem c ∧ Matches r v := by
  rw [matches_seq]
  constructor
  · rintro ⟨u, v, rfl, hu, hv⟩
    obtain ⟨c, rfl, hc⟩ := matches_set.1 hu
    exact ⟨c, v, rfl, hc, hv⟩
  · rintro ⟨c, v, rfl, hc, hv⟩
    exact ⟨[c], v, rfl, .set hc, hv⟩

theorem matches_star_set : Matches (.star (.set s)) w ↔ ∀ c ∈ w, s.mem c := by
  constructor
  · intro h
    generalize hr : Regex.star (.set s) = r at h
    induction h with
    | starNil => simp
    | starCons hv _ _ ih =>
      cases hr
      obtain ⟨c, rfl, hc⟩ := matches_set.1 hv
      simpa using ⟨hc, ih rfl⟩
    | _ => cases hr
  · intro h
    induction w with
    | nil => exact .starNil
    | cons c w ih => exact .starCons (v := [c]) (.set (h c (by simp))) (ih fun d hd => h d (by simp [hd]))

theorem text_cons (c : Char) (cs : List Char) : text (String.ofList (c :: cs)) = .seq (.set (.char c)) (text (String.ofList cs)) := by
  simp [text]

theorem matches_text : Matches (text m) w ↔ w = m.toList := by
  obtain ⟨cs, rfl⟩ : ∃ cs, m = String.ofList cs := ⟨m.toList, by simp⟩
  rw [String.toList_ofList]
  induction cs generalizing w with
  | nil => exact matches_empty
  | cons c cs ih =>
    rw [text_cons, matches_set_seq]
    simp [ih, CharSet.mem]

theorem matches_text_seq : Matches (.seq (text m) r) w ↔ ∃ v, w = m.toList ++ v ∧ Matches r v := by
  rw [matches_seq]
  constructor
  · rintro ⟨u, v, rfl, hu, hv⟩
    exact ⟨v, by rw [matches_text.1 hu], hv⟩
  · rintro ⟨v, rfl, hv⟩
    exact ⟨m.toList, v, rfl, matches_text.2 rfl, hv⟩

/-! ### Taking only what belongs to the language -/

theorem mem_runs {acc : List (List Char)} (h : rest ∈ runs s acc cs) :
    rest ∈ acc ∨ ∃ w, cs = w ++ rest ∧ ∀ c ∈ w, s.mem c := by
  induction cs generalizing acc with
  | nil =>
    rcases mem_cons.1 h with rfl | h
    · exact .inr ⟨[], by simp⟩
    · exact .inl h
  | cons c cs ih =>
    rw [runs] at h
    split at h
    · next hc =>
        rcases ih h with h | ⟨w, hw, hm⟩
        · rcases mem_cons.1 h with rfl | h
          · exact .inr ⟨[], by simp⟩
          · exact .inl h
        · exact .inr ⟨c :: w, by simp [hw], by simpa using ⟨hc, hm⟩⟩
    · rcases mem_cons.1 h with rfl | h
      · exact .inr ⟨[], by simp⟩
      · exact .inl h

def Taken (r : Regex) (go : Way) (cs out : List Char) : Prop := ∃ w rest, cs = w ++ rest ∧ r.Matches w ∧ go rest = some out

def Sound (r : Regex) (round : Way → Way) : Prop := ∀ go cs out, round go cs = some out → Taken r go cs out

theorem many_sound {idle : Bool} {round : Way → Way} (hr : Sound r round) {go : Way} {n : Nat}
    (h : thread.many idle round go n cs = some out) : Taken (.star r) go cs out := by
  induction n generalizing cs with
  | zero => exact ⟨[], cs, rfl, .starNil, h⟩
  | succ n ih =>
    rw [thread.many, Option.orElse_eq_or, Option.or_eq_some_iff] at h
    rcases h with h | ⟨-, h⟩
    · obtain ⟨v, rest, rfl, hv, h⟩ := hr _ _ _ h
      dsimp only at h
      split at h
      · exact ⟨v ++ [], rest, by simp, .starCons hv .starNil, h⟩
      · obtain ⟨w, rest, rfl, hw, h⟩ := ih h
        exact ⟨v ++ w, rest, by simp, .starCons hv hw, h⟩
    · exact ⟨[], cs, rfl, .starNil, h⟩

theorem few_sound {idle : Bool} {round : Way → Way} (hr : Sound r round) {go : Way} {n : Nat}
    (h : thread.few idle round go n cs = some out) : Taken (.lazyStar r) go cs out := by
  induction n generalizing cs with
  | zero => exact ⟨[], cs, rfl, .lazyNil, h⟩
  | succ n ih =>
    rw [thread.few, Option.orElse_eq_or, Option.or_eq_some_iff] at h
    rcases h with h | ⟨-, h⟩
    · exact ⟨[], cs, rfl, .lazyNil, h⟩
    · obtain ⟨v, rest, rfl, hv, h⟩ := hr _ _ _ h
      dsimp only at h
      split at h
      · exact ⟨v ++ [], rest, by simp, .lazyCons hv .lazyNil, h⟩
      · obtain ⟨w, rest, rfl, hw, h⟩ := ih h
        exact ⟨v ++ w, rest, by simp, .lazyCons hv hw, h⟩

theorem thread_sound (holds : Anchor → List Char → Bool) (r : Regex) : Sound r (thread holds r) := by
  intro go cs out h
  induction r generalizing go cs out with
  | empty => exact ⟨[], cs, rfl, .empty, h⟩
  | set s =>
    cases cs with
    | nil => cases h
    | cons c cs =>
      rw [thread] at h
      split at h
      · next hc => exact ⟨[c], cs, rfl, .set hc, h⟩
      · cases h
  | seq r s ihr ihs =>
    obtain ⟨v, rest, rfl, hv, h⟩ := ihr _ _ _ h
    obtain ⟨w, rest, rfl, hw, h⟩ := ihs _ _ _ h
    exact ⟨v ++ w, rest, by simp, .seq hv hw, h⟩
  | alt r s ihr ihs =>
    rw [thread, Option.orElse_eq_or, Option.or_eq_some_iff] at h
    rcases h with h | ⟨-, h⟩
    · obtain ⟨w, rest, rfl, hw, h⟩ := ihr _ _ _ h
      exact ⟨w, rest, rfl, .left hw, h⟩
    · obtain ⟨w, rest, rfl, hw, h⟩ := ihs _ _ _ h
      exact ⟨w, rest, rfl, .right hw, h⟩
  | star r ih =>
    -- repetitions of a set have a way of their own
    by_cases hr : ∃ s, r = .set s
    · obtain ⟨s, rfl⟩ := hr
      rw [thread] at h
      obtain ⟨rest, hmem, hgo⟩ := exists_of_findSome?_eq_some h
      obtain hmem | ⟨w, rfl, hw⟩ := mem_runs hmem
      · cases hmem
      · exact ⟨w, rest, rfl, matches_star_set.2 hw, hgo⟩
    · rw [thread] at h
      · exact many_sound ih h
      · exact fun s hs => hr ⟨s, hs⟩
  | lazyStar r ih => exact few_sound ih h
  | atomic r ih =>
    rw [thread, Option.bind_eq_some_iff] at h
    obtain ⟨mid, h, hgo⟩ := h
    obtain ⟨w, rest, rfl, hw, h⟩ := ih _ _ _ h
    cases h
    exact ⟨w, _, rfl, .atomic hw, hgo⟩
  | anchor a =>
    rw [thread] at h
    split at h
    · exact ⟨[], cs, rfl, .anchor, h⟩
    · cases h

theorem split?_sound {before : Option Char} {lexeme : List Char} (h : r.split? before cs = some (lexeme, rest)) :
    cs = lexeme ++ rest ∧ r.Matches lexeme := by
  rw [split?, Option.map_eq_some_iff] at h
  obtain ⟨rest', h, heq⟩ := h
  obtain ⟨w, out, rfl, hw, h⟩ := thread_sound _ _ _ _ _ h
  cases h
  simp only [length_append, Nat.add_sub_cancel, take_left, Prod.mk.injEq] at heq
  obtain ⟨rfl, rfl⟩ := heq
  exact ⟨rfl, hw⟩

/-! ### Patterns that take nothing -/

def starts : Regex → Char → Bool
  | .empty, _ | .anchor _, _ => false
  | .set s, c => s.mem c
  | .seq r s, c => starts r c || (mayBeEmpty r && starts s c)
  | .alt r s, c => starts r c || starts s c
  | .star r, c | .lazyStar r, c | .atomic r, c => starts r c

theorem Matches.mayBeEmpty (h : r.Matches []) : r.mayBeEmpty := by
  generalize hw : ([] : List Char) = w at h
  induction h with
  | set => cases hw
  | seq _ _ ihr ihs =>
    obtain ⟨rfl, rfl⟩ := append_eq_nil_iff.1 hw.symm
    simp [Regex.mayBeEmpty, ihr, ihs]
  | left _ ih => simp [Regex.mayBeEmpty, ih hw]
  | right _ ih => simp [Regex.mayBeEmpty, ih hw]
  | atomic _ ih => simp [Regex.mayBeEmpty, ih hw]
  | _ => rfl

theorem Matches.starts (h : r.Matches (c :: w)) : r.starts c := by
  generalize hw : c :: w = v at h
  induction h generalizing w with
  | set h =>
    cases hw
    exact h
  | @seq r s u v hr hs ihr ihs =>
    cases u with
    | nil =>
      simp only [Regex.starts, Bool.or_eq_true, Bool.and_eq_true]
      exact .inr ⟨hr.mayBeEmpty, ihs hw⟩
    | cons d u =>
      cases hw
      simp [Regex.starts, ihr rfl]
  | left _ ih => simp [Regex.starts, ih hw]
  | right _ ih => simp [Regex.starts, ih hw]
  | @starCons r u v hv hw' ihv ihw =>
    cases u with
    | nil => exact ihw hw
    | cons d u =>
      cases hw
      exact ihv rfl
  | @lazyCons r u v hv hw' ihv ihw =>
    cases u with
    | nil => exact ihw hw
    | cons d u =>
      cases hw
      exact ihv rfl
  | atomic _ ih => exact ih hw
  | _ => cases hw

def Shuns (r : Regex) (cs : List Char) : Prop := ∀ w rest, cs = w ++ rest → ¬ r.Matches w

theorem Shuns.thread (h : r.Shuns cs) (holds : Anchor → List Char → Bool) (go : Way) : thread holds r go cs = none := by
  rw [Option.eq_none_iff_forall_ne_some]
  intro out hout
  obtain ⟨w, rest, hcs, hw, -⟩ := thread_sound _ _ _ _ _ hout
  exact h w rest hcs hw

theorem Shuns.split? (h : r.Shuns cs) (before : Option Char) : r.split? before cs = none := by
  rw [Regex.split?, h.thread, Option.map_none]

theorem shuns_of_starts (he : r.mayBeEmpty = false) (hs : r.starts c = false) : r.Shuns (c :: cs) := by
  intro w rest hcs hw
  cases w with
  | nil => simp [hw.mayBeEmpty] at he
  | cons d w =>
    cases hcs
    simp [hw.starts] at hs

theorem shuns_text (h : ¬ m.toList <+: cs) : (text m).Shuns cs := by
  rintro w rest rfl hw
  rw [matches_text.1 hw] at h
  exact h (prefix_append _ _)

theorem shuns_set_seq (h : s.mem c = false) : (Regex.seq (.set s) r).Shuns (c :: cs) := by
  intro w rest hcs hw
  obtain ⟨d, v, rfl, hd, -⟩ := matches_set_seq.1 hw
  cases hcs
  rw [h] at hd
  cases hd

theorem shuns_text_cons (d : Char) {ds : List Char} (hm : m.toList = d :: ds) (h : c.toNat ≠ d.toNat) :
    (text m).Shuns (c :: cs) := by
  refine shuns_text fun hp => h ?_
  rw [hm, cons_prefix_cons] at hp
  rw [hp.1]

theorem Shuns.text_seq (h : r.Shuns cs) : (Regex.seq (text m) r).Shuns (m.toList ++ cs) := by
  intro w rest hcs hw
  obtain ⟨v, rfl, hv⟩ := matches_text_seq.1 hw
  rw [append_assoc] at hcs
  exact h v rest (append_cancel_left hcs) hv

/-! ### Patterns that take a word -/

def Takes (r : Regex) (w rest : List Char) : Prop := ∀ holds go out, go rest = some out → thread holds r go (w ++ rest) = some out

theorem Takes.split? (h : r.Takes w rest) (before : Option Char) : r.split? before (w ++ rest) = some (w, rest) := by
  rw [Regex.split?, h _ _ _ rfl]
  simp

theorem takes_empty (rest : List Char) : Takes .empty [] rest := fun _ _ _ h => h

theorem takes_set (rest : List Char) (h : s.mem c) : Takes (.set s) [c] rest := by
  intro holds go out hgo
  simpa [thread, h] using hgo

theorem Takes.seq {s : Regex} {v : List Char} (hr : r.Takes v (w ++ rest)) (hs : s.Takes w rest) :
    (Regex.seq r s).Takes (v ++ w) rest := by
  intro holds go out hgo
  rw [append_assoc]
  exact hr holds _ out (hs holds go out hgo)

theorem Takes.set_seq (hc : s.mem c) (hr : r.Takes w rest) :
    (Regex.seq (.set s) r).Takes (c :: w) rest := (takes_set (w ++ rest) hc).seq hr

theorem Takes.left {s : Regex} (h : r.Takes w rest) : (Regex.alt r s).Takes w rest := by
  intro holds go out hgo
  rw [thread, h holds go out hgo]
  rfl

theorem Takes.right {s : Regex} (hr : r.Shuns (w ++ rest)) (h : s.Takes w rest) : (Regex.alt r s).Takes w rest := by
  intro holds go out hgo
  rw [thread, hr.thread, Option.orElse_none]
  exact h holds go out hgo

theorem runs_append {acc : List (List Char)} (hw : ∀ c ∈ w, s.mem c) (hr : ∀ c ∈ rest.head?, s.mem c = false) :
    ∃ more, runs s acc (w ++ rest) = rest :: more := by
  induction w generalizing acc with
  | nil =>
    cases rest with
    | nil => exact ⟨acc, rfl⟩
    | cons c rest => exact ⟨acc, by simp [runs, hr c rfl]⟩
  | cons c w ih =>
    rw [cons_append, runs, if_pos (hw c (by simp))]
    exact ih fun d hd => hw d (by simp [hd])

theorem takes_star_set (hw : ∀ c ∈ w, s.mem c) (hr : ∀ c ∈ rest.head?, s.mem c = false) :
    Takes (.star (.set s)) w rest := by
  intro holds go out hgo
  obtain ⟨more, hmore⟩ : ∃ more, runs s [] (w ++ rest) = rest :: more := runs_append hw hr
  rw [thread, hmore, List.findSome?_cons, hgo]

theorem takes_text (m : String) (rest : List Char) : (text m).Takes m.toList rest := by
  obtain ⟨cs, rfl⟩ : ∃ cs, m = String.ofList cs := ⟨m.toList, by simp⟩
  rw [String.toList_ofList]
  induction cs with
  | nil => exact takes_empty rest
  | cons c cs ih =>
    rw [text_cons]
    exact ih.set_seq (by simp [CharSet.mem])

end Regex

end Bx
