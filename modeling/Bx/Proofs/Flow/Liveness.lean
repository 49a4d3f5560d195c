import Bx.Flow.Liveness
import Bx.Proofs.Flow.Linearize
import Mathlib.Data.List.Perm.Subperm

namespace Bx.Flow

open List Tac

variable {us vs : List Use} {u : Use} {id : Nat} {m : LiveMap} {p : Succession} {e : Label × Block} {i j l : Line}
variable {x : String}

namespace LiveMap

open Instr (Use)

theorem mem_foldl_insertUse : u ∈ us.foldl insertUse vs ↔ u ∈ vs ∨ u ∈ us := by
  induction us generalizing vs with
  | nil => simp
  | cons v us ih =>
    rw [foldl_cons, ih, insertUse, mem_cons]
    split
    · next h =>
        rw [contains_iff_mem] at h
        grind
    · grind

theorem nodup_foldl_insertUse (h : vs.Nodup) : (us.foldl insertUse vs).Nodup := by
  induction us generalizing vs with
  | nil => exact h
  | cons v us ih =>
    rw [foldl_cons]
    apply ih
    rw [insertUse]
    split
    · exact h
    · next hv =>
        rw [contains_iff_mem] at hv
        exact nodup_append.2 ⟨h, nodup_singleton v, fun a ha b hb hab => hv (by simp_all)⟩

theorem length_foldl_insertUse (us vs : List Use) : vs.length ≤ (us.foldl insertUse vs).length := by
  induction us generalizing vs with
  | nil => exact Nat.le_refl _
  | cons v us ih =>
    rw [foldl_cons]
    refine Nat.le_trans ?_ (ih _)
    rw [insertUse]
    split
    · exact Nat.le_refl _
    · simp

theorem foldl_insertUse_eq (h : (us.foldl insertUse vs).length = vs.length) : us.foldl insertUse vs = vs := by
  induction us generalizing vs with
  | nil => rfl
  | cons v us ih =>
    rw [foldl_cons] at h ⊢
    have hle := length_foldl_insertUse us (insertUse vs v)
    have hv : insertUse vs v = vs := by
      rw [insertUse] at hle ⊢
      split at hle
      · next hc => rw [if_pos hc]
      · next hc =>
          rw [insertUse, if_neg hc] at h
          simp only [length_append, length_singleton] at hle
          omega
    rw [hv] at h ⊢
    exact ih h

theorem weight_eq_sum (m : LiveMap) : m.weight = (m.map fun e => e.2.length).sum := by
  rw [weight, sum_eq_foldl, foldl_map]

@[simp]
theorem weight_nil : weight [] = 0 := rfl

@[simp]
theorem weight_cons (e : Nat × List Use) (m : LiveMap) : weight (e :: m) = e.2.length + weight m := by
  rw [weight_eq_sum, map_cons, sum_cons, ← weight_eq_sum]

theorem keys_add (id : Nat) (us : List Use) (m : LiveMap) : (m.add id us).map Prod.fst = m.map Prod.fst := by
  induction m with
  | nil => rfl
  | cons e m ih =>
    obtain ⟨k, vs⟩ := e
    rw [add]
    split
    · rfl
    · rw [map_cons, ih, map_cons]

theorem weight_le_add (id : Nat) (us : List Use) (m : LiveMap) : m.weight ≤ (m.add id us).weight := by
  induction m with
  | nil => exact Nat.le_refl _
  | cons e m ih =>
    obtain ⟨k, vs⟩ := e
    rw [add]
    split
    · simpa using length_foldl_insertUse us vs
    · simpa using ih

theorem add_eq_self (h : (m.add id us).weight = m.weight) : m.add id us = m := by
  induction m with
  | nil => rfl
  | cons e m ih =>
    obtain ⟨k, vs⟩ := e
    rw [add] at h ⊢
    split
    · next hk =>
        rw [if_pos hk, weight_cons, weight_cons] at h
        rw [foldl_insertUse_eq (by simpa using h)]
    · next hk =>
        rw [if_neg hk, weight_cons, weight_cons] at h
        rw [ih (by simpa using h)]

theorem liveAt_add_self (h : id ∈ m.map Prod.fst) (hu : u ∈ us) : u ∈ (m.add id us).liveAt id := by
  induction m with
  | nil => simp at h
  | cons e m ih =>
    obtain ⟨k, vs⟩ := e
    rw [add, liveAt]
    by_cases hk : k = id
    · subst hk
      simpa [lookup_cons] using mem_foldl_insertUse.2 (.inr hu)
    · have hk' : (id == k) = false := beq_eq_false_iff_ne.2 (Ne.symm hk)
      rw [if_neg (by simpa using hk), lookup_cons, hk']
      exact ih (by simpa [Ne.symm hk] using h)

theorem liveAt_subset_add (id : Nat) (us : List Use) (m : LiveMap) (k : Nat) : m.liveAt k ⊆ (m.add id us).liveAt k := by
  induction m with
  | nil => exact List.Subset.refl _
  | cons e m ih =>
    obtain ⟨k', vs⟩ := e
    rw [add, liveAt, liveAt]
    split
    · rw [lookup_cons, lookup_cons]
      cases k == k' with
      | true => exact fun u hu => mem_foldl_insertUse.2 (.inl hu)
      | false => exact List.Subset.refl _
    · rw [lookup_cons, lookup_cons]
      cases k == k' with
      | true => exact List.Subset.refl _
      | false => exact ih

theorem mem_liveAt_add {k : Nat} (h : u ∈ (m.add id us).liveAt k) : u ∈ m.liveAt k ∨ k = id ∧ u ∈ us := by
  induction m with
  | nil => exact .inl h
  | cons e m ih =>
    obtain ⟨k', vs⟩ := e
    rw [add, liveAt] at h
    rw [liveAt, lookup_cons]
    split at h
    · next hk' =>
        rw [lookup_cons] at h
        cases hk : k == k' with
        | true =>
          rw [hk] at h
          refine (mem_foldl_insertUse.1 h).imp_right fun hu => ⟨?_, hu⟩
          rw [eq_of_beq hk, eq_of_beq hk']
        | false =>
          rw [hk] at h
          exact .inl h
    · rw [lookup_cons] at h
      cases hk : k == k' with
      | true =>
        rw [hk] at h
        exact .inl h
      | false =>
        rw [hk] at h
        exact ih h

def Within (us : List Use) (m : LiveMap) : Prop := ∀ e ∈ m, e.2.Nodup ∧ e.2 ⊆ us

theorem Within.liveAt (h : m.Within us) (k : Nat) : m.liveAt k ⊆ us := by
  rw [LiveMap.liveAt]
  rcases hl : m.lookup k with _ | vs
  · simp
  · exact (h _ (mem_of_lookup hl)).2

theorem Within.add (h : m.Within us) (hv : vs ⊆ us) (id : Nat) : (m.add id vs).Within us := by
  induction m with
  | nil => exact h
  | cons e m ih =>
    obtain ⟨k, ws⟩ := e
    have he := h _ mem_cons_self
    have hm : Within us m := fun e he => h e (mem_cons_of_mem _ he)
    rw [LiveMap.add]
    split
    · rintro e (_ | ⟨_, hmem⟩)
      · refine ⟨nodup_foldl_insertUse he.1, fun u hu => ?_⟩
        exact (mem_foldl_insertUse.1 hu).elim (fun hu => he.2 hu) fun hu => hv hu
      · exact hm e hmem
    · rintro e (_ | ⟨_, hmem⟩)
      · exact he
      · exact ih hm e hmem

theorem Within.weight_le (h : m.Within us) : m.weight ≤ m.length * us.length := by
  induction m with
  | nil => simp
  | cons e m ih =>
    have he := h e mem_cons_self
    have := (subperm_of_subset he.1 he.2).length_le
    have := ih fun e he => h e (mem_cons_of_mem _ he)
    rw [weight_cons, length_cons, Nat.succ_mul]
    omega

end LiveMap

open Instr (Use)

def Stable (ps : List Succession) (m : LiveMap) : Prop := ∀ p ∈ ps, m.add p.line.id (passed m p) = m

section Grow

variable {ps : List Succession} {us : List Use} {m : LiveMap}

theorem weight_le_growOnce (ps : List Succession) (m : LiveMap) : m.weight ≤ (growOnce ps m).weight := by
  induction ps generalizing m with
  | nil => exact Nat.le_refl _
  | cons p ps ih => exact Nat.le_trans (LiveMap.weight_le_add _ _ m) (ih _)

theorem growOnce_eq_self (h : (growOnce ps m).weight = m.weight) : growOnce ps m = m ∧ Stable ps m := by
  induction ps with
  | nil => exact ⟨rfl, by simp [Stable]⟩
  | cons p ps ih =>
    rw [growOnce, foldl_cons] at h ⊢
    have h₁ := LiveMap.weight_le_add p.line.id (passed m p) m
    have h₂ := weight_le_growOnce ps (m.add p.line.id (passed m p))
    have hadd : m.add p.line.id (passed m p) = m := LiveMap.add_eq_self (by rw [growOnce] at h₂; omega)
    rw [hadd] at h ⊢
    obtain ⟨hm, hs⟩ := ih h
    exact ⟨hm, forall_mem_cons.2 ⟨hadd, hs⟩⟩

theorem mem_along_iff {l : Label} : u ∈ along l vs ↔ ∃ x, u = .plain x ∧ (.plain x ∈ vs ∨ .along l.text x ∈ vs) := by
  rw [along, mem_filterMap]
  constructor
  · rintro ⟨w, hw, hwu⟩
    cases w with
    | plain x =>
      cases hwu
      exact ⟨x, rfl, .inl hw⟩
    | along l' x =>
      simp only [beq_iff_eq] at hwu
      split at hwu
      · next hl =>
          cases hwu
          exact ⟨x, rfl, .inr (hl ▸ hw)⟩
      · cases hwu
  · rintro ⟨x, rfl, hw | hw⟩
    · exact ⟨_, hw, rfl⟩
    · exact ⟨_, hw, by simp⟩

theorem exists_of_mem_along {l : Label} (h : u ∈ along l vs) : ∃ w ∈ vs, u = .plain w.temp := by
  obtain ⟨x, rfl, hw | hw⟩ := mem_along_iff.1 h
  · exact ⟨_, hw, rfl⟩
  · exact ⟨_, hw, rfl⟩

theorem mem_passed : u ∈ passed m p ↔ u.temp ∉ p.line.instr.defs ∧
    if p.label = p.nextLabel then u ∈ m.liveAt p.next.id
    else ∃ x, u = .plain x ∧ (.plain x ∈ m.liveAt p.next.id ∨ .along p.label.text x ∈ m.liveAt p.next.id) := by
  rw [passed, mem_filter, and_comm]
  simp only [beq_iff_eq, ← mem_along_iff, Bool.not_eq_true', contains_eq_mem, decide_eq_false_iff_not]
  refine and_congr_right fun _ => ?_
  split <;> rfl

theorem passed_subset (hu : ∀ u ∈ us, .plain u.temp ∈ us) (hm : m.Within us) (p : Succession) : passed m p ⊆ us := by
  intro u h
  have h := (mem_filter.1 h).1
  split at h
  · exact hm.liveAt _ h
  · obtain ⟨v, hv, rfl⟩ := exists_of_mem_along h
    exact hu v (hm.liveAt _ hv)

theorem growOnce_within (hu : ∀ u ∈ us, .plain u.temp ∈ us) (hm : m.Within us) : (growOnce ps m).Within us := by
  induction ps generalizing m with
  | nil => exact hm
  | cons p ps ih => exact ih (hm.add (passed_subset hu hm p) _)

theorem keys_growOnce (ps : List Succession) (m : LiveMap) : (growOnce ps m).map Prod.fst = m.map Prod.fst := by
  induction ps generalizing m with
  | nil => rfl
  | cons p ps ih => exact (ih _).trans (LiveMap.keys_add _ _ m)

theorem liveAt_subset_growOnce (ps : List Succession) (m : LiveMap) (k : Nat) : m.liveAt k ⊆ (growOnce ps m).liveAt k := by
  induction ps generalizing m with
  | nil => exact List.Subset.refl _
  | cons p ps ih => exact fun u hu => ih _ (LiveMap.liveAt_subset_add _ _ m k hu)

/-- What holds of every use in a map, and passes from each instruction to the one before it. -/
structure Carried (ps : List Succession) (Q : Nat → Use → Prop) (m : LiveMap) : Prop where
  holds : ∀ k, ∀ u ∈ m.liveAt k, Q k u
  inside : ∀ p ∈ ps, p.label = p.nextLabel → ∀ u, Q p.next.id u → u.temp ∉ p.line.instr.defs → Q p.line.id u
  across : ∀ p ∈ ps, p.label ≠ p.nextLabel → ∀ x, Q p.next.id (.plain x) ∨ Q p.next.id (.along p.label.text x) →
    x ∉ p.line.instr.defs → Q p.line.id (.plain x)

theorem carried_temp {Q : Nat → String → Prop} (hholds : ∀ k, ∀ u ∈ m.liveAt k, Q k u.temp)
    (hpasses : ∀ p ∈ ps, ∀ x, Q p.next.id x → x ∉ p.line.instr.defs → Q p.line.id x) : Carried ps (fun k u => Q k u.temp) m :=
  ⟨hholds, fun p hp _ u => hpasses p hp u.temp, fun p hp _ x hx => hpasses p hp x (hx.elim id id)⟩

theorem Carried.growOnce {Q : Nat → Use → Prop} (h : Carried ps Q m) : Carried ps Q (growOnce ps m) := by
  refine ⟨?_, h.inside, h.across⟩
  obtain ⟨hholds, hinside, hacross⟩ := h
  induction ps generalizing m with
  | nil => exact hholds
  | cons p ps ih =>
    rw [forall_mem_cons] at hinside hacross
    refine ih (fun k u hu => ?_) hinside.2 hacross.2
    rcases LiveMap.mem_liveAt_add hu with hold | ⟨rfl, hnew⟩
    · exact hholds k u hold
    · obtain ⟨hdef, hnew⟩ := mem_passed.1 hnew
      split at hnew
      · next hlabel => exact hinside.1 hlabel u (hholds _ u hnew) hdef
      · next hlabel =>
          obtain ⟨x, rfl, hx⟩ := hnew
          exact hacross.1 hlabel x (hx.imp (hholds _ _) (hholds _ _)) hdef

structure Grown (ps : List Succession) (us : List Use) (m m' : LiveMap) : Prop where
  keys : m'.map Prod.fst = m.map Prod.fst
  within : m'.Within us
  subset : ∀ k, m.liveAt k ⊆ m'.liveAt k
  stable : Stable ps m'
  least : ∀ Q, Carried ps Q m → Carried ps Q m'

theorem grow_spec (hu : ∀ u ∈ us, .plain u.temp ∈ us) {n : Nat} (hm : m.Within us)
    (hn : m.length * us.length < m.weight + n) : Grown ps us m (grow ps n m) := by
  induction n generalizing m with
  | zero =>
    have := hm.weight_le
    omega
  | succ n ih =>
    rw [grow]
    have hle := weight_le_growOnce ps m
    split
    · next h =>
        obtain ⟨heq, hs⟩ := growOnce_eq_self (by simpa using h)
        rw [heq]
        exact ⟨rfl, hm, fun k => List.Subset.refl _, hs, fun Q hQ => hQ⟩
    · next h =>
        have hne : (growOnce ps m).weight ≠ m.weight := by simpa using h
        have hlen : (growOnce ps m).length = m.length := by
          simpa using congrArg List.length (keys_growOnce ps m)
        have hg := ih (growOnce_within hu hm) (by rw [hlen]; omega)
        exact ⟨hg.keys.trans (keys_growOnce ps m), hg.within,
          fun k u hk => hg.subset k (liveAt_subset_growOnce ps m k hk), hg.stable, fun Q hQ => hg.least Q hQ.growOnce⟩

theorem Grown.passed_subset {m' : LiveMap} (h : Grown ps us m m') (hp : p ∈ ps) (hk : p.line.id ∈ m.map Prod.fst) :
    passed m' p ⊆ m'.liveAt p.line.id := by
  intro u hu
  rw [← h.stable p hp]
  exact LiveMap.liveAt_add_self (h.keys ▸ hk) hu

end Grow

def allUses (g : Graph) : List Use := (g.lines.flatMap fun l => l.instr.uses.eraseDups).flatMap fun u => [u, .plain u.temp]

theorem plain_mem_allUses {g : Graph} (h : u ∈ allUses g) : .plain u.temp ∈ allUses g := by
  obtain ⟨v, hv, hu⟩ := mem_flatMap.1 h
  refine mem_flatMap.2 ⟨v, hv, ?_⟩
  rcases mem_cons.1 hu with rfl | hu
  · simp
  · rw [mem_singleton.1 hu]
    simp [Use.temp]

theorem firstUses_within (g : Graph) : (firstUses g).Within (allUses g) := by
  intro e he
  obtain ⟨l, hl, rfl⟩ := mem_map.1 he
  exact ⟨nodup_eraseDups _, fun u hu => mem_flatMap.2 ⟨u, mem_flatMap.2 ⟨l, hl, hu⟩, by simp⟩⟩

theorem length_allUses (g : Graph) : (allUses g).length = 2 * (firstUses g).weight := by
  have pairs : ∀ us : List Use, (us.flatMap fun u => [u, .plain u.temp]).length = 2 * us.length := by
    intro us
    induction us with
    | nil => rfl
    | cons u us ih =>
      rw [flatMap_cons, length_append, ih, length_cons]
      simp only [length_cons, length_nil]
      omega
  rw [allUses, pairs, length_flatMap, LiveMap.weight_eq_sum, firstUses, map_map]
  rfl

theorem firstUses_grown (g : Graph) (ps : List Succession) :
    Grown ps (allUses g) (firstUses g) (grow ps (rounds (firstUses g)) (firstUses g)) := by
  refine grow_spec (fun u hu => plain_mem_allUses hu) (firstUses_within g) ?_
  rw [length_allUses, rounds]
  omega

/-- Each block and each set of successors stands under a label of its own. -/
structure Graph.Keyed (g : Graph) : Prop where
  labels : g.labels.Nodup
  succs : (g.succs.map Prod.fst).Nodup

/-- The next line of the block, or the first of a block that an edge leads to. -/
inductive Graph.Next (g : Graph) : Line → Line → Prop
  | inside {e i j ls : _} (he : e ∈ g.blocks) (hs : i :: j :: ls <:+ e.2.lines) : g.Next i j
  | across {e e' i j : _} (he : e ∈ g.blocks) (he' : e' ∈ g.blocks) (hd : e'.1 ∈ g.succsOf e.1) (hi : e.2.lines.getLast? = some i)
      (hj : e'.2.lines.head? = some j) : g.Next i j

def Graph.Identified (g : Graph) : Prop := ∀ l ∈ g.lines, ∀ m ∈ g.lines, l.id = m.id → l = m

section Pairs

variable {g : Graph} {ps : List Succession}

theorem Graph.identified_of_nodup (hids : (g.lines.map Line.id).Nodup) : g.Identified :=
  fun _ hl _ hm => inj_on_of_nodup_map hids hl hm

theorem Graph.Cut.keyed (hg : g.Cut) : g.Keyed := ⟨hg.nodup, hg.succKeys ▸ hg.nodup⟩

theorem mem_edges (hg : g.Keyed) {a b : Label} : (a, b) ∈ g.edges ↔ b ∈ g.succsOf a := by
  rw [Graph.edges, mem_flatMap, Graph.succsOf]
  constructor
  · rintro ⟨⟨a', s⟩, hs, hab⟩
    obtain ⟨b', hb, hab⟩ := mem_map.1 hab
    cases hab
    rwa [lookup_of_mem hg.succs hs, Option.getD_some]
  · intro hb
    cases hl : g.succs.lookup a with
    | none => simp [hl] at hb
    | some s =>
      rw [hl] at hb
      exact ⟨(a, s), mem_of_lookup hl, mem_map_of_mem hb⟩

theorem mem_pairs (h : g.pairs = .ok ps) : p ∈ ps ↔ .ok p ∈ g.attempts := by
  constructor <;> intro hp
  · obtain ⟨q, hq, hpq⟩ := forall₂_exists_left (mapM_eq_ok.1 h) hp
    cases hpq
    exact hq
  · obtain ⟨q, hq, hpq⟩ := forall₂_exists_right (mapM_eq_ok.1 h) hp
    cases hpq
    exact hq

theorem not_error_attempts (h : g.pairs = .ok ps) {e : Fault} : .error e ∉ g.attempts := by
  intro he
  obtain ⟨q, -, hpq⟩ := forall₂_exists_right (mapM_eq_ok.1 h) he
  cases hpq

theorem lines_ne_nil_of_pairs (h : g.pairs = .ok ps) (he : e ∈ g.blocks) : e.2.lines ≠ [] := by
  intro hnil
  refine not_error_attempts h (e := .emptyInSequence) (mem_append_right _ (mem_flatMap.2 ⟨e, he, ?_⟩))
  change _ ∈ Graph.pairsInside e.1 e.2
  rw [Graph.pairsInside, hnil]
  exact mem_singleton_self _

theorem mem_zip_tail {ls : List Line} : (i, j) ∈ ls.zip ls.tail ↔ ∃ ms, i :: j :: ms <:+ ls := by
  induction ls with
  | nil => simp
  | cons l ls ih =>
    cases ls with
    | nil => simp [suffix_cons_iff]
    | cons m ls =>
      rw [tail_cons] at ih ⊢
      rw [zip_cons_cons, mem_cons, ih]
      simp only [suffix_cons_iff (a := l), exists_or, Prod.mk.injEq, List.cons.injEq]
      refine or_congr_left ⟨?_, ?_⟩
      · rintro ⟨rfl, rfl⟩
        exact ⟨ls, rfl, rfl, rfl⟩
      · rintro ⟨_, rfl, rfl, _⟩
        exact ⟨rfl, rfl⟩

theorem ok_mem_pairsInside : .ok p ∈ Graph.pairsInside e.1 e.2 ↔ ∃ i j ls, i :: j :: ls <:+ e.2.lines ∧ p = ⟨e.1, i, e.1, j⟩ := by
  rw [Graph.pairsInside]
  split
  · next hnil =>
      rw [List.isEmpty_iff] at hnil
      simp [hnil]
  · rw [mem_reverse, mem_map]
    constructor
    · rintro ⟨⟨i, j⟩, hij, hp⟩
      cases hp
      obtain ⟨ls, hs⟩ := mem_zip_tail.1 hij
      exact ⟨i, j, ls, hs, rfl⟩
    · rintro ⟨i, j, ls, hs, rfl⟩
      exact ⟨(i, j), mem_zip_tail.2 ⟨ls, hs⟩, rfl⟩

theorem block_eq_ok (hg : g.Keyed) {x : Label} {b : Block} : g.block x = .ok b ↔ (x, b) ∈ g.blocks := by
  rw [Graph.block]
  constructor
  · intro h
    split at h
    · next hl =>
        cases h
        exact mem_of_lookup hl
    · cases h
  · intro hb
    rw [lookup_of_mem hg.labels hb]

theorem pairAcross_eq_ok (hg : g.Keyed) {a b : Label} :
    g.pairAcross a b = .ok p ↔ ∃ c d i j, (a, c) ∈ g.blocks ∧ (b, d) ∈ g.blocks ∧ c.lines.getLast? = some i ∧
      d.lines.head? = some j ∧ p = ⟨a, i, b, j⟩ := by
  rw [Graph.pairAcross]
  constructor
  · intro h
    obtain ⟨c, hc, h⟩ := bind_eq_ok.1 h
    split at h
    · cases h
    · next i hi =>
        obtain ⟨d, hd, h⟩ := bind_eq_ok.1 h
        split at h
        · cases h
        · next j hj =>
            cases h
            exact ⟨c, d, i, j, (block_eq_ok hg).1 hc, (block_eq_ok hg).1 hd, hi, hj, rfl⟩
  · rintro ⟨c, d, i, j, hc, hd, hi, hj, rfl⟩
    simp only [(block_eq_ok hg).2 hc, (block_eq_ok hg).2 hd, ok_bind, hi, hj]
    rfl

theorem mem_pairs_iff (hg : g.Keyed) (h : g.pairs = .ok ps) : p ∈ ps ↔
    (∃ e ∈ g.blocks, ∃ i j ls, i :: j :: ls <:+ e.2.lines ∧ p = ⟨e.1, i, e.1, j⟩) ∨
      ∃ e ∈ g.blocks, ∃ e' ∈ g.blocks, ∃ i j, e'.1 ∈ g.succsOf e.1 ∧ e.2.lines.getLast? = some i ∧ e'.2.lines.head? = some j ∧
        p = ⟨e.1, i, e'.1, j⟩ := by
  rw [mem_pairs h, Graph.attempts, mem_append, or_comm]
  refine or_congr ⟨fun hp => ?_, ?_⟩ ⟨fun hp => ?_, ?_⟩
  · obtain ⟨e, he, hp⟩ := mem_flatMap.1 hp
    exact ⟨e, he, ok_mem_pairsInside.1 hp⟩
  · rintro ⟨e, he, hp⟩
    exact mem_flatMap.2 ⟨e, he, ok_mem_pairsInside.2 hp⟩
  · obtain ⟨⟨a, b⟩, hab, hp⟩ := mem_map.1 hp
    obtain ⟨c, d, i, j, hc, hd, hi, hj, rfl⟩ := (pairAcross_eq_ok hg).1 hp
    exact ⟨_, hc, _, hd, i, j, (mem_edges hg).1 hab, hi, hj, rfl⟩
  · rintro ⟨e, he, e', he', i, j, hd, hi, hj, rfl⟩
    exact mem_map.2 ⟨(_, _), (mem_edges hg).2 hd, (pairAcross_eq_ok hg).2 ⟨_, _, _, _, he, he', hi, hj, rfl⟩⟩

theorem exists_pair_iff (hg : g.Keyed) (h : g.pairs = .ok ps) : (∃ p ∈ ps, p.line = i ∧ p.next = j) ↔ g.Next i j := by
  constructor
  · rintro ⟨p, hp, rfl, rfl⟩
    rcases (mem_pairs_iff hg h).1 hp with ⟨e, he, i, j, ls, hs, rfl⟩ | ⟨e, he, e', he', i, j, hd, hi, hj, rfl⟩
    · exact .inside he hs
    · exact .across he he' hd hi hj
  · rintro (⟨he, hs⟩ | ⟨he, he', hd, hi, hj⟩)
    · exact ⟨_, (mem_pairs_iff hg h).2 (.inl ⟨_, he, _, _, _, hs, rfl⟩), rfl, rfl⟩
    · exact ⟨_, (mem_pairs_iff hg h).2 (.inr ⟨_, he, _, he', _, _, hd, hi, hj, rfl⟩), rfl, rfl⟩

theorem exists_pairs_iff (hg : g.Keyed) (hne : ∀ e ∈ g.blocks, e.2.lines ≠ []) :
    (∃ ps, g.pairs = .ok ps) ↔ ∀ e ∈ g.edges, e.1 ∈ g.labels ∧ e.2 ∈ g.labels := by
  constructor
  · rintro ⟨ps, hps⟩ ⟨a, b⟩ hab
    rcases hp : g.pairAcross a b with f | p
    · exact absurd (mem_append_left _ (mem_map.2 ⟨(a, b), hab, hp⟩)) (not_error_attempts hps)
    · obtain ⟨c, d, i, j, hc, hd, -⟩ := (pairAcross_eq_ok hg).1 hp
      exact ⟨mem_map_of_mem hc, mem_map_of_mem hd⟩
  · intro hedges
    have hok : ∀ r ∈ g.attempts, ∃ p, id r = .ok p ∧ True := by
      intro r hr
      rcases mem_append.1 hr with hr | hr
      · obtain ⟨⟨a, b⟩, hab, rfl⟩ := mem_map.1 hr
        obtain ⟨ha, hb⟩ := hedges _ hab
        obtain ⟨e, he, rfl⟩ := mem_map.1 ha
        obtain ⟨e', he', rfl⟩ := mem_map.1 hb
        have hi := List.getLast?_eq_some_getLast (hne e he)
        have hj := List.head?_eq_some_head (hne e' he')
        exact ⟨_, (pairAcross_eq_ok hg).2 ⟨_, _, _, _, he, he', hi, hj, rfl⟩, trivial⟩
      · obtain ⟨⟨x, b⟩, he, hr⟩ := mem_flatMap.1 hr
        simp only [Graph.pairsInside] at hr
        rw [if_neg (by simpa using hne _ he), mem_reverse] at hr
        obtain ⟨p, -, rfl⟩ := mem_map.1 hr
        exact ⟨_, rfl, trivial⟩
    obtain ⟨ps, hps, -⟩ := exists_mapM hok
    exact ⟨ps, hps⟩

end Pairs

theorem NameSet.mem_insert {y : String} {s : NameSet} : y ∈ NameSet.insert x s ↔ y = x ∨ y ∈ s := by
  induction s with
  | nil => simp [NameSet.insert]
  | cons z s ih =>
    rw [NameSet.insert]
    split
    · next h =>
        rw [beq_iff_eq] at h
        subst h
        simp
    · split
      · simp
      · simp only [mem_cons, ih]
        exact or_left_comm

theorem NameSet.mem_ofList {xs : List String} : x ∈ NameSet.ofList xs ↔ x ∈ xs := by
  induction xs with
  | nil => simp [NameSet.ofList]
  | cons y xs ih =>
    rw [NameSet.ofList, foldr_cons, NameSet.mem_insert, mem_cons, ← ih]
    rfl

section Liveness

variable {g : Graph} {v : Liveness}

theorem liveness_eq_ok (h : liveness g = .ok v) :
    ∃ ps m, g.pairs = .ok ps ∧ Grown ps (allUses g) (firstUses g) m ∧
      (∀ id x, x ∈ v.livein id ↔ ∃ u ∈ m.liveAt id, u.temp = x) ∧
      ∀ l ∈ g.lines, ∀ x, x ∈ v.liveout l.id ↔
        ∃ p ∈ ps, p.line.id = l.id ∧ ∃ u ∈ along p.label (m.liveAt p.next.id), u.temp = x := by
  rw [liveness] at h
  split at h
  · cases h
  obtain ⟨ps, hps, h⟩ := bind_eq_ok.1 h
  cases h
  refine ⟨ps, _, hps, firstUses_grown g ps, fun id x => ?_, fun l hl x => ?_⟩
  · have hlook := lookup_map temps id (grow ps (rounds (firstUses g)) (firstUses g))
    rw [Liveness.livein, hlook, LiveMap.liveAt]
    rcases List.lookup id (grow ps (rounds (firstUses g)) (firstUses g)) with _ | us
    · simp
    · simp [temps, NameSet.mem_ofList]
  · have hlook := lookup_map_key (f := Line.id) (fun id => NameSet.ofList ((ps.filter fun p => p.line.id == id).flatMap fun p =>
      (along p.label ((grow ps (rounds (firstUses g)) (firstUses g)).liveAt p.next.id)).map Use.temp))
      (mem_map_of_mem hl)
    rw [Liveness.liveout, hlook, Option.getD_some, NameSet.mem_ofList]
    simp only [mem_flatMap, mem_filter, beq_iff_eq, mem_map, and_assoc]

/-- Live at a line is what it uses, and what is live behind it and not defined there. -/
structure Graph.Live (g : Graph) (live : Nat → String → Prop) : Prop where
  uses : ∀ l ∈ g.lines, ∀ x, isTempName x = true → x ∈ l.instr.reads → live l.id x
  inside : ∀ e ∈ g.blocks, ∀ i j ls, i :: j :: ls <:+ e.2.lines → ∀ x, live j.id x → x ∉ i.instr.defs → live i.id x
  across : ∀ e ∈ g.blocks, ∀ e' ∈ g.blocks, e'.1 ∈ Graph.destinations e.2 → ∀ i j, e.2.lines.getLast? = some i →
    e'.2.lines.head? = some j → ∀ x, live j.id x → x ∉ i.instr.defs → live i.id x

theorem defs_of_isEnder {i : Instr} (hi : isEnder i) : i.defs = [] := by
  rw [Instr.defs, dest_of_isEnder hi]
  rfl

theorem Graph.Live.jump {live : Nat → String → Prop} (h : g.Live live) {e' : Label × Block} (he : e ∈ g.blocks)
    (he' : e' ∈ g.blocks) (hf : e.2.Formed) (hd : e'.1 ∈ Graph.destinations e.2) {ls : List Line} (hs : l :: ls <:+ e.2.jumps)
    (hj : e'.2.lines.head? = some j) (hx : live j.id x) : live l.id x := by
  have hlines : l :: ls <:+ e.2.lines := hs.trans (suffix_append _ _)
  have hdefs : x ∉ l.instr.defs := by
    rw [defs_of_isEnder (hf.jumps l (hs.subset mem_cons_self))]
    exact not_mem_nil
  induction ls generalizing l with
  | nil =>
    obtain ⟨a, ha⟩ := hlines
    exact h.across e he e' he' hd l j (by rw [← ha, List.getLast?_concat]) hj x hx hdefs
  | cons m ls ih =>
    have hm : m :: ls <:+ e.2.jumps := (suffix_cons l _).trans hs
    refine h.inside e he l m ls hlines x (ih hm (hm.trans (suffix_append _ _)) ?_) hdefs
    rw [defs_of_isEnder (hf.jumps m (hm.subset mem_cons_self))]
    exact not_mem_nil

theorem reads_subset_names {i : Instr} (hi : i.isPhi = false) : i.reads ⊆ i.names := by
  cases i <;> simp_all [Instr.reads, Instr.names, Instr.isPhi]

theorem uses_eq {i : Instr} (hi : i.isPhi = false) : i.uses = (i.names.filter isTempName).map .plain := by
  cases i <;> simp_all [Instr.uses, Instr.isPhi]

variable (hphi : ∀ l ∈ g.lines, l.instr.isPhi = false)
include hphi

theorem plain_of_mem_allUses (hu : u ∈ allUses g) :
    u = .plain u.temp ∧ isTempName u.temp ∧ ∃ l ∈ g.lines, u.temp ∈ l.instr.names := by
  obtain ⟨w, hw, hu⟩ := mem_flatMap.1 hu
  obtain ⟨l, hl, hw⟩ := mem_flatMap.1 hw
  rw [mem_eraseDups, uses_eq (hphi l hl)] at hw
  obtain ⟨x, hx, rfl⟩ := mem_map.1 hw
  simp only [Use.temp, mem_cons, not_mem_nil, or_false, or_self] at hu
  subst hu
  exact ⟨rfl, (mem_filter.1 hx).2, l, hl, (mem_filter.1 hx).1⟩

theorem mem_livein (h : liveness g = .ok v) (hx : x ∈ v.livein id) : isTempName x ∧ ∃ l ∈ g.lines, x ∈ l.instr.names := by
  obtain ⟨ps, m, -, hm, hin, -⟩ := liveness_eq_ok h
  obtain ⟨u, hu, rfl⟩ := (hin id x).1 hx
  exact (plain_of_mem_allUses hphi (hm.within.liveAt id hu)).2

theorem mem_along {l : Label} (hus : us ⊆ allUses g) : .plain x ∈ along l us ↔ .plain x ∈ us := by
  rw [mem_along_iff]
  constructor
  · rintro ⟨y, hy, hu | hu⟩
    · exact hy ▸ hu
    · cases (plain_of_mem_allUses hphi (hus hu)).1
  · exact fun hx => ⟨x, rfl, .inl hx⟩

omit hphi in
theorem mem_keys_firstUses (hl : l ∈ g.lines) : l.id ∈ (firstUses g).map Prod.fst := by
  rw [firstUses, map_map]
  exact mem_map_of_mem hl

omit hphi in
theorem isFrozen_of_liveness (h : liveness g = .ok v) : ∀ l ∈ g.lines, l.instr.isFrozen = false := by
  rw [liveness] at h
  split at h
  · cases h
  · next hfrozen => simpa using hfrozen

omit hphi in
theorem exists_liveness_of_pairs {ps : List Succession} (hf : ∀ l ∈ g.lines, l.instr.isFrozen = false) (hps : g.pairs = .ok ps) :
    ∃ v, liveness g = .ok v := by
  have hfrozen : (g.lines.any fun l => l.instr.isFrozen) = false := by simpa using hf
  rw [liveness, hfrozen, hps]
  exact ⟨_, rfl⟩

theorem exists_liveness_iff (hg : g.Keyed) (hne : ∀ e ∈ g.blocks, e.2.lines ≠ []) :
    (∃ v, liveness g = .ok v) ↔ ∀ e ∈ g.edges, e.1 ∈ g.labels ∧ e.2 ∈ g.labels := by
  rw [← exists_pairs_iff hg hne]
  constructor
  · rintro ⟨v, hv⟩
    obtain ⟨ps, -, hps, -⟩ := liveness_eq_ok hv
    exact ⟨ps, hps⟩
  · rintro ⟨ps, hps⟩
    refine exists_liveness_of_pairs (fun l hl => ?_) hps
    have := hphi l hl
    cases hi : l.instr <;> simp_all [Instr.isPhi, Instr.isFrozen]

omit hphi in
theorem Graph.Cut.edges (hg : g.Cut) : ∀ e ∈ g.edges, e.1 ∈ g.labels ∧ e.2 ∈ g.labels := by
  rintro ⟨a, b⟩ hab
  have hb := (mem_edges hg.keyed).1 hab
  have ha : a ∈ g.labels := hg.succKeys ▸ Graph.mem_keys_of_mem hb
  obtain ⟨e, he, rfl⟩ := mem_map.1 ha
  exact ⟨ha, hg.closed e he b ((hg.succ e he b).1 hb)⟩

theorem exists_liveness (hg : g.Cut) (hne : ∀ e ∈ g.blocks, e.2.lines ≠ []) : ∃ v, liveness g = .ok v :=
  (exists_liveness_iff hphi hg.keyed hne).2 hg.edges

omit hphi in
theorem Graph.Next.mem_lines (h : g.Next i j) : i ∈ g.lines ∧ j ∈ g.lines := by
  cases h with
  | inside he hs =>
    exact ⟨mem_flatMap.2 ⟨_, he, hs.subset mem_cons_self⟩,
      mem_flatMap.2 ⟨_, he, hs.subset (mem_cons_of_mem _ mem_cons_self)⟩⟩
  | across he he' hd hi hj =>
    exact ⟨mem_flatMap.2 ⟨_, he, mem_of_getLast? hi⟩, mem_flatMap.2 ⟨_, he', mem_of_mem_head? hj⟩⟩

omit hphi in
theorem Grown.plain_of_next {ps : List Succession} (hm : Grown ps (allUses g) (firstUses g) m) (hg : g.Keyed)
    (hps : g.pairs = .ok ps) (hn : g.Next i j) (hx : .plain x ∈ m.liveAt j.id) (hd : x ∉ i.instr.defs) : .plain x ∈ m.liveAt i.id := by
  obtain ⟨p, hp, rfl, rfl⟩ := (exists_pair_iff hg hps).2 hn
  refine hm.passed_subset hp (mem_keys_firstUses hn.mem_lines.1) (mem_passed.2 ⟨hd, ?_⟩)
  split
  · exact hx
  · exact ⟨x, rfl, .inl hx⟩

theorem livein_of_next (hg : g.Keyed) (h : liveness g = .ok v) (hn : g.Next i j) (hx : x ∈ v.livein j.id)
    (hd : x ∉ i.instr.defs) : x ∈ v.livein i.id := by
  obtain ⟨ps, m, hps, hm, hin, -⟩ := liveness_eq_ok h
  obtain ⟨u, hu, rfl⟩ := (hin _ x).1 hx
  rw [(plain_of_mem_allUses hphi (hm.within.liveAt _ hu)).1] at hu
  exact (hin _ _).2 ⟨_, hm.plain_of_next hg hps hn hu hd, rfl⟩

variable (hids : g.Identified)
include hids

omit hphi in
theorem firstUses_liveAt (hl : l ∈ g.lines) : (firstUses g).liveAt l.id = l.instr.uses.eraseDups := by
  rw [LiveMap.liveAt, firstUses]
  have hkey : l.id ∈ (g.lines.map fun l => (l.id, l.instr.uses.eraseDups)).map Prod.fst := by
    rw [map_map]
    exact mem_map_of_mem hl
  obtain ⟨us, hus⟩ := Option.isSome_iff_exists.1 (lookup_isSome.2 hkey)
  obtain ⟨m, hm, hml⟩ := mem_map.1 (mem_of_lookup hus)
  obtain ⟨hid, rfl⟩ := Prod.mk.injEq .. ▸ hml
  rw [hus, hids m hm l hl hid]
  rfl

omit hphi in
theorem Grown.mem_of_uses {ps : List Succession} (hm : Grown ps (allUses g) (firstUses g) m) (hl : l ∈ g.lines)
    (hu : u ∈ l.instr.uses) : u ∈ m.liveAt l.id := by
  apply hm.subset l.id
  rwa [firstUses_liveAt hids hl, mem_eraseDups]

omit hphi in
theorem livein_of_uses (h : liveness g = .ok v) (hl : l ∈ g.lines) (hu : u ∈ l.instr.uses) : u.temp ∈ v.livein l.id := by
  obtain ⟨ps, m, -, hm, hin, -⟩ := liveness_eq_ok h
  exact (hin _ _).2 ⟨u, hm.mem_of_uses hids hl hu, rfl⟩

theorem mem_liveout (hg : g.Keyed) (h : liveness g = .ok v) (hi : i ∈ g.lines) :
    x ∈ v.liveout i.id ↔ ∃ j, g.Next i j ∧ x ∈ v.livein j.id := by
  obtain ⟨ps, m, hps, hm, hin, hout⟩ := liveness_eq_ok h
  rw [hout i hi]
  constructor
  · rintro ⟨p, hp, hpi, u, hu, rfl⟩
    have hn := (exists_pair_iff hg hps).1 ⟨p, hp, rfl, rfl⟩
    rw [← hids p.line hn.mem_lines.1 i hi hpi]
    obtain ⟨w, hw, rfl⟩ := exists_of_mem_along hu
    exact ⟨p.next, hn, (hin _ _).2 ⟨w, hw, rfl⟩⟩
  · rintro ⟨j, hn, hx⟩
    obtain ⟨p, hp, rfl, rfl⟩ := (exists_pair_iff hg hps).2 hn
    obtain ⟨u, hu, rfl⟩ := (hin _ x).1 hx
    have hplain := (plain_of_mem_allUses hphi (hm.within.liveAt _ hu)).1
    refine ⟨p, hp, rfl, u, ?_, rfl⟩
    rw [hplain] at hu ⊢
    exact (mem_along hphi (hm.within.liveAt _)).2 hu

omit hids

theorem liveness_live (hids : (g.lines.map Line.id).Nodup) (hg : g.Formed) (h : liveness g = .ok v) :
    g.Live (fun id x => x ∈ v.livein id) ∧ (∀ e ∈ g.blocks, e.2.lines ≠ []) ∧
      ∀ e ∈ g.blocks, ∀ i j ls, i :: j :: ls <:+ e.2.lines → ∀ x, x ∈ v.livein j.id → x ∈ v.liveout i.id := by
  have hid := Graph.identified_of_nodup hids
  obtain ⟨ps, -, hps, -⟩ := liveness_eq_ok h
  refine ⟨⟨fun l hl x ht hx => ?_, fun e he i j ls hs x hx hd => ?_, fun e he e' he' hde i j hi hj x hx hd => ?_⟩,
    fun e he => lines_ne_nil_of_pairs hps he, fun e he i j ls hs x hx => ?_⟩
  · refine livein_of_uses hid h hl (u := .plain x) ?_
    rw [uses_eq (hphi l hl)]
    exact mem_map_of_mem (mem_filter.2 ⟨reads_subset_names (hphi l hl) hx, ht⟩)
  · exact livein_of_next hphi hg.cut.keyed h (.inside he hs) hx hd
  · exact livein_of_next hphi hg.cut.keyed h (.across he he' ((hg.succ e he e'.1).2 hde) hi hj) hx hd
  · exact (mem_liveout hphi hid hg.cut.keyed h (mem_flatMap.2 ⟨e, he, hs.subset mem_cons_self⟩)).2 ⟨j, .inside he hs, hx⟩

end Liveness

end Bx.Flow
