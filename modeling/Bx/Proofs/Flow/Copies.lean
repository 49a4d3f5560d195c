import Bx.Proofs.Flow.Assigned

namespace Bx.Flow

open List Tac Run Run.Checked

variable {x d y : String} {l' l : Line} {e e' : Label × Block} {ls ms ls' as bs : List Line} {g : Graph}

def renameOperands (f : String → String) : Instr → Instr
  | .phi d sources => .phi d (sources.map fun s => (s.1, f s.2))
  | i => i.renameReads f

section Operands

variable {f : String → String} {i : Instr}

@[simp]
theorem dest_renameOperands (f : String → String) (i : Instr) : (renameOperands f i).dest = i.dest := by
  cases i <;> rfl

theorem renameOperands_of_fixed (h : ∀ x ∈ i.reads, f x = x) : renameOperands f i = i := by
  cases i with
  | phi d sources =>
    have hmap : sources.map (fun s => (s.1, f s.2)) = sources := by
      conv_rhs => rw [← map_id sources]
      refine map_congr_left fun s hs => ?_
      rw [h s.2 (mem_map_of_mem hs)]
      rfl
    rw [renameOperands, hmap]
  | ret x => cases x <;> simp_all [renameOperands, Instr.renameReads, Instr.reads]
  | _ => simp_all [renameOperands, Instr.renameReads, Instr.reads]

theorem renameOperands_comp (f f' : String → String) (i : Instr) :
    renameOperands f' (renameOperands f i) = renameOperands (fun x => f' (f x)) i := by
  cases i with
  | ret x => cases x <;> rfl
  | phi d sources => simp [renameOperands]
  | _ => rfl

theorem mem_reads_renameOperands (h : x ∈ (renameOperands f i).reads) : ∃ y ∈ i.reads, f y = x := by
  cases i with
  | phi d sources =>
    rw [renameOperands, Instr.reads, map_map] at h
    obtain ⟨s, hs, hx⟩ := mem_map.1 h
    exact ⟨s.2, mem_map_of_mem hs, hx⟩
  | ret y => cases y <;> simp_all [renameOperands, Instr.renameReads, Instr.reads]
  | _ => simp_all [renameOperands, Instr.renameReads, Instr.reads, eq_comm]

theorem isLabel_renameOperands (f : String → String) (i : Instr) : (renameOperands f i).isLabel = i.isLabel := by
  cases i <;> rfl

theorem isEnder_renameOperands (f : String → String) (i : Instr) : isEnder (renameOperands f i) = isEnder i := by
  cases i <;> rfl

theorem eq_call_of_renameOperands {d : Option String} {g : String} {n : Numeral} (h : renameOperands f i = .call d g n) :
    i = .call d g n := by
  cases i with
  | call => exact h
  | _ => cases h

theorem substitute_eq (hl : i.isLabel = false) (he : isEnder i = false) (hc : ∀ d g n, i = .call d g n → f g = g) :
    substitute f i = renameOperands f i := by
  cases i with
  | label | jmp | jcc | ret => simp_all [Instr.isLabel, isEnder, isFinal, isConditional]
  | call d g n => rw [substitute, hc d g n rfl]; rfl
  | _ => rfl

end Operands

/-- Lines after some copies among them were removed, with names in place of what they read. -/
inductive Propagated (f : String → String) : List Line → List Line → Prop
  | nil : Propagated f [] []
  | keep {l l' ls ls' : _} (hl : l'.instr = renameOperands f l.instr) (hd : ∀ d ∈ l.instr.dest, f d = d) (h : Propagated f ls ls') :
      Propagated f (l :: ls) (l' :: ls')
  | drop {l ls ls' d x : _} (hl : l.instr = .copy d x) (hg : isGlobalName d = false ∧ isGlobalName x = false) (hd : f d = f x)
      (h : Propagated f ls ls') : Propagated f (l :: ls) ls'

namespace Propagated

variable {f f' : String → String} {ls ls' ms ms' : List Line}

theorem append (h : Propagated f ls ls') (h' : Propagated f ms ms') : Propagated f (ls ++ ms) (ls' ++ ms') := by
  induction h with
  | nil => exact h'
  | keep hl hd _ ih => exact .keep hl hd ih
  | drop hl hg hd _ ih => exact .drop hl hg hd ih

theorem refl (h : ∀ l ∈ ls, (∀ x ∈ l.instr.reads, f x = x) ∧ ∀ d ∈ l.instr.dest, f d = d) : Propagated f ls ls := by
  induction ls with
  | nil => exact .nil
  | cons l ls ih =>
    rw [forall_mem_cons] at h
    exact .keep (renameOperands_of_fixed h.1.1).symm h.1.2 (ih h.2)

theorem split (h : Propagated f ls ls') {k : Nat} (hk : ls'[k]? = some l') :
    ∃ as l bs as' bs', ls = as ++ l :: bs ∧ ls'.eraseIdx k = as' ++ bs' ∧ Propagated f as as' ∧ l'.instr = renameOperands f l.instr ∧
      (∀ d ∈ l.instr.dest, f d = d) ∧ Propagated f bs bs' := by
  induction h generalizing k with
  | nil => simp at hk
  | @keep l m' ls ls' hl hd h ih =>
    cases k with
    | zero =>
      obtain rfl : m' = l' := by simpa using hk
      exact ⟨[], l, ls, [], ls', rfl, rfl, .nil, hl, hd, h⟩
    | succ k =>
      obtain ⟨as, m, bs, as', bs', rfl, he, has, hm, hdm, hbs⟩ := ih (by simpa using hk)
      exact ⟨l :: as, m, bs, m' :: as', bs', rfl, by rw [eraseIdx_cons_succ, he]; rfl, .keep hl hd has, hm, hdm, hbs⟩
  | @drop l ls ls' d x hl hg hd _ ih =>
    obtain ⟨as, m, bs, as', bs', rfl, he, has, hm, hdm, hbs⟩ := ih hk
    exact ⟨l :: as, m, bs, as', bs', rfl, he, .drop hl hg hd has, hm, hdm, hbs⟩

end Propagated

/-- A copy between temporaries is not read in a jump or a return, nor in an instruction that assigns a declared global. -/
structure Graph.Replaceable (globals : List String) (h : Graph) : Prop where
  temps : ∀ l ∈ h.lines, ∀ d x, copyOf? globals l.instr = some (d, x) → isGlobalName d = false ∧ isGlobalName x = false
  jumps : ∀ l ∈ h.lines, ∀ d x, copyOf? globals l.instr = some (d, x) → ∀ e ∈ h.blocks, ∀ j ∈ e.2.jumps, d ∉ j.instr.reads
  stores : ∀ l ∈ h.lines, ∀ d x, copyOf? globals l.instr = some (d, x) → ∀ m ∈ h.lines, m.instr.dest.any globals.contains = true →
    d ∉ m.instr.reads

/-- Only results of copies are replaced, by what was assigned before them. -/
structure Forwards (globals : List String) (h : Graph) (f : String → String) : Prop where
  moved : ∀ x, f x ≠ x → ∃ l ∈ h.lines, ∃ y, copyOf? globals l.instr = some (x, y)
  back : ∀ e ∈ h.blocks, ∀ ls l ms, e.2.lines = ls ++ l :: ms → ∀ x, l.instr.dest = some x → f x ≠ x → f x ∈ assigned ls
  idem : ∀ x, f (f x) = f x

theorem copyOf?_eq_some {globals : List String} {i : Instr} :
    copyOf? globals i = some (d, x) ↔ i = .copy d x ∧ d ∉ globals ∧ x ∉ globals := by
  cases i with
  | copy d' x' =>
    simp only [copyOf?]
    split <;> simp_all
    · grind
    · grind
  | _ => simp [copyOf?]

theorem assigned_cons_of_dest (hd : l.instr.dest = some d) (hg : isGlobalName d = false) (ls : List Line) :
    assigned (l :: ls) = d :: assigned ls := by
  simp [assigned, hd, hg]

namespace Graph.Assigned

variable {name : String} {params : List Datum} {h : Graph} (hh : h.Assigned name params)
include hh

omit hh in
theorem assigned_lines (h : Graph) : assigned h.lines = h.blocks.flatMap fun e => assigned e.2.lines := by
  rw [Graph.lines]
  induction h.blocks with
  | nil => rfl
  | cons e es ih => rw [flatMap_cons, flatMap_cons, assigned_append, ih]

theorem block_once (he : e ∈ h.blocks) : (assigned e.2.lines).Nodup := by
  have honce := hh.once
  rw [assigned_lines, nodup_flatMap] at honce
  exact honce.1 e he

theorem block_unique (he : e ∈ h.blocks) (he' : e' ∈ h.blocks) (hx : x ∈ assigned e.2.lines) (hx' : x ∈ assigned e'.2.lines) :
    e = e' := by
  have honce := hh.once
  rw [assigned_lines, nodup_flatMap] at honce
  have hsymm : Std.Symm fun e e' : Label × Block => List.Disjoint (assigned e.2.lines) (assigned e'.2.lines) := ⟨fun _ _ h _ hx hx' => h hx' hx⟩
  have hapart : h.blocks.Pairwise fun e e' => List.Disjoint (assigned e.2.lines) (assigned e'.2.lines) := honce.2
  by_contra hne
  exact hapart.forall he he' hne hx hx'

theorem notMem_before (he : e ∈ h.blocks) (hs : e.2.lines = ls ++ l :: ms) (hd : l.instr.dest = some x)
    (hg : isGlobalName x = false) : x ∉ assigned ls ∧ x ∉ assigned ms := by
  have honce := hh.block_once he
  rw [hs, assigned_append, assigned_cons_of_dest hd hg, nodup_append, nodup_cons] at honce
  exact ⟨fun hx => honce.2.2 x hx x mem_cons_self rfl, honce.2.1.1⟩

theorem place_unique (he : e ∈ h.blocks) (he' : e' ∈ h.blocks) {ms' : List Line} (hs : e.2.lines = ls ++ l :: ms)
    (hs' : e'.2.lines = ls' ++ l' :: ms') (hd : l.instr.dest = some x) (hd' : l'.instr.dest = some x)
    (hg : isGlobalName x = false) : e = e' ∧ ls = ls' := by
  have mem : ∀ {e : Label × Block} {ls ms l}, e.2.lines = ls ++ l :: ms → l.instr.dest = some x → x ∈ assigned e.2.lines :=
    fun hs hd => mem_assigned.2 ⟨⟨_, hs ▸ by simp, hd⟩, hg⟩
  obtain rfl := hh.block_unique he he' (mem hs hd) (mem hs' hd')
  refine ⟨rfl, ?_⟩
  obtain ⟨hbefore, -⟩ := hh.notMem_before he hs hd hg
  obtain ⟨hbefore', -⟩ := hh.notMem_before he hs' hd' hg
  rw [hs] at hs'
  rcases append_eq_append_iff.1 hs' with ⟨as, rfl, has⟩ | ⟨as, rfl, has⟩
  · cases as with
    | nil => simp
    | cons a as =>
      cases has
      exact absurd (mem_assigned.2 ⟨⟨l, by simp, hd⟩, hg⟩) hbefore'
  · cases as with
    | nil => simp
    | cons a as =>
      cases has
      exact absurd (mem_assigned.2 ⟨⟨l', by simp, hd'⟩, hg⟩) hbefore

end Graph.Assigned

section Step

variable {globals : List String} {name : String} {params : List Datum} {h : Graph} {f : String → String}

theorem forwards_id (globals : List String) (h : Graph) : Forwards globals h fun x => x :=
  ⟨fun _ hx => absurd rfl hx, fun _ _ _ _ _ _ _ _ hx => absurd rfl hx, fun _ => rfl⟩

def redirect (f : String → String) (d y : String) : String → String := fun x => if f x = d then y else f x

namespace Forwards

variable (hh : h.Assigned name params) (hr : h.Replaceable globals) (F : Forwards globals h f)
include F

theorem apply_mem (he : e ∈ h.blocks) (hs : e.2.lines = ls ++ ms) (hx : x ∈ assigned ls) : f x ∈ assigned ls := by
  by_cases hf : f x = x
  · rwa [hf]
  · obtain ⟨⟨l, hl, hd⟩, -⟩ := mem_assigned.1 hx
    obtain ⟨as, bs, rfl⟩ := append_of_mem hl
    have hmem := F.back e he as l (bs ++ ms) (by rw [hs, append_assoc]; rfl) x hd hf
    rw [assigned_append]
    exact mem_append_left _ hmem

theorem apply_declared (hx : x ∈ globals) : f x = x := by
  by_contra hf
  obtain ⟨l, hl, y, hc⟩ := F.moved x hf
  exact (copyOf?_eq_some.1 hc).2.1 hx

include hr

theorem apply_global (hx : isGlobalName x) : f x = x := by
  by_contra hf
  obtain ⟨l, hl, y, hc⟩ := F.moved x hf
  rw [(hr.temps l hl x y hc).1] at hx
  cases hx

theorem fixed_jump (he : e ∈ h.blocks) {j : Line} (hj : j ∈ e.2.jumps) (hx : x ∈ j.instr.reads) : f x = x := by
  by_contra hf
  obtain ⟨l, hl, y, hc⟩ := F.moved x hf
  exact hr.jumps l hl x y hc e he j hj hx

theorem fixed_store {m : Line} (hm : m ∈ h.lines) (hd : m.instr.dest.any globals.contains) (hx : x ∈ m.instr.reads) :
    f x = x := by
  by_contra hf
  obtain ⟨l, hl, y, hc⟩ := F.moved x hf
  exact hr.stores l hl x y hc m hm hd hx

include hh

theorem source (he : e ∈ h.blocks) (hs : e.2.lines = as ++ l :: bs) (hl : l.instr = .copy d x) (hd : d ∉ globals)
    (hx : f x ∉ globals) : copyOf? globals l.instr = some (d, x) ∧ f x ∈ assigned as ∧ f x ≠ d := by
  have hmem : l ∈ h.lines := mem_flatMap.2 ⟨e, he, hs ▸ by simp⟩
  have hc : copyOf? globals l.instr = some (d, x) := by
    refine copyOf?_eq_some.2 ⟨hl, hd, fun hxg => hx ?_⟩
    rwa [F.apply_declared hxg]
  obtain ⟨hdg, hxg⟩ := hr.temps l hmem d x hc
  have hbefore : x ∈ assigned as :=
    (hh.reads e he as l bs hs (by rw [hl]; rfl) x (by rw [hl]; simp [Instr.reads])).resolve_left (by simp [hxg])
  have happly := F.apply_mem he hs hbefore
  refine ⟨hc, happly, fun hfd => ?_⟩
  exact (hh.notMem_before he hs (by rw [hl]; rfl) hdg).1 (hfd ▸ happly)

theorem redirect (he : e ∈ h.blocks) (hs : e.2.lines = as ++ l :: bs) (hl : l.instr = .copy d x) (hd : d ∉ globals)
    (hx : f x ∉ globals) (hfd : f d = d) : Forwards globals h (Flow.redirect f d (f x)) := by
  obtain ⟨hc, happly, hne⟩ := F.source hh hr he hs hl hd hx
  have hmem : l ∈ h.lines := mem_flatMap.2 ⟨e, he, hs ▸ by simp⟩
  have hdg := (hr.temps l hmem d x hc).1
  have hdest : l.instr.dest = some d := by rw [hl]; rfl
  refine ⟨fun z hz => ?_, fun e' he' ls m ms hs' z hz hmoved => ?_, fun z => ?_⟩
  · by_cases hfz : f z = z
    · have hzd : z = d := by
        by_contra hzd
        exact hz (by rw [Flow.redirect, hfz, if_neg hzd])
      exact ⟨l, hmem, x, hzd ▸ hc⟩
    · exact F.moved z hfz
  · by_cases hfz : f z = d
    · rw [Flow.redirect, if_pos hfz]
      by_cases hzd : z = d
      · subst hzd
        obtain ⟨-, rfl⟩ := hh.place_unique he he' hs hs' hdest hz hdg
        exact happly
      · -- the copy stands before what was moved to its result
        have hback := F.back e' he' ls m ms hs' z hz (fun hzz => hzd (hzz ▸ hfz))
        rw [hfz] at hback
        obtain ⟨⟨l', hl', hd'⟩, -⟩ := mem_assigned.1 hback
        obtain ⟨as', bs', rfl⟩ := append_of_mem hl'
        obtain ⟨-, rfl⟩ := hh.place_unique he he' hs (show e'.2.lines = as' ++ l' :: (bs' ++ m :: ms) by rw [hs', append_assoc]; rfl)
          hdest hd' hdg
        rw [assigned_append]
        exact mem_append_left _ happly
    · rw [Flow.redirect, if_neg hfz] at hmoved ⊢
      exact F.back e' he' ls m ms hs' z hz hmoved
  · have fixed : ∀ y, f y = y → y ≠ d → Flow.redirect f d (f x) y = y := fun y hy hyd => by rw [Flow.redirect, hy, if_neg hyd]
    by_cases hfz : f z = d
    · rw [show Flow.redirect f d (f x) z = f x from if_pos hfz, fixed _ (F.idem x) hne]
    · rw [show Flow.redirect f d (f x) z = f z from if_neg hfz, fixed _ (F.idem z) hfz]

end Forwards

variable (hh : h.Assigned name params) (hr : h.Replaceable globals)

include hh hr

theorem replaceIn_eq (hdg : isGlobalName d = false) (F : Forwards globals h f) (F' : Forwards globals h (redirect f d y))
    (hl : l ∈ h.lines) (hlab : l.instr.isLabel = false) (hend : isEnder l.instr = false)
    (hl' : l'.instr = renameOperands f l.instr) : (replaceIn globals d y l').instr = renameOperands (redirect f d y) l.instr := by
  rw [replaceIn]
  split
  · next hstore =>
      rw [hl', dest_renameOperands] at hstore
      rw [hl', renameOperands_of_fixed fun x hx => F.fixed_store hr hl hstore hx,
        renameOperands_of_fixed fun x hx => F'.fixed_store hr hl hstore hx]
  · have hsub : substitute (fun x => if x == d then y else x) (renameOperands f l.instr) =
        renameOperands (fun x => if x == d then y else x) (renameOperands f l.instr) := by
      refine substitute_eq ((isLabel_renameOperands f _).trans hlab) ((isEnder_renameOperands f _).trans hend) fun e g n hcall => ?_
      have hg := hh.calls l hl e g n (eq_call_of_renameOperands hcall)
      have hne : g ≠ d := fun hgd => by simp [hgd, hdg] at hg
      simp [hne]
    simp only [hl', hsub, renameOperands_comp]
    congr 1
    funext x
    simp [redirect]

theorem Propagated.replace (hdg : isGlobalName d = false) (F : Forwards globals h f) (F' : Forwards globals h (redirect f d y))
    (hp : Propagated f ls ls') (hmem : ∀ l ∈ ls, l ∈ h.lines ∧ l.instr.isLabel = false ∧ isEnder l.instr = false)
    (hd : d ∉ Flow.assigned ls) : Propagated (redirect f d y) ls (ls'.map (replaceIn globals d y)) := by
  induction hp with
  | nil => exact .nil
  | @keep l l' ls ls' hl hfix _ ih =>
    rw [forall_mem_cons] at hmem
    obtain ⟨⟨hlh, hlab, hend⟩, hrest⟩ := hmem
    rw [← singleton_append, assigned_append, mem_append, not_or] at hd
    refine .keep (replaceIn_eq hh hr hdg F F' hlh hlab hend hl) (fun e he => ?_) (ih hrest hd.2)
    have hne : e ≠ d := by
      rintro rfl
      exact hd.1 (mem_assigned.2 ⟨⟨l, mem_cons_self, he⟩, hdg⟩)
    rw [redirect, hfix e he, if_neg hne]
  | @drop l ls ls' d₀ x₀ hl hg hfix _ ih =>
    rw [forall_mem_cons] at hmem
    rw [← singleton_append, assigned_append, mem_append, not_or] at hd
    exact .drop hl hg (by rw [redirect, redirect, hfix]) (ih hmem.2 hd.2)

structure Forwarded (f : String → String) (b b' : Block) : Prop where
  label : b'.label = b.label
  jumps : b'.jumps = b.jumps
  body : Propagated f b.body b'.body

structure Graph.Forwarded (globals : List String) (h : Graph) (f : String → String) (g : Graph) : Prop where
  forwards : Forwards globals h f
  name : g.name = h.name
  entry : g.entry = h.entry
  succs : g.succs = h.succs
  preds : g.preds = h.preds
  blocks : List.Forall₂ (fun e e' => e'.1 = e.1 ∧ Flow.Forwarded f e.2 e'.2) h.blocks g.blocks

omit hr in
theorem Graph.Assigned.body_lines (he : e ∈ h.blocks) :
    ∀ l ∈ e.2.body, l ∈ h.lines ∧ l.instr.isLabel = false ∧ isEnder l.instr = false :=
  fun l hl => ⟨mem_flatMap.2 ⟨e, he, mem_append_left _ hl⟩, (hh.formed.blocks e he).body l hl⟩

theorem Graph.Forwarded.step (hg : h.Forwarded globals f g) {x : Label} {b : Block} {k : Nat} (hb : g.blocks.lookup x = some b)
    (hk : b.body[k]? = some l') (hc : copyOf? globals l'.instr = some (d, y)) :
    ∃ f', h.Forwarded globals f' (forward globals x k d y g) := by
  have hlabels : g.blocks.map Prod.fst = h.labels := by
    rw [Graph.labels, ← forall₂_eq_eq_eq, forall₂_map_left_iff, forall₂_map_right_iff]
    exact hg.blocks.flip.imp fun _ _ h => h.1
  obtain ⟨e, he, hlab, hf⟩ := forall₂_exists_left hg.blocks (mem_of_lookup hb)
  change x = e.1 at hlab
  obtain ⟨as, l, bs, as', bs', hbody, herase, has, hl, hfix, hbs⟩ := hf.body.split hk
  obtain ⟨hl', hd, hy⟩ := copyOf?_eq_some.1 hc
  obtain ⟨z, hcopy, rfl⟩ : ∃ z, l.instr = .copy d z ∧ y = f z := by
    rw [hl'] at hl
    cases hi : l.instr with
    | copy d₀ z =>
      rw [hi] at hl
      cases hl
      exact ⟨z, rfl, rfl⟩
    | _ => simp [hi, renameOperands, Instr.renameReads] at hl
  have hs : e.2.lines = as ++ l :: (bs ++ e.2.jumps) := by rw [Block.lines, hbody, append_assoc]; rfl
  obtain ⟨hcz, happly, hne⟩ := hg.forwards.source hh hr he hs hcopy hd hy
  have hdest : l.instr.dest = some d := by rw [hcopy]; rfl
  have hmem : l ∈ h.lines := mem_flatMap.2 ⟨e, he, hs ▸ by simp⟩
  have hdg := (hr.temps l hmem d z hcz).1
  have hfd : f d = d := hfix d hdest
  have F' := hg.forwards.redirect hh hr he hs hcopy hd hy hfd
  refine ⟨redirect f d (f z), F', hg.name, hg.entry, hg.succs, hg.preds, ?_⟩
  let bodyOf : Label × Block → List Line :=
    fun e => (if e.1 == x then e.2.body.eraseIdx k else e.2.body).map (replaceIn globals d (f z))
  have hmapped : List.Forall₂ (fun e' e'' => e'' = (e'.1, { e'.2 with body := bodyOf e' })) g.blocks
      (forward globals x k d (f z) g).blocks := forall₂_map_right_iff.2 (forall₂_same.2 fun _ _ => rfl)
  refine forall₂_trans hg.blocks hmapped fun e₁ he₁ e₁' he₁' e₁'' hrel heq => ?_
  obtain ⟨hlab₁, hf₁⟩ := hrel
  subst heq
  refine ⟨hlab₁, hf₁.label, hf₁.jumps, ?_⟩
  have hlines := hh.body_lines he₁
  by_cases hx : e₁'.1 = x
  · obtain rfl : e₁'.2 = b := by
      have hlook := lookup_of_mem (hlabels ▸ hh.formed.nodup) (show (x, e₁'.2) ∈ g.blocks from hx ▸ he₁')
      rw [hb, Option.some.injEq] at hlook
      exact hlook.symm
    obtain rfl : e₁ = e := by
      have h₁ := lookup_of_mem hh.formed.nodup (show (e₁.1, e₁.2) ∈ h.blocks from he₁)
      have h₂ := lookup_of_mem hh.formed.nodup (show (e.1, e.2) ∈ h.blocks from he)
      rw [← hlab₁, hx, hlab, h₂, Option.some.injEq] at h₁
      exact Prod.ext (by rw [← hlab₁, hx, hlab]) h₁.symm
    obtain ⟨hbefore, hafter⟩ := hh.notMem_before he hs hdest hdg
    rw [assigned_append, mem_append, not_or] at hafter
    rw [hbody, forall_mem_append, forall_mem_cons] at hlines
    simp only [bodyOf, hx, beq_self_eq_true, if_true, herase, map_append, hbody]
    refine (has.replace hh hr hdg hg.forwards F' hlines.1 hbefore).append (.drop hcopy (hr.temps l hmem d z hcz) ?_ (hbs.replace hh hr hdg hg.forwards F' hlines.2.2 hafter.1))
    simp [redirect, hfd]
  · have hnot : d ∉ assigned e₁.2.body := by
      intro hmem
      have hd₁ : d ∈ assigned e₁.2.lines := by
        rw [Block.lines, assigned_append]
        exact mem_append_left _ hmem
      have hd₂ : d ∈ assigned e.2.lines := mem_assigned.2 ⟨⟨l, hs ▸ by simp, hdest⟩, hdg⟩
      obtain rfl := hh.block_unique he₁ he hd₁ hd₂
      exact hx (hlab₁.trans hlab.symm)
    simp only [bodyOf, beq_eq_false_iff_ne.2 hx, Bool.false_eq_true, if_false]
    exact hf₁.body.replace hh hr hdg hg.forwards F' hlines hnot

theorem Graph.Forwarded.run (x : Label) (n k : Nat) (hg : h.Forwarded globals f g) :
    ∃ f', h.Forwarded globals f' (propagateFrom globals x n k g) := by
  induction n generalizing k g f with
  | zero => exact ⟨f, hg⟩
  | succ n ih =>
    rw [propagateFrom]
    split
    · exact ⟨f, hg⟩
    · next l hl =>
        obtain ⟨b, hb, hk⟩ := Option.bind_eq_some_iff.1 hl
        split
        · exact ih (k + 1) hg
        · next d y hc =>
            obtain ⟨f', hg'⟩ := hg.step hh hr hb hk hc
            exact ih (k + 1) hg'

theorem propagateCopies_forwarded : ∃ f, h.Forwarded globals f (propagateCopies globals h) := by
  have hstart : h.Forwarded globals (fun x => x) h := by
    refine ⟨forwards_id globals h, rfl, rfl, rfl, rfl, forall₂_same.2 fun e _ => ⟨rfl, rfl, rfl, .refl fun l _ => ?_⟩⟩
    exact ⟨fun _ _ => rfl, fun _ _ => rfl⟩
  have hfold : ∀ (es : List (Label × Block)) {f g}, h.Forwarded globals f g →
      ∃ f', h.Forwarded globals f' (es.foldl (fun h e => propagateFrom globals e.1 e.2.body.length 0 h) g) := by
    intro es
    induction es with
    | nil => exact fun hg => ⟨_, hg⟩
    | cons e es ih =>
      intro f g hg
      obtain ⟨f', hg'⟩ := hg.run hh hr e.1 e.2.body.length 0
      exact ih hg'
  exact hfold h.blocks hstart

theorem Graph.Forwarded.lines (hg : h.Forwarded globals f g) (he : e ∈ h.blocks) {b : Block} (hb : Flow.Forwarded f e.2 b) :
    Propagated f e.2.lines b.lines := by
  rw [Block.lines, Block.lines, hb.jumps]
  refine hb.body.append (.refl fun j hj => ⟨fun x hx => hg.forwards.fixed_jump hr he hj hx, fun d hd => ?_⟩)
  rw [dest_of_isEnder ((hh.formed.blocks e he).jumps j hj)] at hd
  cases hd

omit hh hr in
theorem Propagated.mem (hp : Propagated f ls ls') (hl : l' ∈ ls') :
    ∃ l ∈ ls, l'.instr = renameOperands f l.instr ∧ ∀ d ∈ l.instr.dest, f d = d := by
  induction hp with
  | nil => cases hl
  | @keep l m' ls ls' hm hd _ ih =>
    rcases mem_cons.1 hl with rfl | hl
    · exact ⟨l, mem_cons_self, hm, hd⟩
    · obtain ⟨n, hn, h⟩ := ih hl
      exact ⟨n, mem_cons_of_mem l hn, h⟩
  | @drop l ls ls' d x _ _ _ _ ih =>
    obtain ⟨n, hn, h⟩ := ih hl
    exact ⟨n, mem_cons_of_mem l hn, h⟩

omit hh hr in
theorem Propagated.mem_or_drop (hp : Propagated f ls ls') (hl : l ∈ ls) :
    (∃ l' ∈ ls', l'.instr = renameOperands f l.instr) ∨
      ∃ d x, l.instr = .copy d x ∧ isGlobalName d = false ∧ isGlobalName x = false ∧ f d = f x := by
  induction hp with
  | nil => cases hl
  | @keep m m' ls ls' hm _ _ ih =>
    rcases mem_cons.1 hl with rfl | hl
    · exact .inl ⟨m', mem_cons_self, hm⟩
    · exact (ih hl).imp_left fun ⟨l', hl', h⟩ => ⟨l', mem_cons_of_mem m' hl', h⟩
  | @drop m ls ls' d x hcopy hg hd _ ih =>
    rcases mem_cons.1 hl with rfl | hl
    · exact .inr ⟨d, x, hcopy, hg.1, hg.2, hd⟩
    · exact ih hl

theorem Graph.Forwarded.reshaped (hg : h.Forwarded globals f g) :
    h.Reshaped (fun b b' => Propagated f b.lines b'.lines) g ∧ g.Formed := by
  have hshape : h.Reshaped (fun b b' => b'.jumps = b.jumps ∧ Propagated f b.body b'.body ∧ Propagated f b.lines b'.lines) g := by
    refine ⟨hg.entry, hg.succs, hg.preds, ?_⟩
    refine forall₂_trans (forall₂_same.2 fun e _ => rfl) hg.blocks fun e he _ _ e' heq hrel => ?_
    obtain ⟨hlab, hf⟩ := hrel
    subst heq
    refine ⟨hlab, hf.label, ?_, hf.jumps, hf.body, hg.lines hh hr he hf⟩
    rw [Graph.destinations, Graph.destinations, hf.jumps]
  refine ⟨⟨hshape.entry, hshape.succs, hshape.preds, hshape.blocks.imp fun _ _ h => ⟨h.1, h.2.1, h.2.2.1, h.2.2.2.2.2⟩⟩,
    hshape.formed hh.formed fun e he b' hrel => ?_⟩
  obtain ⟨hjumps, hbody, -⟩ := hrel
  have hform := hh.formed.blocks e he
  refine ⟨fun l' hl' => ?_, fun j hj => hform.jumps j (hjumps ▸ hj), .inr ?_⟩
  · obtain ⟨l, hl, hi, -⟩ := hbody.mem hl'
    rw [hi, isLabel_renameOperands, isEnder_renameOperands]
    exact hform.body l hl
  · rw [hjumps]
    exact hform.ends.resolve_left (hh.nonempty e he)

def Graph.Uses (h : Graph) (x : String) : Prop := ∃ l ∈ h.lines, x ∈ l.instr.reads

def Graph.Defines (h : Graph) (x : String) : Prop := ∃ l ∈ h.lines, l.instr.dest = some x

theorem Graph.Forwarded.defines (hg : h.Forwarded globals f g) (hx : h.Defines x) (hf : f x = x) : g.Defines x := by
  obtain ⟨l, hl, hd⟩ := hx
  obtain ⟨e, he, hle⟩ := mem_flatMap.1 hl
  obtain ⟨e', he', -, hb⟩ := forall₂_exists_right hg.blocks he
  rcases (hg.lines hh hr he hb).mem_or_drop hle with ⟨l', hl', hi⟩ | ⟨d, y, hi, hdg, hyg, hfd⟩
  · exact ⟨l', mem_flatMap.2 ⟨e', he', hl'⟩, by rw [hi, dest_renameOperands, hd]⟩
  · -- A copy to itself of what was assigned before it would assign that a second time.
    obtain ⟨as, bs, hs⟩ := append_of_mem hle
    rw [hi] at hd
    cases hd
    have hy : y ∈ assigned as := (hh.reads e he as l bs hs (by rw [hi]; rfl) y (by rw [hi]; simp [Instr.reads])).resolve_left
      (by simp [hyg])
    have hmem := hg.forwards.apply_mem he hs hy
    rw [← hfd, hf] at hmem
    exact absurd hmem (hh.notMem_before he hs (by rw [hi]; rfl) hdg).1

theorem Graph.Forwarded.uses (hg : h.Forwarded globals f g) (hx : g.Uses x) : g.Defines x ∨ h.Uses x ∧ ¬ h.Defines x := by
  obtain ⟨l', hl', hread⟩ := hx
  obtain ⟨e', he', hle'⟩ := mem_flatMap.1 hl'
  obtain ⟨e, he, -, hb⟩ := forall₂_exists_left hg.blocks he'
  obtain ⟨l, hl, hi, -⟩ := (hg.lines hh hr he hb).mem hle'
  rw [hi] at hread
  obtain ⟨y, hy, rfl⟩ := mem_reads_renameOperands hread
  by_cases hf : f y = y
  · rw [hf]
    by_cases hd : h.Defines y
    · exact .inl (hg.defines hh hr hd hf)
    · exact .inr ⟨⟨l, mem_flatMap.2 ⟨e, he, hl⟩, hy⟩, hd⟩
  · obtain ⟨m, hm, z, hc⟩ := hg.forwards.moved y hf
    obtain ⟨c, hcb, hmc⟩ := mem_flatMap.1 hm
    obtain ⟨as, bs, hs⟩ := append_of_mem hmc
    have hback := hg.forwards.back c hcb as m bs hs y (by rw [(copyOf?_eq_some.1 hc).1]; rfl) hf
    obtain ⟨⟨k, hk, hd⟩, -⟩ := mem_assigned.1 hback
    refine .inl (hg.defines hh hr ⟨k, mem_flatMap.2 ⟨c, hcb, ?_⟩, hd⟩ (hg.forwards.idem y))
    rw [hs]
    exact mem_append_left _ hk

end Step

end Bx.Flow
