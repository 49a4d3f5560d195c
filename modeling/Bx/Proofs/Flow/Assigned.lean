import Bx.Proofs.Flow.SingleAssignment

namespace Bx.Flow

open List Tac Run Run.Checked

variable {ls ms ls' : List Line} {x d y f : String} {l l' : Line} {b b' : Block} {e e' e₁' : Label × Block}

def assigned (ls : List Line) : List String := (ls.filterMap fun l => l.instr.dest).filter fun d => !isGlobalName d

@[simp]
theorem assigned_nil : assigned [] = [] := rfl

theorem assigned_append (ls ms : List Line) : assigned (ls ++ ms) = assigned ls ++ assigned ms := by
  rw [assigned, filterMap_append, filter_append]
  rfl

theorem mem_assigned : x ∈ assigned ls ↔ (∃ l ∈ ls, l.instr.dest = some x) ∧ isGlobalName x = false := by
  simp [assigned]

theorem assigned_eq_nil (h : ∀ l ∈ ls, l.instr.dest = none) : assigned ls = [] := by
  rw [eq_nil_iff_forall_not_mem]
  intro x hx
  obtain ⟨⟨l, hl, hd⟩, -⟩ := mem_assigned.1 hx
  rw [h l hl] at hd
  cases hd

section Numbers

def numberOf (x : String) : Nat := Nat.ofDigitChars 10 (x.toList.reverse.takeWhile (· != '.')).reverse 0

theorem numberOf_version (hd : d.startsWith "%") (k : Nat) : numberOf (version k d) = k := by
  have htake : (version k d).toList.reverse.takeWhile (· != '.') = (toString k).toList.reverse := by
    rw [version, if_pos hd, String.toList_append, String.toList_append, reverse_append, takeWhile_append_of_pos]
    · simp
    · intro c hc
      simp only [bne_iff_ne]
      rintro rfl
      exact notMem_toString k (mem_reverse.1 hc)
  rw [numberOf, htake, reverse_reverse]
  simp

def Targets (ls : List Line) : Prop := ∀ l ∈ ls, ∀ d ∈ l.instr.dest, d.startsWith "%" = true ∨ isGlobalName d = true

theorem versionLine_numbers (h : Targets [l]) (k : Nat) :
    ∃ n, (versionLine k l).2 = k + n ∧ (assigned [(versionLine k l).1]).map numberOf = List.range' k n := by
  have hinstr := versionLine_spec k l
  cases hd : l.instr.dest with
  | none =>
    have hdest : (versionLine k l).1.instr.dest = none := by rw [hinstr, dest_renameDest, hd]; rfl
    exact ⟨0, by simp [versionLine, hd], by simp [assigned, hdest]⟩
  | some d =>
    have hdest : (versionLine k l).1.instr.dest = some (version k d) := by rw [hinstr, dest_renameDest, hd]; rfl
    rcases h l mem_cons_self d hd with hp | hg
    · refine ⟨1, by simp [versionLine, hd, hp], ?_⟩
      have hglobal : isGlobalName (version k d) = false := by rw [isGlobalName_version, isGlobalName_of_percent hp]
      simp [assigned, hdest, hglobal, numberOf_version hp]
    · have hp : d.startsWith "%" = false := by
        rw [Bool.eq_false_iff]
        intro hp
        rw [isGlobalName_of_percent hp] at hg
        cases hg
      have hglobal : isGlobalName (version k d) := by rw [isGlobalName_version, hg]
      refine ⟨0, by simp [versionLine, hd, hp], ?_⟩
      simp [assigned, hdest, hglobal]

theorem versionLines_numbers (h : Targets ls) (k : Nat) :
    ∃ n, (versionLines k ls).2 = k + n ∧ (assigned (versionLines k ls).1).map numberOf = List.range' k n := by
  induction ls generalizing k with
  | nil => exact ⟨0, rfl, rfl⟩
  | cons l ls ih =>
    obtain ⟨n, hn, hl⟩ := versionLine_numbers (fun m hm => h m (mem_singleton.1 hm ▸ mem_cons_self)) k
    obtain ⟨m, hm, hls⟩ := ih (fun m hm => h m (mem_cons_of_mem l hm)) (versionLine k l).2
    refine ⟨n + m, by rw [← Nat.add_assoc, ← hn, ← hm]; rfl, ?_⟩
    have hcons : (versionLines k (l :: ls)).1 = [(versionLine k l).1] ++ (versionLines (versionLine k l).2 ls).1 := rfl
    rw [hcons, assigned_append, map_append, hl, hls, hn, ← List.range'_append_1]

theorem versionBlocks_numbers {es : List (Label × Block)} (h : ∀ e ∈ es, Targets e.2.lines) (k : Nat) :
    ∃ n, (assigned ((versionBlocks k es).flatMap fun e => e.2.lines)).map numberOf = List.range' k n := by
  induction es generalizing k with
  | nil => exact ⟨0, rfl⟩
  | cons e es ih =>
    have he := h e mem_cons_self
    obtain ⟨n, hn, hbody⟩ := versionLines_numbers (fun l hl => he l (mem_append_left _ hl)) k
    obtain ⟨m, hm, hjumps⟩ := versionLines_numbers (fun l hl => he l (mem_append_right _ hl)) (versionLines k e.2.body).2
    obtain ⟨j, hrest⟩ := ih (fun e' he' => h e' (mem_cons_of_mem e he')) (versionLines (versionLines k e.2.body).2 e.2.jumps).2
    refine ⟨n + m + j, ?_⟩
    have hcons : (versionBlocks k (e :: es)).flatMap (fun e => e.2.lines) =
        (versionLines k e.2.body).1 ++ (versionLines (versionLines k e.2.body).2 e.2.jumps).1 ++
          (versionBlocks (versionLines (versionLines k e.2.body).2 e.2.jumps).2 es).flatMap fun e => e.2.lines := rfl
    rw [hcons, assigned_append, assigned_append, map_append, map_append, hbody, hjumps, hrest, hm, hn,
      ← List.range'_append_1, ← List.range'_append_1, Nat.add_assoc]

end Numbers

section Dests

def SameDests (ls ls' : List Line) : Prop := ls.map (fun l => l.instr.dest) = ls'.map fun l => l.instr.dest

theorem SameDests.assigned_eq (h : SameDests ls ls') : assigned ls = assigned ls' := by
  have hmap : ∀ ms : List Line, ms.filterMap (fun l => l.instr.dest) = (ms.map fun l => l.instr.dest).filterMap id := by
    intro ms
    rw [filterMap_map]
    rfl
  rw [assigned, assigned, hmap, hmap, h]

theorem SameDests.append {ms' : List Line} (h : SameDests ls ls') (h' : SameDests ms ms') :
    SameDests (ls ++ ms) (ls' ++ ms') := by
  rw [SameDests, map_append, map_append, h, h']

theorem renameUses_dests (r : Renaming) (ls : List Line) : SameDests (renameUses r ls).1 ls := by
  induction ls generalizing r with
  | nil => rfl
  | cons l ls ih =>
    rw [SameDests, map_cons, ← ih]
    simp only [renameUses, map_cons, dest_renameReads]
    rfl

theorem renamePhis_dests (ends : List (String × Renaming)) (ls : List Line) : SameDests (renamePhis ends ls).1 ls := by
  induction ls with
  | nil => rfl
  | cons l ls ih =>
    rw [renamePhis]
    split
    · next d sources hl =>
        split
        · simp [SameDests, hl, Instr.dest]
        · rw [SameDests, map_cons, map_cons, ih, hl]
          rfl
    · rw [SameDests, map_cons, map_cons, ih]

theorem renamePhiBlocks_dests (ends : List (String × Renaming)) (es : List (Label × Block)) :
    SameDests ((renamePhiBlocks ends es).1.flatMap fun e => e.2.lines) (es.flatMap fun e => e.2.lines) := by
  induction es with
  | nil => rfl
  | cons e es ih =>
    have hbody := renamePhis_dests ends e.2.body
    have hjumps := renamePhis_dests ends e.2.jumps
    rw [renamePhiBlocks]
    split
    · next h =>
        rw [h] at hbody
        exact (hbody.append rfl).append rfl
    · next h =>
        rw [h] at hbody
        split
        · next h' =>
            rw [h'] at hjumps
            exact (hbody.append hjumps).append rfl
        · next h' =>
            rw [h'] at hjumps
            exact (hbody.append hjumps).append ih

end Dests

section Once

variable {g : Graph} {v : Liveness}

theorem insertPhis_targets (hlive : ∀ id, ∀ x ∈ v.livein id, x.startsWith "%") (fresh : Nat) {es : List (Label × Block)}
    (h : ∀ e ∈ es, Targets e.2.lines) : ∀ e ∈ insertPhis g v fresh es, Targets e.2.lines := by
  induction es generalizing fresh with
  | nil => simp [insertPhis]
  | cons e es ih =>
    rw [insertPhis, forall_mem_cons]
    refine ⟨fun l hl d hd => ?_, ih _ fun e' he' => h e' (mem_cons_of_mem e he')⟩
    simp only [Block.lines, append_assoc, mem_append] at hl
    rcases hl with hl | hl
    · rw [phisOf_eq] at hl
      obtain ⟨t, ht, rfl⟩ := mem_map.1 hl
      cases hd
      obtain ⟨m, -, hx⟩ := exists_of_mem_liveHead (fst_mem_of_mem_zipIdx ht)
      exact .inl (hlive m.id _ hx)
    · exact h e mem_cons_self l (mem_append.2 hl) d hd

theorem ssa_once (hv : liveness g = .ok v) (hlive : ∀ id, ∀ x ∈ v.livein id, x.startsWith "%")
    (h : ∀ e ∈ g.blocks, Targets e.2.lines) (taken : Nat) {params : List Datum} (hparams : params.all Datum.isKey) :
    (assigned (ssa taken params g).1.lines).Nodup := by
  obtain ⟨n, hn⟩ := versionBlocks_numbers (insertPhis_targets (g := g) hlive (freshId taken g.lines) h) 0
  simp only [ssa, hv, hparams, Bool.not_true, Bool.false_eq_true, if_false, Graph.lines]
  rw [(renamePhiBlocks_dests _ _).assigned_eq]
  have hsame : SameDests (((versionBlocks 0 (insertPhis g v (freshId taken g.lines) g.blocks)).map fun e => (e.1, (renameBlock e.2).1)).flatMap
      fun e => e.2.lines) ((versionBlocks 0 (insertPhis g v (freshId taken g.lines) g.blocks)).flatMap fun e => e.2.lines) := by
    induction versionBlocks 0 (insertPhis g v (freshId taken g.lines) g.blocks) with
    | nil => rfl
    | cons e es ih => exact ((renameUses_dests _ _).append (renameUses_dests _ _)).append ih
  rw [map_map]
  exact hsame.assigned_eq ▸ List.Nodup.of_map numberOf (hn ▸ nodup_range' 1)

end Once

section Before

variable {ends : List (String × Renaming)} {r r' : Renaming} {ls ls' : List Line}

theorem dest_finish (ends : List (String × Renaming)) (i : Instr) : (finish ends i).dest = i.dest := by
  cases i <;> rfl

theorem Converted.split {as' bs' : List Line} (h : Converted ends r ls (as' ++ l' :: bs') r') :
    ∃ as l bs r₁ k, ls = as ++ l :: bs ∧ Converted ends r as as' r₁ ∧
      l'.instr = finish ends ((l.instr.renameReads r₁.apply).renameDest (version k)) := by
  induction as' generalizing r ls with
  | nil =>
    cases h with
    | @cons _ _ l _ ls _ k hl h => exact ⟨[], l, ls, r, k, rfl, .nil, hl⟩
  | cons m' as' ih =>
    cases h with
    | @cons _ _ m _ ls _ k hm h =>
      obtain ⟨as, l, bs, r₁, j, rfl, has, hl⟩ := ih h
      exact ⟨m :: as, l, bs, r₁, j, rfl, .cons k hm has, hl⟩

variable (h : Converted ends r ls ls' r')
include h

theorem Converted.versions (hr : Versions r) (hdot : ∀ l ∈ ls, ∀ d ∈ l.instr.dest, '.' ∉ d.toList) :
    Versions r' := by
  induction h with
  | nil => exact hr
  | @cons _ _ l _ ls _ k _ _ ih =>
    rw [forall_mem_cons] at hdot
    exact ih (hr.note hdot.1 k) hdot.2

theorem Converted.lookup_of_notMem (hdot : ∀ l ∈ ls, ∀ d ∈ l.instr.dest, '.' ∉ d.toList)
    (hx : ∀ l ∈ ls, l.instr.dest ≠ some x) : r'.lookup x = r.lookup x := by
  induction h with
  | nil => rfl
  | @cons r _ l _ ls _ k _ _ ih =>
    rw [forall_mem_cons] at hdot hx
    rw [ih hdot.2 hx.2]
    cases hd : l.instr.dest with
    | none => rfl
    | some d =>
      have hne : x ≠ d := fun h => hx.1 (h ▸ hd)
      rw [Option.map_some, note, tmpRoot_version k (hdot.1 d hd), lookup_put_ne hne]

theorem Converted.exists_dest (hl' : l' ∈ ls') (hy : l'.instr.dest = some y) :
    ∃ l ∈ ls, ∃ d k, l.instr.dest = some d ∧ y = version k d := by
  induction h with
  | nil => cases hl'
  | @cons r _ l m' ls ls' k hl h ih =>
    rcases mem_cons.1 hl' with rfl | hl'
    · rw [hl, dest_finish, dest_renameDest, dest_renameReads] at hy
      obtain ⟨d, hd, rfl⟩ := Option.map_eq_some_iff.1 hy
      exact ⟨l, mem_cons_self, d, k, hd, rfl⟩
    · obtain ⟨m, hm, d, j, hd, hy⟩ := ih hl'
      exact ⟨m, mem_cons_of_mem l hm, d, j, hd, hy⟩

def LastVersion (ls : List Line) (x y : String) : Prop :=
  ∃ as m bs, ls = as ++ m :: bs ∧ m.instr.dest = some y ∧ tmpRoot y = x ∧ ∀ n ∈ bs, ∀ z ∈ n.instr.dest, tmpRoot z ≠ x

omit h in
theorem LastVersion.exists_dest (h : LastVersion ls x y) : ∃ l ∈ ls, l.instr.dest = some y := by
  obtain ⟨as, m, bs, rfl, hm, -⟩ := h
  exact ⟨m, by simp, hm⟩

theorem Converted.lookup_of_mem (hdot : ∀ l ∈ ls, ∀ d ∈ l.instr.dest, '.' ∉ d.toList)
    (hx : ∃ l ∈ ls, l.instr.dest = some x) : ∃ k, r'.lookup x = some (version k x) ∧ LastVersion ls' x (version k x) := by
  induction h with
  | nil => simp at hx
  | @cons r _ l l' ls ls' k hl h ih =>
    rw [forall_mem_cons] at hdot
    by_cases hlater : ∃ m ∈ ls, m.instr.dest = some x
    · obtain ⟨j, hj, as, m, bs, rfl, hm⟩ := ih hdot.2 hlater
      exact ⟨j, hj, l' :: as, m, bs, rfl, hm⟩
    · have hd : l.instr.dest = some x := by
        obtain ⟨m, hm, hd⟩ := hx
        rcases mem_cons.1 hm with rfl | hm
        · exact hd
        · exact absurd ⟨m, hm, hd⟩ hlater
      have hroot := tmpRoot_version k (hdot.1 x hd)
      refine ⟨k, ?_, [], l', ls', rfl, ?_, hroot, fun n hn z hz => ?_⟩
      · rw [h.lookup_of_notMem hdot.2 fun m hm hd => hlater ⟨m, hm, hd⟩, hd, Option.map_some, note, hroot, lookup_put_self]
      · rw [hl, dest_finish, dest_renameDest, dest_renameReads, hd]
        rfl
      · obtain ⟨m, hm, d, j, hd', rfl⟩ := h.exists_dest hn hz
        rw [tmpRoot_version j (hdot.2 m hm d hd')]
        exact fun hdx => hlater ⟨m, hm, hdx ▸ hd'⟩

end Before

structure Graph.Assigned (name : String) (params : List Datum) (h : Graph) : Prop where
  formed : h.Formed
  nonempty : ∀ e ∈ h.blocks, e.2.lines ≠ []
  once : (assigned h.lines).Nodup
  dotted : ∀ x ∈ assigned h.lines, '.' ∈ x.toList
  targets : Targets h.lines
  reads : ∀ e ∈ h.blocks, ∀ ls l ms, e.2.lines = ls ++ l :: ms → l.instr.isPhi = false →
    ∀ x ∈ l.instr.reads, isGlobalName x = true ∨ x ∈ assigned ls
  phis : ∀ l ∈ h.lines, l.instr.isPhi = true → ∃ d sources, l.instr = .phi d sources ∧ d.startsWith "%" = true
  along : ∀ e ∈ h.blocks, ∀ l ∈ e.2.lines, ∀ d sources, l.instr = .phi d sources → ∀ e' ∈ h.blocks,
    e.1 ∈ Graph.destinations e'.2 → ∃ x ∈ assigned e'.2.lines, sources.lookup e'.1.text = some x
  start : ∀ e ∈ h.blocks, e.1 = h.entry → ∀ l ∈ e.2.lines, ∀ d sources, l.instr = .phi d sources →
    ∃ x, sources.lookup name = some x ∧ .str x ∈ params ∧ x.startsWith "%" = true ∧ '.' ∉ x.toList
  calls : ∀ l ∈ h.lines, ∀ d f k, l.instr = .call d f k → isGlobalName f = true
  prints : ∀ l ∈ h.lines, ∀ d f k, l.instr = .call d f k → isPrint f = true → d = none

structure Converts (v : Liveness) (ends : List (String × Renaming)) (g h : Graph) : Prop where
  undotted : g.Undotted
  nonempty : ∀ e ∈ g.blocks, e.2.lines ≠ []
  uses : ∀ l ∈ g.lines, ∀ x, isTempName x = true → x ∈ l.instr.reads → x ∈ v.livein l.id
  next : ∀ i j, g.Next i j → ∀ x, x ∈ v.livein j.id → x ∉ i.instr.defs → x ∈ v.livein i.id
  live : ∀ id, ∀ x ∈ v.livein id, x.startsWith "%" = true ∧ '.' ∉ x.toList
  blocks : List.Forall₂ (fun e e' => e'.1 = e.1 ∧ SsaBlock g v ends e.2 e'.2) g.blocks h.blocks

section Phis

variable {g : Graph} {v : Liveness} {ends : List (String × Renaming)}

theorem mem_phisOf {fresh : Nat} (hl : l ∈ phisOf g v fresh b) : ∃ x ∈ liveHead v b, l.instr = phiOf (ways g b) x := by
  rw [phisOf_eq] at hl
  obtain ⟨t, ht, rfl⟩ := mem_map.1 hl
  exact ⟨t.1, fst_mem_of_mem_zipIdx ht, rfl⟩

theorem dest_phisOf (g : Graph) (fresh : Nat) (hx : x ∈ liveHead v b) : ∃ l ∈ phisOf g v fresh b, l.instr.dest = some x := by
  obtain ⟨k, hk⟩ := List.getElem?_of_mem hx
  have hmem : (x, k) ∈ (liveHead v b).zipIdx := mem_zipIdx_iff_getElem?.2 hk
  rw [phisOf_eq]
  exact ⟨_, mem_map_of_mem hmem, rfl⟩

theorem reads_convert {m n : String → String} {i : Instr} (hi : i.isPhi = false) :
    (finish ends ((i.renameReads m).renameDest n)).reads = i.reads.map m := by
  cases i with
  | phi | frozenPhi => cases hi
  | ret x => cases x <;> rfl
  | _ => rfl

theorem SsaBlock.phi (h : SsaBlock g v ends b b') (hb : ∀ l ∈ b.lines, l.instr.isPhi = false) (hl' : l' ∈ b'.lines)
    (hphi : l'.instr.isPhi) :
    ∃ x ∈ liveHead v b, ∃ k, l'.instr = .phi (version k x) ((ways g b).map fun p => (p, (endOf ends p).apply x)) := by
  obtain ⟨fresh, hconv⟩ := h.converted
  obtain ⟨ls, ms, hs⟩ := append_of_mem hl'
  obtain ⟨as, l, bs, r, k, hsplit, -, hl⟩ := (hs ▸ hconv).split
  rw [hl, (sameKind_convert ends _ _ _).phi] at hphi
  rcases mem_append.1 (hsplit ▸ by simp : l ∈ phisOf g v fresh b ++ b.lines) with hmem | hmem
  · obtain ⟨x, hx, hi⟩ := mem_phisOf hmem
    refine ⟨x, hx, k, ?_⟩
    rw [hl, hi, phiOf]
    simp [Instr.renameReads, Instr.renameDest, finish]
  · rw [hb l hmem] at hphi
    cases hphi

theorem SsaBlock.sources (h : SsaBlock g v ends b b') (hb : ∀ l ∈ b.lines, l.instr.isPhi = false) (hl' : l' ∈ b'.lines)
    {sources : List (String × String)} (hi : l'.instr = .phi d sources) :
    (∃ x, x ∈ liveHead v b) ∧ sources.map Prod.fst = ways g b := by
  obtain ⟨x, hx, k, hi'⟩ := h.phi hb hl' (by rw [hi]; rfl)
  cases hi.symm.trans hi'
  exact ⟨⟨x, hx⟩, by simp [Function.comp_def]⟩

theorem SsaBlock.exists_phi (h : SsaBlock g v ends b b') (hb : ∀ l ∈ b.lines, l.instr.isPhi = false) (hx : x ∈ liveHead v b) :
    ∃ l' ∈ b'.lines, ∃ d sources, l'.instr = .phi d sources := by
  obtain ⟨fresh, hconv⟩ := h.converted
  obtain ⟨l, hl, -⟩ := dest_phisOf g fresh hx
  obtain ⟨y, -, hi⟩ := mem_phisOf hl
  obtain ⟨l', hl', hk⟩ := forall₂_exists_right hconv.sameKind (mem_append_left _ hl)
  obtain ⟨z, -, k, hi'⟩ := h.phi hb hl' (by rw [hk.phi, hi]; rfl)
  exact ⟨l', hl', _, _, hi'⟩

theorem call_of_convert {m n : String → String} {i : Instr} {d : Option String} {k : Numeral}
    (hi : finish ends ((i.renameReads m).renameDest n) = .call d f k) : ∃ d₀, i = .call d₀ f k ∧ d = d₀.map n := by
  cases i with
  | call d₀ f₀ k₀ =>
    cases hi
    exact ⟨d₀, rfl, rfl⟩
  | _ => cases hi

end Phis

namespace Converts

variable {v : Liveness} {ends : List (String × Renaming)} {g h : Graph} (C : Converts v ends g h)
include C

theorem liveHead_written (hx : x ∈ liveHead v b) : x.startsWith "%" ∧ '.' ∉ x.toList := by
  obtain ⟨l, -, hx⟩ := exists_of_mem_liveHead hx
  exact C.live l.id x hx

theorem live_or_assigned (he : e ∈ g.blocks) {as bs : List Line} (hs : e.2.lines = as ++ l :: bs) (hx : x ∈ v.livein l.id) :
    x ∈ liveHead v e.2 ∨ ∃ m ∈ as, m.instr.dest = some x := by
  induction as using List.reverseRecOn generalizing l bs with
  | nil =>
    left
    rw [liveHead, hs]
    exact hx
  | append_singleton as m ih =>
    by_cases hd : m.instr.dest = some x
    · exact .inr ⟨m, by simp, hd⟩
    · rw [append_assoc] at hs
      have hsuf : m :: l :: bs <:+ e.2.lines := ⟨as, by rw [hs]; rfl⟩
      have hback : x ∈ v.livein m.id := C.next m l (.inside he hsuf) x hx fun hdef => hd (by simpa using (mem_filter.1 hdef).1)
      exact (ih hs hback).imp_right (Exists.imp fun n hn => ⟨mem_append_left _ hn.1, hn.2⟩)

theorem undotted_dests (he : e ∈ g.blocks) (fresh : Nat) :
    ∀ l ∈ phisOf g v fresh e.2 ++ e.2.lines, ∀ d ∈ l.instr.dest, '.' ∉ d.toList := by
  intro l hl d hd
  rcases mem_append.1 hl with hl | hl
  · obtain ⟨x, hx, hi⟩ := mem_phisOf hl
    rw [hi] at hd
    cases hd
    exact (C.liveHead_written hx).2
  · exact (C.undotted.dests l (mem_flatMap.2 ⟨e, he, hl⟩) d hd).undotted

theorem origin (he' : e' ∈ h.blocks) (hs : e'.2.lines = ls ++ l' :: ms) :
    ∃ e ∈ g.blocks, e'.1 = e.1 ∧ ∃ fresh as l bs r k, phisOf g v fresh e.2 ++ e.2.lines = as ++ l :: bs ∧
      Converted ends [] as ls r ∧ Versions r ∧ l'.instr = finish ends ((l.instr.renameReads r.apply).renameDest (version k)) := by
  obtain ⟨e, he, hlab, hssa⟩ := forall₂_exists_left C.blocks he'
  obtain ⟨fresh, hconv⟩ := hssa.converted
  rw [hs] at hconv
  obtain ⟨as, l, bs, r, k, hsplit, hbefore, hl⟩ := hconv.split
  have hdot : ∀ m ∈ as, ∀ d ∈ m.instr.dest, '.' ∉ d.toList :=
    fun m hm => C.undotted_dests he fresh m (hsplit ▸ mem_append_left _ hm)
  exact ⟨e, he, hlab, fresh, as, l, bs, r, k, hsplit, hbefore, hbefore.versions .nil hdot, hl⟩

theorem phi (he' : e' ∈ h.blocks) (hl' : l' ∈ e'.2.lines) (hphi : l'.instr.isPhi) :
    ∃ e ∈ g.blocks, e'.1 = e.1 ∧ ∃ x ∈ liveHead v e.2, ∃ k,
      l'.instr = .phi (version k x) ((ways g e.2).map fun p => (p, (endOf ends p).apply x)) := by
  obtain ⟨e, he, hlab, hssa⟩ := forall₂_exists_left C.blocks he'
  exact ⟨e, he, hlab, hssa.phi (fun l hl => C.undotted.phiFree l (mem_flatMap.2 ⟨e, he, hl⟩)) hl' hphi⟩

theorem before (he' : e' ∈ h.blocks) (hs : e'.2.lines = ls ++ l' :: ms) (hphi : l'.instr.isPhi = false) :
    ∃ e ∈ g.blocks, ∃ l ∈ e.2.lines, ∃ r k, Versions r ∧ l'.instr = finish ends ((l.instr.renameReads r.apply).renameDest (version k)) ∧
      ∀ x ∈ v.livein l.id, ∃ j, r.lookup x = some (version j x) ∧ LastVersion ls x (version j x) := by
  obtain ⟨e, he, -, fresh, as, l, bs, r, k, hsplit, hconv, hr, hl⟩ := C.origin he' hs
  have hdot : ∀ m ∈ as, ∀ d ∈ m.instr.dest, '.' ∉ d.toList := fun m hm => C.undotted_dests he fresh m (hsplit ▸ mem_append_left _ hm)
  rw [hl, (sameKind_convert ends _ _ _).phi] at hphi
  obtain ⟨cs, rfl, hlines⟩ : ∃ cs, as = phisOf g v fresh e.2 ++ cs ∧ e.2.lines = cs ++ l :: bs := by
    rcases append_eq_append_iff.1 hsplit with ⟨cs, has, hlines⟩ | ⟨cs, hphis, hlines⟩
    · exact ⟨cs, has, hlines⟩
    · cases cs with
      | nil => exact ⟨[], by simp [hphis], hlines.symm⟩
      | cons c cs =>
        cases hlines
        obtain ⟨x, -, hi⟩ := mem_phisOf (hphis ▸ mem_append_right _ mem_cons_self)
        rw [hi] at hphi
        cases hphi
  refine ⟨e, he, l, hlines ▸ by simp, r, k, hr, hl, fun x hx => hconv.lookup_of_mem hdot ?_⟩
  rcases C.live_or_assigned he hlines hx with hhead | ⟨m, hm, hd⟩
  · obtain ⟨m, hm, hd⟩ := dest_phisOf g fresh hhead
    exact ⟨m, mem_append_left _ hm, hd⟩
  · exact ⟨m, mem_append_right _ hm, hd⟩

theorem at_end {e₁ : Label × Block} (he : e ∈ g.blocks) (he₁ : e₁ ∈ g.blocks) (hssa : SsaBlock g v ends e₁.2 e₁'.2)
    (hd : e.1 ∈ g.succsOf e₁.1) (hx : x ∈ liveHead v e.2) :
    ∃ j, (endOf ends e₁.2.label.text).lookup x = some (version j x) ∧ LastVersion e₁'.2.lines x (version j x) := by
  obtain ⟨fresh, hconv⟩ := hssa.converted
  refine hconv.lookup_of_mem (C.undotted_dests he₁ fresh) ?_
  obtain ⟨j, hj, hxj⟩ := exists_of_mem_liveHead hx
  obtain ⟨as, i, hlines⟩ := (eq_nil_or_concat' e₁.2.lines).resolve_left (C.nonempty e₁ he₁)
  by_cases hdi : i.instr.dest = some x
  · exact ⟨i, by simp [hlines], hdi⟩
  · have hnext : g.Next i j := .across he₁ he hd (by rw [hlines, List.getLast?_concat]) hj
    have hlive : x ∈ v.livein i.id := C.next i j hnext x hxj fun hdef => hdi (by simpa using (mem_filter.1 hdef).1)
    rcases C.live_or_assigned he₁ hlines hlive with hhead | ⟨m, hm, hdm⟩
    · obtain ⟨m, hm, hdm⟩ := dest_phisOf g fresh hhead
      exact ⟨m, mem_append_left _ hm, hdm⟩
    · exact ⟨m, mem_append_right _ (hlines ▸ mem_append_left _ hm), hdm⟩

theorem origin_of_mem (hl' : l' ∈ h.lines) :
    ∃ e ∈ g.blocks, ∃ fresh, ∃ l ∈ phisOf g v fresh e.2 ++ e.2.lines, ∃ r k,
      l'.instr = finish ends ((l.instr.renameReads r).renameDest (version k)) := by
  obtain ⟨e', he', hl'⟩ := mem_flatMap.1 hl'
  obtain ⟨ls, ms, hs⟩ := append_of_mem hl'
  obtain ⟨e, he, -, fresh, as, l, bs, r, k, hsplit, -, -, hl⟩ := C.origin he' hs
  exact ⟨e, he, fresh, l, hsplit ▸ by simp, r.apply, k, hl⟩

theorem result (hl' : l' ∈ h.lines) (hy : l'.instr.dest = some y) : ∃ k d, y = version k d ∧ Written d := by
  obtain ⟨e, he, fresh, l, hl, r, k, hi⟩ := C.origin_of_mem hl'
  rw [hi, dest_finish, dest_renameDest, dest_renameReads] at hy
  obtain ⟨d, hd, rfl⟩ := Option.map_eq_some_iff.1 hy
  refine ⟨k, d, rfl, ?_⟩
  rcases mem_append.1 hl with hl | hl
  · obtain ⟨x, hx, hphi⟩ := mem_phisOf hl
    rw [hphi] at hd
    cases hd
    exact ⟨.inl (C.liveHead_written hx).1, (C.liveHead_written hx).2⟩
  · exact C.undotted.dests l (mem_flatMap.2 ⟨e, he, hl⟩) d hd

theorem dotted (hx : x ∈ Flow.assigned h.lines) : '.' ∈ x.toList := by
  obtain ⟨⟨l', hl', hd⟩, hglob⟩ := mem_assigned.1 hx
  obtain ⟨k, d, rfl, hw⟩ := C.result hl' hd
  rw [isGlobalName_version] at hglob
  rw [version, if_pos (hw.kind.resolve_right (by simp [hglob]))]
  simp

theorem call (hl' : l' ∈ h.lines) {d : Option String} {k : Numeral} (hi : l'.instr = .call d f k) :
    ∃ l ∈ g.lines, ∃ d₀ j, l.instr = .call d₀ f k ∧ d = d₀.map (version j) := by
  obtain ⟨e, he, fresh, l, hl, r, j, hl'⟩ := C.origin_of_mem hl'
  obtain ⟨d₀, hcall, hd⟩ := call_of_convert (hl'.symm.trans hi)
  rcases mem_append.1 hl with hl | hl
  · obtain ⟨x, -, hphi⟩ := mem_phisOf hl
    cases hphi.symm.trans hcall
  · exact ⟨l, mem_flatMap.2 ⟨e, he, hl⟩, d₀, j, hcall, hd⟩

theorem live_of_reads (hl : l ∈ g.lines) (hx : x ∈ l.instr.reads) (hg : isGlobalName x = false) : x ∈ v.livein l.id := by
  have hw := C.undotted.reads l hl x hx
  exact C.uses l hl x (isTempName_of_undotted (hw.kind.resolve_right (by simp [hg])) hw.undotted) hx

theorem reads (he' : e' ∈ h.blocks) (hs : e'.2.lines = ls ++ l' :: ms) (hphi : l'.instr.isPhi = false) (hy : y ∈ l'.instr.reads) :
    isGlobalName y ∨ y ∈ Flow.assigned ls := by
  obtain ⟨e, he, l, hl, r, k, hr, hl', hlook⟩ := C.before he' hs hphi
  have hmem : l ∈ g.lines := mem_flatMap.2 ⟨e, he, hl⟩
  rw [hl', reads_convert (C.undotted.phiFree l hmem)] at hy
  obtain ⟨x, hx, rfl⟩ := mem_map.1 hy
  rw [hr.isGlobalName]
  cases hglob : isGlobalName x with
  | true => exact .inl rfl
  | false =>
    obtain ⟨j, hj, hlast⟩ := hlook x (C.live_of_reads hmem hx hglob)
    have happly : r.apply x = version j x := by rw [Renaming.apply, hj]; rfl
    exact .inr (mem_assigned.2 ⟨happly ▸ hlast.exists_dest, by rw [hr.isGlobalName, hglob]⟩)

theorem along (he' : e' ∈ h.blocks) (hl' : l' ∈ e'.2.lines) {sources : List (String × String)} (hi : l'.instr = .phi d sources)
    (he₁' : e₁' ∈ h.blocks) (hd : e'.1 ∈ g.succsOf e₁'.1) :
    ∃ y, sources.lookup e₁'.1.text = some y ∧ LastVersion e₁'.2.lines (tmpRoot d) y ∧ isGlobalName y = false := by
  obtain ⟨e, he, hlab, x, hx, k, hi'⟩ := C.phi he' hl' (by rw [hi]; rfl)
  rw [hi] at hi'
  cases hi'
  obtain ⟨e₁, he₁, hlab₁, hssa⟩ := forall₂_exists_left C.blocks he₁'
  rw [hlab, hlab₁] at hd
  obtain ⟨j, hj, hlast⟩ := C.at_end he he₁ hssa hd hx
  have hway : e₁'.1.text ∈ ways g e.2 := by
    have hpred := (C.undotted.cut.pred e₁.1 e.1).2 hd
    rw [← (C.undotted.cut.named e he).1] at hpred
    unfold ways
    split
    · next hnil => simp [hnil] at hpred
    · rw [hlab₁]
      exact mem_map_of_mem hpred
  have hend : (endOf ends e₁'.1.text).apply x = version j x := by
    rw [hlab₁, ← (C.undotted.cut.named e₁ he₁).1, Renaming.apply, hj]
    rfl
  obtain ⟨hpercent, hdot⟩ := C.liveHead_written hx
  refine ⟨version j x, ?_, ?_, ?_⟩
  · rw [← hend]
    exact lookup_map_key (f := fun p => p) (fun p => (endOf ends p).apply x) (by simpa using hway)
  · rwa [tmpRoot_version k hdot]
  · rw [isGlobalName_version, isGlobalName_of_percent hpercent]

end Converts

namespace Versioning

variable {v : Liveness} {ends : List (String × Renaming)} {g h : Graph} {bs bs' : List Block}
  (S : Versioning v ends g h bs bs')
include S

theorem converts : Converts v ends g h where
  undotted := S.versionable.undotted
  nonempty := S.versionable.nonempty
  uses := S.isLive.uses
  next i j hn x hx hd := by
    cases hn with
    | inside he hs => exact S.isLive.inside _ he i j _ hs x hx hd
    | across he he' hsucc hi hj => exact S.isLive.across _ he _ he' ((S.facing.formed.succ _ he _).1 hsucc) i j hi hj x hx hd
  live := S.live
  blocks := S.facing.shape.blocks.imp fun _ _ h => ⟨h.1, h.2.2.2⟩

theorem assigned {params : List Datum} (hparams : ∀ e ∈ g.blocks, e.1 = g.entry → ∀ x ∈ liveHead v e.2, .str x ∈ params)
    (honce : (assigned h.lines).Nodup) : h.Assigned g.name params where
  formed := S.facing.formed'
  once := honce
  nonempty e' he' := by
    obtain ⟨e, he, -, -, -, hssa⟩ := forall₂_exists_left S.facing.shape.blocks he'
    obtain ⟨fresh, hconv⟩ := hssa.converted
    intro hnil
    have hlen := hconv.sameKind.length_eq
    rw [hnil, length_append] at hlen
    exact S.versionable.nonempty e he (length_eq_zero_iff.1 (Nat.add_eq_zero_iff.1 hlen).2)
  dotted x hx := S.converts.dotted hx
  targets l' hl' y hy := by
    obtain ⟨k, d, rfl, hw⟩ := S.converts.result hl' hy
    rw [startsWith_version, isGlobalName_version]
    exact hw.kind
  reads e' he' ls l' ms hs hphi y hy := S.converts.reads he' hs hphi hy
  phis l' hl' hphi := by
    obtain ⟨e', he', hl'⟩ := mem_flatMap.1 hl'
    obtain ⟨e, he, -, x, hx, k, hi⟩ := S.converts.phi he' hl' hphi
    exact ⟨_, _, hi, by rw [startsWith_version, (S.liveHead_written hx).1]⟩
  along e' he' l' hl' d sources hi e₁' he₁' hdest := by
    obtain ⟨e₁, he₁, hlab₁, -, hd, -⟩ := forall₂_exists_left S.facing.shape.blocks he₁'
    rw [hd, ← S.facing.formed.succ e₁ he₁, ← hlab₁] at hdest
    obtain ⟨y, hy, hlast, hglob⟩ := S.converts.along he' hl' hi he₁' hdest
    exact ⟨y, mem_assigned.2 ⟨hlast.exists_dest, hglob⟩, hy⟩
  start e' he' hentry l' hl' d sources hi := by
    obtain ⟨e, he, hlab, x, hx, k, hi'⟩ := S.converts.phi he' hl' (by rw [hi]; rfl)
    rw [hi] at hi'
    cases hi'
    rw [hlab, S.facing.shape.entry] at hentry
    have hways : ways g e.2 = [g.name] := by
      rw [ways, (S.facing.formed.named e he).1, hentry, S.entry]
    refine ⟨x, ?_, hparams e he hentry x hx, S.liveHead_written hx⟩
    rw [hways]
    simp [S.start, Renaming.apply]
  calls l' hl' d f k hi := by
    obtain ⟨l, hl, d₀, j, hcall, -⟩ := S.converts.call hl' hi
    exact S.versionable.calls l hl d₀ f k hcall
  prints l' hl' d f k hi hf := by
    obtain ⟨l, hl, d₀, j, hcall, hd⟩ := S.converts.call hl' hi
    rw [hd, S.versionable.prints l hl d₀ f k hcall hf]
    rfl

end Versioning

end Bx.Flow
