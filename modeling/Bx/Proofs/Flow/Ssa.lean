import Bx.Flow.Ssa
import Bx.Proofs.Flow.Liveness

namespace Bx.Flow

open List Tac Run.Checked

variable {x d : String} {ends : List (String × Renaming)} {r r' : Renaming} {ls ls' : List Line} {v : Liveness}
variable {b b' : Block} {g : Graph}

section Names

theorem startsWith_percent : x.startsWith "%" ↔ x.toList.head? = some '%' := by
  rw [String.startsWith_string_iff]
  rcases hx : x.toList with _ | ⟨c, cs⟩
  · simp
  · simp [eq_comm]

theorem startsWith_at : x.startsWith "@" ↔ x.toList.head? = some '@' := by
  rw [String.startsWith_string_iff]
  rcases hx : x.toList with _ | ⟨c, cs⟩
  · simp
  · simp [eq_comm]

def version (k : Nat) (d : String) : String := if d.startsWith "%" then d ++ "." ++ toString k else d

theorem head?_version (k : Nat) (d : String) : (version k d).toList.head? = d.toList.head? := by
  rw [version]
  split
  · next h =>
      rw [startsWith_percent] at h
      rcases hd : d.toList with _ | ⟨c, cs⟩
      · simp [hd] at h
      · simp [String.toList_append, hd]
  · rfl

theorem startsWith_version (k : Nat) (d : String) : (version k d).startsWith "%" = d.startsWith "%" := by
  rw [Bool.eq_iff_iff, startsWith_percent, startsWith_percent, head?_version]

theorem isGlobalName_version (k : Nat) (d : String) : isGlobalName (version k d) = isGlobalName d := by
  rw [isGlobalName, isGlobalName, Bool.eq_iff_iff, startsWith_at, startsWith_at, head?_version]

theorem isGlobalName_of_percent (h : x.startsWith "%") : isGlobalName x = false := by
  rw [isGlobalName, Bool.eq_false_iff, Ne, startsWith_at, startsWith_percent.1 h]
  simp

theorem version_keepsKind (k : Nat) (d : String) : KeepsKind (version k) d where
  var := by rw [isVarName, isVarName, startsWith_version, ← isGlobalName, isGlobalName_version, isGlobalName]
  global := isGlobalName_version k d
  same := fun h => by
    rw [version, if_neg]
    intro hp
    rw [isGlobalName_of_percent hp] at h
    cases h

theorem tmpRoot_of_notMem (h : '.' ∉ x.toList) : tmpRoot x = x := by
  have hnil : x.toList.reverse.dropWhile (· != '.') = [] := by
    rw [dropWhile_eq_nil_iff]
    intro c hc
    rw [mem_reverse] at hc
    simp only [bne_iff_ne]
    rintro rfl
    exact h hc
  rw [tmpRoot, hnil]

theorem notMem_toString (k : Nat) : '.' ∉ (toString k).toList := by
  rw [Nat.toString_eq_repr, Nat.toList_repr]
  intro h
  have hd := Nat.isDigit_of_mem_toDigits (by decide) (by decide) h
  simp at hd

theorem tmpRoot_version (k : Nat) (h : '.' ∉ d.toList) : tmpRoot (version k d) = d := by
  rw [version]
  split
  · have hrest : (d ++ "." ++ toString k).toList.reverse.dropWhile (· != '.') = '.' :: d.toList.reverse := by
      rw [String.toList_append, String.toList_append, reverse_append, dropWhile_append_of_pos]
      · simp
      · intro c hc
        simp only [bne_iff_ne]
        rintro rfl
        exact notMem_toString k (mem_reverse.1 hc)
    rw [tmpRoot, hrest]
    simp
  · exact tmpRoot_of_notMem h

end Names

section Conversion

def endOf (ends : List (String × Renaming)) (l : String) : Renaming := (ends.lookup l).getD []

def finish (ends : List (String × Renaming)) : Instr → Instr
  | .phi d sources => .phi d (sources.map fun s => (s.1, (endOf ends s.1).apply s.2))
  | i => i

def note (r : Renaming) : Option String → Renaming
  | some d => Datum.put (tmpRoot d) d r
  | none => r

inductive Converted (ends : List (String × Renaming)) : Renaming → List Line → List Line → Renaming → Prop
  | nil {r : _} : Converted ends r [] [] r
  | cons {r r' l l' ls ls' : _} (k : Nat) (hl : l'.instr = finish ends ((l.instr.renameReads r.apply).renameDest (version k)))
      (h : Converted ends (note r (l.instr.dest.map (version k))) ls ls' r') : Converted ends r (l :: ls) (l' :: ls') r'

theorem Converted.append {r₁ r₂ : Renaming} {ms ms' : List Line} (h : Converted ends r ls ls' r₁)
    (h' : Converted ends r₁ ms ms' r₂) : Converted ends r (ls ++ ms) (ls' ++ ms') r₂ := by
  induction h with
  | nil => exact h'
  | cons k hl _ ih => exact .cons k hl (ih h')

theorem renameReads_renameDest (m n : String → String) (i : Instr) :
    (i.renameDest n).renameReads m = (i.renameReads m).renameDest n := by
  cases i <;> rfl

theorem renameDest_congr {m n : String → String} {i : Instr} (h : ∀ d ∈ i.dest, m d = n d) : i.renameDest m = i.renameDest n := by
  cases i with
  | call d f k => cases d <;> simp_all [Instr.renameDest, Instr.dest]
  | _ => simp_all [Instr.renameDest, Instr.dest]

theorem finish_nil (i : Instr) : finish [] i = i := by
  cases i <;> simp [finish, endOf, Renaming.apply]

theorem versionLine_spec (k : Nat) (l : Line) : (versionLine k l).1.instr = l.instr.renameDest (version k) := by
  rw [versionLine]
  split
  · next h =>
      apply renameDest_congr
      intro d hd
      rw [Option.mem_def.1 hd, Option.any_some] at h
      rw [version, if_pos h]
  · next h =>
      conv_lhs => rw [← renameDest_id l.instr]
      apply renameDest_congr
      intro d hd
      rw [Option.mem_def.1 hd, Option.any_some] at h
      rw [version, if_neg h]

theorem versionLines_spec (k : Nat) (ls : List Line) :
    List.Forall₂ (fun l l' => ∃ k, l'.instr = l.instr.renameDest (version k)) ls (versionLines k ls).1 := by
  induction ls generalizing k with
  | nil => exact .nil
  | cons l ls ih => exact .cons ⟨k, versionLine_spec k l⟩ (ih _)

theorem renameUses_spec {ls₁ : List Line} (h : List.Forall₂ (fun l l' => ∃ k, l'.instr = l.instr.renameDest (version k)) ls ls₁)
    (r : Renaming) : Converted [] r ls (renameUses r ls₁).1 (renameUses r ls₁).2 := by
  induction h generalizing r with
  | nil => exact .nil
  | @cons l l₁ ls ls₁ hl _ ih =>
    obtain ⟨k, hk⟩ := hl
    refine .cons k ?_ ?_
    · rw [finish_nil, ← renameReads_renameDest, ← hk]
    · have hnote : note r (l.instr.dest.map (version k)) = match (l₁.instr.renameReads r.apply).dest with
          | some d => Datum.put (tmpRoot d) d r
          | none => r := by
        rw [dest_renameReads, hk, dest_renameDest]
        rfl
      rw [hnote]
      exact ih _

theorem Converted.finished {ls₂ ls₃ : List Line} (h : Converted [] r ls ls₂ r')
    (hf : List.Forall₂ (fun l l' => l'.instr = finish ends l.instr) ls₂ ls₃) : Converted ends r ls ls₃ r' := by
  induction h generalizing ls₃ with
  | nil =>
    cases hf
    exact .nil
  | cons k hl _ ih =>
    cases hf with
    | cons hl₃ hf => exact .cons k (by rw [hl₃, hl, finish_nil]) (ih hf)

def Sourced (ends : List (String × Renaming)) (ls : List Line) : Prop :=
  ∀ l ∈ ls, ∀ d sources, l.instr = .phi d sources → ∀ s ∈ sources, (ends.lookup s.1).isSome

theorem renameSources_spec {sources : List (String × String)} (h : ∀ s ∈ sources, (ends.lookup s.1).isSome) :
    renameSources ends sources = (sources.map fun s => (s.1, (endOf ends s.1).apply s.2), none) := by
  induction sources with
  | nil => rfl
  | cons s rest ih =>
    obtain ⟨l, t⟩ := s
    obtain ⟨r, hr⟩ := Option.isSome_iff_exists.1 (h (l, t) mem_cons_self)
    simp only at hr
    simp only [renameSources, hr, ih fun s hs => h s (mem_cons_of_mem _ hs), map_cons, endOf, Option.getD_some]

theorem renamePhis_spec (h : Sourced ends ls) :
    ∃ ls', renamePhis ends ls = (ls', none) ∧ List.Forall₂ (fun l l' => l'.instr = finish ends l.instr) ls ls' := by
  induction ls with
  | nil => exact ⟨[], rfl, .nil⟩
  | cons l rest ih =>
    obtain ⟨rest', hrest, hall⟩ := ih fun m hm => h m (mem_cons_of_mem l hm)
    rw [renamePhis]
    split
    · next d sources hi =>
        rw [renameSources_spec (h l mem_cons_self d sources hi), hrest]
        exact ⟨_, rfl, .cons (by rw [hi]; rfl) hall⟩
    · next hi =>
        rw [hrest]
        refine ⟨_, rfl, .cons ?_ hall⟩
        cases hl : l.instr with
        | phi d sources => exact absurd hl (hi d sources)
        | _ => rfl

theorem renamePhiBlocks_spec {es : List (Label × Block)} (h : ∀ e ∈ es, Sourced ends e.2.body ∧ Sourced ends e.2.jumps) :
    ∃ es', renamePhiBlocks ends es = (es', none) ∧ List.Forall₂ (fun e e' => e'.1 = e.1 ∧ e'.2.label = e.2.label ∧
      List.Forall₂ (fun l l' => l'.instr = finish ends l.instr) e.2.body e'.2.body ∧
      List.Forall₂ (fun l l' => l'.instr = finish ends l.instr) e.2.jumps e'.2.jumps) es es' := by
  induction es with
  | nil => exact ⟨[], rfl, .nil⟩
  | cons e rest ih =>
    obtain ⟨x, b⟩ := e
    obtain ⟨rest', hrest, hall⟩ := ih fun m hm => h m (mem_cons_of_mem _ hm)
    obtain ⟨hbody, hjumps⟩ := h (x, b) mem_cons_self
    obtain ⟨body, hb, hbs⟩ := renamePhis_spec hbody
    obtain ⟨jumps, hj, hjs⟩ := renamePhis_spec hjumps
    simp only at hb hj
    simp only [renamePhiBlocks, hb, hj, hrest]
    exact ⟨_, rfl, .cons ⟨rfl, rfl, hbs, hjs⟩ hall⟩

theorem versionBlocks_spec (g : Graph) (v : Liveness) (fresh k : Nat) (es : List (Label × Block)) :
    List.Forall₂ (fun e e' => e'.1 = e.1 ∧ e'.2.label = e.2.label ∧
      (∃ fresh, List.Forall₂ (fun l l' => ∃ k, l'.instr = l.instr.renameDest (version k)) (phisOf g v fresh e.2 ++ e.2.body) e'.2.body) ∧
      List.Forall₂ (fun l l' => ∃ k, l'.instr = l.instr.renameDest (version k)) e.2.jumps e'.2.jumps)
      es (versionBlocks k (insertPhis g v fresh es)) := by
  induction es generalizing fresh k with
  | nil => exact .nil
  | cons e es ih =>
    exact .cons ⟨rfl, rfl, ⟨fresh, versionLines_spec _ _⟩, versionLines_spec _ _⟩ (ih _ _)

end Conversion

section Blocks

def ways (g : Graph) (b : Block) : List String :=
  match g.predsOf b.label with
  | [] => [g.name]
  | ps => ps.map Label.text

theorem ways_eq (g : Graph) (b : Block) :
    ways g b = if g.predsOf b.label = [] then [g.name] else (g.predsOf b.label).map Label.text := by
  unfold ways
  split <;> simp_all

def liveHead (v : Liveness) (b : Block) : NameSet := b.lines.head?.elim [] fun l => v.livein l.id

theorem exists_of_mem_liveHead (hx : x ∈ liveHead v b) : ∃ l, b.lines.head? = some l ∧ x ∈ v.livein l.id := by
  rw [liveHead] at hx
  cases hb : b.lines.head? with
  | none => simp [hb] at hx
  | some l =>
    rw [hb] at hx
    exact ⟨l, rfl, hx⟩

theorem phisOf_eq (g : Graph) (v : Liveness) (fresh : Nat) (b : Block) :
    phisOf g v fresh b = (liveHead v b).zipIdx.map fun e => ⟨fresh + e.2, .phi e.1 ((ways g b).map fun l => (l, e.1))⟩ := rfl

def SsaBlock (g : Graph) (v : Liveness) (ends : List (String × Renaming)) (b b' : Block) : Prop :=
  ∃ fresh r, Converted ends [] (phisOf g v fresh b ++ b.body) b'.body r ∧
    Converted ends r b.jumps b'.jumps (endOf ends b.label.text)

theorem Converted.mem_phi (h : Converted [] r ls ls' r') {l' : Line} (hl : l' ∈ ls') {sources : List (String × String)}
    (hi : l'.instr = .phi d sources) : ∃ l ∈ ls, ∃ d, l.instr = .phi d sources := by
  induction h with
  | nil => cases hl
  | @cons r r' l l₁ ls ls' k hk _ ih =>
    rcases mem_cons.1 hl with rfl | hl
    · refine ⟨l, mem_cons_self, ?_⟩
      rw [finish_nil, hi] at hk
      cases hl : l.instr with
      | phi d₀ sources₀ =>
        rw [hl] at hk
        cases hk
        exact ⟨d₀, rfl⟩
      | _ => simp [hl, Instr.renameReads, Instr.renameDest] at hk
    · obtain ⟨m, hm, hphi⟩ := ih hl
      exact ⟨m, mem_cons_of_mem l hm, hphi⟩

structure SameKind (i i' : Instr) : Prop where
  label : i'.isLabel = i.isLabel
  phi : i'.isPhi = i.isPhi
  ender : isEnder i' = isEnder i
  final : isFinal i' = isFinal i
  dest : isEnder i = true → i'.jumpDest = i.jumpDest

theorem sameKind_convert (ends : List (String × Renaming)) (m n : String → String) (i : Instr) :
    SameKind i (finish ends ((i.renameReads m).renameDest n)) := by
  cases i with
  | jmp | jcc | ret => exact ⟨rfl, rfl, rfl, rfl, fun _ => rfl⟩
  | _ => exact ⟨rfl, rfl, rfl, rfl, fun h => by cases h⟩

theorem Converted.sameKind (h : Converted ends r ls ls' r') : List.Forall₂ (fun l l' => SameKind l.instr l'.instr) ls ls' := by
  induction h with
  | nil => exact .nil
  | cons k hl _ ih => exact .cons (hl ▸ sameKind_convert ends _ _ _) ih

theorem SsaBlock.converted (h : SsaBlock g v ends b b') :
    ∃ fresh, Converted ends [] (phisOf g v fresh b ++ b.lines) b'.lines (endOf ends b.label.text) := by
  obtain ⟨fresh, r, hb, hj⟩ := h
  refine ⟨fresh, ?_⟩
  rw [Block.lines, Block.lines, ← append_assoc]
  exact hb.append hj

theorem SsaBlock.destinations (h : SsaBlock g v ends b b') (hb : b.Formed) : Graph.destinations b' = Graph.destinations b := by
  obtain ⟨_, _, _, hj⟩ := h
  have hkind := hj.sameKind
  have hender := hb.jumps
  rw [Graph.destinations, Graph.destinations]
  generalize b.jumps = js, b'.jumps = js' at hkind hender
  induction hkind with
  | nil => rfl
  | @cons l l' js js' hl _ ih =>
    rw [filterMap_cons, filterMap_cons, hl.dest (hender l mem_cons_self),
      ih fun m hm => hender m (mem_cons_of_mem l hm)]

theorem SsaBlock.formed (h : SsaBlock g v ends b b') (hb : b.Formed) (hne : b.lines ≠ []) : b'.Formed := by
  obtain ⟨fresh, r, hbody, hjumps⟩ := h
  refine ⟨fun l' hl' => ?_, fun l' hl' => ?_, .inr ?_⟩
  · obtain ⟨l, hl, hk⟩ := forall₂_exists_left hbody.sameKind hl'
    rw [hk.label, hk.ender]
    rcases mem_append.1 hl with hl | hl
    · rw [phisOf_eq] at hl
      obtain ⟨t, -, rfl⟩ := mem_map.1 hl
      exact ⟨rfl, rfl⟩
    · exact hb.body l hl
  · obtain ⟨l, hl, hk⟩ := forall₂_exists_left hjumps.sameKind hl'
    rw [hk.ender]
    exact hb.jumps l hl
  · obtain ⟨l, hl, hf⟩ := hb.ends.resolve_left hne
    have hrev := forall₂_reverse_iff.2 hjumps.sameKind
    rw [List.getLast?_eq_head?_reverse] at hl ⊢
    obtain ⟨ls, hls⟩ := List.head?_eq_some_iff.1 hl
    rw [hls] at hrev
    cases hj : b'.jumps.reverse with
    | nil =>
      rw [hj] at hrev
      cases hrev
    | cons l' ls' =>
      rw [hj] at hrev
      cases hrev with
      | cons hk _ => exact ⟨l', rfl, hk.final.trans hf⟩

theorem renameBlock_spec {b₁ : Block}
    (hb : List.Forall₂ (fun l l' => ∃ k, l'.instr = l.instr.renameDest (version k)) (ls ++ b.body) b₁.body)
    (hj : List.Forall₂ (fun l l' => ∃ k, l'.instr = l.instr.renameDest (version k)) b.jumps b₁.jumps) :
    ∃ r, Converted [] [] (ls ++ b.body) (renameBlock b₁).1.body r ∧
      Converted [] r b.jumps (renameBlock b₁).1.jumps (renameBlock b₁).2 :=
  ⟨_, renameUses_spec hb [], renameUses_spec hj _⟩

variable {g : Graph} {v : Liveness}

section Cut

variable (hg : g.Cut)
include hg

theorem mem_ways {l : String} (hl : l ∈ ways g b) : l = g.name ∨ l ∈ g.labels.map Label.text := by
  unfold ways at hl
  split at hl
  · exact .inl (mem_singleton.1 hl)
  · next ps hps =>
      obtain ⟨a, ha, rfl⟩ := mem_map.1 hl
      refine .inr (mem_map_of_mem ?_)
      rw [← hg.succKeys]
      exact Graph.mem_keys_of_mem ((hg.pred a b.label).1 ha)

theorem labels_text_nodup (hname : isLabelName g.name = false) : (g.name :: g.labels.map Label.text).Nodup := by
  have named : ∀ x ∈ g.labels, x = .name x.text ∧ isLabelName x.text := by
    intro x hx
    obtain ⟨e, he, rfl⟩ := mem_map.1 hx
    obtain ⟨-, s, hs, hn⟩ := hg.named e he
    rw [hs]
    exact ⟨rfl, hn⟩
  refine nodup_cons.2 ⟨fun h => ?_, hg.nodup.map_on fun x hx y hy hxy => ?_⟩
  · obtain ⟨x, hx, hxn⟩ := mem_map.1 h
    have := (named x hx).2
    rw [hxn, hname] at this
    cases this
  · rw [(named x hx).1, (named y hy).1, hxy]

theorem ssa_blocks (hphi : ∀ l ∈ g.lines, l.instr.isPhi = false) (hv : liveness g = .ok v) (hname : isLabelName g.name = false)
    (taken : Nat) {params : List Datum} (hparams : params.all Datum.isKey) :
    ∃ es ends, ssa taken params g = ({ g with blocks := es }, none) ∧ endOf ends g.name = [] ∧
      List.Forall₂ (fun e e' => e'.1 = e.1 ∧ e'.2.label = e.2.label ∧ SsaBlock g v ends e.2 e'.2) g.blocks es := by
  have h₁ := versionBlocks_spec g v (freshId taken g.lines) 0 g.blocks
  generalize hes : versionBlocks 0 (insertPhis g v (freshId taken g.lines) g.blocks) = es₁ at h₁
  have hlabels : es₁.map Prod.fst = g.labels := by
    rw [Graph.labels, ← forall₂_eq_eq_eq, forall₂_map_left_iff, forall₂_map_right_iff]
    exact h₁.flip.imp fun _ _ h => h.1
  have hnodup := labels_text_nodup hg hname
  -- The ends of the blocks are known under their labels, and the start under the name of the procedure.
  have hends : (es₁.map fun e => (e.1, renameBlock e.2)).foldl (fun acc e => Datum.put e.1.text e.2.2 acc) [(g.name, [])] =
      (g.name, []) :: es₁.map fun e => (e.1.text, (renameBlock e.2).2) := by
    rw [foldl_put]
    · simp
    · rw [map_map]
      rw [← hlabels, map_map] at hnodup
      exact hnodup
  generalize hE : ((g.name, []) :: es₁.map fun e => (e.1.text, (renameBlock e.2).2) : List (String × Renaming)) = ends at hends
  have hkeys : ends.map Prod.fst = g.name :: g.labels.map Label.text := by
    rw [← hE, ← hlabels]
    simp [Function.comp_def]
  have hend : ∀ e ∈ es₁, endOf ends e.1.text = (renameBlock e.2).2 := by
    intro e he
    rw [endOf, lookup_of_mem (hkeys ▸ hnodup) (v := (renameBlock e.2).2), Option.getD_some]
    rw [← hE]
    exact mem_cons_of_mem _ (mem_map_of_mem (f := fun e => (e.1.text, (renameBlock e.2).2)) he)
  have hsourced : ∀ e ∈ es₁, Sourced ends (renameBlock e.2).1.body ∧ Sourced ends (renameBlock e.2).1.jumps := by
    intro e₁ he₁
    obtain ⟨e, he, -, -, ⟨fresh, hb⟩, hj⟩ := forall₂_exists_left h₁ he₁
    obtain ⟨r, hbody, hjumps⟩ := renameBlock_spec hb hj
    have hfree : ∀ l ∈ e.2.lines, ∀ d sources, l.instr ≠ .phi d sources := by
      intro l hl d sources hi
      have := hphi l (mem_flatMap.2 ⟨e, he, hl⟩)
      simp [hi, Instr.isPhi] at this
    refine ⟨fun l hl d sources hi s hs => ?_, fun l hl d sources hi => ?_⟩
    · obtain ⟨m, hm, d₀, hmi⟩ := hbody.mem_phi hl hi
      rcases mem_append.1 hm with hm | hm
      · rw [phisOf_eq] at hm
        obtain ⟨t, -, rfl⟩ := mem_map.1 hm
        cases hmi
        obtain ⟨x, hx, rfl⟩ := mem_map.1 hs
        rw [lookup_isSome, hkeys, mem_cons]
        exact mem_ways hg hx
      · exact absurd hmi (hfree m (mem_append_left _ hm) d₀ sources)
    · obtain ⟨m, hm, d₀, hmi⟩ := hjumps.mem_phi hl hi
      exact absurd hmi (hfree m (mem_append_right _ hm) d₀ sources)
  obtain ⟨es₃, hes₃, h₃⟩ := @renamePhiBlocks_spec ends ((es₁.map fun e => (e.1, renameBlock e.2)).map fun e => (e.1, e.2.1)) (by
    rw [map_map]
    intro e' he'
    obtain ⟨e, he, rfl⟩ := mem_map.1 he'
    exact hsourced e he)
  rw [map_map, forall₂_map_left_iff] at h₃
  refine ⟨es₃, ends, ?_, ?_, forall₂_trans h₁ h₃ fun e he e₁ he₁ e₃ hr₁ hr₃ => ?_⟩
  · simp only [ssa, hv, hes, hparams, Bool.not_true, Bool.false_eq_true, if_false]
    rw [hends, hes₃]
  · rw [endOf, ← hE, lookup_cons, beq_self_eq_true]
    rfl
  · obtain ⟨hlab₁, hbl₁, ⟨fresh, hb⟩, hj⟩ := hr₁
    obtain ⟨hlab₃, hbl₃, hb₃, hj₃⟩ := hr₃
    obtain ⟨r, hbody, hjumps⟩ := renameBlock_spec hb hj
    refine ⟨hlab₃.trans hlab₁, hbl₃.trans hbl₁, fresh, r, hbody.finished hb₃, ?_⟩
    rw [(hg.named e he).1, ← hlab₁, hend e₁ he₁]
    exact hjumps.finished hj₃

end Cut

theorem ssa_spec (hg : g.Formed) (hphi : ∀ l ∈ g.lines, l.instr.isPhi = false) (hne : ∀ e ∈ g.blocks, e.2.lines ≠ []) (hv : liveness g = .ok v)
    (hname : isLabelName g.name = false) (taken : Nat) {params : List Datum} (hparams : params.all Datum.isKey) :
    ∃ h ends, ssa taken params g = (h, none) ∧ endOf ends g.name = [] ∧ g.Reshaped (SsaBlock g v ends) h ∧ h.Formed := by
  obtain ⟨es, ends, hs, hn, hall⟩ := ssa_blocks hg.cut hphi hv hname taken hparams
  have hshape : g.Reshaped (SsaBlock g v ends) { g with blocks := es } :=
    ⟨rfl, rfl, rfl, forall₂_trans (forall₂_same.2 fun e _ => rfl) hall fun e he _ _ e' heq h => by
      subst heq
      exact ⟨h.1, h.2.1, h.2.2.destinations (hg.blocks e he), h.2.2⟩⟩
  exact ⟨_, ends, hs, hn, hshape, hshape.formed hg fun e he b' hb' => hb'.formed (hg.blocks e he) (hne e he)⟩

end Blocks

end Bx.Flow
