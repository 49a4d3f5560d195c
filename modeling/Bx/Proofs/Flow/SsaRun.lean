import Bx.Proofs.Flow.Lines
import Bx.Proofs.Flow.Ssa

namespace Bx.Flow

open List hiding after
open Tac Run Run.Checked

variable {x d p : String} {r : Renaming} {o : Options} {f f' : Frame} {i : Instr} {b b' : Block}

structure Written (x : String) : Prop where
  kind : x.startsWith "%" = true ∨ isGlobalName x = true
  undotted : '.' ∉ x.toList

theorem isTempName_of_undotted (h : x.startsWith "%") (hd : '.' ∉ x.toList) : isTempName x := by
  have hl : isLabelName x = false := by
    rw [isLabelName, Bool.eq_false_iff, Ne, String.startsWith_string_iff]
    exact fun hp => hd (hp.subset (by simp))
  simp [isTempName, h, hl]

section Versions

def Versions (r : Renaming) : Prop := ∀ x y, r.lookup x = some y → ∃ k, y = version k x

theorem Versions.nil : Versions [] := fun _ _ h => by cases h

variable {r : Renaming} (h : Versions r)
include h

theorem Versions.apply (x : String) : r.apply x = x ∨ ∃ k, r.apply x = version k x := by
  rw [Renaming.apply]
  rcases hx : r.lookup x with _ | y
  · exact .inl rfl
  · exact .inr (h x y hx)

theorem Versions.root (hx : '.' ∉ x.toList) : tmpRoot (r.apply x) = x := by
  rcases h.apply x with he | ⟨k, he⟩ <;> rw [he]
  · exact tmpRoot_of_notMem hx
  · exact tmpRoot_version k hx

theorem Versions.isGlobalName (x : String) : isGlobalName (r.apply x) = isGlobalName x := by
  rcases h.apply x with he | ⟨k, he⟩ <;> rw [he]
  exact isGlobalName_version k x

theorem Versions.apply_global (hx : Tac.isGlobalName x) : r.apply x = x := by
  rcases h.apply x with he | ⟨k, he⟩
  · exact he
  · rw [he, (version_keepsKind k x).same hx]

theorem Versions.note {d : Option String} (hd : ∀ x ∈ d, '.' ∉ x.toList) (k : Nat) : Versions (note r (d.map (version k))) := by
  cases d with
  | none => exact h
  | some d =>
    intro x y hy
    rw [Option.map_some, Flow.note, tmpRoot_version k (hd d rfl)] at hy
    rcases eq_or_ne x d with rfl | hne
    · rw [lookup_put_self] at hy
      exact ⟨k, (Option.some.inj hy).symm⟩
    · rw [lookup_put_ne hne] at hy
      exact h x y hy

omit h

theorem apply_note_self (hd : '.' ∉ d.toList) (k : Nat) : (note r (some (version k d))).apply d = version k d := by
  rw [note, tmpRoot_version k hd, Renaming.apply, lookup_put_self]
  rfl

theorem apply_note_ne {d : Option String} (hd : ∀ x ∈ d, '.' ∉ x.toList) (hx : d ≠ some x) (k : Nat) :
    (note r (d.map (version k))).apply x = r.apply x := by
  cases d with
  | none => rfl
  | some d =>
    rw [Option.map_some, note, tmpRoot_version k (hd d rfl), Renaming.apply, Renaming.apply,
      lookup_put_ne fun hxd => hx (by rw [hxd])]

end Versions

def Tracks (r : Renaming) (live : List String) (t t' : Fields) : Prop :=
  ∀ x ∈ live, ∃ v, t.lookup x = some v ∧ t'.lookup (r.apply x) = some v ∧ Store.check v = .ok ()

theorem Tracks.get {live : List String} {t t' : Fields} (h : Tracks r live t t') (hr : Versions r) (globals : Fields)
    (hx : isGlobalName x = false → x ∈ live) : Store.get ⟨t, globals⟩ x = Store.get ⟨t', globals⟩ (r.apply x) := by
  rw [Store.get, Store.get, hr.isGlobalName]
  cases hg : isGlobalName x with
  | true => rw [hr.apply_global hg]; rfl
  | false =>
    obtain ⟨v, hv, hv', -⟩ := h x (hx hg)
    simp [Store.find, hv, hv']

theorem result_exec_phi {sources : List (String × String)} {v : Datum} (hp : f.previous = some p)
    (hs : sources.lookup p = some x) (hx : isGlobalName x = false) (hv : f.before.lookup x = some v)
    (hc : Store.check v = .ok ()) (hd : isVarName d) (hg : isGlobalName d = false) (w : World) :
    result (exec o f (.phi d sources)) w = (.ok (.go { f with temps := Datum.put d v f.temps }), w) := by
  simp [exec, hp, hs, Store.read, Store.get, hx, Store.find, hv, result_assign, hd, hg, hc]

theorem Tracks.put {live live' : List String} {t t' u : Fields} (h : Tracks r live t t') (hr : Versions r) (hd : '.' ∉ d.toList)
    (k : Nat) {v : Datum} (hv : Store.check v = .ok ()) (hu : ∀ x ∈ live', x ≠ d → u.lookup x = t.lookup x)
    (hud : d ∈ live' → u.lookup d = some v) (hlive : ∀ x ∈ live', x ≠ d → x ∈ live ∧ '.' ∉ x.toList) :
    Tracks (note r (some (version k d))) live' u (Datum.put (version k d) v t') := by
  intro x hx
  rcases eq_or_ne x d with rfl | hne
  · exact ⟨v, hud hx, by rw [apply_note_self hd, lookup_put_self], hv⟩
  · obtain ⟨hl, hdot⟩ := hlive x hx hne
    obtain ⟨w, hw, hw', hc⟩ := h x hl
    have happly : (note r (some (version k d))).apply x = r.apply x :=
      apply_note_ne (d := some d) (by simpa using hd) (by simpa using hne.symm) k
    -- Versions of different temporaries have different roots.
    have hver : r.apply x ≠ version k d := by
      intro he
      have hroot := hr.root hdot
      rw [he, tmpRoot_version k hd] at hroot
      exact hne hroot.symm
    exact ⟨w, (hu x hx hne).trans hw, by rw [happly, lookup_put_ne hver, hw'], hc⟩

/-- No phis or empty blocks, operands as they are written, and no result for a call that prints. -/
structure Graph.Versionable (g : Graph) : Prop where
  formed : g.Formed
  ids : (g.lines.map Line.id).Nodup
  phiFree : ∀ l ∈ g.lines, l.instr.isPhi = false
  nonempty : ∀ e ∈ g.blocks, e.2.lines ≠ []
  reads : ∀ l ∈ g.lines, ∀ x ∈ l.instr.reads, Written x
  dests : ∀ l ∈ g.lines, ∀ d ∈ l.instr.dest, Written d
  calls : ∀ l ∈ g.lines, ∀ d name k, l.instr = .call d name k → isGlobalName name = true
  prints : ∀ l ∈ g.lines, ∀ d name k, l.instr = .call d name k → isPrint name = true → d = none

structure Versioning (v : Liveness) (ends : List (String × Renaming)) (g h : Graph) (bs bs' : List Block) : Prop where
  versionable : g.Versionable
  isLive : g.Live fun id x => x ∈ v.livein id
  live : ∀ id, ∀ x ∈ v.livein id, x.startsWith "%" = true ∧ '.' ∉ x.toList
  start : endOf ends g.name = []
  entry : g.predsOf g.entry = []
  facing : Facing (SsaBlock g v ends) g h bs bs'

def phiOf (ways : List String) (x : String) : Instr := .phi x (ways.map fun l => (l, x))

theorem code_phisOf (g : Graph) (v : Liveness) (fresh : Nat) (b : Block) :
    code (phisOf g v fresh b) = (liveHead v b).map (phiOf (ways g b)) := by
  rw [phisOf_eq, code, map_map]
  conv_rhs => rw [← zipIdx_map_fst 0 (liveHead v b), map_map]
  rfl

/-- With as many phis still to come as the number says. -/
inductive Tracked (v : Liveness) (ends : List (String × Renaming)) (g : Graph) (bs bs' : List Block) : Nat → Frame → Frame → Prop
  | inside {f f' b b' r l ls ls' m m' : _} (hb : b ∈ bs) (hb' : b' ∈ bs') (hd : Graph.destinations b' = Graph.destinations b)
      (hs : l :: ls <:+ b.lines) (hconv : Converted ends r (l :: ls) ls' (endOf ends b.label.text)) (hr : Versions r)
      (hcur : f'.current = b.label.text) (ht : Tracks r (v.livein l.id) f.temps f'.temps)
      (hc : f.code = code (l :: ls) ++ m) (hc' : f'.code = code ls' ++ m') : Tracked v ends g bs bs' 0 f f'
  | phis {f f' b b' r p xs ps ls' m m' : _} (hb : b ∈ bs) (hb' : b' ∈ bs') (hd : Graph.destinations b' = Graph.destinations b)
      (hps : code ps = xs.map (phiOf (ways g b))) (hxs : xs ⊆ liveHead v b)
      (hconv : Converted ends r (ps ++ b.lines) ls' (endOf ends b.label.text)) (hr : Versions r)
      (hcur : f'.current = b.label.text) (hprev : f'.previous = some p) (hp : p ∈ ways g b)
      (hend : Versions (endOf ends p))
      (hbefore : Tracks (endOf ends p) (liveHead v b) f.temps f'.before)
      (hdone : Tracks r ((liveHead v b).filter (· ∉ xs)) f.temps f'.temps)
      (hc : f.code = code b.lines ++ m) (hc' : f'.code = code ls' ++ m') : Tracked v ends g bs bs' xs.length f f'

theorem finish_of_isPlain (ends : List (String × Renaming)) (m n : String → String) (hi : i.isPlain) :
    finish ends ((i.renameReads m).renameDest n) = (i.renameReads m).renameDest n := by
  cases i with
  | phi => cases hi
  | _ => rfl

theorem finish_of_ender (ends : List (String × Renaming)) (m n : String → String)
    (hi : i.target?.isSome ∨ ∃ x, i = .ret x) : finish ends ((i.renameReads m).renameDest n) = i.renameReads m := by
  rcases hi with hi | ⟨x, rfl⟩
  · cases i with
    | jmp | jcc => rfl
    | _ => cases hi
  · rfl

theorem Converted.eq_of_enders {ends : List (String × Renaming)} {r' : Renaming} {ls ls' : List Line}
    (h : Converted ends r ls ls' r') (hls : ∀ l ∈ ls, l.instr.dest = none) : r = r' := by
  induction h with
  | nil => rfl
  | @cons r r' l l' ls ls' k _ _ ih =>
    rw [← ih fun m hm => hls m (mem_cons_of_mem l hm), hls l mem_cons_self]
    rfl

namespace Versioning

variable {v : Liveness} {ends : List (String × Renaming)} {g h : Graph} {bs bs' : List Block}
  (S : Versioning v ends g h bs bs')
include S

theorem line_mem (hb : b ∈ bs) {l : Line} (hl : l ∈ b.lines) : l ∈ g.lines :=
  mem_flatMap.2 ⟨_, S.facing.layout.mem b hb, hl⟩

theorem formed (hb : b ∈ bs) : b.Formed := S.facing.layout.formed S.facing.formed hb

theorem lines_ne_nil (hb : b ∈ bs) (h : SsaBlock g v ends b b') : b.lines ≠ [] ∧ b'.lines ≠ [] := by
  have hne := S.versionable.nonempty _ (S.facing.layout.mem b hb)
  obtain ⟨fresh, hconv⟩ := h.converted
  refine ⟨hne, fun hnil => ?_⟩
  have hlen := hconv.sameKind.length_eq
  rw [hnil, length_append] at hlen
  exact hne (length_eq_zero_iff.1 (by simpa using (Nat.add_eq_zero_iff.1 hlen).2))

theorem liveHead_written (hx : x ∈ liveHead v b) : x.startsWith "%" ∧ '.' ∉ x.toList := by
  obtain ⟨l, -, hx⟩ := exists_of_mem_liveHead hx
  exact S.live l.id x hx

theorem settle (ht : Tracked v ends g bs bs' 0 f f') :
    ∃ b b' r l ls ls' m m', b ∈ bs ∧ b' ∈ bs' ∧ Graph.destinations b' = Graph.destinations b ∧ l :: ls <:+ b.lines ∧
      Converted ends r (l :: ls) ls' (endOf ends b.label.text) ∧ Versions r ∧ f'.current = b.label.text ∧
      Tracks r (v.livein l.id) f.temps f'.temps ∧ f.code = code (l :: ls) ++ m ∧ f'.code = code ls' ++ m' := by
  generalize hn : 0 = n at ht
  cases ht with
  | @inside _ _ b b' r l ls ls' m m' hb hb' hd hs hconv hr hcur ht hc hc' =>
    exact ⟨b, b', r, l, ls, ls', m, m', hb, hb', hd, hs, hconv, hr, hcur, ht, hc, hc'⟩
  | @phis _ _ b b' r p xs ps ls' m m' hb hb' hd hps hxs hconv hr hcur hprev hp hend hbefore hdone hc hc' =>
    obtain rfl : xs = [] := length_eq_zero_iff.1 hn.symm
    obtain rfl : ps = [] := by simpa [code] using hps
    obtain ⟨l, ls, hls⟩ := exists_cons_of_ne_nil (S.versionable.nonempty _ (S.facing.layout.mem b hb))
    have hlive : liveHead v b = v.livein l.id := by rw [liveHead, hls]; rfl
    rw [nil_append, hls] at hconv
    rw [hls] at hc
    refine ⟨b, b', r, l, ls, ls', m, m', hb, hb', hd, hls ▸ suffix_refl _, hconv, hr, hcur, fun x hx => ?_, hc, hc'⟩
    exact hdone x (mem_filter.2 ⟨hlive ▸ hx, by simp⟩)

theorem advance_phi (ho : o.showInstrs = false) {n : Nat} (ht : Tracked v ends g bs bs' (n + 1) f f') :
    ∃ t', (∀ w, result (advance o f') w = (.ok (.go { f' with pc := f'.pc + 1, temps := t' }), w)) ∧
      Tracked v ends g bs bs' n f { f' with pc := f'.pc + 1, temps := t' } := by
  generalize hn : n + 1 = k at ht
  cases ht with
  | inside => cases hn
  | @phis _ _ b b' r p xs ps ls' m m' hb hb' hd hps hxs hconv hr hcur hprev hp hend hbefore hdone hc hc' =>
    obtain ⟨x, xs, rfl⟩ : ∃ x ys, xs = x :: ys := exists_cons_of_length_eq_add_one hn.symm
    obtain rfl : n = xs.length := by simpa using hn
    rcases ps with _ | ⟨q, ps⟩
    · cases hps
    have hq : q.instr = phiOf (ways g b) x := (List.cons.inj hps).1
    have hlive := hxs mem_cons_self
    obtain ⟨hpc, hdot⟩ := S.liveHead_written hlive
    obtain ⟨u, hu, hu', hcheck⟩ := hbefore x hlive
    cases hconv with
    | @cons _ _ _ l' _ ls' k hl' hconv =>
      rw [hq] at hl' hconv
      have hsource : (((ways g b).map fun l => (l, x)).map fun s => (s.1, (endOf ends s.1).apply s.2)).lookup p =
          some ((endOf ends p).apply x) := by
        rw [map_map]
        exact lookup_map_key (f := fun l => l) (fun l => (endOf ends l).apply x) (by simpa using hp)
      have hc₁ : f'.code = l'.instr :: (code ls' ++ m') := hc'
      refine ⟨Datum.put (version k x) u f'.temps, fun w => ?_, ?_⟩
      · have hvar : isVarName (version k x) := by
          rw [(version_keepsKind k x).var, isVarName, hpc, Bool.true_or]
        have hg : isGlobalName (version k x) = false := by
          rw [isGlobalName_version, isGlobalName_of_percent hpc]
        rw [advance_of_cons ho hc₁, hl']
        exact result_exec_phi (f := { f' with pc := f'.pc + 1 }) hprev hsource (by rw [hend.isGlobalName, isGlobalName_of_percent hpc]) hu' hcheck hvar hg w
      · refine .phis hb hb' hd (List.cons.inj hps).2 (fun y hy => hxs (mem_cons_of_mem x hy)) hconv
          (hr.note (d := some x) (by simpa using hdot) k) hcur hprev hp hend hbefore ?_ hc (Frame.code_succ hc₁)
        refine hdone.put hr hdot k hcheck (fun _ _ _ => rfl) (fun _ => hu) fun y hy hne => ?_
        obtain ⟨hy, hnot⟩ := mem_filter.1 hy
        refine ⟨mem_filter.2 ⟨hy, ?_⟩, (S.liveHead_written hy).2⟩
        simpa [hne] using hnot

omit S in
theorem tracked_block (hb : b ∈ bs) (hb' : b' ∈ bs') (hd : Graph.destinations b' = Graph.destinations b)
    (hssa : SsaBlock g v ends b b') (hp : p ∈ ways g b) (hend : Versions (endOf ends p))
    (hbefore : Tracks (endOf ends p) (liveHead v b) f.temps f'.before) (hprev : f'.previous = some p)
    (hcur : f'.current = b.label.text) {m m' : List Instr} (hc : f.code = code b.lines ++ m)
    (hc' : f'.code = code b'.lines ++ m') : Tracked v ends g bs bs' (liveHead v b).length f f' := by
  obtain ⟨fresh, hconv⟩ := hssa.converted
  refine .phis hb hb' hd (code_phisOf g v fresh b) (fun _ h => h) hconv .nil hcur hprev hp hend hbefore ?_ hc hc'
  intro x hx
  simp at hx

theorem mem_ways_of_jump {c : Block} (hb : b ∈ bs) (hc : c.label ∈ Graph.destinations b) : b.label.text ∈ ways g c := by
  have hsucc := (S.facing.formed.succ _ (S.facing.layout.mem b hb) c.label).2 hc
  have hpred := (S.facing.formed.pred b.label c.label).2 hsucc
  unfold ways
  split
  · next hnil => simp [hnil] at hpred
  · exact mem_map_of_mem hpred

section Next

variable {b : Block} (hb : b ∈ bs) {l j : Line} {ls : List Line} (hs : l :: j :: ls <:+ b.lines) {r : Renaming} {t t' : Fields}
  (ht : Tracks r (v.livein l.id) t t')
include hb hs

theorem live_back (hx : x ∈ v.livein j.id) (hd : l.instr.dest ≠ some x) : x ∈ v.livein l.id := by
  refine S.isLive.inside _ (S.facing.layout.mem b hb) l j ls hs x hx fun hdef => hd ?_
  simpa using (mem_filter.1 hdef).1

theorem dest_undotted : ∀ d ∈ l.instr.dest, '.' ∉ d.toList := fun d hd =>
  (S.versionable.dests l (S.line_mem hb (hs.subset mem_cons_self)) d hd).undotted

include ht

theorem tracks_stay (hd : ∀ d, l.instr.dest = some d → isGlobalName d) (k : Nat) :
    Tracks (note r (l.instr.dest.map (version k))) (v.livein j.id) t t' := by
  intro x hx
  have hne : l.instr.dest ≠ some x := by
    intro hdx
    have hg := hd x hdx
    rw [isGlobalName_of_percent (S.live j.id x hx).1] at hg
    cases hg
  rw [apply_note_ne (S.dest_undotted hb hs) hne]
  exact ht x (S.live_back hb hs hx hne)

theorem tracks_store (hr : Versions r) (hd : l.instr.dest = some d) (k : Nat) {u : Datum} (hu : Store.check u = .ok ()) :
    Tracks (note r (l.instr.dest.map (version k))) (v.livein j.id) (Datum.put d u t) (Datum.put (version k d) u t') := by
  rw [hd, Option.map_some]
  refine ht.put hr (S.dest_undotted hb hs d hd) k hu (fun x _ hne => lookup_put_ne hne _ _) (fun _ => lookup_put_self _ _ _)
    fun x hx hne => ⟨S.live_back hb hs hx ?_, (S.live j.id x hx).2⟩
  rw [hd]
  exact fun h => hne (Option.some.inj h).symm

end Next

section Step

variable {b b' : Block} (hb : b ∈ bs) (hb' : b' ∈ bs') (hd : Graph.destinations b' = Graph.destinations b) {l : Line}
  {ls ls' : List Line} (hs : l :: ls <:+ b.lines) {r : Renaming} {k : Nat}
  (hconv : Converted ends (note r (l.instr.dest.map (version k))) ls ls' (endOf ends b.label.text)) (hr : Versions r)
include hb hb' hd hs hconv hr

theorem tracked_next (hl : isFinal l.instr = false) {m m' : List Instr}
    (ht : ∀ j ms, l :: j :: ms <:+ b.lines → Tracks (note r (l.instr.dest.map (version k))) (v.livein j.id) f.temps f'.temps)
    (hcur : f'.current = b.label.text) (hc : f.code = code ls ++ m) (hc' : f'.code = code ls' ++ m') :
    Tracked v ends g bs bs' 0 f f' := by
  have hne : code ls ≠ [] := (S.formed hb).tail_ne_nil (hs.map Line.instr) hl
  obtain ⟨j, ms, rfl⟩ := exists_cons_of_ne_nil (l := ls) (by rintro rfl; exact hne rfl)
  exact .inside hb hb' hd ((suffix_cons l _).trans hs) hconv (hr.note (S.dest_undotted hb hs) k) hcur (ht j ms hs) hc hc'

variable {o : Options} (ho : o.showInstrs = false) {f f' : Frame} (hf : f.Runs (bs.flatMap Block.instrs))
  (hf' : f'.Runs (bs'.flatMap Block.instrs)) (ht : Twins f f') (hcur : f'.current = b.label.text)
  (htr : Tracks r (v.livein l.id) f.temps f'.temps) {m m' : List Instr} (hc : f.code = l.instr :: (code ls ++ m))
include ho hf hf' ht hcur htr hc

omit hb' hd hconv ho hf hf' ht hcur hc in
theorem read_eq (hx : x ∈ l.instr.reads) (w : World) :
    Store.get ⟨f.temps, w.globals⟩ x = Store.get ⟨f'.temps, w.globals⟩ (r.apply x) := by
  have hmem := S.line_mem hb (hs.subset mem_cons_self)
  have hw := S.versionable.reads l hmem x hx
  refine htr.get hr w.globals fun hg => S.isLive.uses l hmem x (isTempName_of_undotted ?_ hw.undotted) hx
  exact hw.kind.resolve_right (by simp [hg])

theorem advance_plain (hp : l.instr.isPlain)
    (hc' : f'.code = finish ends ((l.instr.renameReads r.apply).renameDest (version k)) :: (code ls' ++ m')) (w : World) :
    Agrees (Effect.Matches (Joined (bs.flatMap Block.instrs) (bs'.flatMap Block.instrs) fun f f' => ∃ n, Tracked v ends g bs bs' n f f')
      (Waits (bs.flatMap Block.instrs) (bs'.flatMap Block.instrs) fun f f' => ∃ n, Tracked v ends g bs bs' n f f'))
      (result (advance o f) w) (result (advance o f') w) := by
  have hmem := S.line_mem hb (hs.subset mem_cons_self)
  rw [finish_of_isPlain ends _ _ hp] at hc'
  refine Checked.advance_plain ho hf hf' ht hp (version_keepsKind k) hc hc' (fun x hx => S.read_eq hb hs hr htr hx w) ?_
  rintro _ _ (hstay | ⟨hdest, -, hu⟩)
  · exact ⟨0, S.tracked_next hb hb' hd hs hconv hr (isFinal_of_isPlain hp)
      (fun j ms hj => S.tracks_stay hb hj htr (hstay.global (S.versionable.prints l hmem)) k) hcur (Frame.code_succ hc)
      (Frame.code_succ hc')⟩
  · exact ⟨0, S.tracked_next hb hb' hd hs hconv hr (isFinal_of_isPlain hp)
      (fun j ms hj => S.tracks_store hb hj htr hr hdest k hu) hcur (Frame.code_succ hc) (Frame.code_succ hc')⟩

omit ho hf hf' ht hc in
theorem jump {y : String} (hy : l.instr.target? = some y) :
    (after (bs.flatMap Block.instrs) y = none ∧ after (bs'.flatMap Block.instrs) y = none) ∨
      ∃ d d', after (bs.flatMap Block.instrs) y = some d ∧ after (bs'.flatMap Block.instrs) y = some d' ∧
        ∀ j j', (goTo f y j).code = d → (goTo f' y j').code = d' → ∃ n, Tracked v ends g bs bs' n (goTo f y j) (goTo f' y j') := by
  have hform := S.formed hb
  have hl : l ∈ b.jumps := hform.mem_jumps (hs.subset mem_cons_self) (by simp [hy])
  have hsuf := hform.suffix_jumps hs (hform.jumps l hl)
  rcases S.facing.jump hb hb' hd hl hy with hnone | ⟨c, hc, c', hc', hcy, -, hdest, hdc, hssa, hm, hm'⟩
  · exact .inl hnone
  obtain ⟨hne, hne'⟩ := S.lines_ne_nil hc hssa
  obtain ⟨m, hm⟩ := hm hne
  obtain ⟨m', hm'⟩ := hm' hne'
  -- From here to the end of the block nothing is defined any more.
  have hrend : r = endOf ends b.label.text := by
    have hnone : l.instr.dest = none := dest_of_isEnder (hform.jumps l hl)
    rw [hnone] at hconv
    exact hconv.eq_of_enders fun j hj => dest_of_isEnder (hform.jumps j (hsuf.subset (mem_cons_of_mem l hj)))
  refine .inr ⟨_, _, hm, hm', fun _ _ hcode hcode' => ⟨(liveHead v c).length, ?_⟩⟩
  refine tracked_block hc hc' hdc hssa (S.mem_ways_of_jump hb (hcy ▸ hdest)) (hrend ▸ hr) ?_ (by rw [← hcur]; rfl)
    (by rw [hcy]; rfl) hcode hcode'
  rw [← hrend]
  intro x hx
  rw [liveHead] at hx
  cases hj : c.lines.head? with
  | none => simp [hj] at hx
  | some j =>
    rw [hj] at hx
    exact htr x (S.isLive.jump (S.facing.layout.mem b hb) (S.facing.layout.mem c hc) hform (hcy ▸ hdest) hsuf hj hx)

theorem advance_ender (hp : l.instr.isPlain = false)
    (hc' : f'.code = finish ends ((l.instr.renameReads r.apply).renameDest (version k)) :: (code ls' ++ m')) (w : World)
    {wait : Frame → Frame → Prop} :
    Agrees (Effect.Matches (Joined (bs.flatMap Block.instrs) (bs'.flatMap Block.instrs) fun f f' => ∃ n, Tracked v ends g bs bs' n f f')
      wait) (result (advance o f) w) (result (advance o f') w) := by
  have hender := ender_of_isPlain hp ((S.formed hb).isLabel_eq (hs.subset mem_cons_self))
    (S.versionable.phiFree l (S.line_mem hb (hs.subset mem_cons_self)))
  rw [finish_of_ender ends _ _ hender] at hc'
  refine Checked.advance_ender ho hf hf' ht hender hc hc' (fun x hx => S.read_eq hb hs hr htr hx w)
    (fun y hy => S.jump hb hb' hd hs hconv hr hcur htr hy) ?_
  rintro ⟨t, x, y, hi⟩
  exact ⟨0, S.tracked_next hb hb' hd hs hconv hr (by rw [hi]; rfl)
    (fun j ms hj => S.tracks_stay hb hj htr (by simp [hi, Instr.dest]) k) hcur (Frame.code_succ hc) (Frame.code_succ hc')⟩

end Step

theorem inStep (ho : o.showInstrs = false) :
    InStep o (bs.flatMap Block.instrs) (bs'.flatMap Block.instrs) (Tracked v ends g bs bs') := by
  rintro n f f' ⟨hf, hf', ht, htracked⟩
  cases n with
  | zero =>
    obtain ⟨b, b', r, l, ls, ls', m, m', hb, hb', hd, hs, hconv, hr, hcur, htr, hc, hc'⟩ := S.settle htracked
    refine .inr (.inr fun w => ?_)
    cases hconv with
    | @cons _ _ _ l' _ ls' k hl' hconv =>
      have hc₁ : f.code = l.instr :: (code ls ++ m) := hc
      have hc₁' : f'.code = finish ends ((l.instr.renameReads r.apply).renameDest (version k)) :: (code ls' ++ m') :=
        hl' ▸ hc'
      cases hp : l.instr.isPlain with
      | true => exact S.advance_plain hb hb' hd hs hconv hr ho hf hf' ht hcur htr hc₁ hp hc₁' w
      | false => exact S.advance_ender hb hb' hd hs hconv hr ho hf hf' ht hcur htr hc₁ hp hc₁' w
  | succ n =>
    obtain ⟨t', hq, htracked⟩ := S.advance_phi ho htracked
    exact .inr (.inl ⟨_, n, Nat.lt_succ_self n, hq, hf, ⟨hf'.body, hf'.labels⟩, ⟨ht.title, ht.depth, ht.params⟩, htracked⟩)

end Versioning

section Program

variable {v : Liveness} {ends : List (String × Renaming)} {g h : Graph} {bs bs' : List Block} {o : Options}

theorem Versioning.starting (S : Versioning v ends g h bs bs') {params : List Datum}
    (hf : Started g.name params (bs.flatMap Block.instrs) f) (hf' : Started g.name params (bs'.flatMap Block.instrs) f')
    (hs : f.temps = f'.temps) (hlive : ∀ b ∈ bs, b.label = g.entry → ∀ x ∈ liveHead v b, .str x ∈ params) :
    ∃ n, FromLabel (Tracked v ends g bs bs') n f f' := by
  obtain ⟨b, b', cs, cs', rfl, rfl, hentry, hlabel, hd, hssa⟩ := S.facing.entry
  have hc : f.code = .label b.label.text :: (code b.lines ++ cs.flatMap Block.instrs) := hf.code
  have hc' : f'.code = .label b.label.text :: (code b'.lines ++ cs'.flatMap Block.instrs) := by
    rw [hf'.code, flatMap_cons, Block.instrs, hlabel]
    rfl
  have hway : g.name ∈ ways g b := by
    have hpreds := S.entry
    rw [← hentry] at hpreds
    rw [ways, hpreds]
    exact mem_singleton.2 rfl
  refine ⟨0, .inr ⟨b.label.text, _, _, (liveHead v b).length, hc, hc', ?_⟩⟩
  refine Versioning.tracked_block mem_cons_self mem_cons_self hd hssa hway (S.start ▸ .nil) ?_ (by rw [hf'.current]) rfl
    (Frame.code_succ hc) (Frame.code_succ hc')
  intro x hx
  obtain ⟨u, hu, hcheck⟩ := hf.bound x (hlive b mem_cons_self hentry x hx)
    (isGlobalName_of_percent (S.liveHead_written hx).1)
  refine ⟨u, hu, ?_, hcheck⟩
  rw [S.start, hf'.before, ← hs]
  exact hu

def VersionedProc (name : String) (p p' : Proc Instr) : Prop :=
  ∃ v ends g h bs bs', Versioning v ends g h bs bs' ∧ g.name = name ∧ p.params = p'.params ∧
    p.body = bs.flatMap Block.instrs ∧ p'.body = bs'.flatMap Block.instrs ∧
    ∀ b ∈ bs, b.label = g.entry → ∀ x ∈ liveHead v b, .str x ∈ p.params

theorem VersionedProc.stepwise (ho : o.showInstrs = false) {name : String} {p p' : Proc Instr} (h : VersionedProc name p p') :
    Stepwise o name p p' := by
  obtain ⟨v, ends, g, h, bs, bs', S, rfl, hparams, hb, hb', hlive⟩ := h
  refine ⟨hparams, hb ▸ S.facing.layout.labels_nodup S.facing.formed,
    hb' ▸ S.facing.layout'.labels_nodup S.facing.formed', FromLabel (Tracked v ends g bs bs'), ?_, fun f f' hf hf' _ hs => ?_⟩
  · rw [hb, hb']
    exact (S.inStep ho).fromLabel ho
  · rw [hb] at hf
    rw [hb'] at hf'
    exact S.starting hf hf' hs hlive

end Program

end Bx.Flow
