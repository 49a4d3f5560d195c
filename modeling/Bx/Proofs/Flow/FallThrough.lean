import Bx.Proofs.Flow.Lines
import Mathlib

namespace Bx.Flow

open List Tac Run Run.Checked

def Indifferent (b : List Instr) : Prop :=
  (∀ i ∈ b, i.isPhi = false) ∨ ∀ i x c, i :: .label x :: c <:+ b → i.isLabel = false → isFinal i = false →
    c.head?.any Instr.isLabel = false ∧ ∀ j ∈ c.takeWhile fun j => !isFinal j, j.isPhi = false

def SameView (b c : List Instr) (f f' : Frame) : Prop :=
  (∀ i ∈ b, i.isPhi = false) ∨ f.previous = f'.previous ∧ f.current = f'.current ∧
    (f.before = f'.before ∨ ∀ j ∈ c.takeWhile fun j => !isFinal j, j.isPhi = false)

/-- The same place, or the new one is at the jump, or behind it while labels are still to be passed in the old one. -/
inductive Explicit (b : List Instr) (n : Nat) : List Instr → List Instr → Prop
  | along {c c'} (h : ExplicitJumps c c') : Explicit b n c c'
  | jumps {i x c c'} (hc : i :: .label x :: c <:+ b) (hi : i.isLabel = false) (hf : isFinal i = false) :
      Explicit b n (.label x :: c) (.jmp x :: c')
  | ahead {c c'} (hb : ∀ i ∈ b, i.isPhi = false) (hn : c.length ≤ n) (h : ExplicitJumps (c.dropWhile Instr.isLabel) c') :
      Explicit b n c c'

inductive Parted (b : List Instr) (n : Nat) (f f' : Frame) : Prop
  | intro {c c'} (hc : f.code = c) (hc' : f'.code = c') (temps : f.temps = f'.temps) (suffix : c <:+ b) (view : SameView b c f f')
      (place : Explicit b n c c')

variable {o : Options} {b b' c c' : List Instr} {n : Nat} {f f' : Frame}

theorem SameView.phi {i : Instr} (h : SameView b (i :: c) f f') (hib : i ∈ b) (hi : i.isPhi) :
    f.previous = f'.previous ∧ f.before = f'.before := by
  rcases h with h | ⟨hp, -, h | h⟩
  · simp [h i hib] at hi
  · exact ⟨hp, h⟩
  · have hf : isFinal i = false := by cases i <;> first | rfl | cases hi
    simp [hf, hi] at h

theorem SameView.tail {i : Instr} (h : SameView b (i :: c) f f') (hi : isFinal i = false) : SameView b c f f' := by
  refine h.imp_right (And.imp_right (And.imp_right (Or.imp_right fun h => ?_)))
  rw [takeWhile_cons_of_pos (by simp [hi])] at h
  exact fun j hj => h j (mem_cons_of_mem _ hj)

theorem dropWhile_isLabel (h : c.head?.any Instr.isLabel = false) : c.dropWhile Instr.isLabel = c := by
  cases c with
  | nil => rfl
  | cons i c => exact dropWhile_cons_of_neg (by simpa using h)

theorem ExplicitJumps.after_none {x : String} (h : ExplicitJumps b b') (hx : Run.Checked.after b x = none) :
    Run.Checked.after b' x = none := by
  rw [← Option.not_isSome_iff_eq_none, after_isSome] at hx ⊢
  rwa [h.labels]

theorem advance_parted (ho : o.showInstrs = false) (h : ExplicitJumps b b') (hf : f.Runs b) (hf' : f'.Runs b') (ht : Twins f f')
    (hs : f.temps = f'.temps) {i : Instr} (hi : i.isLabel = false) (hc : f.code = i :: c) (hc' : f'.code = i :: c')
    (hsuf : i :: c <:+ b) (hv : SameView b (i :: c) f f') (hplace : isFinal i = false → Explicit b 0 c c') (w : World) :
    Agrees (Effect.Matches (Joined b b' fun f f' => ∃ n, Parted b n f f') (Waits b b' fun f f' => ∃ n, Parted b n f f'))
      (result (advance o f) w) (result (advance o f') w) := by
  have next : isFinal i = false → ∀ t t' ps ps', t = t' → ∃ n, Parted b n { f with pc := f.pc + 1, params := ps, temps := t }
      { f' with pc := f'.pc + 1, params := ps', temps := t' } := fun hfin t t' ps ps' ht =>
    ⟨0, Frame.code_succ hc, Frame.code_succ hc', ht, (suffix_cons i c).trans hsuf, hv.tail hfin, hplace hfin⟩
  by_cases hp : i.isPlain ∨ i.isPhi
  · have hfin : isFinal i = false := by
      cases i <;> first | rfl | simp [Instr.isPlain, Instr.isPhi] at hp
    exact advance_same ho hf hf' ht hs (hp.imp_right fun hi => ⟨hi, hv.phi (hsuf.subset mem_cons_self) hi⟩) hc hc' (next hfin)
  · obtain ⟨hp, hphi⟩ := not_or.1 hp
    have hend := ender_of_isPlain (by simpa using hp) hi (by simpa using hphi)
    refine advance_ender (m := fun x => x) ho hf hf' ht hend hc (by rw [renameReads_id, hc']) (fun x _ => by simp only [hs]) ?_ ?_
    · intro l _
      cases hd : Run.Checked.after b l with
      | none => exact .inl ⟨rfl, h.after_none hd⟩
      | some d =>
        obtain ⟨d', hd', hdd⟩ := h.after hd
        exact .inr ⟨d, d', rfl, hd', fun k k' hk hk' => ⟨0, hk, hk', hs, after_suffix hd,
          hv.imp_right fun hv => ⟨congrArg some hv.2.1, rfl, .inl hs⟩, .along hdd⟩⟩
    · rintro ⟨t, x, l, rfl⟩
      exact next rfl _ _ _ _ hs

theorem ExplicitJumps.inStep (ho : o.showInstrs = false) (h : ExplicitJumps b b') (hb : (labelNames b).Nodup)
    (hind : Indifferent b) : InStep o b b' (Parted b) := by
  rintro n f f' ⟨hf, hf', ht, @⟨c, c', hc, hc', hs, hsuf, hv, hplace⟩⟩
  have along : ExplicitJumps c c' → ∀ w,
      Agrees (Effect.Matches (Joined b b' fun f f' => ∃ n, Parted b n f f') (Waits b b' fun f f' => ∃ n, Parted b n f f'))
        (result (advance o f) w) (result (advance o f') w) := by
    intro hcc w
    cases hcc with
    | nil =>
      rw [advance_of_nil hc, advance_of_nil hc', ht.title, ht.depth]
      exact .ok .ret
    | @keep i c c' hi hcc =>
      cases hl : i.isLabel with
      | false => exact advance_parted ho h hf hf' ht hs hl hc hc' hsuf hv (fun _ => .along hcc) w
      | true =>
        obtain ⟨x, rfl⟩ := eq_label_of_isLabel hl
        refine advance_label ho hf hf' ht hc hc' ⟨0, Frame.code_succ hc, Frame.code_succ hc', hs,
          (suffix_cons _ c).trans hsuf, ?_, .along hcc⟩
        exact (hv.tail rfl).imp_right fun hv => ⟨congrArg some hv.2.1, rfl, hv.2.2⟩
    | jump hi hfin hcc => exact advance_parted ho h hf hf' ht hs hi hc hc' hsuf hv (fun _ => .jumps hsuf hi hfin) w
  cases hplace with
  | along hcc => exact .inr (.inr (along hcc))
  | @jumps i x c c' hic hi hfin =>
    -- The old frame passes the label while the new one jumps to it.
    obtain ⟨d', hd', hdd⟩ := h.after (after_of_suffix hb hsuf)
    obtain ⟨k, hk, hkd⟩ := hf'.succ.goTo hd'
    have hsettled : (∀ i ∈ b, i.isPhi = false) ∨
        c.dropWhile Instr.isLabel = c ∧ ∀ j ∈ c.takeWhile fun j => !isFinal j, j.isPhi = false :=
      hind.imp_right fun hind => (hind i x c hic hi hfin).imp_left dropWhile_isLabel
    refine .inr (.inr fun w => ?_)
    rw [advance_of_cons ho hc, advance_of_cons ho hc', result_exec_label, result_exec_jmp hk]
    refine .ok (.go ⟨⟨hf.body, hf.labels⟩, ⟨hf'.body, hf'.labels⟩, ⟨ht.title, ht.depth, ht.params⟩, c.length,
      Frame.code_succ hc, hkd, hs, (suffix_cons _ c).trans hsuf, ?_, ?_⟩)
    · exact hsettled.elim .inl fun hset => hv.imp_right fun hv => ⟨congrArg some hv.2.1, rfl, .inr hset.2⟩
    · exact hsettled.elim (fun hphi => .ahead hphi le_rfl hdd) fun hset => .along (hset.1 ▸ hdd)
  | ahead hphi hn hcc =>
    cases hl : c.head?.any Instr.isLabel with
    | false => exact .inr (.inr (along (dropWhile_isLabel hl ▸ hcc)))
    | true =>
      cases c with
      | nil => cases hl
      | cons i c =>
        obtain ⟨x, rfl⟩ := eq_label_of_isLabel hl
        exact .inl ⟨_, c.length, hn, fun w => (advance_of_cons ho hc w).trans (result_exec_label _ x w), ⟨hf.body, hf.labels⟩, hf',
          ⟨ht.title, ht.depth, ht.params⟩, Frame.code_succ hc, hc', hs, (suffix_cons _ c).trans hsuf, .inl hphi,
          .ahead hphi le_rfl hcc⟩

theorem ExplicitJumps.stepwise (ho : o.showInstrs = false) {p : Proc Instr} (h : ExplicitJumps p.body b')
    (hb : (labelNames p.body).Nodup) (hind : Indifferent p.body) (name : String) : Stepwise o name p { p with body := b' } := by
  refine ⟨rfl, hb, h.labels ▸ hb, Parted p.body, h.inStep ho hb hind, fun f f' hf hf' _ hs => ⟨0, hf.code, hf'.code, hs,
    suffix_refl _, .inr ⟨?_, ?_, .inl ?_⟩, .along h⟩⟩
  · rw [hf.previous, hf'.previous]
  · rw [hf.current, hf'.current]
  · rw [hf.before, hf'.before, hs]

def withJumps (taken : Nat) (p : Proc Instr) : Proc Instr :=
  { p with body := code (fallthroughToJump taken (linesOf p.body)) }

theorem explicitJumps_withJumps (taken : Nat) (p : Proc Instr) : ExplicitJumps p.body (withJumps taken p).body := by
  have h := explicitJumps_spec (freshId taken (linesOf p.body)) (linesOf p.body)
  rwa [code_linesOf] at h

/-- Making jumps explicit, in any of the procedures of a program, keeps every run. -/
theorem sameRuns_fallthroughToJump (o : Options) (procs : List (String × Proc Instr)) (chosen : String → Bool) (taken : Nat)
    (h : ∀ e ∈ procs, chosen e.1 = true → (labelNames e.2.body).Nodup ∧ Indifferent e.2.body) :
    (∀ e ∈ procs, Walled (withJumps taken e.2).body) ∧
    SameRuns (semantics { o with showInstrs := false } procs) (semantics { o with showInstrs := false }
      (procs.map fun e => (e.1, if chosen e.1 then withJumps taken e.2 else e.2))) := by
  refine ⟨fun e _ => (explicitJumps_withJumps taken e.2).walled, ?_⟩
  have hruns := sameRuns_map (o := { o with showInstrs := false }) (p := Prod.snd)
    (q := fun e => if chosen e.1 then withJumps taken e.2 else e.2) fun e (he : e ∈ procs) => by
      cases hc : chosen e.1 with
      | false => exact .inl rfl
      | true => exact .inr ((explicitJumps_withJumps taken e.2).stepwise rfl (h e he hc).1 (h e he hc).2 e.1)
  rwa [map_id'' fun _ => rfl] at hruns

def rotated : Proc Instr :=
  ⟨"@main", [], [.label "%.La", .const "%x" (.int 3), .jmp "%.Lb", .label "%.Lb", .phi "%y" [("%.La", "%x"), ("%.Lc", "%z")],
    .const "%k" (.int 1), .label "%.Lc", .binop .sub "%z" "%y" "%k", .jcc .nz "%z" "%.Lb", .ret (some "%z")]⟩

theorem sameRuns_fallthroughToJump_rotated :
    Indifferent rotated.body ∧ rotated.body.any Instr.isPhi = true ∧
      SameRuns (semantics {} [("@main", rotated)]) (semantics {} [("@main", withJumps 0 rotated)]) := by
  have hind : Indifferent rotated.body := by
    refine .inr fun i x c hc hi hf => ?_
    simp only [rotated, suffix_cons_iff, List.cons.injEq, Instr.label.injEq, reduceCtorEq, false_and, and_false, false_or,
      suffix_nil, or_false] at hc
    rcases hc with ⟨rfl, -⟩ | ⟨rfl, -, rfl⟩
    · cases hf
    · decide
  refine ⟨hind, rfl, (sameRuns_fallthroughToJump {} [("@main", rotated)] (fun _ => true) 0 ?_).2⟩
  rintro e he -
  obtain rfl := mem_singleton.1 he
  exact ⟨by decide, hind⟩

def fallen : Proc Instr :=
  ⟨"@main", [], [.const "%x" (.int 1), .label "%.La", .phi "%y" [("@main", "%x")], .ret (some "%y")]⟩

def fallenTwice : Proc Instr :=
  ⟨"@main", [], [.const "%x" (.int 1), .label "%.La", .label "%.Lb", .jmp "%.Lc", .label "%.Lc", .phi "%y" [("%.Lb", "%x")],
    .ret (some "%y")]⟩

/-- The first phi reads a snapshot that only the new jump takes; for the second, control comes from the first label. -/
theorem not_sameRuns_fallen :
    ((labelNames fallen.body).Nodup ∧ (∀ i ∈ fallen.body, ∀ l ∈ i.target?, l ∈ labelNames fallen.body) ∧
      ¬ SameRuns (semantics {} [("@main", fallen)]) (semantics {} [("@main", withJumps 0 fallen)])) ∧
    (labelNames fallenTwice.body).Nodup ∧ (∀ i ∈ fallenTwice.body, ∀ l ∈ i.target?, l ∈ labelNames fallenTwice.body) ∧
      ¬ SameRuns (semantics {} [("@main", fallenTwice)]) (semantics {} [("@main", withJumps 0 fallenTwice)]) := by
  refine ⟨⟨by decide, by decide, fun h => ?_⟩, by decide, by decide, fun h => ?_⟩
  · have hold : Yields (semantics {} [("@main", fallen)]) "@main" (.list []) 0 ⟨[], #[]⟩ (.error (.shape (.key (.str "%x")))) ⟨[], #[]⟩ :=
      ⟨8, by cbv⟩
    have hnew : Yields (semantics {} [("@main", withJumps 0 fallen)]) "@main" (.list []) 0 ⟨[], #[]⟩ (.ok (.int 1)) ⟨[], #[]⟩ :=
      ⟨8, by cbv⟩
    cases (((h _ _ _ _ _ _).1 hold).det hnew).1
  · have hold : Yields (semantics {} [("@main", fallenTwice)]) "@main" (.list []) 0 ⟨[], #[]⟩ (.ok (.int 1)) ⟨[], #[]⟩ := ⟨8, by cbv⟩
    have hnew : Yields (semantics {} [("@main", withJumps 0 fallenTwice)]) "@main" (.list []) 0 ⟨[], #[]⟩
        (.error (.unresolvedPhi (some "%.La") ["%.Lb"])) ⟨[], #[]⟩ := ⟨8, by cbv⟩
    cases (((h _ _ _ _ _ _).1 hold).det hnew).1

end Bx.Flow
