import Bx.Proofs.Flow.Lines
import Bx.Proofs.Flow.Liveness
import Bx.Proofs.Run.Regular
import Mathlib

namespace Bx.Flow

open List hiding after
open Tac Run Run.Checked

variable {ls ms : List Line} {i : Instr} {l : Line} {live : Nat → String → Prop} {b b' : Block} {g h k : Graph}
variable {t t' : Fields} {d name x : String} {w w' : World} {f f' : Frame} {ps qs : List (String × Proc Instr)}
variable {p : Proc Instr}

/-- What is left of some lines when some that are dead have been dropped. -/
inductive Thinned (dead : Line → Prop) : List Line → List Line → Prop
  | nil : Thinned dead [] []
  | kept {l ls ms : _} (h : Thinned dead ls ms) : Thinned dead (l :: ls) (l :: ms)
  | dropped {l ls ms : _} (hl : dead l) (h : Thinned dead ls ms) : Thinned dead (l :: ls) ms

namespace Thinned

variable {dead : Line → Prop}

theorem refl (ls : List Line) : Thinned dead ls ls := by
  induction ls with
  | nil => exact .nil
  | cons l ls ih => exact .kept ih

theorem append {ls' ms' : List Line} (h : Thinned dead ls ms) (h' : Thinned dead ls' ms') :
    Thinned dead (ls ++ ls') (ms ++ ms') := by
  induction h with
  | nil => exact h'
  | kept _ ih => exact .kept ih
  | dropped hl _ ih => exact .dropped hl ih

theorem imp {dead' : Line → Prop} (h : Thinned dead ls ms) (hd : ∀ l, dead l → dead' l) : Thinned dead' ls ms := by
  induction h with
  | nil => exact .nil
  | kept _ ih => exact .kept ih
  | dropped hl _ ih => exact .dropped (hd _ hl) ih

theorem sublist (h : Thinned dead ls ms) : ms.Sublist ls := by
  induction h with
  | nil => exact .slnil
  | kept _ ih => exact ih.cons_cons _
  | dropped _ _ ih => exact ih.cons _

end Thinned

/-- A line that does nothing but store what is not live behind it in its block. -/
structure DeadIn (globals : List String) (live : Nat → String → Prop) (b : Block) (l : Line) : Prop where
  only : mayDoMore l.instr = false
  dest : ∃ d, l.instr.dest = some d ∧ d ∉ globals ∧ ∀ j ls, l :: j :: ls <:+ b.lines → ¬ live j.id d

section Sweep

variable {globals : List String} {v : Liveness}

theorem isDeclared_eq {globals : List String} {d : Datum} (hd : ∀ t, d ≠ .dict t) :
    isDeclared globals d = .ok (d.string?.any globals.contains) := by
  cases d with
  | dict t => exact absurd rfl (hd t)
  | _ => rfl

def Exempt (globals : List String) (i : Instr) : Prop :=
  i.opcode ∈ ["div", "mod", "call"] ∨ ∃ x ∈ globals, i.dest = some x ∨ i.operands.1 = .str x ∨ i.operands.2 = .str x

def Dead (globals : List String) (v : Liveness) (l : Line) : Prop :=
  ¬ Exempt globals l.instr ∧ ∃ d, l.instr.dest = some d ∧ d ∉ v.liveout l.id

theorem mayDoMore_iff : mayDoMore i ↔ i.opcode ∈ ["div", "mod", "call"] := by
  cases i with
  | jcc c | binop c | unop c => cases c <;> simp [mayDoMore, Instr.opcode, Word.Cond.name, Word.Binop.name, Word.Unop.name]
  | _ => simp [mayDoMore, Instr.opcode]

theorem isExempt_spec (globals : List String) (hi : i.isPhi = false) : ∃ t, isExempt globals i = .ok t ∧ (t ↔ Exempt globals i) := by
  have hops : (∀ t, i.operands.1 ≠ .dict t) ∧ ∀ t, i.operands.2 ≠ .dict t := by
    cases i with
    | phi | frozenPhi => simp [Instr.isPhi] at hi
    | const d n | param n x | call d f n =>
      cases n <;> simp [Instr.operands, Numeral.toDatum]
    | ret x => cases x <;> simp [Instr.operands, Instr.optional]
    | _ => simp [Instr.operands]
  have hdest : ∀ t, isExempt.optional i.dest ≠ .dict t := by
    cases i.dest <;> simp [isExempt.optional]
  have hname : ∀ d : Datum, d.string?.any globals.contains ↔ ∃ x ∈ globals, d = .str x := by
    intro d
    cases d <;> simp [Datum.string?]
  have hopt : ∀ x, isExempt.optional i.dest = .str x ↔ i.dest = some x := by
    cases i.dest <;> simp [isExempt.optional]
  refine ⟨mayDoMore i || (isExempt.optional i.dest).string?.any globals.contains || i.operands.1.string?.any globals.contains ||
    i.operands.2.string?.any globals.contains, ?_, ?_⟩
  · simp only [isExempt, isDeclared_eq hdest, isDeclared_eq hops.1, isDeclared_eq hops.2, ok_bind]
    cases mayDoMore i <;> cases (isExempt.optional i.dest).string?.any globals.contains <;>
      cases i.operands.1.string?.any globals.contains <;> rfl
  · simp only [Bool.or_eq_true, hname, hopt, mayDoMore_iff, Exempt, and_or_left, exists_or, or_assoc]

theorem isDead_spec (v : Liveness) (hl : l.instr.isPhi = false) :
    ∃ t, isDead globals v l = .ok t ∧ (t ↔ Dead globals v l) := by
  obtain ⟨t, ht, hkept⟩ := isExempt_spec globals hl
  rw [isDead, ht, ok_bind, Dead, ← hkept]
  cases t with
  | true => exact ⟨false, rfl, by simp⟩
  | false => exact ⟨_, rfl, by cases l.instr.dest <;> simp⟩

def Graph.Rebodied (R : List Line → List Line → Prop) (g h : Graph) : Prop :=
  h = { g with blocks := h.blocks } ∧
    List.Forall₂ (fun e e' => e' = (e.1, { e.2 with body := e'.2.body }) ∧ R e.2.body e'.2.body) g.blocks h.blocks

def Swept (dead : Line → Prop) (ls ms : List Line) : Prop :=
  Thinned dead ls ms ∧ (ms.length = ls.length → ∀ l ∈ ls, ¬ dead l)

theorem sweepBody_spec {dead : Line → Except Fault Bool} {P : Line → Prop}
    (h : ∀ l ∈ ls, ∃ t, dead l = .ok t ∧ (t ↔ P l)) :
    ∃ ms, sweepBody dead ls = .ok ms ∧ Swept P ls ms := by
  fun_induction sweepBody dead ls with
  | case1 => exact ⟨[], rfl, .nil, by simp⟩
  | case2 l rest ih₁ ih₂ =>
    obtain ⟨t, ht, hP⟩ := h l mem_cons_self
    have hrest : ∀ m ∈ rest, ∃ t, dead m = .ok t ∧ (t ↔ P m) := fun m hm => h m (mem_cons_of_mem l hm)
    rw [ht, ok_bind]
    cases t with
    | false =>
      obtain ⟨ms, hms, hthin, hall⟩ := ih₂ hrest
      refine ⟨l :: ms, by simp only [hms, ok_bind]; rfl, .kept hthin, fun hlen => forall_mem_cons.2 ⟨?_, hall (by simpa using hlen)⟩⟩
      exact fun hl => Bool.false_ne_true (hP.2 hl)
    | true =>
      cases rest with
      | nil => exact ⟨[], rfl, .dropped (hP.1 rfl) .nil, by simp⟩
      | cons m rest =>
        obtain ⟨ms, hms, hthin, -⟩ := ih₁ fun k hk => hrest k (mem_cons_of_mem m hk)
        refine ⟨m :: ms, by simp only [hms, ok_bind]; rfl, .dropped (hP.1 rfl) (.kept hthin), fun hlen => ?_⟩
        have := hthin.sublist.length_le
        simp only [length_cons] at hlen
        omega

theorem sweep_rebodied (globals : List String) (hphi : ∀ l ∈ g.lines, l.instr.isPhi = false) (v : Liveness) :
    ∃ h, sweep globals v g = .ok h ∧ g.Rebodied (Swept (Dead globals v)) h := by
  obtain ⟨blocks, hblocks, hall⟩ := @exists_mapM _ _ _ (fun e : Label × Block => do
      let body ← sweepBody (isDead globals v) e.2.body
      e.2.jumps.forM fun l => do
        let _ ← isDead globals v l
      return (e.1, { e.2 with body := body })) g.blocks
    (fun e e' => e' = (e.1, { e.2 with body := e'.2.body }) ∧ Swept (Dead globals v) e.2.body e'.2.body) fun e he => by
      have hspec : ∀ l ∈ e.2.lines, ∃ t, isDead globals v l = .ok t ∧ (t ↔ Dead globals v l) :=
        fun l hl => isDead_spec v (hphi l (mem_flatMap.2 ⟨e, he, hl⟩))
      obtain ⟨body, hbody, hthin⟩ := sweepBody_spec fun l hl => hspec l (mem_append_left _ hl)
      have hjumps : (e.2.jumps.forM fun l => do let _ ← isDead globals v l) = .ok () := forM_eq_ok fun l hl => by
        obtain ⟨t, ht, -⟩ := hspec l (mem_append_right _ hl)
        rw [ht]
        rfl
      exact ⟨(e.1, { e.2 with body := body }), by simp only [hbody, hjumps, ok_bind]; rfl, rfl, hthin⟩
  exact ⟨{ g with blocks := blocks }, by simp only [sweep, hblocks, ok_bind]; rfl, rfl, hall⟩

theorem Graph.Rebodied.lines {R : List Line → List Line → Prop} (h : g.Rebodied R k) (hR : ∀ ls ms, R ls ms → ms.Sublist ls) :
    k.lines.Sublist g.lines := by
  have hb := h.2
  rw [Graph.lines, Graph.lines]
  generalize g.blocks = bs, k.blocks = bs' at hb
  induction hb with
  | nil => exact .slnil
  | cons he _ ih =>
    rw [flatMap_cons, flatMap_cons, he.1]
    exact ((hR _ _ he.2).append (.refl _)).append ih

theorem Swept.sublist {dead : Line → Prop} (h : Swept dead ls ms) : ms.Sublist ls := h.1.sublist

theorem Graph.Rebodied.eq_of_length {dead : Line → Prop} (h : g.Rebodied (Swept dead) k) (hlen : k.lines.length = g.lines.length) :
    k = g ∧ ∀ e ∈ g.blocks, ∀ l ∈ e.2.body, ¬ dead l := by
  obtain ⟨hk, hb⟩ := h
  suffices key : k.blocks = g.blocks ∧ ∀ e ∈ g.blocks, ∀ l ∈ e.2.body, ¬ dead l from ⟨by rw [hk, key.1], key.2⟩
  rw [Graph.lines, Graph.lines] at hlen
  generalize g.blocks = bs, k.blocks = bs' at hb hlen
  induction hb with
  | nil => simp
  | @cons e e' bs bs' he hbs ih => 
    have hle := he.2.sublist.length_le
    have hle' := (Graph.Rebodied.lines (g := { g with blocks := bs }) (k := { g with blocks := bs' }) ⟨rfl, hbs⟩
      fun _ _ => Swept.sublist).length_le
    have hjumps : e'.2.jumps = e.2.jumps := by rw [he.1]
    simp only [Graph.lines, flatMap_cons, length_append, Block.lines, hjumps] at hlen hle'
    obtain ⟨hbs, hall⟩ := ih (by simp only [Block.lines]; omega)
    have hbody : e'.2.body = e.2.body := he.2.sublist.eq_of_length (by omega)
    exact ⟨by rw [he.1, hbody, hbs], forall_mem_cons.2 ⟨he.2.2 (congrArg length hbody), hall⟩⟩

/-- No phis, no result with the name of a label, and no call that prints and has a result. -/
structure Graph.Plain (g : Graph) : Prop where
  formed : g.Formed
  ids : (g.lines.map Line.id).Nodup
  phiFree : ∀ l ∈ g.lines, l.instr.isPhi = false
  dests : ∀ l ∈ g.lines, ∀ d ∈ l.instr.dest, isLabelName d = false
  prints : ∀ l ∈ g.lines, ∀ d name k, l.instr = .call d name k → isPrint name = true → d = none

def ThinnedBlock (globals : List String) (live : Nat → String → Prop) (b b' : Block) : Prop :=
  b'.jumps = b.jumps ∧ Thinned (DeadIn globals live b) b.body b'.body

def Pruned (globals : List String) (g h : Graph) : Prop :=
  ∃ live, g.Live live ∧ (∀ e ∈ g.blocks, e.2.lines ≠ []) ∧ g.Reshaped (ThinnedBlock globals live) h

theorem ThinnedBlock.lines (h : ThinnedBlock globals live b b') : Thinned (DeadIn globals live b) b.lines b'.lines := by
  rw [Block.lines, Block.lines, h.1]
  exact h.2.append (.refl _)

theorem Pruned.lines (hp : Pruned globals g h) : h.lines.Sublist g.lines := by
  obtain ⟨live, -, -, hr⟩ := hp
  have hb := hr.blocks
  rw [Graph.lines, Graph.lines]
  generalize g.blocks = bs, h.blocks = bs' at hb
  induction hb with
  | nil => exact .slnil
  | cons he _ ih => exact he.2.2.2.lines.sublist.append ih

theorem sweep_spec (globals : List String) (hg : g.Plain) (hv : liveness g = .ok v) :
    ∃ h, sweep globals v g = .ok h ∧ Pruned globals g h := by
  obtain ⟨hlive, hne, hout⟩ := liveness_live hg.phiFree hg.ids hg.formed hv
  obtain ⟨h, hs, hh, hblocks⟩ := sweep_rebodied globals hg.phiFree v
  refine ⟨h, hs, _, hlive, hne, by rw [hh], by rw [hh], by rw [hh], forall₂_imp_of_mem hblocks ?_⟩
  rintro e he e' - ⟨he', hthin, -⟩
  rw [he']
  refine ⟨rfl, rfl, rfl, rfl, hthin.imp fun l hl => ?_⟩
  obtain ⟨hkept, d, hd, hlast⟩ := hl
  exact ⟨by simpa using mt mayDoMore_iff.1 (not_or.1 hkept).1, d, hd, fun hglob => hkept (.inr ⟨d, hglob, .inl hd⟩),
    fun j ls hj hlv => hlast (hout e he l j ls hj d hlv)⟩

theorem ThinnedBlock.formed (h : ThinnedBlock globals live b b') (hb : b.Formed) (hne : b.lines ≠ []) : b'.Formed := by
  refine ⟨fun l hl => hb.body l (h.2.sublist.subset hl), h.1 ▸ hb.jumps, .inr ?_⟩
  rw [h.1]
  exact hb.ends.resolve_left hne

theorem Pruned.plain (hp : Pruned globals g h) (hg : g.Plain) : h.Plain := by
  have hlines := hp.lines
  obtain ⟨live, -, hne, hr⟩ := hp
  exact ⟨hr.formed hg.formed fun e he b' hb' => hb'.formed (hg.formed.blocks e he) (hne e he),
    (hlines.map _).nodup hg.ids, fun l hl => hg.phiFree l (hlines.subset hl), fun l hl => hg.dests l (hlines.subset hl),
    fun l hl => hg.prints l (hlines.subset hl)⟩

theorem plain_of_transGen (hc : Relation.TransGen (Pruned globals) g h) (hg : g.Plain) : h.Plain := by
  induction hc with
  | single hp => exact hp.plain hg
  | tail _ hp ih => exact hp.plain ih

/-- Each graph but the first has fewer lines than the one before. -/
inductive Passes (globals : List String) : Graph → Graph → Prop
  | start {g : _} : Passes globals g g
  | pass {g h k v : _} (hv : liveness g = .ok v) (hs : sweep globals v g = .ok h) (hl : h.lines.length ≠ g.lines.length)
      (hp : Passes globals h k) : Passes globals g k

theorem dropDeadWithin_settled {n : Nat} (hphi : ∀ l ∈ g.lines, l.instr.isPhi = false) (hn : g.lines.length < n)
    (hl : ∀ k, Passes globals g k → ∃ v, liveness k = .ok v) :
    ∃ h v, dropDeadWithin globals n g = .ok h ∧ Passes globals g h ∧ liveness h = .ok v ∧ sweep globals v h = .ok h := by
  induction n generalizing g with
  | zero => omega
  | succ n ih =>
    obtain ⟨v, hv⟩ := hl g .start
    obtain ⟨h, hs, hr⟩ := sweep_rebodied globals hphi v
    simp only [dropDeadWithin, hv, hs, ok_bind]
    split
    · next hlen =>
        obtain ⟨rfl, -⟩ := hr.eq_of_length (by simpa using hlen)
        exact ⟨h, v, rfl, .start, hv, hs⟩
    · next hlen =>
        have hlen : h.lines.length ≠ g.lines.length := by simpa using hlen
        have hsub := hr.lines fun _ _ => Swept.sublist
        have hle := hsub.length_le
        obtain ⟨k, w, hk, hp, hrest⟩ := ih (fun l hl => hphi l (hsub.subset hl)) (by omega) fun k hk => hl k (.pass hv hs hlen hk)
        exact ⟨k, w, hk, .pass hv hs hlen hp, hrest⟩

theorem Passes.transGen (hp : Passes globals g k) (hg : g.Plain) (hv : liveness k = .ok v) (hs : sweep globals v k = .ok k) :
    Relation.TransGen (Pruned globals) g k := by
  induction hp with
  | start =>
    obtain ⟨h, hs', hpr⟩ := sweep_spec globals hg hv
    obtain rfl := Except.ok.inj (hs.symm.trans hs')
    exact .single hpr
  | pass hv₁ hs₁ _ _ ih =>
    obtain ⟨h, hs', hpr⟩ := sweep_spec globals hg hv₁
    obtain rfl := Except.ok.inj (hs₁.symm.trans hs')
    exact .head hpr (ih (hpr.plain hg) hv hs)

theorem dropDeadStores_spec (hg : g.Plain) (hl : ∀ k, Passes globals g k → ∃ v, liveness k = .ok v) :
    ∃ h, dropDeadStores globals g = .ok h ∧ Relation.TransGen (Pruned globals) g h := by
  obtain ⟨h, v, hh, hp, hv, hs⟩ := dropDeadWithin_settled hg.phiFree (Nat.lt_succ_self _) hl
  exact ⟨h, hh, hp.transGen hg hv hs⟩

theorem dropDeadStores_eq_ok_iff (hg : g.Plain) :
    (∃ h, dropDeadStores globals g = .ok h) ↔ ∀ k, Passes globals g k → ∃ v, liveness k = .ok v := by
  refine ⟨?_, fun hl => (dropDeadStores_spec hg hl).imp fun _ h => h.1⟩
  rintro ⟨h, hh⟩
  suffices key : ∀ n g, g.Plain → g.lines.length < n → dropDeadWithin globals n g = .ok h →
      ∀ k, Passes globals g k → ∃ v, liveness k = .ok v from key _ g hg (Nat.lt_succ_self _) hh
  intro n
  induction n with
  | zero => omega
  | succ n ih =>
    intro g hg hn hh k hk
    obtain ⟨v, hv, hh⟩ := bind_eq_ok.1 hh
    obtain ⟨h', hs, hh⟩ := bind_eq_ok.1 hh
    cases hk with
    | start => exact ⟨v, hv⟩
    | @pass _ h₁ _ v₁ hv₁ hs₁ hl hk =>
      obtain rfl : v = v₁ := Except.ok.inj (hv.symm.trans hv₁)
      obtain rfl : h' = h₁ := Except.ok.inj (hs.symm.trans hs₁)
      obtain ⟨h₂, hs₂, hp⟩ := sweep_spec globals hg hv
      obtain rfl : h' = h₂ := Except.ok.inj (hs.symm.trans hs₂)
      have hle := hp.lines.length_le
      rw [if_neg (by simpa using hl)] at hh
      exact ih h' (hp.plain hg) (by omega) hh k hk

end Sweep

def Agree (live : String → Prop) (t t' : Fields) : Prop :=
  ∀ x, isGlobalName x = false → (isTempName x = true → live x) → t.lookup x = t'.lookup x

theorem Agree.get {live : String → Prop} (h : Agree live t t') (globals : Fields) (hx : isTempName x → live x) :
    Store.get ⟨t, globals⟩ x = Store.get ⟨t', globals⟩ x := by
  rw [Store.get, Store.get]
  cases hg : isGlobalName x with
  | true => rfl
  | false => simp [Store.find, h x hg hx]

theorem Agree.put {live live' : String → Prop} (h : Agree live t t') (v : Datum) (hl : ∀ x, x ≠ d → live' x → live x) :
    Agree live' (Datum.put d v t) (Datum.put d v t') := by
  intro x hg hx
  rcases eq_or_ne x d with rfl | hne
  · rw [lookup_put_self, lookup_put_self]
  · rw [lookup_put_ne hne, lookup_put_ne hne]
    exact h x hg fun ht => hl x hne (hx ht)

theorem exec_store {o : Options} (hd : i.dest = some d) (hi : i.isPhi = false) (hm : mayDoMore i = false) (f : Frame)
    (w : World) :
    (∃ e, result (exec o f i) w = (.error e, w)) ∨
      ∃ v, result (exec o f i) w = andThen (result (assign f d v) w) fun f w => (.ok (.go f), w) := by
  cases i with
  | nop | label | jmp | jcc | param | ret => cases hd
  | phi | frozenPhi => cases hi
  | call => cases hm
  | const d k =>
    cases hd
    exact .inr ⟨.int (Word.ofInt k.value), by simp [exec]⟩
  | copy d x =>
    cases hd
    rcases hx : Store.get ⟨f.temps, w.globals⟩ x with e | u
    · exact .inl ⟨e, by simp [exec, hx]⟩
    · exact .inr ⟨u, by simp [exec, hx]⟩
  | unop op d x =>
    cases hd
    rcases hx : Store.get ⟨f.temps, w.globals⟩ x with e | u
    · exact .inl ⟨e, by simp [exec, hx]⟩
    · rcases hu : applyUnop op u with e | r
      · exact .inl ⟨e, by simp [exec, hx, hu]⟩
      · exact .inr ⟨r, by simp [exec, hx, hu]⟩
  | binop op d x y =>
    cases hd
    rcases hx : Store.get ⟨f.temps, w.globals⟩ x with e | u
    · exact .inl ⟨e, by simp [exec, hx]⟩
    · rcases hy : Store.get ⟨f.temps, w.globals⟩ y with e | v
      · exact .inl ⟨e, by simp [exec, hx, hy]⟩
      · rcases hr : applyBinop op u v with e | r
        · exact .inl ⟨e, by simp [exec, hx, hy, hr]⟩
        · exact .inr ⟨r, by simp [exec, hx, hy, hr]⟩

theorem exec_store_temp {o : Options} (hd : i.dest = some d) (hi : i.isPhi = false) (hm : mayDoMore i = false)
    (hl : isLabelName d = false) (f : Frame) (hw : d ∉ w.names) :
    (∃ e, result (exec o f i) w = (.error e, w)) ∨
      ∃ v, isTempName d ∧ result (exec o f i) w = (.ok (.go { f with temps := Datum.put d v f.temps }), w) := by
  rcases exec_store (o := o) hd hi hm f w with he | ⟨v, hv⟩
  · exact .inl he
  rw [hv, result_assign]
  by_cases hvar : isVarName d
  · rcases Store.check v with e | u
    · exact .inl ⟨e, by simp [hvar]⟩
    · by_cases hg : isGlobalName d
      · have hnone : w.globals.lookup d = none := by
          rw [← Option.not_isSome_iff_eq_none, lookup_isSome]
          exact hw
        exact .inl ⟨.shape (.key (.str d)), by simp [hvar, hg, hnone]⟩
      · refine .inr ⟨v, ?_, by simp [hvar, hg]⟩
        have hp : d.startsWith "%" := by
          simpa [isVarName, isGlobalName, show d.startsWith "@" = false by simpa [isGlobalName] using hg] using hvar
        simp [isTempName, hp, hl]
  · exact .inl ⟨.unassignable, by simp [hvar]⟩

structure Sweeping (globals : List String) (live : Nat → String → Prop) (g h : Graph) (bs bs' : List Block) : Prop where
  plain : g.Plain
  isLive : g.Live live
  nonempty : ∀ e ∈ g.blocks, e.2.lines ≠ []
  facing : Facing (ThinnedBlock globals live) g h bs bs'

/-- Places in a block and in what is left of it, with temporaries that agree on what is live there. -/
inductive Meets (globals : List String) (live : Nat → String → Prop) (bs bs' : List Block) (t t' : Fields) :
    List Instr → List Instr → Prop
  | inside {b b' l ls ls' m m' : _} (hb : b ∈ bs) (hb' : b' ∈ bs') (hd : Graph.destinations b' = Graph.destinations b)
      (hs : l :: ls <:+ b.lines) (hthin : Thinned (DeadIn globals live b) (l :: ls) ls') (ha : Agree (live l.id) t t') :
      Meets globals live bs bs' t t' (code (l :: ls) ++ m) (code ls' ++ m')

def Beside (globals : List String) (live : Nat → String → Prop) (bs bs' : List Block) : Frame → Frame → Prop :=
  Joined (bs.flatMap Block.instrs) (bs'.flatMap Block.instrs) fun f f' => Meets globals live bs bs' f.temps f'.temps f.code f'.code

def Awaits (globals : List String) (live : Nat → String → Prop) (bs bs' : List Block) : Frame → Frame → Prop :=
  Waits (bs.flatMap Block.instrs) (bs'.flatMap Block.instrs) fun f f' => Meets globals live bs bs' f.temps f'.temps f.code f'.code

namespace Sweeping

variable {globals : List String} {live : Nat → String → Prop} {g h : Graph} {bs bs' : List Block}
  (S : Sweeping globals live g h bs bs')
include S

theorem line_mem (hb : b ∈ bs) (hl : l ∈ b.lines) : l ∈ g.lines :=
  mem_flatMap.2 ⟨_, S.facing.layout.mem b hb, hl⟩

theorem formed (hb : b ∈ bs) : b.Formed := S.facing.layout.formed S.facing.formed hb

theorem lines_ne_nil (hb : b ∈ bs) (h : ThinnedBlock globals live b b') : b.lines ≠ [] ∧ b'.lines ≠ [] := by
  have hne := S.nonempty _ (S.facing.layout.mem b hb)
  obtain ⟨l, hj, -⟩ := (S.formed hb).ends.resolve_left hne
  refine ⟨hne, ?_⟩
  rw [Block.lines, h.1]
  exact append_ne_nil_of_right_ne_nil _ (ne_nil_of_mem (mem_of_getLast? hj))

theorem meets_block (hb : b ∈ bs) (hb' : b' ∈ bs') (hd : Graph.destinations b' = Graph.destinations b)
    (hthin : ThinnedBlock globals live b b') (ha : ∀ j, b.lines.head? = some j → Agree (live j.id) t t') (m m' : List Instr) :
    Meets globals live bs bs' t t' (code b.lines ++ m) (code b'.lines ++ m') := by
  have hthin' := hthin.lines
  obtain ⟨l, ls, hls⟩ := exists_cons_of_ne_nil (S.lines_ne_nil hb hthin).1
  rw [hls] at hthin' ⊢
  exact .inside hb hb' hd (hls ▸ suffix_refl _) hthin' (ha l (by rw [hls]; rfl))

theorem jump {b b' : Block} (hb : b ∈ bs) (hb' : b' ∈ bs') (hd : Graph.destinations b' = Graph.destinations b) {l : Line}
    {ls : List Line} (hs : l :: ls <:+ b.lines) {y : String} (ht : l.instr.target? = some y) {t t' : Fields}
    (ha : Agree (live l.id) t t') :
    (after (bs.flatMap Block.instrs) y = none ∧ after (bs'.flatMap Block.instrs) y = none) ∨
      ∃ d d', after (bs.flatMap Block.instrs) y = some d ∧ after (bs'.flatMap Block.instrs) y = some d' ∧
        Meets globals live bs bs' t t' d d' := by
  have hl : l ∈ b.jumps := (S.formed hb).mem_jumps (hs.subset mem_cons_self) (by simp [ht])
  rcases S.facing.jump hb hb' hd hl ht with hnone | ⟨c, hc, c', hc', hcy, -, hdest, hdc, hthin, hm, hm'⟩
  · exact .inl hnone
  obtain ⟨hne, hne'⟩ := S.lines_ne_nil hc hthin
  obtain ⟨m, hm⟩ := hm hne
  obtain ⟨m', hm'⟩ := hm' hne'
  -- What is live at the start of the other block is live at the jump.
  exact .inr ⟨_, _, hm, hm', S.meets_block hc hc' hdc hthin (fun j hj x hx hlx => ha x hx fun htx =>
    S.isLive.jump (S.facing.layout.mem b hb) (S.facing.layout.mem c hc) (S.formed hb) (hcy ▸ hdest)
      ((S.formed hb).suffix_jumps hs ((S.formed hb).jumps l hl)) hj (hlx htx)) m m'⟩

theorem live_back (hb : b ∈ bs) {j : Line} (hs : l :: j :: ls <:+ b.lines) (hx : live j.id x) (hd : l.instr.dest ≠ some x) :
    live l.id x := by
  refine S.isLive.inside _ (S.facing.layout.mem b hb) l j ls hs x hx fun hdef => hd ?_
  simpa using (mem_filter.1 hdef).1

section Next

variable {b b' : Block} (hb : b ∈ bs) {l j : Line} {ls : List Line} (hs : l :: j :: ls <:+ b.lines) {t t' : Fields}
  (ha : Agree (live l.id) t t')
include hb hs ha

theorem agree_stay (hd : ∀ x, isGlobalName x = false → l.instr.dest ≠ some x) : Agree (live j.id) t t' := fun x hg hx =>
  ha x hg fun ht => S.live_back hb hs (hx ht) (hd x hg)

theorem agree_store (hd : l.instr.dest = some d) (v : Datum) : Agree (live j.id) (Datum.put d v t) (Datum.put d v t') :=
  ha.put v fun x hne hx => S.live_back hb hs hx (by simpa [hd] using hne.symm)

theorem agree_dropped (hd : l.instr.dest = some d) (ht : isTempName d) (hdead : ¬ live j.id d) (v : Datum) :
    Agree (live j.id) (Datum.put d v t) t' := by
  intro x hg hx
  have hne : x ≠ d := by
    rintro rfl
    exact hdead (hx ht)
  rw [lookup_put_ne hne]
  exact ha x hg fun htx => S.live_back hb hs (hx htx) (by simpa [hd] using hne.symm)

end Next

variable {o : Options} (ho : o.showInstrs = false) {f f' : Frame} (hf : f.Runs (bs.flatMap Block.instrs))
  (hf' : f'.Runs (bs'.flatMap Block.instrs)) (ht : Twins f f') {b b' : Block} (hb : b ∈ bs) (hb' : b' ∈ bs')
  (hd : Graph.destinations b' = Graph.destinations b) {l : Line} {ls ls' : List Line} (hs : l :: ls <:+ b.lines)
  (hthin : Thinned (DeadIn globals live b) ls ls')
include hb hb' hd hs hthin

theorem meets_next (hl : isFinal l.instr = false) (ha : ∀ j ms, l :: j :: ms <:+ b.lines → Agree (live j.id) t t')
    (m m' : List Instr) : Meets globals live bs bs' t t' (code ls ++ m) (code ls' ++ m') := by
  have hne : code ls ≠ [] := (S.formed hb).tail_ne_nil (hs.map Line.instr) hl
  obtain ⟨j, ms, rfl⟩ := exists_cons_of_ne_nil (l := ls) (by rintro rfl; exact hne rfl)
  exact .inside hb hb' hd ((suffix_cons l _).trans hs) hthin (ha j ms hs)

variable (ha : Agree (live l.id) f.temps f'.temps) {m m' : List Instr} (hc : f.code = l.instr :: (code ls ++ m))
include ho hf hf' ht ha hc

theorem advance_dropped (hw : ∀ x ∈ w.names, x ∈ globals) (hl : DeadIn globals live b l) (hc' : f'.code = code ls' ++ m') :
    (∃ f₁, result (advance o f) w = (.ok (.go f₁), w) ∧ Beside globals live bs bs' f₁ f') ∨
      ∃ e, result (advance o f) w = (.error e, w) := by
  obtain ⟨d, hdest, hglob, hdead⟩ := hl.dest
  have hmem := S.line_mem hb (hs.subset mem_cons_self)
  rw [advance_of_cons ho hc]
  rcases exec_store_temp (o := o) hdest (S.plain.phiFree l hmem) hl.only (S.plain.dests l hmem d hdest)
    { f with pc := f.pc + 1 } (fun hx => hglob (hw d hx)) with he | ⟨v, htemp, hv⟩
  · exact .inr he
  refine .inl ⟨_, hv, ⟨hf.body, hf.labels⟩, hf', ⟨ht.title, ht.depth, ht.params⟩, ?_⟩
  have hcode : ({ f with pc := f.pc + 1, temps := Datum.put d v f.temps } : Frame).code = code ls ++ m :=
    Frame.code_succ (f := f) hc
  rw [hcode, hc']
  exact S.meets_next hb hb' hd hs hthin (isFinal_of_dest hdest)
    (fun j ms hj => S.agree_dropped hb hj ha hdest htemp (hdead j ms hj) v) m m'

theorem advance_plain (hp : l.instr.isPlain) (hc' : f'.code = l.instr :: (code ls' ++ m')) (w : World) :
    Agrees (Effect.Matches (Beside globals live bs bs') (Awaits globals live bs bs')) (result (advance o f) w)
      (result (advance o f') w) := by
  have hmem := S.line_mem hb (hs.subset mem_cons_self)
  have hfin := isFinal_of_isPlain hp
  have hi : f'.code = (l.instr.renameReads fun x => x).renameDest (fun x => x) :: (code ls' ++ m') := by
    rw [renameReads_id, renameDest_id, hc']
  refine Checked.advance_plain ho hf hf' ht hp .id hc hi
    (fun x hx => ha.get w.globals fun htx => S.isLive.uses l hmem x htx hx) ?_
  have hcode := Frame.code_succ hc
  have hcode' := Frame.code_succ hc'
  rintro _ _ (hstay | @⟨d, u, _, _, hdest, -, -⟩)
  · have hmeets := S.meets_next hb hb' hd hs hthin hfin (fun j ms hj => S.agree_stay hb hj ha fun x hx hxd => by
      simp [hstay.global (S.plain.prints l hmem) x hxd] at hx) m m'
    rwa [← hcode, ← hcode'] at hmeets
  · have hmeets := S.meets_next hb hb' hd hs hthin hfin (fun j ms hj => S.agree_store hb hj ha hdest u) m m'
    rwa [← hcode, ← hcode'] at hmeets

theorem advance_ender (hp : l.instr.isPlain = false) (hc' : f'.code = l.instr :: (code ls' ++ m')) (w : World) :
    Agrees (Effect.Matches (Beside globals live bs bs') (Awaits globals live bs bs')) (result (advance o f) w)
      (result (advance o f') w) := by
  have hmem := S.line_mem hb (hs.subset mem_cons_self)
  have hender := ender_of_isPlain hp ((S.formed hb).isLabel_eq (hs.subset mem_cons_self)) (S.plain.phiFree l hmem)
  refine Checked.advance_ender ho hf hf' ht hender hc (by rw [renameReads_id, hc'])
    (fun x hx => ha.get w.globals fun htx => S.isLive.uses l hmem x htx hx) (fun y hy => ?_) ?_
  · refine (S.jump hb hb' hd hs hy ha).imp_right ?_
    rintro ⟨d, d', hd, hd', hmeets⟩
    exact ⟨d, d', hd, hd', fun k k' hk hk' => by rwa [hk, hk']⟩
  · rintro ⟨t, x, y, hi⟩
    rw [Frame.code_succ hc, Frame.code_succ hc']
    exact S.meets_next hb hb' hd hs hthin (by rw [hi]; rfl)
      (fun j ms hj => S.agree_stay hb hj ha fun _ _ => by simp [hi, Instr.dest]) m m'

omit hb hb' hd hs hthin ha hc

theorem advance (hw : ∀ x ∈ w.names, x ∈ globals) (hm : Meets globals live bs bs' f.temps f'.temps f.code f'.code) :
    (∃ f₁, result (advance o f) w = (.ok (.go f₁), w) ∧ Beside globals live bs bs' f₁ f') ∨
      (∃ e, result (Checked.advance o f) w = (.error e, w)) ∨
      Agrees (Effect.Matches (Beside globals live bs bs') (Awaits globals live bs bs')) (result (Checked.advance o f) w)
        (result (Checked.advance o f') w) := by
  generalize hc : f.code = c, hc' : f'.code = c' at hm
  cases hm with
  | @inside b b' l ls ls' m m' hb hb' hd hs hthin ha =>
    cases hthin with
    | dropped hl hthin =>
      rcases S.advance_dropped ho hf hf' ht hb hb' hd hs hthin ha hc hw hl hc' with h | h
      · exact .inl h
      · exact .inr (.inl h)
    | kept hthin =>
      refine .inr (.inr ?_)
      cases hp : l.instr.isPlain with
      | true => exact S.advance_plain ho hf hf' ht hb hb' hd hs hthin ha hc hp hc' w
      | false => exact S.advance_ender ho hf hf' ht hb hb' hd hs hthin ha hc hp hc' w

end Sweeping

structure Opens (globals : List String) (live : Nat → String → Prop) (bs bs' : List Block) (f f' : Frame) : Prop where
  runs : f.Runs (bs.flatMap Block.instrs)
  runs' : f'.Runs (bs'.flatMap Block.instrs)
  twins : Twins f f'
  code : ∃ x d d', f.code = .label x :: d ∧ f'.code = .label x :: d' ∧ Meets globals live bs bs' f.temps f'.temps d d'

section Program

variable {globals : List String} {live : Nat → String → Prop} {g h : Graph} {bs bs' : List Block} {o : Options}

theorem Sweeping.opens (S : Sweeping globals live g h bs bs') {params : List Datum}
    (hf : Started name params (bs.flatMap Block.instrs) f) (hf' : Started name params (bs'.flatMap Block.instrs) f')
    (ht : Twins f f') (hs : f.temps = f'.temps) : Opens globals live bs bs' f f' := by
  obtain ⟨b, b', cs, cs', rfl, rfl, -, hlabel, hd, hthin⟩ := S.facing.entry
  refine ⟨hf.runs, hf'.runs, ht, b.label.text, code b.lines ++ cs.flatMap Block.instrs, code b'.lines ++ cs'.flatMap Block.instrs,
    hf.code, ?_, S.meets_block mem_cons_self mem_cons_self hd hthin (fun j _ x _ _ => by rw [hs]) _ _⟩
  rw [hf'.code, flatMap_cons, Block.instrs, hlabel]
  rfl

theorem Opens.advance (ho : o.showInstrs = false) (h : Opens globals live bs bs' f f') (w : World) :
    Agrees (Effect.Matches (Beside globals live bs bs') (Awaits globals live bs bs')) (result (advance o f) w)
      (result (Checked.advance o f') w) := by
  obtain ⟨x, d, d', hc, hc', hmeets⟩ := h.code
  rw [← Frame.code_succ hc, ← Frame.code_succ hc'] at hmeets
  exact advance_label ho h.runs h.runs' h.twins hc hc' hmeets

inductive SweptProc (globals : List String) : String × Proc Instr → String × Proc Instr → Prop
  | same {e} : SweptProc globals e e
  | swept {name p p' live g h bs bs' : _} (S : Sweeping globals live g h bs bs') (hp : p.params = p'.params)
      (hb : p.body = bs.flatMap Block.instrs) (hb' : p'.body = bs'.flatMap Block.instrs) :
      SweptProc globals (name, p) (name, p')

theorem SweptProc.named {e e' : String × Proc Instr} (h : SweptProc globals e e') :
    e.1 = e'.1 ∧ SweptProc globals (e.1, e.2) (e.1, e'.2) := by
  cases h with
  | same => exact ⟨rfl, .same⟩
  | swept S hp hb hb' => exact ⟨rfl, .swept S hp hb hb'⟩

inductive Together (globals : List String) : Frame → Frame → Prop
  | same {f : _} : Together globals f f
  | opens {f f' live g h bs bs' : _} (S : Sweeping globals live g h bs bs') (hf : Opens globals live bs bs' f f') : Together globals f f'
  | beside {f f' live g h bs bs' : _} (S : Sweeping globals live g h bs bs') (hf : Beside globals live bs bs' f f') :
      Together globals f f'

inductive Halted (globals : List String) : Frame → Frame → Prop
  | same {f : _} : Halted globals f f
  | awaits {f f' live g h bs bs' : _} (S : Sweeping globals live g h bs bs') (hf : Awaits globals live bs bs' f f') : Halted globals f f'

theorem Together.enter (h : List.Forall₂ (SweptProc globals) ps qs) (name : String) (args : Datum) (depth : Int) (w : World) :
    Agrees (Together globals) (result (enter o ps name args depth) w) (result (enter o qs name args depth) w) := by
  have hnamed := h.imp fun _ _ he => he.named
  rcases lookup_forall₂ (R := fun name p p' => SweptProc globals (name, p) (name, p')) hnamed name with
    ⟨hp, hp'⟩ | ⟨p, p', hp, hp', hsw⟩
  · exact enter_same (hp.trans hp'.symm) (fun _ => .same) args depth w
  · cases hsw with
    | same => exact enter_same (hp.trans hp'.symm) (fun _ => .same) args depth w
    | swept S hparams hb hb' =>
      refine (enter_agrees hp hp' hparams (hb ▸ S.facing.layout.labels_nodup S.facing.formed)
        (hb' ▸ S.facing.layout'.labels_nodup S.facing.formed') args depth w).mono ?_
      rintro f f' ⟨hf, hf', ht, hs⟩
      rw [hb] at hf
      rw [hb'] at hf'
      exact .opens S (S.opens hf hf' ht hs)

theorem Halted.resume (h : Halted globals f f') (v : Datum) (w : World) :
    Agrees (Together globals) (result (resume f v) w) (result (resume f' v) w) := by
  cases h with
  | same => exact Agrees.same.mono fun _ _ hf => hf ▸ .same
  | awaits S hf => exact (Waits.resume hf v w).mono fun _ _ => .beside S

theorem Together.advance (ho : o.showInstrs = false) (h : Together globals f f') (hw : ∀ x ∈ w.names, x ∈ globals) :
    (∃ f₁, result (advance o f) w = (.ok (.go f₁), w) ∧ Together globals f₁ f') ∨
      (∃ e, result (Checked.advance o f) w = (.error e, w)) ∨
      Agrees (Effect.Matches (Together globals) (Halted globals)) (result (Checked.advance o f) w)
        (result (Checked.advance o f') w) := by
  cases h with
  | same => exact .inr (.inr (Agrees.same.mono fun e _ he => he ▸ .refl (fun _ => .same) (fun _ => .same) e))
  | opens S hf => exact .inr (.inr ((hf.advance ho w).mono fun _ _ he => he.mono (fun _ _ => .beside S) fun _ _ => .awaits S))
  | beside S hf =>
    rcases S.advance ho hf.runs hf.runs' hf.twins hw hf.place with ⟨f₁, h₁, hb⟩ | he | ha
    · exact .inl ⟨f₁, h₁, .beside S hb⟩
    · exact .inr (.inl he)
    · exact .inr (.inr (ha.mono fun _ _ he => he.mono (fun _ _ => .beside S) fun _ _ => .awaits S))

theorem yields_of_sweptProc (ho : o.showInstrs = false) (h : List.Forall₂ (SweptProc globals) ps qs) {args : Datum}
    {depth : Int} {v : Datum} (hw : ∀ x ∈ w.names, x ∈ globals) (hy : Yields (semantics o ps) name args depth w (.ok v) w') :
    Yields (semantics o qs) name args depth w (.ok v) w' := by
  let M : Simulation (semantics o ps) (semantics o qs) (fun _ => False) := {
    inv := fun w => ∀ x ∈ w.names, x ∈ globals
    rel := fun _ => Together globals
    wait := Halted globals
    enter := fun {w} hw name args depth =>
      ((Together.enter h name args depth w).mono fun _ _ hf => ⟨0, hf⟩).follows (by rw [enter_names]; exact hw)
    resume := fun {w f _} hw hf v =>
      ((hf.resume v w).mono fun _ _ hf => ⟨0, hf⟩).follows (by rw [resume_names]; exact hw)
    advance := fun {w _ f _} hw hf => by
      rcases hf.advance ho hw with ⟨f₁, h₁, hb⟩ | ⟨e, he⟩ | ha
      · exact .inl ⟨f₁, 0, h₁, hb⟩
      · exact .inr (.inr (he ▸ fun hk => hk.elim))
      · exact .inr (.inr ((ha.mono fun _ _ he => he.mono (fun _ _ hf => ⟨0, hf⟩) fun _ _ hf => hf).follows
          (by rw [advance_names]; exact hw))) }
  exact M.yields hy hw fun e he => by cases he

theorem reflTransGen_forall₂ {α : Type} {R : α → α → Prop} (hR : ∀ a, R a a) {xs ys : List α}
    (h : List.Forall₂ (Relation.ReflTransGen R) xs ys) : Relation.ReflTransGen (List.Forall₂ R) xs ys := by
  have hrefl : ∀ zs : List α, List.Forall₂ R zs zs := fun zs => forall₂_same.2 fun z _ => hR z
  induction h with
  | nil => exact .refl
  | @cons x y xs ys hxy _ ih =>
    have hhead : Relation.ReflTransGen (List.Forall₂ R) (x :: xs) (y :: xs) :=
      hxy.lift (· :: xs) fun _ _ h => .cons h (hrefl xs)
    exact hhead.trans (ih.lift (y :: ·) fun _ _ h => .cons (hR y) h)

theorem yields_of_passes (ho : o.showInstrs = false) (h : List.Forall₂ (Relation.ReflTransGen (SweptProc globals)) ps qs)
    {args : Datum} {depth : Int} {v : Datum} (hw : ∀ x ∈ w.names, x ∈ globals)
    (hy : Yields (semantics o ps) name args depth w (.ok v) w') : Yields (semantics o qs) name args depth w (.ok v) w' := by
  have hchain := reflTransGen_forall₂ (fun _ => .same) h
  clear h
  induction hchain with
  | refl => exact hy
  | tail _ hstep ih => exact yields_of_sweptProc ho hstep hw ih

theorem sweptProc_of_transGen {p' : Proc Instr} (hp : p.params = p'.params) (hg : g.Plain)
    (hc : Relation.TransGen (Pruned globals) g h) (hl : Layout g bs) (hl' : Layout h bs')
    (hb : p.body = bs.flatMap Block.instrs) (hb' : p'.body = bs'.flatMap Block.instrs) :
    Relation.ReflTransGen (SweptProc globals) (name, p) (name, p') := by
  induction hc using Relation.TransGen.head_induction_on generalizing p bs with
  | single hpr =>
    have hh := hpr.plain hg
    obtain ⟨live, hlive, hne, hshape⟩ := hpr
    exact .single (.swept ⟨hg, hlive, hne, hg.formed, hh.formed, hshape, hl, hl'⟩ hp hb hb')
  | @head g k hpr _ ih =>
    have hk := hpr.plain hg
    obtain ⟨live, hlive, hne, hshape⟩ := hpr
    obtain ⟨-, cs, -, -, hlk, -⟩ := linearize_spec hk.formed 0
    have hstep : SweptProc globals (name, p) (name, { p with body := cs.flatMap Block.instrs }) :=
      .swept ⟨hg, hlive, hne, hg.formed, hk.formed, hshape, hl, hlk⟩ rfl hb rfl
    exact .head hstep (ih hp hk hlk rfl)

end Program

/-- No phis, a jump or a return at the end, no result with the name of a label, and none of a call that prints. -/
structure Tame (p : Proc Instr) : Prop where
  phiFree : ∀ i ∈ p.body, i.isPhi = false
  ends : ∃ i, p.body.getLast? = some i ∧ isFinal i = true
  dests : ∀ i ∈ p.body, ∀ d ∈ i.dest, isLabelName d = false
  prints : ∀ i ∈ p.body, ∀ d name k, i = .call d name k → isPrint name = true → d = none

theorem Tame.plain (hp : Tame p) {u : Routine} (hu : inferProc p = .ok u) : u.proc = p ∧ u.graph.Plain := by
  obtain ⟨hproc, -, -, hids, ρ, -, hmem⟩ := inferProc_lines hu
  refine ⟨hproc, inferProc_formed hu hp.ends, hids, inferProc_phiFree hp.phiFree hu, fun l hl d hd => ?_,
      fun l hl d name k hcall hprint => ?_⟩ <;>
    rcases hmem l hl with ⟨y, hy⟩ | ⟨i, hi, -, hr⟩
  · rw [hy] at hd
    cases hd
  · rw [dest_relabel hr] at hd
    exact hp.dests i hi d hd
  · rw [hy] at hcall
    cases hcall
  · have hic : i = .call d name k := by
      rw [hcall] at hr
      cases i <;> simp_all [relabel]
    exact hp.prints i hi d name k hic hprint

def withoutDeadStores (globals : List String) (e : String × Proc Instr) : Except Fault (String × Proc Instr) := do
  let u ← inferProc e.2
  let h ← dropDeadStores globals u.graph
  return (e.1, ← linearizeProc { u with graph := h })

theorem Tame.withoutDeadStores {globals : List String} (hp : Tame p) {u : Routine} (hu : inferProc p = .ok u)
    (hl : ∀ k, Passes globals u.graph k → ∃ v, liveness k = .ok v) :
    ∃ b b', relinearize (name, p) = .ok (name, { p with body := b }) ∧
      withoutDeadStores globals (name, p) = .ok (name, { p with body := b' }) ∧
      Relation.ReflTransGen (SweptProc globals) (name, { p with body := b }) (name, { p with body := b' }) := by
  obtain ⟨rfl, hg⟩ := hp.plain hu
  obtain ⟨h, hh, hchain⟩ := dropDeadStores_spec hg hl
  obtain ⟨bs, hl, -, hlin⟩ := linearizeProc_spec hg.formed
  obtain ⟨bs', hl', -, hlin'⟩ := @linearizeProc_spec { u with graph := h } (plain_of_transGen hchain hg).formed
  refine ⟨bs.flatMap Block.instrs, bs'.flatMap Block.instrs, ?_, ?_, sweptProc_of_transGen rfl hg hchain hl hl' rfl rfl⟩
  · simp only [relinearize, hu, hlin, ok_bind]
    rfl
  · simp only [Flow.withoutDeadStores, hu, hh, hlin', ok_bind]
    rfl

/-- Every run that ends well is kept, with its output, globals and value, from any call in which all globals are declared. -/
theorem yields_withoutDeadStores (o : Options) (globals : List String) (procs : List (String × Proc Instr))
    (hp : ∀ e ∈ procs, Tame e.2)
    (hi : ∀ e ∈ procs, ∃ u, inferProc e.2 = .ok u ∧ ∀ g, Passes globals u.graph g → ∃ v, liveness g = .ok v) :
    ∃ ps qs, procs.mapM relinearize = .ok ps ∧ procs.mapM (withoutDeadStores globals) = .ok qs ∧
      ∀ name args depth w v w', (∀ x ∈ w.names, x ∈ globals) →
        Yields (semantics { o with showInstrs := false } ps) name args depth w (.ok v) w' →
        Yields (semantics { o with showInstrs := false } qs) name args depth w (.ok v) w' := by
  have hall : ∀ e ∈ procs, ∃ b b', relinearize e = .ok (e.1, { e.2 with body := b }) ∧
      withoutDeadStores globals e = .ok (e.1, { e.2 with body := b' }) ∧
      Relation.ReflTransGen (SweptProc globals) (e.1, { e.2 with body := b }) (e.1, { e.2 with body := b' }) := by
    intro e he
    obtain ⟨u, hu, hl⟩ := hi e he
    exact (hp e he).withoutDeadStores hu hl
  choose! b b' hb hb' hchain using hall
  refine ⟨procs.map fun e => (e.1, { e.2 with body := b e }), procs.map fun e => (e.1, { e.2 with body := b' e }), ?_, ?_, ?_⟩
  · rw [mapM_eq_ok, forall₂_map_right_iff, forall₂_same]
    exact hb
  · rw [mapM_eq_ok, forall₂_map_right_iff, forall₂_same]
    exact hb'
  · intro name args depth w v w' hw
    refine yields_of_passes rfl ?_ hw
    rw [forall₂_map_left_iff, forall₂_map_right_iff, forall₂_same]
    exact hchain

def idle : Proc Instr :=
  ⟨"@main", [], [.label "%.La", .const "%n" (.int 3), .label "%.Lb", .jcc .z "%n" "%.Lc", .const "%x" (.int 7), .copy "%y" "%x",
    .param (.int 1) "%n", .call none "@__bx_print_int" (.int 1), .const "%one" (.int 1), .binop .sub "%n" "%n" "%one",
    .jmp "%.Lb", .label "%.Lc", .ret none]⟩

theorem idle_tame : Tame idle where
  phiFree := by decide
  ends := ⟨.ret none, rfl, rfl⟩
  dests := by
    have hd : ∀ i ∈ idle.body, ∀ d ∈ i.dest, d = "%n" ∨ d = "%x" ∨ d = "%y" ∨ d = "%one" := by decide
    intro i hi d hid
    rcases hd i hi d hid with rfl | rfl | rfl | rfl <;> cbv
  prints := by
    rintro i hi d name k rfl -
    simp only [idle, mem_cons, reduceCtorEq, Instr.call.injEq, not_mem_nil, or_false, false_or] at hi
    exact hi.1

theorem idle_passes {u : Routine} (hu : inferProc idle = .ok u) : ∀ k, Passes [] u.graph k → ∃ v, liveness k = .ok v := by
  have hok : ((inferProc idle).bind fun u => dropDeadStores [] u.graph).isOk := by decide +kernel
  rw [hu] at hok
  exact (dropDeadStores_eq_ok_iff (idle_tame.plain hu).2).1 (exists_of_isOk hok)

theorem yields_withoutDeadStores_idle :
    Tame idle ∧ ∃ ps qs, [("@main", idle)].mapM relinearize = .ok ps ∧ [("@main", idle)].mapM (withoutDeadStores []) = .ok qs ∧
      ∀ name args depth w v w', (∀ x ∈ w.names, x ∈ ([] : List String)) →
        Yields (semantics {} ps) name args depth w (.ok v) w' → Yields (semantics {} qs) name args depth w (.ok v) w' := by
  refine ⟨idle_tame, yields_withoutDeadStores {} [] _ ?_ ?_⟩ <;> simp only [mem_singleton, forall_eq]
  · exact idle_tame
  · obtain ⟨u, hu⟩ : ∃ u, inferProc idle = .ok u := exists_of_isOk (by cbv)
    exact ⟨u, hu, idle_passes hu⟩

def labelStore : Proc Instr :=
  ⟨"@main", [], [.label "%.La", .const "%.Lx" (.int 5), .param (.int 1) "%.Lx", .call none "@__bx_print_int" (.int 1), .ret none]⟩

def printResult : Proc Instr :=
  ⟨"@main", [], [.label "%.La", .const "%x" (.int 5), .const "%y" (.int 1), .param (.int 1) "%y",
    .call (some "%x") "@__bx_print_int" (.int 1), .param (.int 1) "%x", .call none "@__bx_print_int" (.int 1), .ret none]⟩

/-- Names of labels are never live, and a call that prints has no value to store: a store is dropped that was needed. -/
theorem not_yields_withoutDeadStores :
    (∀ p ∈ [labelStore, printResult], (∀ i ∈ p.body, i.isPhi = false) ∧ ∃ i, p.body.getLast? = some i ∧ isFinal i = true) ∧
    (∃ q q', relinearize ("@main", labelStore) = .ok q ∧ withoutDeadStores [] ("@main", labelStore) = .ok q' ∧
      Yields (semantics {} [q]) "@main" (.list []) 0 ⟨[], #[]⟩ (.ok .null) ⟨[], #["5\n"]⟩ ∧
      ¬ Yields (semantics {} [q']) "@main" (.list []) 0 ⟨[], #[]⟩ (.ok .null) ⟨[], #["5\n"]⟩) ∧
    ∃ q q', relinearize ("@main", printResult) = .ok q ∧ withoutDeadStores [] ("@main", printResult) = .ok q' ∧
      Yields (semantics {} [q]) "@main" (.list []) 0 ⟨[], #[]⟩ (.ok .null) ⟨[], #["1\n", "5\n"]⟩ ∧
      ¬ Yields (semantics {} [q']) "@main" (.list []) 0 ⟨[], #[]⟩ (.ok .null) ⟨[], #["1\n", "5\n"]⟩ := by
  refine ⟨by simp [labelStore, printResult, Instr.isPhi, isFinal], ⟨("@main", ⟨"@main", [], [.label "%.L0", .const "%.Lx" (.int 5),
      .param (.int 1) "%.Lx", .call none "@__bx_print_int" (.int 1), .ret none]⟩), ("@main", ⟨"@main", [], [.label "%.L0",
      .param (.int 1) "%.Lx", .call none "@__bx_print_int" (.int 1), .ret none]⟩), by cbv, by cbv, ⟨8, by cbv⟩, fun h => ?_⟩, 
    ("@main", ⟨"@main", [], [.label "%.L0", .const "%x" (.int 5), .const "%y" (.int 1), .param (.int 1) "%y",
      .call (some "%x") "@__bx_print_int" (.int 1), .param (.int 1) "%x", .call none "@__bx_print_int" (.int 1), .ret none]⟩),
    ("@main", ⟨"@main", [], [.label "%.L0", .const "%y" (.int 1), .param (.int 1) "%y",
      .call (some "%x") "@__bx_print_int" (.int 1), .param (.int 1) "%x", .call none "@__bx_print_int" (.int 1), .ret none]⟩),
    by cbv, by cbv, ⟨9, by cbv⟩, fun h => ?_⟩
  · have hnew : Yields (semantics {} [("@main", ⟨"@main", [], [.label "%.L0", .param (.int 1) "%.Lx",
        .call none "@__bx_print_int" (.int 1), .ret none]⟩)]) "@main" (.list []) 0 ⟨[], #[]⟩
        (.error (.shape (.key (.str "%.Lx")))) ⟨[], #[]⟩ := ⟨8, by cbv⟩
    cases (h.det hnew).1
  · have hnew : Yields (semantics {} [("@main", ⟨"@main", [], [.label "%.L0", .const "%y" (.int 1), .param (.int 1) "%y",
        .call (some "%x") "@__bx_print_int" (.int 1), .param (.int 1) "%x", .call none "@__bx_print_int" (.int 1), .ret none]⟩)])
        "@main" (.list []) 0 ⟨[], #[]⟩ (.error (.shape (.key (.str "%x")))) ⟨[], #["1\n"]⟩ := ⟨9, by cbv⟩
    cases (h.det hnew).1

end Bx.Flow
