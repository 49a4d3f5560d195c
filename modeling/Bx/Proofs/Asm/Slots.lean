import Bx.Asm.Procedure
import Bx.Proofs.Basic
import Mathlib

namespace Bx.Asm

open List

variable {f g f' : Frame} {p : Place} {c : Compiled}

def Operand.slots : Operand → List Nat
  | .at (.slot k) => [k]
  | _ => []

def Line.slots : Line → List Nat
  | .movq s d | .alu _ s d => s.slots ++ d.slots
  | .imulq x | .idivq x | .salq x | .sarq x | .negq x | .notq x | .pushq x | .popq x | .leaFormat x => x.slots
  | _ => []

def reserved? (lines : List Line) : Option Int :=
  lines.findSome? fun
    | .alu .sub (.imm (.int n)) (.reg .rsp) => some n
    | _ => none

@[simp]
theorem slots_reg (r : Reg) : Operand.slots (.reg r) = [] := rfl

@[simp]
theorem slots_imm (n : Tac.Numeral) : Operand.slots (.imm n) = [] := rfl

namespace Procedure

open Tac

variable {α β : Type}

def slotsOf (lines : List Line) : List Nat := lines.flatMap Line.slots

theorem slotsOf_binop (op : Word.Binop) (x y d : Place) :
    slotsOf (binop op x y d) ⊆ Operand.slots (.at d) ++ (Operand.slots (.at y) ++ Operand.slots (.at x)) := by
  intro k
  cases op <;> simp [slotsOf, Line.slots, binop] <;> tauto

theorem slotsOf_unop (op : Word.Unop) (x d : Place) :
    slotsOf (unop op x d) ⊆ Operand.slots (.at d) ++ Operand.slots (.at x) := by
  intro k
  cases op <;> simp [slotsOf, Line.slots, unop] <;> tauto

def Frame.words (f : Frame) : List Nat := f.temps.map Prod.snd

def Frame.Grows (f f' : Frame) : Prop :=
  ∃ ds : List Datum, f'.temps = f.temps ++ ds.zipIdx (f.size + 1) ∧ f'.size = f.size + ds.length

theorem Frame.Grows.refl (f : Frame) : f.Grows f := ⟨[], by simp, rfl⟩

theorem Frame.Grows.trans {h : Frame} (hfg : f.Grows g) (hgh : g.Grows h) : f.Grows h := by
  obtain ⟨ds, hg, hgs⟩ := hfg
  obtain ⟨es, hh, hhs⟩ := hgh
  refine ⟨ds ++ es, ?_, ?_⟩
  · rw [hh, hg, hgs, append_assoc, zipIdx_append, Nat.add_right_comm]
  · rw [hhs, hgs, length_append, Nat.add_assoc]

theorem Frame.Grows.subset (h : f.Grows g) : f.words ⊆ g.words := by
  obtain ⟨ds, hg, -⟩ := h
  intro k hk
  rw [words, hg, map_append]
  exact mem_append_left _ hk

def State.Known (s : State) : Prop := ∀ p ∈ s.left, Operand.slots (.at p) ⊆ s.frame.words

def Gives (known : List Nat) (σ : α → List Nat) (x : Emit α) : Prop :=
  ∀ s a s', s.Known → known ⊆ s.frame.words → x.run s = .ok (a, s') →
    s.frame.Grows s'.frame ∧ s'.Known ∧ σ a ⊆ s'.frame.words

namespace Gives

variable {known : List Nat} {σ : α → List Nat} {τ : β → List Nat}

theorem pure {a : α} (h : σ a ⊆ known) : Gives known σ (pure a : Emit α) := by
  intro s b s' hs hk hr
  cases hr
  exact ⟨.refl _, hs, List.Subset.trans h hk⟩

theorem throw {e : Error} : Gives known σ (throw e : Emit α) := by
  intro s a s' _ _ hr
  cases hr

theorem liftOf {x : Except Error α} (h : ∀ a, x = .ok a → σ a ⊆ known) : Gives known σ (liftM x : Emit α) := by
  intro s a s' hs hk hr
  cases x with
  | error e => cases hr
  | ok b =>
    cases hr
    exact ⟨.refl _, hs, List.Subset.trans (h a rfl) hk⟩

theorem lift (x : Except Error α) : Gives known (fun _ => []) (liftM x : Emit α) :=
  liftOf fun _ _ => nil_subset _

theorem bind {x : Emit α} {k : α → Emit β} (hx : Gives known σ x) (hk : ∀ a, Gives (σ a ++ known) τ (k a)) :
    Gives known τ (x >>= k) := by
  intro s b s' hs hkn hr
  rw [StateT.run_bind] at hr
  obtain ⟨⟨a, s₁⟩, h₁, h₂⟩ := bind_eq_ok.1 hr
  obtain ⟨hg₁, hs₁, ha⟩ := hx s a s₁ hs hkn h₁
  obtain ⟨hg₂, hs₂, hb⟩ := hk a s₁ b s' hs₁ (append_subset.2 ⟨ha, List.Subset.trans hkn hg₁.subset⟩) h₂
  exact ⟨hg₁.trans hg₂, hs₂, hb⟩

theorem andThen {x : Emit α} {k : α → Emit β} (hx : Gives known (fun _ => []) x) (hk : ∀ a, Gives known τ (k a)) :
    Gives known τ (x >>= k) := hx.bind hk

theorem lifted {x : Except Error α} {k : α → Emit β} (hk : ∀ a, Gives known τ (k a)) : Gives known τ (liftM x >>= k) :=
  (lift x).andThen hk

theorem get : Gives known (fun s => (s.left.elim [] fun p => Operand.slots (.at p))) (get : Emit State) := by
  intro s a s' hs _ hr
  cases hr
  refine ⟨.refl _, hs, ?_⟩
  intro k hk
  cases hl : s.left with
  | none => simp [hl] at hk
  | some p => exact hs p hl (by simpa [hl] using hk)

end Gives

variable {globals : Datum} {known : List Nat}

theorem slot_grows {d : Datum} (h : slot d f = .ok (p, f')) : f.Grows f' ∧ Operand.slots (.at p) ⊆ f'.words := by
  rw [slot] at h
  split at h
  · cases h
  · split at h
    · next e he =>
        cases h
        refine ⟨.refl _, ?_⟩
        simpa [Operand.slots, Frame.words] using ⟨e.1, mem_of_find?_eq_some he⟩
    · cases h
      exact ⟨⟨[d], rfl, rfl⟩, by simp [Operand.slots, Frame.words]⟩

theorem place_grows {args d : Datum} (h : place globals args d f = .ok (p, f')) :
    f.Grows f' ∧ Operand.slots (.at p) ⊆ f'.words := by
  rw [place] at h
  obtain ⟨isGlobal, -, h⟩ := bind_eq_ok.1 h
  split at h
  · obtain ⟨x, -, h⟩ := bind_eq_ok.1 h
    cases h
    exact ⟨.refl _, nil_subset _⟩
  · obtain ⟨isArg, -, h⟩ := bind_eq_ok.1 h
    split at h
    · obtain ⟨k, -, h⟩ := bind_eq_ok.1 h
      split at h
      · cases h
        exact ⟨.refl _, nil_subset _⟩
      · exact slot_grows h
    · exact slot_grows h

theorem run_locate (d args : Datum) (s : State) : (locate globals d args).run s =
    place globals args d s.frame >>= fun x => .ok (x.1, { s with frame := x.2 }) := by
  simp only [locate, StateT.run_bind, StateT.run_get, pure_bind, StateT.run_monadLift]
  cases place globals args d s.frame <;> rfl

theorem locate_gives (d args : Datum) : Gives known (fun p => Operand.slots (.at p)) (locate globals d args) := by
  intro s p s' hs _ hr
  rw [run_locate] at hr
  obtain ⟨⟨q, f⟩, hq, h⟩ := bind_eq_ok.1 hr
  cases h
  obtain ⟨hg, hp⟩ := place_grows hq
  exact ⟨hg, fun x hx => List.Subset.trans (hs x hx) hg.subset, hp⟩

theorem wrote_gives : Gives known (fun _ => []) wrote := by
  intro s a s' hs _ hr
  cases hr
  exact ⟨.refl _, hs, nil_subset _⟩

theorem setLeft_gives (h : Operand.slots (.at p) ⊆ known) :
    Gives known (fun _ => []) (modify fun s => { s with left := some p } : Emit Unit) := by
  intro s a s' hs hk hr
  cases hr
  refine ⟨.refl _, fun x hx => ?_, nil_subset _⟩
  cases hx
  exact List.Subset.trans h hk

theorem entry_gives (args : Datum) (count k : Nat) (rs : List Reg) : Gives known slotsOf (entry globals args count k rs) := by
  induction rs generalizing known k with
  | nil => exact .pure (nil_subset _)
  | cons r rs ih =>
    rw [entry]
    split
    · exact .pure (nil_subset _)
    · refine .lifted fun x => (locate_gives x args).bind fun p => wrote_gives.andThen fun _ => ?_
      refine (ih (k + 1)).bind fun ls => .pure ?_
      simp [slotsOf, Line.slots]

theorem param_gives (args : Datum) : Gives known slotsOf (param globals args) := by
  refine .lifted fun d => (locate_gives d args).bind fun x => .lifted fun n => ?_
  split
  · exact .throw
  · split
    · split
      · exact wrote_gives.andThen fun _ => .pure (by simp [slotsOf, Line.slots])
      · exact .throw
    · exact .pure (by simp [slotsOf, Line.slots])

theorem call_gives (r : Record) : Gives known slotsOf (call globals r) := by
  refine .lifted fun d => .lifted fun f => Gives.get.bind fun s => ?_
  have taken : ∀ known, Gives known slotsOf (do
      let d ← locate globals r.result r.args
      return [.callq f.text, .movq Reg.rax d]) :=
    fun _ => (locate_gives r.result r.args).bind fun x => .pure (by simp [slotsOf, Line.slots])
  split
  · exact Gives.throw.andThen fun _ => taken _
  · exact taken _

theorem ret_gives (name : String) (args : Datum) : Gives known slotsOf (ret globals name args) := by
  unfold ret
  split
  · exact .pure (by simp [slotsOf, Line.slots, clear])
  · exact .lifted fun d => (locate_gives d args).bind fun x => .pure (by simp [slotsOf, Line.slots])

theorem branch_gives (b : Branch) (r : Record) : Gives known slotsOf (branch globals b r) := by
  cases b with
  | jcc c =>
    refine .lifted fun _ => .lifted fun _ => .lifted fun d => ?_
    refine (locate_gives d r.args).bind fun _ => .lifted fun l => Gives.get.bind fun s => ?_
    cases s.left with
    | none => exact .throw
    | some x => exact .pure (by simp [slotsOf, Line.slots, test])
  | jmp =>
    exact .lifted fun _ => .lifted fun _ => .lifted fun _ =>
      .pure (by simp [slotsOf, Line.slots])
  | label =>
    refine .lifted fun _ => .lifted fun _ => .lifted fun d => ?_
    have line : Gives known Line.slots (liftM (labelLine d)) := by
      refine .liftOf fun l hl => ?_
      cases d <;> cases hl
      exact nil_subset _
    exact line.bind fun l => .pure (by simp [slotsOf])

theorem special_gives (name : String) (r : Record) : Gives known slotsOf (special globals name r) := by
  refine .lifted fun b => ?_
  cases b with
  | some b => exact branch_gives b r
  | none =>
    dsimp only
    split
    · exact param_gives r.args
    · split
      · exact call_gives r
      · split
        · exact ret_gives name r.args
        · exact .throw

theorem instr_gives (name : String) (r : Record) : Gives known slotsOf (instr globals name r) := by
  refine .lifted fun form => ?_
  cases form with
  | nop => exact .pure (nil_subset _)
  | const =>
    refine .lifted fun d => .lifted fun n => (locate_gives _ _).bind fun x => ?_
    exact wrote_gives.andThen fun _ => .pure (by simp [slotsOf, Line.slots])
  | copy =>
    refine .lifted fun d => (locate_gives d _).bind fun x => (locate_gives _ _).bind fun y => ?_
    exact wrote_gives.andThen fun _ => .pure (by simp [slotsOf, Line.slots, copy])
  | binop op =>
    refine .lifted fun _ => .lifted fun d => (locate_gives d _).bind fun x => ?_
    refine (setLeft_gives (subset_append_left _ _)).andThen fun _ => .lifted fun e => ?_
    refine (locate_gives e _).bind fun y => (locate_gives _ _).bind fun z => wrote_gives.andThen fun _ => .pure ?_
    refine List.Subset.trans (slotsOf_binop op x y z) ?_
    rw [← append_assoc, ← append_assoc, ← append_assoc]
    exact subset_append_left _ _
  | unop op =>
    refine .lifted fun d => (locate_gives d _).bind fun x => (locate_gives _ _).bind fun y => ?_
    exact wrote_gives.andThen fun _ => .pure (List.Subset.trans (slotsOf_unop op x y) (by simp))
  | other op => exact special_gives name r

theorem instrData_gives (name : String) (ds : List Datum) (acc : List Line) (h : slotsOf acc ⊆ known) :
    Gives known slotsOf (ds.foldlM (fun acc d => do
      let r ← shape (Record.ofFields d)
      return acc ++ (← instr globals name r)) acc) := by
  induction ds generalizing known acc with
  | nil => exact .pure h
  | cons d ds ih =>
    rw [foldlM_cons]
    have first : Gives known slotsOf (do
        let r ← shape (Record.ofFields d)
        return acc ++ (← instr globals name r)) := by
      refine .lifted fun r => (instr_gives name r).bind fun ls => .pure ?_
      rw [slotsOf, flatMap_append]
      exact append_subset.2 ⟨subset_append_of_subset_right _ h, subset_append_left _ _⟩
    exact first.bind fun acc => ih acc (subset_append_left _ _)

/-- Temporaries are added in order, the code names only words that have been given, and the frame holds all of them, made
even. -/
structure Adds (f : Frame) (c : Compiled) : Prop where
  temps : ∃ ds : List Datum, c.frame.temps = f.temps ++ ds.zipIdx (f.size + 1)
  size : c.frame.size = aligned c.frame.temps.length
  slots : slotsOf c.lines ⊆ c.frame.words
  reserved : reserved? c.lines = some (8 * (c.frame.size : Int))

theorem compileData_adds {name : String} {args body : Datum} (h : compileData globals name args body f = .ok c) : Adds f c := by
  rw [compileData] at h
  obtain ⟨⟨lines, s⟩, hr, h⟩ := bind_eq_ok.1 h
  cases h
  have hact : Gives [] slotsOf (do
      let lines ← begin globals args
      (← shape body.members).foldlM (fun acc d => do
        let r ← shape (Record.ofFields d)
        return acc ++ (← instr globals name r)) lines) := by
    refine Gives.bind (.lifted fun n => entry_gives args n 0 argumentRegs) fun lines => ?_
    exact .lifted fun ds => instrData_gives name ds lines (by simp)
  obtain ⟨⟨ds, htemps, -⟩, -, hslots⟩ := hact _ _ _ (fun p hp => by cases hp) (nil_subset _) hr
  refine ⟨⟨ds, htemps⟩, rfl, ?_, ?_⟩
  · rw [slotsOf] at hslots
    simp only [finish, framed, slotsOf, enter, leave]
    split <;> simpa [Line.slots, clear, Frame.words] using hslots
  · simp [finish, framed, enter, reserved?]

/-- Frames whose words were given in ascending order and end where the counting goes on. -/
structure Frame.Sound (f : Frame) : Prop where
  ascending : f.words.Pairwise (· < ·)
  inside : ∀ k ∈ f.words, k ≤ f.size
  size : f.size = aligned f.temps.length

theorem two_dvd_aligned (n : Nat) : 2 ∣ aligned n := by
  rw [aligned]
  omega

theorem Adds.words (h : Adds f c) : ∃ n, c.frame.words = f.words ++ List.range' (f.size + 1) n ∧
    c.frame.temps.length = f.temps.length + n := by
  obtain ⟨ds, hds⟩ := h.temps
  refine ⟨ds.length, ?_, ?_⟩
  · rw [Frame.words, hds, map_append, zipIdx_map_snd]
    rfl
  · rw [hds, length_append, length_zipIdx]

theorem Adds.ascending (h : Adds f c) (hf : f.Sound) : c.frame.words.Pairwise (· < ·) := by
  obtain ⟨n, hw, -⟩ := h.words
  rw [hw, pairwise_append]
  refine ⟨hf.ascending, pairwise_lt_range', fun k hk m hm => ?_⟩
  have := hf.inside k hk
  rw [mem_range'_1] at hm
  omega

theorem Adds.inside_iff (h : Adds f c) (hf : f.Sound) :
    (∀ k ∈ c.frame.words, k ≤ c.frame.size) ↔ (Odd f.temps.length → Odd c.frame.temps.length) := by
  obtain ⟨n, hw, hlen⟩ := h.words
  rw [h.size, hlen, aligned, Nat.odd_iff, Nat.odd_iff]
  have hsize := hf.size
  rw [aligned] at hsize
  constructor
  · intro hin hodd
    -- The last new word is behind an even number of words that an odd number of temporaries left.
    by_contra heven
    have hlast := hin (f.size + n) (by rw [hw, mem_append, mem_range'_1]; omega)
    omega
  · intro hpar k hk
    rw [hw, mem_append, mem_range'_1] at hk
    rcases hk with hk | hk
    · have := hf.inside k hk
      omega
    · omega

structure Source where
  name : String
  args : Datum
  body : Datum

def compileSeries (globals : Datum) : Frame → List Source → Except Error (List Compiled)
  | _, [] => .ok []
  | f, p :: ps => do
    let c ← compileData globals p.name p.args p.body f
    return c :: (← compileSeries globals c.frame ps)

/-- No two temporaries share a word, the stack stays aligned, and every word that the code names is inside the frame. -/
structure Compiled.Contained (c : Compiled) : Prop where
  distinct : c.frame.words.Nodup
  inside : ∃ n, reserved? c.lines = some n ∧ 16 ∣ n ∧ ∀ k ∈ slotsOf c.lines, 8 * k ≤ n

theorem Adds.aligned (h : Adds f c) : ∃ n, reserved? c.lines = some n ∧ 16 ∣ n := by
  refine ⟨_, h.reserved, ?_⟩
  have := two_dvd_aligned c.frame.temps.length
  rw [h.size]
  omega

theorem Adds.contained (h : Adds f c) (hc : c.frame.Sound) : c.Contained := by
  refine ⟨hc.ascending.imp fun hlt => Nat.ne_of_lt hlt, ?_⟩
  obtain ⟨n, hn, hdvd⟩ := h.aligned
  refine ⟨n, hn, hdvd, fun k hk => ?_⟩
  have hin := hc.inside k (h.slots hk)
  rw [h.reserved, Option.some.injEq] at hn
  omega

def counts (cs : List Compiled) : List Nat := cs.map fun c => c.frame.temps.length

def StaysOdd (ns : List Nat) : Prop := ns.IsChain fun m n => Odd m → Odd n

theorem compileSeries_adds {ps : List Source} {cs : List Compiled} (h : compileSeries globals f ps = .ok cs) :
    ∀ c ∈ cs, ∃ g, Adds g c := by
  induction ps generalizing f cs with
  | nil =>
    cases h
    simp
  | cons p ps ih =>
    obtain ⟨c, hc, h⟩ := bind_eq_ok.1 h
    obtain ⟨cs, hcs, h⟩ := bind_eq_ok.1 h
    cases h
    intro d hd
    rcases mem_cons.1 hd with rfl | hd
    · exact ⟨f, compileData_adds hc⟩
    · exact ih hcs d hd

theorem sound_series {ps : List Source} {cs : List Compiled} (hf : f.Sound) (h : compileSeries globals f ps = .ok cs) :
    (StaysOdd (f.temps.length :: counts cs) → ∀ c ∈ cs, c.frame.Sound) ∧
      (¬ StaysOdd (f.temps.length :: counts cs) → ∃ c ∈ cs, ∃ k ∈ c.frame.words, c.frame.size < k) := by
  induction ps generalizing f cs with
  | nil =>
    cases h
    simp [StaysOdd, counts]
  | cons p ps ih =>
    obtain ⟨c, hc, h⟩ := bind_eq_ok.1 h
    obtain ⟨cs, hcs, h⟩ := bind_eq_ok.1 h
    cases h
    have hadds := compileData_adds hc
    rw [counts, map_cons, StaysOdd, isChain_cons_cons]
    by_cases hin : ∀ k ∈ c.frame.words, k ≤ c.frame.size
    · have hsound : c.frame.Sound := ⟨hadds.ascending hf, hin, hadds.size⟩
      obtain ⟨hkeep, hlose⟩ := ih hsound hcs
      refine ⟨fun ⟨_, hrest⟩ => ?_, fun hnot => ?_⟩
      · intro d hd
        rcases mem_cons.1 hd with rfl | hd
        · exact hsound
        · exact hkeep hrest d hd
      · obtain ⟨d, hd, hk⟩ := hlose fun hrest => hnot ⟨(hadds.inside_iff hf).1 hin, hrest⟩
        exact ⟨d, mem_cons_of_mem c hd, hk⟩
    · refine ⟨fun ⟨hodd, _⟩ => absurd ((hadds.inside_iff hf).2 hodd) hin, fun _ => ?_⟩
      push Not at hin
      exact ⟨c, mem_cons_self, hin⟩

theorem staysOdd_zero_cons {ns : List Nat} : StaysOdd (0 :: ns) ↔ StaysOdd ns := by
  cases ns with
  | nil => simp [StaysOdd]
  | cons n ns => simp [StaysOdd, isChain_cons_cons]

theorem Frame.sound_empty : Frame.empty.Sound := ⟨.nil, by simp [Frame.words, Frame.empty], rfl⟩

/-- Frames keep the stack aligned. Temporaries have words of their own inside them as long as the number of temporaries, once
odd, stays odd; else some temporary gets a word outside the frame of the procedure in which it is met. -/
theorem compileSeries_contained {ps : List Source} {cs : List Compiled} (h : compileSeries globals .empty ps = .ok cs) :
    (∀ c ∈ cs, ∃ n, reserved? c.lines = some n ∧ 16 ∣ n) ∧ (StaysOdd (counts cs) → ∀ c ∈ cs, c.Contained) ∧
      (¬ StaysOdd (counts cs) → ∃ c ∈ cs, ∃ n, reserved? c.lines = some n ∧ ∃ k ∈ c.frame.words, n < 8 * k) := by
  have hadds := compileSeries_adds h
  obtain ⟨hkeep, hlose⟩ := sound_series Frame.sound_empty h
  rw [show Frame.empty.temps.length = 0 from rfl, staysOdd_zero_cons] at hkeep hlose
  refine ⟨fun c hc => ?_, fun hodd c hc => ?_, fun hnot => ?_⟩
  · obtain ⟨f, hf⟩ := hadds c hc
    exact hf.aligned
  · obtain ⟨f, hf⟩ := hadds c hc
    exact hf.contained (hkeep hodd c hc)
  · obtain ⟨c, hc, k, hk, hlt⟩ := hlose hnot
    obtain ⟨f, hf⟩ := hadds c hc
    exact ⟨c, hc, _, hf.reserved, k, hk, by omega⟩

def setting (name : String) (temps : List String) : Source :=
  ⟨name, .list [], .list (temps.map fun t =>
    .dict [("opcode", .str "const"), ("args", .list [.int 1]), ("result", .str t)])⟩

theorem compileSeries_contained_setting : ∃ cs,
    compileSeries (.list []) .empty [setting "p" ["%0", "%1"], setting "q" ["%2"], setting "r" ["%0", "%3", "%4"]] = .ok cs ∧
      counts cs = [2, 3, 5] ∧ ∀ c ∈ cs, c.Contained := by
  obtain ⟨cs, h, hcounts⟩ : ∃ cs, compileSeries (.list []) .empty
      [setting "p" ["%0", "%1"], setting "q" ["%2"], setting "r" ["%0", "%3", "%4"]] = .ok cs ∧ counts cs = [2, 3, 5] :=
    ⟨_, by cbv, rfl⟩
  refine ⟨cs, h, hcounts, (compileSeries_contained h).2.1 ?_⟩
  rw [hcounts, StaysOdd]
  decide

/-- The second procedure's temporary is outside its frame, and the third one's has the same word. -/
theorem not_contained_setting : ∃ c₁ c₂ c₃,
    compileSeries (.list []) .empty [setting "p" ["%0"], setting "q" ["%1"], setting "r" ["%2"]] = .ok [c₁, c₂, c₃] ∧
      reserved? c₂.lines = some 16 ∧ 3 ∈ slotsOf c₂.lines ∧
      c₃.frame.temps = [(.str "%0", 1), (.str "%1", 3), (.str "%2", 3)] := by
  exact ⟨_, _, _, by cbv, rfl, by decide, rfl⟩

end Procedure

end Bx.Asm
