import Bx.Proofs.Blocks.Completion

namespace Bx.Blocks

open List Tac Run.Loose

variable {ls : List Line} {d : Datum} {x : String} {b : Block} {blocks : List (Label × Block)} {edges : Edges}

def Segment (s : List Line) : Prop :=
  ∃ ls e, s = ls ++ [e] ∧ (∀ l ∈ ls, isEnd l.record = false) ∧ isEnd e.record = true

def labelOf (s : List Line) : Option String := s.head?.bind fun l => l.record.label?

def titleOf : List Line → Datum
  | [] => .null
  | l :: _ => l.record.arg 0

def jumpsOf (s : List Line) : List Datum := (code s).filterMap targetOf?

def segments : List Line → List (List Line)
  | [] => []
  | l :: ls => if isEnd l.record then [l] :: segments ls else match segments ls with
    | [] => [[l]]
    | s :: ss => (l :: s) :: ss

theorem flatten_segments (ls : List Line) : (segments ls).flatten = ls := by
  fun_induction segments ls with
  | case1 => rfl
  | case2 l ls _ ih => simp [ih]
  | case3 l ls _ hs ih | case4 l ls _ s ss hs ih =>
    rw [hs] at ih
    simp [← ih]

theorem segment_of_mem_segments (h : ∀ l ∈ ls.getLast?, isEnd l.record) : ∀ s ∈ segments ls, Segment s := by
  induction ls with
  | nil => simp [segments]
  | cons l ls ih =>
    have hlast : ∀ m ∈ ls.getLast?, isEnd m.record := by
      intro m hm
      refine h m ?_
      cases ls with
      | nil => cases hm
      | cons k ls => rwa [List.getLast?_cons_cons]
    have ih := ih hlast
    rw [segments]
    split
    · next hl => exact forall_mem_cons.2 ⟨⟨[], l, rfl, by simp, hl⟩, ih⟩
    · next hl =>
        have hflat := flatten_segments ls
        split
        · next hs =>
            rw [hs] at hflat
            subst hflat
            exact absurd (h l rfl) hl
        · next s ss hs =>
            rw [hs, forall_mem_cons] at ih
            obtain ⟨⟨ms, e, rfl, hms, he⟩, hss⟩ := ih
            exact forall_mem_cons.2 ⟨⟨l :: ms, e, rfl, forall_mem_cons.2 ⟨Bool.eq_false_iff.2 hl, hms⟩, he⟩, hss⟩

structure Cuttable (s : List Line) : Prop where
  segment : Segment s
  title : nameOf s = .ok (titleOf s)
  key : (titleOf s).isKey = true
  jumps : ∀ l ∈ s, isOp "jmp" l = true → arg l 0 = .ok (l.record.arg 0)
  tests : ∀ l ∈ s, isTest l.record = true → arg l 1 = .ok (l.record.arg 1)

theorem nameOf_append {ms : List Line} (h : ls ≠ []) : nameOf (ls ++ ms) = nameOf ls := by
  cases ls with
  | nil => exact absurd rfl h
  | cons l ls => rfl

theorem isEnd_eq_false {r : Record} : isEnd r = false ↔ r.opcode.is "jmp" = false ∧ r.opcode.is "ret" = false := by
  rw [isEnd, Bool.or_eq_false_iff]

theorem isTest_of_ret {r : Record} (h : r.opcode.is "ret") : isTest r = false := by
  rw [Datum.is_iff] at h
  rw [isTest, h]
  rfl

theorem cut_segment {e : Line} (hls : ∀ l ∈ ls, isEnd l.record = false) (he : isEnd e.record) {begun : List Line}
    (hd : nameOf (begun ++ ls ++ [e]) = .ok d) (hkey : d.isKey)
    (hjumps : ∀ l ∈ ls ++ [e], isOp "jmp" l → arg l 0 = .ok (l.record.arg 0))
    (htests : ∀ l ∈ ls ++ [e], isTest l.record → arg l 1 = .ok (l.record.arg 1)) (blocks : List (Label × Block))
    (edges : Edges) (rest : List Line) :
    cut begun blocks edges (ls ++ e :: rest) =
      cut [] (putBlock ⟨d, begun ++ ls ++ [e], [], []⟩ blocks) (edges ++ (jumpsOf (ls ++ [e])).map fun y => (d, y)) rest := by
  induction ls generalizing begun edges with
  | nil =>
    rw [append_nil] at hd
    have hfinish : finish (begun ++ [e]) blocks = .ok (d, putBlock ⟨d, begun ++ [e], [], []⟩ blocks) := by
      simp only [finish, hd, ok_bind, hkey]
      rfl
    rw [nil_append, cut, append_nil]
    cases hj : isOp "jmp" e with
    | true =>
      have harg := hjumps e (by simp) hj
      have htarget : jumpsOf [e] = [e.record.arg 0] := by simp [jumpsOf, code, targetOf?_of_jmp (Datum.is_iff.1 hj)]
      simp only [if_true, hfinish, harg, ok_bind, nil_append, htarget, map_cons, map_nil]
    | false =>
      have hr : isOp "ret" e := by
        rw [isEnd, show e.record.opcode.is "jmp" = false from hj, Bool.false_or] at he
        exact he
      have htarget : jumpsOf [e] = [] := by
        simp [jumpsOf, code, targetOf?, show e.record.opcode.is "jmp" = false from hj, isTest_of_ret hr]
      simp only [Bool.false_eq_true, if_false, hr, if_true, hfinish, ok_bind, nil_append, htarget, map_nil, append_nil]
  | cons l ls ih =>
    rw [forall_mem_cons] at hls
    obtain ⟨hj, hr⟩ := isEnd_eq_false.1 hls.1
    rw [cons_append, forall_mem_cons] at hjumps htests
    have hd' : nameOf (begun ++ [l] ++ ls ++ [e]) = .ok d := by simpa using hd
    have hrest := fun edges => ih hls.2 hd' hjumps.2 htests.2 edges
    rw [cons_append, cut]
    simp only [isOp, hj, hr, Bool.false_eq_true, if_false]
    have hshape : begun ++ (l :: ls) ++ [e] = begun ++ [l] ++ ls ++ [e] := by simp
    rw [hshape]
    have hcons : jumpsOf (l :: ls ++ [e]) = (targetOf? l.record).toList ++ jumpsOf (ls ++ [e]) := by
      rw [jumpsOf, cons_append, code, map_cons, filterMap_cons]
      cases targetOf? l.record <;> rfl
    cases ht : isTest l.record with
    | true =>
      have hname : nameOf (begun ++ [l]) = .ok d := by
        have happ : nameOf ((begun ++ [l]) ++ (ls ++ [e])) = nameOf (begun ++ [l]) := nameOf_append (by simp)
        rw [← happ, ← append_assoc, hd']
      have htarget : targetOf? l.record = some (l.record.arg 1) := by rw [targetOf?, hj, ht]; rfl
      simp only [show isConditional l = true from ht, if_true, hname, htests.1 ht, ok_bind, hrest, hcons, htarget]
      simp
    | false =>
      have htarget : targetOf? l.record = none := by rw [targetOf?, hj, ht]; rfl
      simp only [show isConditional l = false from ht, Bool.false_eq_true, if_false, hrest, hcons, htarget]
      simp

def edgesOf (s : List Line) : Edges := (jumpsOf s).map fun y => (titleOf s, y)

def tabled (ss : List (List Line)) (blocks : List (Label × Block)) : List (Label × Block) :=
  ss.foldl (fun bs s => putBlock ⟨titleOf s, s, [], []⟩ bs) blocks

theorem cut_segments {ss : List (List Line)} (h : ∀ s ∈ ss, Cuttable s) (blocks : List (Label × Block)) (edges : Edges) :
    cut [] blocks edges ss.flatten = .ok (tabled ss blocks, edges ++ ss.flatMap edgesOf) := by
  induction ss generalizing blocks edges with
  | nil => simp [cut, tabled]
  | cons s ss ih =>
    rw [forall_mem_cons] at h
    obtain ⟨⟨ls, e, rfl, hls, he⟩, htitle, hkey, hjumps, htests⟩ := h.1
    have hseg := cut_segment hls he (show nameOf ([] ++ ls ++ [e]) = .ok _ from htitle) hkey hjumps htests blocks edges ss.flatten
    rw [flatten_cons, append_assoc, singleton_append, hseg, ih h.2]
    simp [tabled, edgesOf]

theorem str_same : (Datum.str x).same d ↔ d = .str x := by
  cases d with
  | str y => simpa [Datum.same] using eq_comm
  | _ => simp [Datum.same]

section Table

variable {blocks : List (Label × Block)}

def Known (blocks : List (Label × Block)) (d : Datum) : Prop := ∃ e ∈ blocks, e.1.same d = true

theorem Known.find (h : Known blocks d) : ∃ e ∈ blocks, e.1.same d ∧ find blocks d = .ok e.2 := by
  cases hf : blocks.find? fun e => e.1.same d with
  | none =>
    obtain ⟨e, he, hd⟩ := h
    exact absurd hd (List.find?_eq_none.1 hf e he)
  | some e => exact ⟨e, mem_of_find?_eq_some hf, by simpa using List.find?_some hf, by rw [Blocks.find, hf]⟩

theorem known_of_find (h : find blocks d = .ok b) : ∃ e ∈ blocks, e.1.same d ∧ e.2 = b := by
  rw [find] at h
  split at h
  · next e he =>
      cases h
      exact ⟨e, mem_of_find?_eq_some he, by simpa using List.find?_some he, rfl⟩
  · cases h

theorem find_map (g : Label × Block → Block) (d : Datum) :
    find (blocks.map fun e => (e.1, g e)) d = (match blocks.find? fun e => e.1.same d with
      | some e => .ok (g e)
      | none => .error (.shape (.key d))) := by
  rw [find, List.find?_map]
  simp only [Function.comp_def]
  cases blocks.find? fun e => e.1.same d <;> rfl

theorem Known.putBlock (h : Known blocks d) (b : Block) : Known (putBlock b blocks) d := by
  obtain ⟨e, he, hd⟩ := h
  induction blocks with
  | nil => cases he
  | cons c blocks ih =>
    rw [Blocks.putBlock]
    split
    · rcases mem_cons.1 he with rfl | he
      · exact ⟨(e.1, b), mem_cons_self, hd⟩
      · exact ⟨e, mem_cons_of_mem _ he, hd⟩
    · rcases mem_cons.1 he with rfl | he
      · exact ⟨e, mem_cons_self, hd⟩
      · obtain ⟨e', he', hd'⟩ := ih he
        exact ⟨e', mem_cons_of_mem _ he', hd'⟩

theorem known_putBlock (h : b.label.isKey) : Known (putBlock b blocks) b.label := by
  induction blocks with
  | nil => exact ⟨(b.label, b), mem_singleton.2 rfl, Datum.same_self _ h⟩
  | cons c blocks ih =>
    rw [putBlock]
    split
    · next hc => exact ⟨(c.1, b), mem_cons_self, hc⟩
    · obtain ⟨e, he, hd⟩ := ih
      exact ⟨e, mem_cons_of_mem _ he, hd⟩

theorem find_putBlock_self (h : b.label = .str x) : find (putBlock b blocks) (.str x) = .ok b := by
  induction blocks with
  | nil => simp [putBlock, find, h, Datum.same]
  | cons c blocks ih =>
    rw [putBlock, h]
    split
    · next hc => simp [find, hc]
    · next hc =>
        rw [find] at ih ⊢
        rwa [List.find?_cons, Bool.eq_false_iff.2 hc]

theorem find_putBlock_ne (h : b.label ≠ .str x) : find (putBlock b blocks) (.str x) = find blocks (.str x) := by
  have hb : b.label.same (.str x) = false := by
    rw [Bool.eq_false_iff]
    exact fun hs => h ((same_str _ _).1 hs)
  induction blocks with
  | nil => simp [putBlock, find, hb]
  | cons c blocks ih =>
    rw [putBlock]
    split
    · next hc =>
        have hne : c.1.same (.str x) = false := by
          rw [Bool.eq_false_iff]
          intro hs
          rw [(same_str _ _).1 hs, str_same] at hc
          exact h hc
        rw [find, find, List.find?_cons, List.find?_cons, hne]
    · rw [find] at ih ⊢
      rw [find, List.find?_cons, List.find?_cons]
      cases c.1.same (.str x) with
      | true => rfl
      | false => exact ih

end Table

section Tabled

variable {ss : List (List Line)}

theorem known_tabled (hkeys : ∀ s ∈ ss, (titleOf s).isKey) (h : Known blocks d ∨ ∃ s ∈ ss, titleOf s = d) :
    Known (tabled ss blocks) d := by
  induction ss generalizing blocks with
  | nil => exact h.resolve_right (by simp)
  | cons s ss ih =>
    rw [forall_mem_cons] at hkeys
    refine ih hkeys.2 ?_
    rcases h with h | ⟨s', hs', rfl⟩
    · exact .inl (h.putBlock _)
    · rcases mem_cons.1 hs' with rfl | hs'
      · exact .inl (known_putBlock (b := ⟨titleOf _, _, [], []⟩) hkeys.1)
      · exact .inr ⟨s', hs', rfl⟩

theorem find_tabled_of_ne (h : ∀ s ∈ ss, titleOf s ≠ .str x) (blocks : List (Label × Block)) :
    find (tabled ss blocks) (.str x) = find blocks (.str x) := by
  induction ss generalizing blocks with
  | nil => rfl
  | cons s ss ih =>
    rw [forall_mem_cons] at h
    exact (ih h.2 _).trans (find_putBlock_ne h.1)

theorem find_tabled {as bs : List (List Line)} {s : List Line} (hs : titleOf s = .str x) (hbs : ∀ s' ∈ bs, titleOf s' ≠ .str x)
    (blocks : List (Label × Block)) : find (tabled (as ++ s :: bs) blocks) (.str x) = .ok ⟨.str x, s, [], []⟩ := by
  rw [tabled, foldl_append, foldl_cons, hs]
  exact (find_tabled_of_ne hbs _).trans (find_putBlock_self rfl)

end Tabled

section Link

def joined (k : Label) (b : Block) (a : Label × Label) : Block :=
  let b := if k.same a.1 then { b with succs := b.succs.insert a.2 } else b
  if k.same a.2 then { b with preds := b.preds.insert a.1 } else b

theorem known_map (g : Label × Block → Block) : Known (blocks.map fun e => (e.1, g e)) d ↔ Known blocks d := by
  simp [Known]

theorem update_eq (f : Block → Block) (k : Label) (blocks : List (Label × Block)) :
    update f k blocks = blocks.map fun e => (e.1, if e.1.same k then f e.2 else e.2) := by
  refine map_congr_left fun ⟨l, b⟩ _ => ?_
  change (if l.same k = true then (l, f b) else (l, b)) = (l, if l.same k = true then f b else b)
  split <;> rfl

theorem link_eq {a : Label × Label} (h₁ : Known blocks a.1) (hk : a.2.isKey) (h₂ : Known blocks a.2) :
    link blocks a = .ok (blocks.map fun e => (e.1, joined e.1 e.2 a)) := by
  obtain ⟨e₁, -, -, hf₁⟩ := h₁.find
  have h₂' : Known (update (fun b => { b with succs := b.succs.insert a.2 }) a.1 blocks) a.2 := by
    rw [update_eq]
    exact (known_map _).2 h₂
  obtain ⟨e₂, -, -, hf₂⟩ := h₂'.find
  simp only [link, hf₁, hk, hf₂, ok_bind, Bool.not_true, Bool.false_eq_true, if_false]
  rw [update_eq, update_eq, map_map]
  rfl

theorem foldlM_link (h : ∀ a ∈ edges, Known blocks a.1 ∧ a.2.isKey ∧ Known blocks a.2) :
    edges.foldlM link blocks = .ok (blocks.map fun e => (e.1, edges.foldl (joined e.1) e.2)) := by
  induction edges generalizing blocks with
  | nil =>
    simp only [foldlM_nil, foldl_nil, map_id']
    rfl
  | cons a edges ih =>
    rw [forall_mem_cons] at h
    rw [foldlM_cons, link_eq h.1.1 h.1.2.1 h.1.2.2, ok_bind, ih, map_map]
    · rfl
    · intro a' ha'
      obtain ⟨h₁, hk, h₂⟩ := h.2 a' ha'
      exact ⟨(known_map _).2 h₁, hk, (known_map _).2 h₂⟩

theorem mem_insert_str {y : String} {s : LabelSet} {t : Label} : t ∈ LabelSet.insert (.str y) s ↔ t = .str y ∨ t ∈ s := by
  induction s with
  | nil => simp [LabelSet.insert]
  | cons m s ih =>
    rw [LabelSet.insert]
    split
    · next hm =>
        obtain rfl := (same_str _ _).1 hm
        simp
    · split
      · simp
      · rw [mem_cons, ih, mem_cons]
        tauto

theorem joined_eq (k : Label) (b : Block) (a : Label × Label) :
    (joined k b a).label = b.label ∧ (joined k b a).lines = b.lines ∧
      (joined k b a).succs = if k.same a.1 then b.succs.insert a.2 else b.succs := by
  simp only [joined]
  split <;> split <;> exact ⟨rfl, rfl, rfl⟩

theorem foldl_joined (h : ∀ a ∈ edges, ∃ y, a.2 = .str y) (k : Label) (b : Block) :
    (edges.foldl (joined k) b).label = b.label ∧ (edges.foldl (joined k) b).lines = b.lines ∧
      ∀ t, t ∈ (edges.foldl (joined k) b).succs ↔ t ∈ b.succs ∨ ∃ a ∈ edges, k.same a.1 ∧ t = a.2 := by
  induction edges generalizing b with
  | nil => simp
  | cons a edges ih =>
    rw [forall_mem_cons] at h
    obtain ⟨⟨y, hy⟩, h⟩ := h
    obtain ⟨hl, hls, hs⟩ := joined_eq k b a
    obtain ⟨ihl, ihls, ihs⟩ := ih h (joined k b a)
    refine ⟨ihl.trans hl, ihls.trans hls, fun t => (ihs t).trans ?_⟩
    rw [hs]
    simp only [mem_cons, exists_eq_or_imp]
    split
    · next hk =>
        rw [hy, mem_insert_str]
        tauto
    · next hk => tauto

theorem joined_preds (k : Label) (b : Block) (a : Label × Label) :
    (joined k b a).preds = if k.same a.2 then b.preds.insert a.1 else b.preds := by
  simp only [joined]
  split <;> split <;> rfl

theorem foldl_joined_preds (h : ∀ a ∈ edges, ∃ x, a.1 = .str x) (k : Label) (b : Block) (t : Label) :
    t ∈ (edges.foldl (joined k) b).preds ↔ t ∈ b.preds ∨ ∃ a ∈ edges, k.same a.2 ∧ t = a.1 := by
  induction edges generalizing b with
  | nil => simp
  | cons a edges ih =>
    rw [forall_mem_cons] at h
    obtain ⟨⟨x, hx⟩, h⟩ := h
    rw [foldl_cons, ih h, joined_preds]
    simp only [mem_cons, exists_eq_or_imp]
    by_cases hk : k.same a.2
    · rw [if_pos hk, hx, mem_insert_str]
      tauto
    · rw [if_neg hk]
      tauto

end Link

end Bx.Blocks
