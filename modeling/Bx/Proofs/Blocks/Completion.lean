import Bx.Proofs.Blocks.Code

namespace Bx.Blocks

open List Tac Run.Loose

variable {name x : String} {k fresh : Nat} {l p : Line} {rest ls out : List Line}

def entryName (name : String) : String := ".Lentry_" ++ name

def jumpName (name : String) (k : Nat) : String := ".Ljmp_" ++ name ++ "_" ++ toString k

theorem jumpName_inj {j : Nat} : jumpName name j = jumpName name k ↔ j = k := append_toString_inj

theorem entryName_ne_jumpName (name : String) (k : Nat) : entryName name ≠ jumpName name k := by
  intro h
  have hlist := congrArg String.toList h
  simp [entryName, jumpName] at hlist

/-- No label has a name that is given on completion, and what follows a return, unless it is a label, is not named like one
further up. -/
structure Clear (name : String) (b : List Record) : Prop where
  entry : (∀ r ∈ b.head?, r.opcode.is "label" = false) → entryName name ∉ labelNames b
  jumps : ∀ r m c, r :: m :: c <:+ b → r.opcode.is "jmp" = true → m.opcode.is "label" = false → ∀ k, jumpName name k ∉ labelNames b
  dead : ∀ r m c, r :: m :: c <:+ b → r.opcode.is "ret" = true → m.opcode.is "label" = false →
    ∃ d xs, m.args = .list (d :: xs) ∧ d.isKey = true ∧
      ∀ x, d = .str x → x ≠ entryName name ∧ (∀ k, x ≠ jumpName name k) ∧ (x ∈ labelNames b → x ∈ labelNames c)

theorem arg_of_list {d : Datum} {xs : List Datum} (h : l.record.args = .list xs) (hk : xs[k]? = some d) : arg l k = .ok d := by
  obtain ⟨hlt, rfl⟩ := List.getElem?_eq_some_iff.1 hk
  simp [arg, h, Datum.item, Datum.pick, Datum.position?, hlt, Except.mapError]

theorem arg_eq_str (h : ∃ xs, l.record.args = .list xs) (hx : l.record.arg k = .str x) : arg l k = .ok (.str x) := by
  obtain ⟨xs, hxs⟩ := h
  rw [Record.arg, hxs] at hx
  refine arg_of_list hxs ?_
  cases hk : xs[k]? with
  | none => simp [hk] at hx
  | some d => simpa [hk] using hx

inductive Completion (name : String) : Nat → Nat → Line → List Line → List Line → Prop
  | nil {fresh count p : _} (hp : isEnd p.record = true) : Completion name fresh count p [] []
  | reached {fresh count p l rest out : _} (hl : isOp "label" l = true) (hp : isOp "jmp" p = true)
      (h : Completion name fresh count l rest out) :
      Completion name fresh count p (l :: rest) (l :: out)
  | jumped {fresh count p l x rest out : _} (hl : l.record.label? = some x) (hp : isOp "jmp" p = false)
      (h : Completion name (fresh + 1) count l rest out) :
      Completion name fresh count p (l :: rest) (⟨fresh, record "jmp" [.str x]⟩ :: l :: out)
  | labelled {fresh count p l rest out : _} (hl : isOp "label" l = false) (hp : isOp "jmp" p = true)
      (h : Completion name (fresh + 1) (count + 1) l rest out) :
      Completion name fresh count p (l :: rest) (⟨fresh, record "label" [.str (jumpName name (count + 1))]⟩ :: l :: out)
  | plain {fresh count p l rest out : _} (hl : isOp "label" l = false) (hp : isOp "jmp" p = false)
      (h : Completion name fresh count l rest out) :
      Completion name fresh count p (l :: rest) (l :: out)

theorem exists_completion (name : String)
    (hl : ∀ l ∈ rest, isOp "label" l → ∃ x, l.record.label? = some x ∧ arg l 0 = .ok (.str x))
    (he : ∃ l, (p :: rest).getLast? = some l ∧ isEnd l.record) (fresh count : Nat) :
    ∃ out, complete name fresh count p rest = .ok out ∧ Completion name fresh count p rest out := by
  induction rest generalizing p fresh count with
  | nil =>
    obtain ⟨l, hlast, hend⟩ := he
    cases hlast
    exact ⟨[], by rw [complete]; exact if_pos hend, .nil hend⟩
  | cons l rest ih =>
    rw [List.getLast?_cons_cons] at he
    have ih := fun fresh count => ih (fun m hm => hl m (mem_cons_of_mem l hm)) he fresh count
    have hline := hl l mem_cons_self
    cases hlabel : isOp "label" l with
    | true =>
      cases hp : isOp "jmp" p with
      | true =>
        obtain ⟨out, hout, h⟩ := ih fresh count
        exact ⟨l :: out, by simp only [complete, hlabel, hp, if_true, hout, ok_bind]; rfl, .reached hlabel hp h⟩
      | false =>
        obtain ⟨x, hx, harg⟩ := hline hlabel
        obtain ⟨out, hout, h⟩ := ih (fresh + 1) count
        exact ⟨_, by simp only [complete, hlabel, hp, if_true, Bool.false_eq_true, if_false, harg, hout, ok_bind]; rfl,
          .jumped hx hp h⟩
    | false =>
      cases hp : isOp "jmp" p with
      | true =>
        obtain ⟨out, hout, h⟩ := ih (fresh + 1) (count + 1)
        exact ⟨_, by simp only [complete, hlabel, hp, if_true, Bool.false_eq_true, if_false, hout, ok_bind]; rfl,
          .labelled hlabel hp h⟩
      | false =>
        obtain ⟨out, hout, h⟩ := ih fresh count
        exact ⟨_, by simp only [complete, hlabel, hp, Bool.false_eq_true, if_false, hout, ok_bind]; rfl, .plain hlabel hp h⟩

theorem label?_record (x : String) : (record "label" [.str x]).label? = some x := rfl

theorem label?_jump (x : String) : (record "jmp" [.str x]).label? = none := rfl

theorem isOp_of_label? (h : l.record.label? = some x) : isOp "label" l :=
  Datum.is_iff.2 (label?_eq_some.1 h).1

theorem label?_of_isOp (h : isOp "label" l = false) : l.record.label? = none := by
  rw [Record.label?, if_neg (by rw [show l.record.opcode.is "label" = false from h]; simp)]

def Flush (l m : Line) : Prop := isOp "jmp" l = isOp "label" m

namespace Completion

variable {name : String} {fresh count : Nat} {p : Line} {rest out : List Line} (h : Completion name fresh count p rest out)
include h

theorem padded : Padded (code rest) (code out) := by
  induction h with
  | nil => exact .nil
  | reached _ _ _ ih | plain _ _ _ ih => exact .same ih
  | jumped hl _ _ ih => exact .jump hl rfl rfl ih
  | labelled _ _ _ ih => exact .label (label?_record _) (.same ih)

theorem flush : (p :: out).IsChain Flush := by
  induction h with
  | nil => exact .singleton _
  | reached hl hp _ ih => exact .cons_cons (hp.trans hl.symm) ih
  | jumped hl hp _ ih => exact .cons_cons hp (.cons_cons (isOp_of_label? hl).symm ih)
  | labelled hl hp _ ih => exact .cons_cons hp (.cons_cons hl.symm ih)
  | plain hl hp _ ih => exact .cons_cons (hp.trans hl.symm) ih

theorem ends : ∃ l, (p :: out).getLast? = some l ∧ isEnd l.record := by
  induction h with
  | nil hp => exact ⟨_, rfl, hp⟩
  | reached _ _ _ ih | plain _ _ _ ih => rwa [List.getLast?_cons_cons]
  | jumped _ _ _ ih | labelled _ _ _ ih => rwa [List.getLast?_cons_cons, List.getLast?_cons_cons]

theorem lines : ∀ m ∈ out, m ∈ rest ∨ (∃ x, m.record = record "label" [.str x]) ∨
    ∃ x ∈ labelNames (code rest), m.record = record "jmp" [.str x] := by
  have up : ∀ {l : Line} {rest : List Line} {m : Line}, (m ∈ rest ∨ (∃ x, m.record = record "label" [.str x]) ∨
      ∃ x ∈ labelNames (code rest), m.record = record "jmp" [.str x]) → m ∈ l :: rest ∨ (∃ x, m.record = record "label" [.str x]) ∨
      ∃ x ∈ labelNames (code (l :: rest)), m.record = record "jmp" [.str x] := by
    rintro l rest m (hm | hm | ⟨x, hx, hm⟩)
    · exact .inl (mem_cons_of_mem l hm)
    · exact .inr (.inl hm)
    · exact .inr (.inr ⟨x, (List.Sublist.filterMap _ (sublist_cons_self _ _)).subset hx, hm⟩)
  induction h with
  | nil => simp
  | reached _ _ _ ih | plain _ _ _ ih => exact forall_mem_cons.2 ⟨.inl mem_cons_self, fun m hm => up (ih m hm)⟩
  | @jumped _ _ _ l x _ _ hl _ _ ih =>
    refine forall_mem_cons.2 ⟨.inr (.inr ⟨x, ?_, rfl⟩), forall_mem_cons.2 ⟨.inl mem_cons_self, fun m hm => up (ih m hm)⟩⟩
    simp [code, labelNames, hl]
  | labelled _ _ _ ih =>
    exact forall_mem_cons.2 ⟨.inr (.inl ⟨_, rfl⟩), forall_mem_cons.2 ⟨.inl mem_cons_self, fun m hm => up (ih m hm)⟩⟩

theorem labels : ∃ made, (labelNames (code out)).Perm (made ++ labelNames (code rest)) ∧ made.Nodup ∧
    (∀ x ∈ made, ∃ k, count < k ∧ x = jumpName name k) ∧
    (made ≠ [] → ∃ r m cs, r :: m :: cs <:+ p :: rest ∧ isOp "jmp" r ∧ isOp "label" m = false) := by
  induction h with
  | nil => exact ⟨[], .refl _, nodup_nil, by simp, by simp⟩
  | @reached _ _ p l rest out _ _ _ ih =>
    obtain ⟨made, hperm, hnodup, hnames, hgap⟩ := ih
    refine ⟨made, ?_, hnodup, hnames, fun hne => ?_⟩
    · simp only [code, labelNames, map_cons, filterMap_cons] at hperm ⊢
      cases l.record.label? with
      | none => exact hperm
      | some x => exact (hperm.cons x).trans perm_middle.symm
    · obtain ⟨r, m, cs, hs, hr, hm⟩ := hgap hne
      exact ⟨r, m, cs, hs.trans (suffix_cons p _), hr, hm⟩
  | @jumped _ _ p l x rest out hl _ _ ih =>
    obtain ⟨made, hperm, hnodup, hnames, hgap⟩ := ih
    refine ⟨made, ?_, hnodup, hnames, fun hne => ?_⟩
    · simp only [code, labelNames, map_cons, filterMap_cons, label?_jump, hl] at hperm ⊢
      exact (hperm.cons x).trans perm_middle.symm
    · obtain ⟨r, m, cs, hs, hr, hm⟩ := hgap hne
      exact ⟨r, m, cs, hs.trans (suffix_cons p _), hr, hm⟩
  | @labelled _ count p l rest out hl hp _ ih =>
    obtain ⟨made, hperm, hnodup, hnames, -⟩ := ih
    refine ⟨jumpName name (count + 1) :: made, ?_, nodup_cons.2 ⟨fun hmem => ?_, hnodup⟩, ?_, fun _ => ?_⟩
    · simp only [code, labelNames, map_cons, filterMap_cons, label?_record, label?_of_isOp hl] at hperm ⊢
      exact hperm.cons _
    · obtain ⟨k, hk, he⟩ := hnames _ hmem
      rw [jumpName_inj] at he
      omega
    · rw [forall_mem_cons]
      refine ⟨⟨count + 1, by omega, rfl⟩, fun x hx => ?_⟩
      obtain ⟨k, hk, he⟩ := hnames x hx
      exact ⟨k, by omega, he⟩
    · exact ⟨p, l, rest, suffix_rfl, hp, hl⟩
  | @plain _ _ p l rest out hl _ _ ih =>
    obtain ⟨made, hperm, hnodup, hnames, hgap⟩ := ih
    refine ⟨made, ?_, hnodup, hnames, fun hne => ?_⟩
    · simp only [code, labelNames, map_cons, filterMap_cons, label?_of_isOp hl] at hperm ⊢
      exact hperm
    · obtain ⟨r, m, cs, hs, hr, hm⟩ := hgap hne
      exact ⟨r, m, cs, hs.trans (suffix_cons p _), hr, hm⟩

theorem dead {r m : Line} {cs : List Line} (hs : r :: m :: cs <:+ p :: out) (hr : isOp "ret" r) :
    (∃ x ∈ labelNames (code cs), m.record = record "jmp" [.str x]) ∨
      isOp "label" m = false ∧ ∃ cs₀, r :: m :: cs₀ <:+ p :: rest ∧ labelNames (code cs₀) ⊆ labelNames (code cs) := by
  have not_jmp : ∀ {l : Line}, isOp "jmp" l → isOp "ret" l → False := by
    intro l hj hret
    rw [isOp, Datum.is_iff] at hj hret
    simp [hj] at hret
  have up : ∀ {p l : Line} {rest : List Line}, (isOp "label" m = false ∧ ∃ cs₀, r :: m :: cs₀ <:+ l :: rest ∧
      labelNames (code cs₀) ⊆ labelNames (code cs)) → isOp "label" m = false ∧ ∃ cs₀, r :: m :: cs₀ <:+ p :: l :: rest ∧
      labelNames (code cs₀) ⊆ labelNames (code cs) := by
    rintro p l rest ⟨hm, cs₀, hcs, hsub⟩
    exact ⟨hm, cs₀, hcs.trans (suffix_cons p _), hsub⟩
  induction h with
  | nil =>
    have := hs.length_le
    simp at this
  | @reached _ _ p l rest out _ hp _ ih =>
    rcases suffix_cons_iff.1 hs with he | hs
    · cases he
      exact (not_jmp hp hr).elim
    · exact (ih hs).imp_right up
  | @jumped _ _ p l x rest out hl _ _ ih =>
    rcases suffix_cons_iff.1 hs with he | hs
    · cases he
      exact .inl ⟨x, by simp [code, labelNames, hl], rfl⟩
    · rcases suffix_cons_iff.1 hs with he | hs
      · cases he
        cases hr
      · exact (ih hs).imp_right up
  | @labelled _ _ p l rest out _ hp _ ih =>
    rcases suffix_cons_iff.1 hs with he | hs
    · cases he
      exact (not_jmp hp hr).elim
    · rcases suffix_cons_iff.1 hs with he | hs
      · cases he
        cases hr
      · exact (ih hs).imp_right up
  | @plain _ _ p l rest out hl _ h ih =>
    rcases suffix_cons_iff.1 hs with he | hs
    · cases he
      exact .inr ⟨hl, rest, suffix_rfl, h.padded.labels_sublist.subset⟩
    · exact (ih hs).imp_right up

omit h in
theorem ids (h : Completion name fresh count p rest out) (hn : ((p :: rest).map Line.id).Nodup) (hlt : ∀ m ∈ p :: rest, m.id < fresh) :
    ((p :: out).map Line.id).Nodup ∧ ∀ m ∈ out, m ∈ rest ∨ fresh ≤ m.id := by
  have apart : ∀ {fresh : Nat} {m : Line} {rest out : List Line}, (∀ k ∈ out, k ∈ rest ∨ fresh ≤ k.id) → m.id < fresh →
      m.id ∉ rest.map Line.id → m.id ∉ out.map Line.id := by
    intro fresh m rest out hout hm hrest hmem
    obtain ⟨k, hk, he⟩ := mem_map.1 hmem
    rcases hout k hk with hk | hk
    · exact hrest (he ▸ mem_map_of_mem hk)
    · omega
  induction h with
  | nil => exact ⟨by simp, by simp⟩
  | @reached fresh _ p l rest out _ _ _ ih | @plain fresh _ p l rest out _ _ _ ih =>
    rw [map_cons, nodup_cons] at hn
    rw [forall_mem_cons] at hlt
    obtain ⟨hnodup, hold⟩ := ih hn.2 hlt.2
    have hold' : ∀ m ∈ l :: out, m ∈ l :: rest ∨ fresh ≤ m.id :=
      forall_mem_cons.2 ⟨.inl mem_cons_self, fun m hm => (hold m hm).imp_left (mem_cons_of_mem l)⟩
    exact ⟨nodup_cons.2 ⟨apart hold' hlt.1 hn.1, hnodup⟩, hold'⟩
  | @jumped fresh _ p l _ rest out _ _ _ ih | @labelled fresh _ p l rest out _ _ _ ih =>
    rw [map_cons, nodup_cons] at hn
    rw [forall_mem_cons] at hlt
    obtain ⟨hnodup, hold⟩ := ih hn.2 fun m hm => Nat.lt_succ_of_lt (hlt.2 m hm)
    have hold' : ∀ m ∈ l :: out, m ∈ l :: rest ∨ fresh + 1 ≤ m.id :=
      forall_mem_cons.2 ⟨.inl mem_cons_self, fun m hm => (hold m hm).imp_left (mem_cons_of_mem l)⟩
    have hfresh : fresh ∉ (l :: out).map Line.id := by
      intro hmem
      obtain ⟨k, hk, he⟩ := mem_map.1 hmem
      rcases hold' k hk with hk | hk
      · have := hlt.2 k hk
        omega
      · omega
    refine ⟨nodup_cons.2 ⟨?_, nodup_cons.2 ⟨hfresh, hnodup⟩⟩, forall_mem_cons.2 ⟨.inr le_rfl, fun m hm => ?_⟩⟩
    · rw [map_cons, mem_cons, not_or]
      exact ⟨fun he => by have := hlt.1; simp only at he; omega, apart hold' (Nat.lt_succ_of_lt hlt.1) hn.1⟩
    · exact (hold' m hm).imp_right Nat.le_of_succ_le

end Completion

/-- Code whose labels have names and whose jumps lead to these. -/
structure Addressed (ls : List Line) : Prop where
  named : ∀ l ∈ ls, isOp "label" l = true → ∃ x, l.record.label? = some x
  args : ∀ l ∈ ls, ∃ xs, l.record.args = .list xs
  closed : Inward (code ls)

/-- Every jump is followed by a label, and every label but the first stands behind one. -/
structure Filled (ls : List Line) : Prop extends Addressed ls where
  head : ∃ l rest x, ls = l :: rest ∧ l.record.label? = some x
  flush : ls.IsChain Flush
  ends : ∃ l, ls.getLast? = some l ∧ isEnd l.record = true

structure Complete (ls : List Line) : Prop extends Filled ls where
  nodup : (labelNames (code ls)).Nodup
  dead : ∀ r m cs, r :: m :: cs <:+ ls → isOp "ret" r = true → ∃ d xs, m.record.args = .list (d :: xs) ∧ d.isKey = true ∧
    ∀ x ∈ labelNames (code ls), d = .str x → x ∈ labelNames (code cs)

theorem code_suffix {ms : List Line} (h : ls <:+ ms) : code ls <:+ code ms := h.map _

theorem Body.addressed (h : Body (code ls)) : Addressed ls :=
  ⟨fun _ hl => h.labelled.named _ (mem_map_of_mem hl), fun _ hl => h.args _ (mem_map_of_mem hl), h.closed⟩

theorem Complete.labelled (h : Complete ls) : Labelled (code ls) := by
  refine ⟨fun r hr => ?_, h.nodup⟩
  obtain ⟨l, hl, rfl⟩ := mem_map.1 hr
  exact h.named l hl

theorem Addressed.named_line (h : Addressed ls) (hl : l ∈ ls) (hop : isOp "label" l) :
    ∃ x, l.record.label? = some x ∧ arg l 0 = .ok (.str x) := by
  obtain ⟨x, hx⟩ := h.named l hl hop
  exact ⟨x, hx, arg_eq_str (h.args l hl) (label?_eq_some.1 hx).2⟩

theorem Completion.filled {count : Nat} (h : Completion name fresh count l rest out) (hl : isOp "label" l)
    (ha : Addressed (l :: rest)) : Filled (l :: out) := by
  have hpad : Padded (code (l :: rest)) (code (l :: out)) := .same h.padded
  have hsub := hpad.labels_sublist.subset
  have hline : ∀ m ∈ l :: out, m ∈ l :: rest ∨ (∃ x, m.record = record "label" [.str x]) ∨
      ∃ x ∈ labelNames (code (l :: rest)), m.record = record "jmp" [.str x] := by
    rw [forall_mem_cons]
    refine ⟨.inl mem_cons_self, fun m hm => (h.lines m hm).imp (mem_cons_of_mem l) (Or.imp_right ?_)⟩
    exact Exists.imp fun y hy => ⟨(List.Sublist.filterMap _ (sublist_cons_self _ _)).subset hy.1, hy.2⟩
  obtain ⟨x, hx⟩ := ha.named l mem_cons_self hl
  refine ⟨⟨fun m hm hop => ?_, fun m hm => ?_, fun r hr y hy => ?_⟩, ⟨l, out, x, rfl, hx⟩, h.flush, h.ends⟩
  · rcases hline m hm with hm | ⟨y, hy⟩ | ⟨y, -, hy⟩
    · exact ha.named m hm hop
    · exact ⟨y, by rw [hy, label?_record]⟩
    · rw [isOp, hy] at hop
      cases hop
  · rcases hline m hm with hm | ⟨y, hy⟩ | ⟨y, -, hy⟩
    · exact ha.args m hm
    · exact ⟨_, by rw [hy]; rfl⟩
    · exact ⟨_, by rw [hy]; rfl⟩
  · obtain ⟨m, hm, rfl⟩ := mem_map.1 hr
    rcases hline m hm with hm | ⟨z, hz⟩ | ⟨z, hz, he⟩
    · obtain ⟨z, hz, rfl⟩ := ha.closed _ (mem_map_of_mem hm) y hy
      exact ⟨z, hsub hz, rfl⟩
    · rw [hz] at hy
      cases hy
    · rw [he] at hy
      cases hy
      exact ⟨z, hsub hz, rfl⟩

theorem Completion.complete (h : Completion name fresh 0 l rest out) (hl : isOp "label" l) (hb : Body (code (l :: rest)))
    (hc : Clear name (code (l :: rest))) : Complete (l :: out) := by
  obtain ⟨x, hx⟩ := hb.addressed.named l mem_cons_self hl
  obtain ⟨made, hperm, hmade, hnames, hgap⟩ := h.labels
  have hlabels : (labelNames (code (l :: out))).Perm (made ++ labelNames (code (l :: rest))) := by
    simp only [code, labelNames, map_cons, filterMap_cons, hx] at hperm ⊢
    exact (hperm.cons x).trans perm_middle.symm
  have hnew : ∀ y ∈ made, y ∉ labelNames (code (l :: rest)) := by
    intro y hy
    obtain ⟨k, -, rfl⟩ := hnames y hy
    obtain ⟨r, m, cs, hs, hr, hm⟩ := hgap (ne_nil_of_mem hy)
    exact hc.jumps _ _ _ (code_suffix hs) hr hm k
  refine ⟨h.filled hl hb.addressed, ?_, fun r m cs hs hr => ?_⟩
  · refine hlabels.nodup_iff.2 (nodup_append.2 ⟨hmade, hb.labelled.nodup, ?_⟩)
    rintro y hy _ hy' rfl
    exact hnew y hy hy'
  · rcases h.dead hs hr with ⟨y, hy, he⟩ | ⟨hm, cs₀, hcs, hsub'⟩
    · exact ⟨.str y, [], by rw [he]; rfl, rfl, fun z _ hz => by cases hz; exact hy⟩
    · obtain ⟨d, xs, hargs, hkey, hd⟩ := hc.dead _ _ _ (code_suffix hcs) hr hm
      refine ⟨d, xs, hargs, hkey, fun z hz he => ?_⟩
      obtain ⟨-, hjump, hdown⟩ := hd z he
      rcases mem_append.1 (hlabels.subset hz) with hz | hz
      · obtain ⟨k, -, rfl⟩ := hnames z hz
        exact absurd rfl (hjump k)
      · exact hsub' (hdown hz)

theorem withEntry_spec (name : String) (fresh : Nat) (hb : Body (code ls)) (hc : Clear name (code ls)) :
    ∃ l rest x, withEntry name fresh ls = .ok (.str x, l :: rest) ∧ l.record.label? = some x ∧ Body (code (l :: rest)) ∧
      Clear name (code (l :: rest)) ∧ (ls = l :: rest ∨ rest = ls ∧ l.id = fresh) := by
  cases ls with
  | nil =>
    obtain ⟨r, hr, -⟩ := hb.ends
    cases hr
  | cons l rest =>
    cases hl : isOp "label" l with
    | true =>
      obtain ⟨x, hx, harg⟩ := hb.addressed.named_line mem_cons_self hl
      exact ⟨l, rest, x, by simp only [withEntry, hl, if_true, harg, ok_bind]; rfl, hx, hb, hc, .inl rfl⟩
    | false =>
      have hx : (record "label" [.str (entryName name)]).label? = some (entryName name) := label?_record _
      have hentry : entryName name ∉ labelNames (code (l :: rest)) := hc.entry fun r hr => by cases hr; exact hl
      have hlabels : labelNames (record "label" [.str (entryName name)] :: code (l :: rest)) =
          entryName name :: labelNames (code (l :: rest)) := by rw [labelNames, filterMap_cons, hx]; rfl
      have down : ∀ {r m : Record} {c : List Record} {op : String}, r :: m :: c <:+ record "label" [.str (entryName name)] :: code (l :: rest) →
          r.opcode.is op → op ≠ "label" → r :: m :: c <:+ code (l :: rest) := by
        intro r m c op hs hop hne
        rcases suffix_cons_iff.1 hs with he | hs
        · cases he
          rw [Datum.is_iff] at hop
          exact absurd (Datum.str.inj hop).symm hne
        · exact hs
      refine ⟨⟨fresh, record "label" [.str (entryName name)]⟩, l :: rest, entryName name, ?_, hx, ?_, ?_, .inr ⟨rfl, rfl⟩⟩
      · simp only [withEntry, hl, Bool.false_eq_true, if_false]
        rfl
      · refine ⟨⟨forall_mem_cons.2 ⟨fun _ => ⟨_, hx⟩, hb.labelled.named⟩, ?_⟩, forall_mem_cons.2 ⟨⟨_, rfl⟩, hb.args⟩,
          forall_mem_cons.2 ⟨fun y hy => (by cases hy), fun r hr y hy => ?_⟩, ?_⟩
        · exact hlabels ▸ nodup_cons.2 ⟨hentry, hb.labelled.nodup⟩
        · obtain ⟨z, hz, rfl⟩ := hb.closed r hr y hy
          exact ⟨z, hlabels ▸ mem_cons_of_mem _ hz, rfl⟩
        · obtain ⟨r, hr, hend⟩ := hb.ends
          exact ⟨r, by rw [← hr]; exact List.getLast?_cons_cons, hend⟩
      · refine ⟨fun h => absurd (h _ rfl) (by simp [record, Record.of, Datum.is]), fun r m c hs hr hm k => ?_, fun r m c hs hr hm => ?_⟩
        · refine fun hk => (hc.jumps r m c (down hs hr (by decide)) hr hm k) ?_
          rcases mem_cons.1 (hlabels ▸ hk) with he | hk
          · exact absurd he.symm (entryName_ne_jumpName name k)
          · exact hk
        · obtain ⟨d, xs, hargs, hkey, hd⟩ := hc.dead r m c (down hs hr (by decide)) hr hm
          refine ⟨d, xs, hargs, hkey, fun x hx => ⟨(hd x hx).1, (hd x hx).2.1, fun hmem => (hd x hx).2.2 ?_⟩⟩
          exact (mem_cons.1 (hlabels ▸ hmem)).resolve_left (hd x hx).1

theorem completed_of_withEntry {d : Datum} (he : withEntry name fresh ls = .ok (d, l :: rest))
    (hout : complete name (fresh + 1) 0 l rest = .ok out) : completed name fresh ls = .ok (d, l :: out) := by
  simp only [completed, he, ok_bind, hout]
  rfl

theorem completed_spec (name : String) (fresh : Nat) (hb : Body (code ls)) (hc : Clear name (code ls)) :
    ∃ x l out, completed name fresh ls = .ok (.str x, l :: out) ∧ l.record.label? = some x ∧ Complete (l :: out) ∧
      Padded (code ls) (code (l :: out)) ∧
      ((ls.map Line.id).Nodup → (∀ m ∈ ls, m.id < fresh) → ((l :: out).map Line.id).Nodup) := by
  obtain ⟨l, rest, x, hentry, hx, hb', hc', hls⟩ := withEntry_spec name fresh hb hc
  have hlast : ∃ m, (l :: rest).getLast? = some m ∧ isEnd m.record := by
    obtain ⟨r, hr, hend⟩ := hb'.ends
    rw [code, List.getLast?_map, Option.map_eq_some_iff] at hr
    obtain ⟨m, hm, rfl⟩ := hr
    exact ⟨m, hm, hend⟩
  obtain ⟨out, hout, h⟩ := exists_completion name (fun m hm => hb'.addressed.named_line (mem_cons_of_mem l hm)) hlast (fresh + 1) 0
  refine ⟨x, l, out, completed_of_withEntry hentry hout, hx, h.complete (isOp_of_label? hx) hb' hc', ?_, fun hids hlt => ?_⟩
  · rcases hls with rfl | ⟨rfl, -⟩
    · exact .same h.padded
    · exact .label hx h.padded
  · rcases hls with rfl | ⟨rfl, hid⟩
    · exact (h.ids hids fun m hm => Nat.lt_succ_of_lt (hlt m hm)).1
    · refine (h.ids (nodup_cons.2 ⟨fun hmem => ?_, hids⟩) (forall_mem_cons.2 ⟨by omega, fun m hm => Nat.lt_succ_of_lt (hlt m hm)⟩)).1
      obtain ⟨m, hm, he⟩ := mem_map.1 hmem
      have := hlt m hm
      omega

theorem exists_complete_append (name : String) (hp : ∀ l ∈ (p :: rest).getLast?, isEnd l.record = false) (fresh count : Nat) :
    ∃ n, complete name fresh count p (rest ++ [⟨n, record "ret" []⟩]) = complete name fresh count p rest := by
  induction rest generalizing p fresh count with
  | nil =>
    have hend : isOp "jmp" p = false ∧ isOp "ret" p = false := Bool.or_eq_false_iff.1 (hp p rfl)
    refine ⟨fresh, ?_⟩
    simp only [nil_append, complete, hend, Bool.or_self, Bool.false_eq_true, if_false]
    rfl
  | cons l rest ih =>
    rw [List.getLast?_cons_cons] at hp
    have ih := fun fresh count => ih hp fresh count
    simp only [cons_append, complete]
    cases isOp "label" l <;> cases isOp "jmp" p <;> simp only [if_true, Bool.false_eq_true, if_false]
    · exact (ih fresh count).imp fun n hn => by rw [hn]
    · exact (ih (fresh + 1) (count + 1)).imp fun n hn => by rw [hn]
    · exact (ih (fresh + 1) count).imp fun n hn => by rw [hn]
    · exact (ih fresh count).imp fun n hn => by rw [hn]

theorem Addressed.append_ret (h : Addressed ls) (n : Nat) : Addressed (ls ++ [⟨n, record "ret" []⟩]) := by
  refine ⟨fun l hl hop => ?_, fun l hl => ?_, fun r hr y hy => ?_⟩
  · rcases mem_append.1 hl with hl | hl
    · exact h.named l hl hop
    · rw [mem_singleton.1 hl] at hop
      cases hop
  · rcases mem_append.1 hl with hl | hl
    · exact h.args l hl
    · exact ⟨[], by rw [mem_singleton.1 hl]; rfl⟩
  · rw [code, map_append, mem_append] at hr
    rcases hr with hr | hr
    · obtain ⟨x, hx, rfl⟩ := h.closed r hr y hy
      exact ⟨x, by simp [code_append, labelNames_append, hx], rfl⟩
    · rw [mem_singleton.1 hr] at hy
      cases hy

theorem Addressed.exists_complete (h : Addressed (l :: rest)) (hl : isOp "label" l) (fresh count : Nat) :
    ∃ out, complete name fresh count l rest = .ok out ∧ Filled (l :: out) := by
  by_cases hend : ∃ m, (l :: rest).getLast? = some m ∧ isEnd m.record
  · obtain ⟨out, hout, hc⟩ := exists_completion name (fun m hm => h.named_line (mem_cons_of_mem l hm)) hend fresh count
    exact ⟨out, hout, hc.filled hl h⟩
  · have hopen : ∀ m ∈ (l :: rest).getLast?, isEnd m.record = false := fun m hm =>
      Bool.eq_false_iff.2 fun he => hend ⟨m, hm, he⟩
    obtain ⟨n, hn⟩ := exists_complete_append name hopen fresh count
    have h' : Addressed (l :: (rest ++ [⟨n, record "ret" []⟩])) := h.append_ret n
    obtain ⟨out, hout, hc⟩ := exists_completion name (fun m hm => h'.named_line (mem_cons_of_mem l hm))
      ⟨⟨n, record "ret" []⟩, List.getLast?_concat (l := l :: rest), rfl⟩ fresh count
    exact ⟨out, hn ▸ hout, hc.filled hl h'⟩

theorem Addressed.exists_completed (name : String) (fresh : Nat) (h : Addressed ls) (hne : ls ≠ []) :
    ∃ x out, completed name fresh ls = .ok (.str x, out) ∧ Filled out := by
  obtain ⟨l, rest, rfl⟩ := exists_cons_of_ne_nil hne
  cases hl : isOp "label" l with
  | true =>
    obtain ⟨x, -, harg⟩ := h.named_line mem_cons_self hl
    obtain ⟨out, hout, hf⟩ := h.exists_complete hl (fresh + 1) 0
    refine ⟨x, l :: out, completed_of_withEntry ?_ hout, hf⟩
    simp only [withEntry, hl, if_true, harg, ok_bind]
    rfl
  | false =>
    have hx : (record "label" [.str (entryName name)]).label? = some (entryName name) := label?_record _
    have h' : Addressed (⟨fresh, record "label" [.str (entryName name)]⟩ :: l :: rest) := by
      refine ⟨forall_mem_cons.2 ⟨fun _ => ⟨_, hx⟩, h.named⟩, forall_mem_cons.2 ⟨⟨_, rfl⟩, h.args⟩,
        forall_mem_cons.2 ⟨fun y hy => (by cases hy), fun r hr y hy => ?_⟩⟩
      obtain ⟨z, hz, rfl⟩ := h.closed r hr y hy
      exact ⟨z, (List.Sublist.filterMap _ (sublist_cons_self _ _)).subset hz, rfl⟩
    obtain ⟨out, hout, hf⟩ := h'.exists_complete rfl (fresh + 1) 0
    refine ⟨entryName name, _, completed_of_withEntry ?_ hout, hf⟩
    simp only [withEntry, hl, Bool.false_eq_true, if_false]
    rfl

end Bx.Blocks
