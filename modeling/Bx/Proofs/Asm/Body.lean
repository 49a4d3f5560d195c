import Bx.Asm.Body
import Bx.Proofs.Basic
import Bx.Proofs.Machine.Body

namespace Bx.Asm.Body

open List Tac

variable {op : Tac.Body.Op} {d args x : Datum} {k : Nat}

def slotOf (temps : Temps) (x : String) : Place := .slot (temps.idxOf x + 1)

def linesOf (temps : Temps) : Tac.Body.Op → List Line
  | .nop => []
  | .const n d => [.movq (.imm n) (slotOf temps d)]
  | .copy x d => copy (slotOf temps x) (slotOf temps d)
  | .binop op x y d => binop op (slotOf temps x) (slotOf temps y) (slotOf temps d)
  | .unop op x d => unop op (slotOf temps x) (slotOf temps d)
  | .jcc c x l => test c (slotOf temps x) l
  | .jmp l => [.jmp l]
  | .label l => [.label l]
  | .print x => printLines .structured (slotOf temps x)

def mentioned : Tac.Body.Op → List String
  | .nop | .jmp _ | .label _ => []
  | .const _ x | .jcc _ x _ | .print x => [x]
  | .copy x d | .unop _ x d => [x, d]
  | .binop _ x y d => [x, y, d]

variable {temps temps' temps₁ : Temps} {r : Record} {ls : List Line}

structure Meets (temps temps' : Temps) : Prop where
  initial : temps <+: temps'
  nodup : temps.Nodup → temps'.Nodup

theorem Meets.refl (temps : Temps) : Meets temps temps := ⟨prefix_refl _, id⟩

theorem Meets.trans (h : Meets temps temps₁) (h' : Meets temps₁ temps') : Meets temps temps' :=
  ⟨h.initial.trans h'.initial, fun hn => h'.nodup (h.nodup hn)⟩

theorem Meets.mem {x : String} (h : Meets temps temps') (hx : x ∈ temps) : x ∈ temps' := h.initial.subset hx

theorem Meets.slotOf_eq {x : String} (h : Meets temps temps') (hx : x ∈ temps) : slotOf temps' x = slotOf temps x := by
  obtain ⟨new, rfl⟩ := h.initial
  rw [slotOf, slotOf, idxOf_append_of_mem hx]

theorem Meets.linesOf_eq (h : Meets temps temps') (hop : mentioned op ⊆ temps) : linesOf temps' op = linesOf temps op := by
  cases op <;> simp_all [linesOf, mentioned, h.slotOf_eq]

theorem place_spec {p : Place} (h : place d temps = .ok (p, temps')) :
    ∃ x, d = .str x ∧ Meets temps temps' ∧ x ∈ temps' ∧ p = slotOf temps' x := by
  rw [place] at h
  obtain ⟨known, ht, h⟩ := bind_eq_ok.1 h
  cases known with
  | false => cases h
  | true =>
    obtain ⟨x, rfl⟩ : ∃ x, d = .str x := by
      cases d <;> simp_all [isTemp]
    refine ⟨x, rfl, ?_⟩
    have hidx := idxOf_eq_getD_idxOf? x temps
    simp only [if_true, Datum.string?, Option.getD_some] at h
    cases hk : temps.idxOf? x with
    | some k =>
      rw [hk] at h hidx
      cases h
      exact ⟨.refl temps, isSome_idxOf?.1 (by simp [hk]), by rw [slotOf, hidx, Option.getD_some]⟩
    | none =>
      rw [hk] at h hidx
      have hx : x ∉ temps := List.idxOf?_eq_none_iff.1 hk
      cases h
      refine ⟨⟨prefix_append _ _, fun hn => ?_⟩, by simp, ?_⟩
      · exact nodup_append.2 ⟨hn, by simp, fun y hy z hz he => hx (by simp_all)⟩
      · rw [slotOf, idxOf_append_of_notMem hx]
        simp

theorem pick_eq_ok {xs : List Datum} (h : Datum.pick xs k = .ok d) : xs[k]? = some d := by
  rw [Datum.pick] at h
  split at h
  · rename_i d' hd
    cases h
    obtain ⟨j, hj, hd⟩ := Option.bind_eq_some_iff.1 hd
    simp only [Datum.position?] at hj
    split at hj
    · split at hj
      · cases hj
        simpa using hd
      · cases hj
    · omega
  · cases h

theorem shape_eq_ok {α : Type} {x : Except Datum.Fault α} {a : α} : shape x = .ok a ↔ x = .ok a := by
  cases x <;> simp [shape, Except.mapError]

theorem require_eq_ok {b : Bool} {u : Unit} : require b = .ok u ↔ b := by
  cases b <;> simp [require]

theorem arg_eq_ok (h : arg args k = .ok d) : (Tac.Body.operands args)[k]? = some d := by
  rw [arg, shape_eq_ok] at h
  cases args with
  | list xs | tuple xs | str s => exact pick_eq_ok h
  | _ => cases h

theorem length_operands {n : Nat} (h : count n args = .ok ()) (hk : arg args k = .ok d) :
    (Tac.Body.operands args).length = n := by
  rw [count] at h
  obtain ⟨size, hs, hn⟩ := bind_eq_ok.1 h
  rw [require_eq_ok, beq_iff_eq] at hn
  rw [shape_eq_ok] at hs
  rw [arg, shape_eq_ok] at hk
  cases args with
  | list xs | tuple xs | str s =>
    cases hs
    simpa [Tac.Body.operands, String.length_toList] using hn
  | _ => cases hk

theorem operands_of_one (h : count 1 args = .ok ()) (hx : arg args 0 = .ok x) : Tac.Body.operands args = [x] := by
  have hlen := length_operands h hx
  have hx := arg_eq_ok hx
  match hops : Tac.Body.operands args with
  | [a] => simp_all
  | [] | _ :: _ :: _ => simp [hops] at hlen

theorem operands_of_oneArg (h : oneArg args = .ok x) : Tac.Body.operands args = [x] := by
  rw [oneArg] at h
  obtain ⟨_, hc, hx⟩ := bind_eq_ok.1 h
  exact operands_of_one hc hx

theorem operands_of_two {y : Datum} (h : count 2 args = .ok ()) (hx : arg args 0 = .ok x) (hy : arg args 1 = .ok y) :
    Tac.Body.operands args = [x, y] := by
  have hlen := length_operands h hx
  have hx := arg_eq_ok hx
  have hy := arg_eq_ok hy
  match hops : Tac.Body.operands args with
  | [a, b] => simp_all
  | [] | [_] | _ :: _ :: _ :: _ => simp [hops] at hlen

structure Emits (temps : Temps) (op : Tac.Body.Op) (ls : List Line) (temps' : Temps) : Prop where
  meets : Meets temps temps'
  known : mentioned op ⊆ temps'
  lines : ls = linesOf temps' op

theorem isNull_eq (h : d.isNull) : d = .null := by
  cases d <;> simp_all [Datum.isNull]

theorem branch_emits {b : Branch} (hb : Branch.ofOpcode? r.opcode = .ok (some b)) (hop : Tac.Body.branch? r = some op)
    (h : branch b r temps = .ok (ls, temps')) : Emits temps op ls temps' := by
  rw [Tac.Body.branch?, hb] at hop
  cases b with
  | jcc c =>
    simp only [branch, bind_eq_ok, Prod.exists] at h
    obtain ⟨_, hc, _, hnull, a, ha, x, temps₁, hx, l, hl, h⟩ := h
    cases h
    obtain ⟨t, rfl, hmeets, ht, rfl⟩ := place_spec hx
    rw [operands_of_two hc ha hl, isNull_eq (require_eq_ok.1 hnull)] at hop
    cases l <;> cases hop
    exact ⟨hmeets, by simpa [mentioned] using ht, rfl⟩
  | jmp =>
    simp only [branch, bind_eq_ok] at h
    obtain ⟨_, hc, _, hnull, l, hl, h⟩ := h
    cases h
    rw [operands_of_one hc hl, isNull_eq (require_eq_ok.1 hnull)] at hop
    cases l <;> cases hop
    exact ⟨.refl _, nil_subset _, rfl⟩
  | label =>
    simp only [branch, bind_eq_ok] at h
    obtain ⟨_, hc, _, hnull, l, hl, line, hline, h⟩ := h
    cases h
    rw [operands_of_one hc hl, isNull_eq (require_eq_ok.1 hnull)] at hop
    cases l <;> cases hop
    cases hline
    exact ⟨.refl _, nil_subset _, rfl⟩

theorem print_emits (hb : Branch.ofOpcode? r.opcode = .ok none) (hop : Tac.Body.branch? r = some op)
    (h : print .structured r temps = .ok (ls, temps')) : Emits temps op ls temps' := by
  simp only [print, bind_eq_ok, Prod.exists] at h
  obtain ⟨_, hc, _, hnull, a, ha, x, temps₁, hx, h⟩ := h
  cases h
  obtain ⟨t, rfl, hmeets, ht, rfl⟩ := place_spec hx
  rw [Tac.Body.branch?, hb, operands_of_one hc ha, isNull_eq (require_eq_ok.1 hnull)] at hop
  simp only [Option.ite_none_right_eq_some, Option.some.injEq] at hop
  obtain ⟨-, rfl⟩ := hop
  exact ⟨hmeets, by simpa [mentioned] using ht, rfl⟩

theorem instr_emits (hop : Tac.Body.Op.ofRecord? r = some op) (h : instr .structured r temps = .ok (ls, temps')) :
    Emits temps op ls temps' := by
  rw [instr] at h
  obtain ⟨form, hform, h⟩ := bind_eq_ok.1 h
  rw [Tac.Body.Op.ofRecord?, hform] at hop
  cases form with
  | nop =>
    cases hop
    cases h
    exact ⟨.refl _, nil_subset _, rfl⟩
  | const =>
    simp only [bind_eq_ok, Prod.exists] at h
    obtain ⟨x, hx, n, hn, d, temps', hd, h⟩ := h
    cases h
    obtain ⟨t, ht, hmeets, hmem, rfl⟩ := place_spec hd
    rw [operands_of_oneArg hx, ht] at hop
    cases x <;> cases hn <;> cases hop <;> exact ⟨hmeets, by simpa [mentioned] using hmem, rfl⟩
  | copy | unop =>
    simp only [bind_eq_ok, Prod.exists] at h
    obtain ⟨a, ha, x, temps₁, hx, d, temps', hd, h⟩ := h
    cases h
    obtain ⟨s, rfl, hmeets, hs, rfl⟩ := place_spec hx
    obtain ⟨t, ht, hmeets', ht', rfl⟩ := place_spec hd
    rw [operands_of_oneArg ha, ht] at hop
    cases hop
    exact ⟨hmeets.trans hmeets', by simpa [mentioned] using ⟨hmeets'.mem hs, ht'⟩, by rw [linesOf, hmeets'.slotOf_eq hs]⟩
  | binop b =>
    simp only [bind_eq_ok, Prod.exists] at h
    obtain ⟨_, hc, a, ha, x, temps₁, hx, a', ha', y, temps₂, hy, d, temps', hd, h⟩ := h
    cases h
    obtain ⟨s, rfl, hmeets₁, hs, rfl⟩ := place_spec hx
    obtain ⟨s', rfl, hmeets₂, hs', rfl⟩ := place_spec hy
    obtain ⟨t, ht, hmeets₃, ht', rfl⟩ := place_spec hd
    rw [operands_of_two hc ha ha', ht] at hop
    cases hop
    refine ⟨hmeets₁.trans (hmeets₂.trans hmeets₃), ?_, ?_⟩
    · simpa [mentioned] using ⟨hmeets₃.mem (hmeets₂.mem hs), hmeets₃.mem hs', ht'⟩
    · rw [linesOf, hmeets₃.slotOf_eq (hmeets₂.mem hs), hmeets₂.slotOf_eq hs, hmeets₃.slotOf_eq hs']
  | other o =>
    obtain ⟨b, hb, h⟩ := bind_eq_ok.1 h
    cases b with
    | some b => exact branch_emits hb hop h
    | none =>
      dsimp only at h
      split at h
      · exact print_emits hb hop h
      · cases h

theorem instrs_emits {ops : List Tac.Body.Op} {body : List Record} (hcode : Tac.Body.code body = ops.map some)
    (h : instrs .structured body temps = .ok (ls, temps')) :
    Meets temps temps' ∧ ls = ops.flatMap (linesOf temps') ∧ ∀ op ∈ ops, mentioned op ⊆ temps' := by
  induction body generalizing ops temps ls with
  | nil =>
    obtain rfl : ops = [] := map_eq_nil_iff.1 hcode.symm
    cases h
    exact ⟨.refl _, rfl, by simp⟩
  | cons r body ih =>
    cases ops with
    | nil => simp [Tac.Body.code] at hcode
    | cons op ops =>
      obtain ⟨hop, hcode⟩ : Tac.Body.Op.ofRecord? r = some op ∧ Tac.Body.code body = ops.map some := by
        simpa [Tac.Body.code] using hcode
      simp only [instrs, bind_eq_ok, Prod.exists] at h
      obtain ⟨first, temps₁, hfirst, rest, temps', hrest, h⟩ := h
      cases h
      obtain ⟨hmeets, hknown, rfl⟩ := instr_emits hop hfirst
      obtain ⟨hmeets', rfl, hops⟩ := ih hcode hrest
      refine ⟨hmeets.trans hmeets', ?_, ?_⟩
      · rw [flatMap_cons, hmeets'.linesOf_eq hknown]
      · exact forall_mem_cons.2 ⟨fun x hx => hmeets'.mem (hknown hx), hops⟩

theorem compile_eq {ops : List Tac.Body.Op} {body : List Record} {lines : List Line} (hcode : Tac.Body.code body = ops.map some)
    (h : compile .structured body = .ok lines) :
    ∃ temps : Temps, temps.Nodup ∧ (∀ op ∈ ops, mentioned op ⊆ temps) ∧
      lines = enter (aligned temps.length) ++ ops.flatMap (linesOf temps) ++ (leave ++ [clear, .retq]) := by
  simp only [compile, bind_eq_ok, Prod.exists] at h
  obtain ⟨ls, temps, hls, h⟩ := h
  cases h
  obtain ⟨hmeets, rfl, hops⟩ := instrs_emits hcode hls
  exact ⟨temps, hmeets.nodup nodup_nil, hops, by simp [framed, Target.structured]⟩

end Bx.Asm.Body
