import Bx.Proofs.Asm.Operators

namespace Bx.Asm.Procedure

open List Tac

variable {args : List Datum} {f : Frame}

inductive Command
  | nop
  | const (n : Numeral) (d : String)
  | copy (x d : String)
  | binop (op : Word.Binop) (x y d : String)
  | unop (op : Word.Unop) (x d : String)
  | jcc (c : Cond) (x l : String)
  | jmp (l : String)
  | label (l : String)
  | param (k : Nat) (x : String)
  | call (f : String) (n : Nat) (d : Option String)
  | ret (x : Option String)

namespace Command

@[simp]
def record : Command → Record
  | .nop => .of "nop" [] .null
  | .const n d => .of "const" [n.toDatum] (.str d)
  | .copy x d => .of "copy" [.str x] (.str d)
  | .binop op x y d => .of op.name [.str x, .str y] (.str d)
  | .unop op x d => .of op.name [.str x] (.str d)
  | .jcc c x l => .of c.text [.str x, .str l] .null
  | .jmp l => .of "jmp" [.str l] .null
  | .label l => .of "label" [.str l] .null
  | .param k x => .of "param" [.int (k + 1), .str x] .null
  | .call f n d => .of "call" [.str f, .int n] (Instr.optional d)
  | .ret x => .of "ret" (x.toList.map .str) .null

@[simp]
def operands : Command → List Datum
  | .nop | .jmp _ | .label _ => []
  | .const _ d => [.str d]
  | .copy x d | .unop _ x d => [.str x, .str d]
  | .binop _ x y d => [.str x, .str y, .str d]
  | .jcc _ x _ | .param _ x => [.str x]
  | .call _ _ d => [Instr.optional d]
  | .ret x => x.toList.map .str

@[simp]
def lines (place : Datum → Place) (name : String) (tested : Option Place) : Command → List Line
  | .nop => []
  | .const n d => [.movq (.imm n) (place (.str d))]
  | .copy x d => Asm.copy (place (.str x)) (place (.str d))
  | .binop op x y d => Asm.binop op (place (.str x)) (place (.str y)) (place (.str d))
  | .unop op x d => Asm.unop op (place (.str x)) (place (.str d))
  | .jcc c _ l => tested.elim [] fun p => test c p l
  | .jmp l => [.jmp l]
  | .label l => [.label l]
  | .param k x => match argumentRegs[k]? with
    | some r => [.movq (place (.str x)) r]
    | none => [.pushq (place (.str x))]
  | .call f _ d => [.callq (String.ofList (f.toList.drop 1)), .movq Reg.rax (place (Instr.optional d))]
  | .ret none => [clear, .jmp (exitLabel name)]
  | .ret (some x) => [.movq (place (.str x)) Reg.rax, .jmp (exitLabel name)]

end Command

section Location

variable (globals : List String)

def location (temps : List (Datum × Nat)) (d : Datum) : Place :=
  if globals.any d.is then .global (String.ofList (d.text.toList.drop 1))
  else .slot (((temps.find? fun e => e.1.same d).map Prod.snd).getD 0)

def Knows (temps : List (Datum × Nat)) (d : Datum) : Prop := globals.any d.is = true ∨ (temps.find? fun e => e.1.same d).isSome = true

instance (temps : List (Datum × Nat)) (d : Datum) : Decidable (Knows globals temps d) := inferInstanceAs (Decidable (_ ∨ _))

def Frame.note (f : Frame) (d : Datum) : Frame :=
  if Knows globals f.temps d then f else ⟨f.temps ++ [(d, f.size + 1)], f.size + 1⟩

def Frame.noteAll (f : Frame) (ds : List Datum) : Frame := ds.foldl (Frame.note globals) f

def globalsOf : Datum := .list (globals.map .str)

variable {globals} {temps temps' : List (Datum × Nat)} {d : Datum} {f : Frame}

theorem Knows.location_eq (h : Knows globals temps d) (hp : temps <+: temps') : location globals temps' d = location globals temps d := by
  obtain ⟨more, rfl⟩ := hp
  rw [location, location]
  rcases h with h | h
  · rw [if_pos h, if_pos h]
  · obtain ⟨e, he⟩ := Option.isSome_iff_exists.1 h
    rw [List.find?_append, he, Option.some_or]

theorem knows_note (hd : d.isKey) : Knows globals (f.note globals d).temps d := by
  rw [Frame.note]
  split
  · assumption
  · refine .inr ?_
    rw [List.find?_append]
    simp [d.same_self hd]

theorem Frame.note_prefix (f : Frame) (d : Datum) : f.temps <+: (f.note globals d).temps := by
  rw [note]
  split
  · exact prefix_refl _
  · exact prefix_append _ _

theorem Frame.noteAll_prefix (f : Frame) (ds : List Datum) : f.temps <+: (f.noteAll globals ds).temps := by
  induction ds generalizing f with
  | nil => exact prefix_refl _
  | cons d ds ih => exact (f.note_prefix d).trans (ih _)

theorem Frame.noteAll_append (f : Frame) (ds es : List Datum) :
    f.noteAll globals (ds ++ es) = (f.noteAll globals ds).noteAll globals es := foldl_append

theorem slot_eq (hd : d.isKey) (hg : globals.any d.is = false) (f : Frame) :
    slot d f = .ok (location globals (f.note globals d).temps d, f.note globals d) := by
  have hloc : ∀ temps, location globals temps d = .slot (((temps.find? fun e => e.1.same d).map Prod.snd).getD 0) := by
    intro temps
    rw [location, hg]
    rfl
  rw [slot, hd, hloc]
  cases hf : f.temps.find? fun e => e.1.same d with
  | some e =>
    have hnote : f.note globals d = f := if_pos (.inr (by simp [hf]))
    rw [hnote, hf]
    rfl
  | none =>
    have hnote : f.note globals d = ⟨f.temps ++ [(d, f.size + 1)], f.size + 1⟩ := if_neg (by simp [Knows, hg, hf])
    rw [hnote, List.find?_append, hf]
    simp [d.same_self hd]

theorem place_eq (ha : ∀ k ∈ args.findIdx? d.same, k < 6) (hd : d.isKey) (f : Frame) :
    place (globalsOf globals) (.list args) d f = .ok (location globals (f.note globals d).temps d, f.note globals d) := by
  have hglobal : (globalsOf globals).contains d = .ok (globals.any d.is) := by
    have hany : (globals.map Datum.str).any d.same = globals.any d.is := by
      rw [any_map]
      congr 1
      funext g
      cases d <;> rfl
    rw [← hany]
    cases d <;> rfl
  have harg : (Datum.list args).contains d = .ok (args.any d.same) := by
    cases d <;> rfl
  rw [place, hglobal, harg]
  cases hg : globals.any d.is with
  | true =>
    rw [location, if_pos hg, Frame.note, if_pos (.inl hg)]
    obtain ⟨g, -, hg⟩ := any_eq_true.1 hg
    cases d <;> first | cases hg | rfl
  | false =>
    cases hm : args.any d.same with
    | false => exact slot_eq hd hg f
    | true =>
      cases hk : args.findIdx? d.same with
      | none =>
        rw [List.findIdx?_eq_none_iff] at hk
        obtain ⟨x, hx, hs⟩ := any_eq_true.1 hm
        rw [hk x hx] at hs
        cases hs
      | some k =>
        have hfind : (Datum.list args).find d = .ok k := by
          cases d <;> simp only [Datum.find, hk]
        have hlt := ha k hk
        have hnot : ¬ argumentRegs.length ≤ k := by
          rw [show argumentRegs.length = 6 from rfl]
          omega
        simp only [shape, Except.mapError, hfind, ok_bind, if_true, hnot, if_false]
        exact slot_eq hd hg f

theorem run_locate_eq (ha : ∀ k ∈ args.findIdx? d.same, k < 6) (hd : d.isKey) (s : State) :
    (locate (globalsOf globals) d (.list args)).run s =
      .ok (location globals (s.frame.note globals d).temps d, { s with frame := s.frame.note globals d }) := by
  rw [run_locate, place_eq ha hd, ok_bind]

end Location

section Commands

variable {globals : List String} {name : String}

theorem few (h : args.length ≤ 6) (d : Datum) : ∀ k ∈ args.findIdx? d.same, k < 6 := by
  intro k hk
  have := (List.findIdx?_eq_some_iff_getElem.1 hk).1
  omega

@[simp]
theorem run_ok {α : Type} (a : α) (s : State) : (liftM (Except.ok a : Except Error α) : Emit α).run s = .ok (a, s) := rfl

@[simp]
theorem run_wrote (s : State) : wrote.run s = .ok ((), { s with written := true }) := rfl

@[simp]
theorem count_one (x : Datum) : count 1 (.list [x]) = .ok () := rfl

@[simp]
theorem count_two (x y : Datum) : count 2 (.list [x, y]) = .ok () := rfl

@[simp]
theorem oneArg_list (x : Datum) : oneArg (.list [x]) = .ok x := rfl

@[simp]
theorem arg_only (x : Datum) : arg (.list [x]) 0 = .ok x := rfl

@[simp]
theorem arg_first (x y : Datum) : arg (.list [x, y]) 0 = .ok x := rfl

@[simp]
theorem arg_second (x y : Datum) : arg (.list [x, y]) 1 = .ok y := rfl

@[simp]
theorem isKey_str (x : String) : Datum.isKey (.str x) := rfl

namespace Command

@[simp]
def tested? : Command → Option Datum
  | .binop _ x _ _ => some (.str x)
  | _ => none

@[simp]
def writes : Command → Bool
  | .const _ _ | .copy _ _ | .binop _ _ _ _ | .unop _ _ _ => true
  | .param k _ => k < 6
  | _ => false

@[simp]
def ready (left : Option Datum) (written : Bool) : Command → Bool
  | .jcc _ _ _ => left.isSome
  | .call _ _ _ => written
  | _ => true

end Command

variable {s : State} {left : Option Datum} {temps : List (Datum × Nat)}

theorem location_note {d : Datum} (hd : d.isKey) (hp : (f.note globals d).temps <+: temps) :
    location globals (f.note globals d).temps d = location globals temps d := ((knows_note hd).location_eq hp).symm

theorem run_locate_of_prefix {d : Datum} (hp : (f.note globals d).temps <+: temps) (hd : d.isKey) (ha : args.length ≤ 6)
    (l : Option Place) (w : Bool) :
    (locate (globalsOf globals) d (.list args)).run ⟨f, l, w⟩ = .ok (location globals temps d, ⟨f.note globals d, l, w⟩) := by
  rw [run_locate_eq (few ha d) hd, location_note hd hp]

theorem ofOpcode_cond (c : Cond) : Form.ofOpcode (.str c.text) = .ok (.other (.str c.text)) ∧
    Branch.ofOpcode? (.str c.text) = .ok (some (.jcc c)) := by
  cases c <;> exact ⟨rfl, rfl⟩

theorem ofOpcode_special {op : String} (h : op = "param" ∨ op = "call" ∨ op = "ret") :
    Form.ofOpcode (.str op) = .ok (.other (.str op)) ∧ Branch.ofOpcode? (.str op) = .ok none := by
  rcases h with rfl | rfl | rfl <;> exact ⟨rfl, rfl⟩

theorem run_param (name : String) {l : Option Place} {w : Bool} (k : Nat) (x : String)
    (hp : (f.note globals (.str x)).temps <+: temps) :
    (param (globalsOf globals) (.list [.int (k + 1), .str x])).run ⟨f, l, w⟩ =
      .ok ((Command.param k x).lines (location globals temps) name none, ⟨f.note globals (.str x), l, w || k < 6⟩) := by
  have hnum : (Datum.int (k + 1)).number? = some ((k : Int) + 1) := rfl
  have hx := run_locate_of_prefix hp rfl (show [Datum.int (k + 1), .str x].length ≤ 6 by simp) l w
  simp only [param, arg_first, arg_second, StateT.run_bind, run_ok, ok_bind, hx, hnum, Command.lines]
  by_cases hk : k < 6
  · have hreg : (Datum.position? argumentRegs.length ((k : Int) + 1 - 1)).bind (argumentRegs[·]?) = argumentRegs[k]? := by
      interval_cases k <;> rfl
    have hsome : argumentRegs[k]? = some argumentRegs[k] := List.getElem?_eq_getElem hk
    rw [if_pos (by omega), hreg, hsome]
    simp [hk]
  · have hnone : argumentRegs[k]? = none := List.getElem?_eq_none (Nat.le_of_not_lt hk)
    rw [if_neg (by omega), hnone]
    simp only [hk, decide_false, Bool.or_false]
    rfl

theorem instr_command (name : String) (c : Command) (hp : (s.frame.noteAll globals c.operands).temps <+: temps)
    (hleft : s.left = left.map (location globals temps)) : (instr (globalsOf globals) name c.record).run s =
      if c.ready left s.written then .ok (c.lines (location globals temps) name (left.map (location globals temps)),
        ⟨s.frame.noteAll globals c.operands, (c.tested?.or left).map (location globals temps), s.written || c.writes⟩)
      else .error .unset := by
  obtain ⟨f, l, w⟩ := s
  subst hleft
  cases c with
  | nop | jmp l | label l =>
    simp [Frame.noteAll]
    rfl
  | const n d =>
    have hform : Form.ofOpcode (.str "const") = .ok .const := rfl
    have himm : immediate n.toDatum = .ok n := by cases n <;> rfl
    have h₁ : (f.note globals (.str d)).temps <+: temps := hp
    simp [instr, Record.of, hform, himm, run_locate_of_prefix h₁ rfl, Frame.noteAll]
  | copy x d =>
    have hform : Form.ofOpcode (.str "copy") = .ok .copy := rfl
    have h₂ : ((f.note globals (.str x)).note globals (.str d)).temps <+: temps := hp
    have h₁ := (Frame.note_prefix _ _).trans h₂
    simp [instr, Record.of, hform, run_locate_of_prefix h₁ rfl, run_locate_of_prefix h₂ rfl, Frame.noteAll]
  | binop op x y d =>
    have h₃ : (((f.note globals (.str x)).note globals (.str y)).note globals (.str d)).temps <+: temps := hp
    have h₂ := (Frame.note_prefix _ _).trans h₃
    have h₁ := (Frame.note_prefix _ _).trans h₂
    simp [instr, Record.of, ofOpcode_binop, run_locate_of_prefix h₁ rfl, run_locate_of_prefix h₂ rfl,
      run_locate_of_prefix h₃ rfl, Frame.noteAll]
  | unop op x d =>
    have h₂ : ((f.note globals (.str x)).note globals (.str d)).temps <+: temps := hp
    have h₁ := (Frame.note_prefix _ _).trans h₂
    simp [instr, Record.of, ofOpcode_unop, run_locate_of_prefix h₁ rfl, run_locate_of_prefix h₂ rfl, Frame.noteAll]
  | jcc c x l =>
    obtain ⟨hform, hbranch⟩ := ofOpcode_cond c
    have hnull : require Datum.null.isNull = .ok () := rfl
    have hx := run_locate_of_prefix hp rfl (show [Datum.str x, .str l].length ≤ 6 by simp) (left.map (location globals temps)) w
    simp only [instr, Command.record, Record.of, hform, special, hbranch, branch, StateT.run_bind, run_ok, ok_bind, count_two,
      arg_first, arg_second, hnull, hx]
    cases left with
    | none => rfl
    | some y =>
      have htext : (Datum.str l).text = l := by simp [Datum.text]
      simp [htext, Frame.noteAll]
      rfl
  | param k x =>
    obtain ⟨hform, hbranch⟩ := ofOpcode_special (.inl rfl)
    simp only [instr, Command.record, Record.of, hform, special, hbranch, StateT.run_bind, run_ok, ok_bind]
    exact run_param name k x hp
  | call g n d =>
    obtain ⟨hform, hbranch⟩ := ofOpcode_special (.inr (.inl rfl))
    have hd : (Instr.optional d).isKey := by cases d <;> rfl
    have hrest : shape (Datum.str g).rest = .ok (.str (String.ofList (g.toList.drop 1))) := rfl
    have h₁ : (f.note globals (Instr.optional d)).temps <+: temps := hp
    cases w with
    | false =>
      simp [instr, Record.of, hform, special, hbranch, Datum.is, call, hrest]
      rfl
    | true =>
      simp [instr, Record.of, hform, special, hbranch, Datum.is, call, hrest, run_locate_of_prefix h₁ hd, Frame.noteAll]
      rfl
  | ret x =>
    obtain ⟨hform, hbranch⟩ := ofOpcode_special (.inr (.inr rfl))
    cases x with
    | none =>
      simp [instr, Record.of, hform, special, hbranch, Datum.is, ret, Frame.noteAll]
      rfl
    | some x =>
      have h₁ : (f.note globals (.str x)).temps <+: temps := hp
      simp [instr, Record.of, hform, special, hbranch, Datum.is, ret, run_locate_of_prefix h₁ rfl, Frame.noteAll]

def code (place : Datum → Place) (name : String) : Option Datum → List Command → List Line
  | _, [] => []
  | left, c :: cs => c.lines place name (left.map place) ++ code place name (c.tested?.or left) cs

def along (p : Option Datum → Bool → Command → Bool) : Option Datum → Bool → List Command → Bool
  | _, _, [] => true
  | left, written, c :: cs => p left written c && along p (c.tested?.or left) (written || c.writes) cs

theorem run_commands (name : String) (cs : List Command) (lines : List Line)
    (hp : (s.frame.noteAll globals (cs.flatMap Command.operands)).temps <+: temps)
    (hleft : s.left = left.map (location globals temps)) :
    (((cs.map fun c => c.record.toDatum).foldlM (fun acc d => do
      let r ← shape (Record.ofFields d)
      return acc ++ (← instr (globalsOf globals) name r)) lines : Emit (List Line)).run s).map (fun r => (r.1, r.2.frame)) =
      if along Command.ready left s.written cs then .ok (lines ++ code (location globals temps) name left cs,
        s.frame.noteAll globals (cs.flatMap Command.operands))
      else .error .unset := by
  -- `temps` are those of the finished frame: a place, once given, is the place that the rest of the code sees.
  induction cs generalizing s left lines with
  | nil =>
    simp only [along, code, append_nil]
    rfl
  | cons c cs ih =>
    rw [flatMap_cons, Frame.noteAll_append] at hp ⊢
    have hfields : shape (Record.ofFields c.record.toDatum) = .ok c.record := rfl
    have hstep := instr_command name c ((Frame.noteAll_prefix _ _).trans hp) hleft
    rw [map_cons, foldlM_cons, StateT.run_bind]
    simp only [hfields, StateT.run_bind, run_ok, ok_bind, code]
    by_cases hc : c.ready left s.written
    · rw [if_pos hc] at hstep
      have halong : along Command.ready left s.written (c :: cs) =
          along Command.ready (c.tested?.or left) (s.written || c.writes) cs := by
        rw [along, hc, Bool.true_and]
      rw [hstep, halong, ← append_assoc]
      exact ih _ hp rfl
    · rw [if_neg hc] at hstep
      have halong : along Command.ready left s.written (c :: cs) = false := by
        rw [along, Bool.eq_false_iff.2 hc, Bool.false_and]
      rw [hstep, halong]
      rfl

def stored (place : Datum → Place) (ps : List String) : List Line :=
  (ps.zip argumentRegs).map fun (p, r) => .movq r (place (.str p))

theorem run_entry (ps : List String) (rs : List Reg) (k : Nat) (hk : k + rs.length = 6)
    (hp : (s.frame.noteAll globals (((ps.drop k).take rs.length).map .str)).temps <+: temps) :
    (entry (globalsOf globals) (.list (ps.map .str)) ps.length k rs).run s =
      .ok (((ps.drop k).zip rs).map fun (p, r) => .movq r (location globals temps (.str p)),
        ⟨s.frame.noteAll globals (((ps.drop k).take rs.length).map .str), s.left, s.written || !((ps.drop k).zip rs).isEmpty⟩) := by
  induction rs generalizing k s with
  | nil =>
    simp only [zip_nil_right, isEmpty_nil, Bool.not_true, Bool.or_false]
    rfl
  | cons r rs ih =>
    rw [length_cons] at hk
    by_cases hlen : ps.length ≤ k
    · rw [drop_eq_nil_of_le hlen, entry, if_pos hlen]
      simp only [zip_nil_left, isEmpty_nil, Bool.not_true, Bool.or_false]
      rfl
    · have hlt : k < ps.length := Nat.lt_of_not_le hlen
      rw [drop_eq_getElem_cons hlt] at hp ⊢
      have harg : arg (.list (ps.map .str)) k = .ok (.str ps[k]) := by
        simp [arg, Datum.item, Datum.pick, Datum.position?, hlt, shape]
        rfl
      -- An argument is found where its name stands first, which is not behind its own place.
      have hfew : ∀ j ∈ (ps.map Datum.str).findIdx? (Datum.str ps[k]).same, j < 6 := by
        intro j hj
        obtain ⟨_, _, hfirst⟩ := List.findIdx?_eq_some_iff_getElem.1 hj
        by_contra hge
        have hk := hfirst k (by omega)
        rw [getElem_map, Datum.same_self _ rfl] at hk
        exact hk rfl
      have hp₁ : (s.frame.note globals (.str ps[k])).temps <+: temps := (Frame.noteAll_prefix _ _).trans hp
      have hrest := ih (s := ⟨s.frame.note globals (.str ps[k]), s.left, true⟩) (k + 1) (by omega) hp
      rw [entry, if_neg hlen]
      simp only [harg, StateT.run_bind, run_ok, ok_bind, run_locate_eq hfew rfl, location_note rfl hp₁, run_wrote, hrest]
      simp only [zip_cons_cons, map_cons, isEmpty_cons, Bool.not_false, Bool.or_true, Bool.true_or]
      rfl

def frameOf (globals ps : List String) (cs : List Command) (f : Frame) : Frame :=
  f.noteAll globals ((ps.take 6).map .str ++ cs.flatMap Command.operands)

def siteOf (globals ps : List String) (cs : List Command) (f : Frame) : Datum → Place :=
  location globals (frameOf globals ps cs f).temps

def procedure (globals : List String) (name : String) (ps : List String) (cs : List Command) (f : Frame) : Compiled :=
  let site := siteOf globals ps cs f
  finish name (stored site ps ++ code site name none cs) ⟨frameOf globals ps cs f, none, false⟩

theorem compileData_commands (globals : List String) (name : String) (ps : List String) (cs : List Command) (f : Frame) :
    compileData (globalsOf globals) name (.list (ps.map .str)) (.list (cs.map fun c => c.record.toDatum)) f =
      if along Command.ready none (!ps.isEmpty) cs then .ok (procedure globals name ps cs f) else .error .unset := by
  let g := f.noteAll globals ((ps.take 6).map .str)
  have hframe : frameOf globals ps cs f = g.noteAll globals (cs.flatMap Command.operands) := Frame.noteAll_append _ _ _
  have hbegin : (begin (globalsOf globals) (.list (ps.map .str))).run (start f) =
      .ok (stored (siteOf globals ps cs f) ps, ⟨g, none, !ps.isEmpty⟩) := by
    have hsize : shape (Datum.list (ps.map .str)).size = .ok ps.length := by
      simp [Datum.size, shape]
      rfl
    have hpre : g.temps <+: (frameOf globals ps cs f).temps := by
      rw [hframe]
      exact Frame.noteAll_prefix _ _
    have hempty : (ps.zip argumentRegs).isEmpty = ps.isEmpty := by cases ps <;> rfl
    simp only [begin, hsize, StateT.run_bind, run_ok, ok_bind]
    rw [run_entry (s := start f) ps argumentRegs 0 rfl hpre, drop_zero, hempty]
    rfl
  have hleft : (none : Option Place) = (none : Option Datum).map (siteOf globals ps cs f) := rfl
  have hbody := run_commands (s := ⟨g, none, !ps.isEmpty⟩) name cs (stored (siteOf globals ps cs f) ps)
    (hframe ▸ prefix_refl (frameOf globals ps cs f).temps) hleft
  have hfinish : ∀ r : Except Error (List Line × State), (r >>= fun x => pure (finish name x.1 x.2)) =
      (r.map fun r => (r.1, r.2.frame)).map fun r => finish name r.1 ⟨r.2, none, false⟩ := by
    rintro (e | r) <;> rfl
  have hmembers : shape (Datum.list (cs.map fun c => c.record.toDatum)).members = .ok (cs.map fun c => c.record.toDatum) := rfl
  simp only [compileData, StateT.run_bind, hbegin, ok_bind, hmembers, run_ok]
  refine (hfinish _).trans ?_
  rw [hbody, ← hframe]
  split <;> rfl

section Parameters

def Found (place : Datum → Place) (ps : List String) (i : Nat) (p : String) : Prop :=
  match argumentRegs[i]? with
  | some r => .movq r (place (.str p)) ∈ stored place ps
  | none => place (.str p) = .passed (i - argumentRegs.length)

theorem location_ne_passed (temps : List (Datum × Nat)) (d : Datum) (k : Nat) : location globals temps d ≠ .passed k := by
  rw [location]
  split <;> exact Place.noConfusion

/-- Each operand has one place, and an argument is found there exactly if it comes in a register. -/
theorem compileData_found_iff (globals : List String) (name : String) {ps : List String} (cs : List Command) (f : Frame)
    {i : Nat} {p : String} (h : ps[i]? = some p) :
    compileData (globalsOf globals) name (.list (ps.map .str)) (.list (cs.map fun c => c.record.toDatum)) f =
      (if along Command.ready none (!ps.isEmpty) cs then .ok (procedure globals name ps cs f) else .error .unset) ∧
    (Found (siteOf globals ps cs f) ps i p ↔ i < argumentRegs.length) := by
  refine ⟨compileData_commands globals name ps cs f, ?_⟩
  rw [Found]
  by_cases hi : i < argumentRegs.length
  · rw [List.getElem?_eq_getElem hi]
    refine iff_of_true (mem_map.2 ⟨(p, argumentRegs[i]), mem_of_getElem? (i := i) ?_, rfl⟩) hi
    rw [List.getElem?_zip_eq_some]
    exact ⟨h, List.getElem?_eq_getElem hi⟩
  · rw [List.getElem?_eq_none (Nat.le_of_not_lt hi)]
    exact iff_of_false (location_ne_passed _ _ _) hi

def seven : List String := ["%a", "%b", "%c", "%d", "%e", "%f", "%g"]

theorem compileData_found_iff_seven : seven[6]? = some "%g" ∧
    compileData (globalsOf []) "f" (.list (seven.map .str)) (.list ([.ret (some "%g")].map fun c : Command => c.record.toDatum)) .empty =
      .ok (procedure [] "f" seven [.ret (some "%g")] .empty) ∧
    ¬ Found (siteOf [] seven [.ret (some "%g")] .empty) seven 6 "%g" := by
  have h := compileData_found_iff [] "f" [.ret (some "%g")] .empty (show seven[6]? = some "%g" from rfl)
  exact ⟨rfl, h.1, fun hf => absurd (h.2.1 hf) (by decide)⟩

/-- The seventh argument is answered from a word of the frame that nothing writes. -/
theorem compileData_seventh_lost :
    ∃ k, compileData (globalsOf []) "f" (.list (seven.map .str)) (.list ([.ret (some "%g")].map fun c : Command => c.record.toDatum)) .empty = .ok k ∧
      .movq (Place.slot 7) Reg.rax ∈ k.lines ∧ .movq (Place.passed 0) Reg.rax ∉ k.lines ∧
      ∀ r ∈ argumentRegs, .movq r (Place.slot 7) ∉ k.lines := by
  refine ⟨procedure [] "f" seven [.ret (some "%g")] .empty, compileData_commands [] "f" seven _ _, ?_⟩
  decide

end Parameters

section Jumps

namespace Command

@[simp]
def own? : Command → Option Datum
  | .jcc _ x _ => some (.str x)
  | _ => none

@[simp]
def served (place : Datum → Place) (left : Option Datum) (written : Bool) : Command → Bool
  | .jcc _ x _ => left.map place = some (place (.str x))
  | .call _ _ _ => written
  | _ => true

end Command

variable {place : Datum → Place} {written : Bool} {c : Command}

theorem served_iff (name : String) : c.served place left written ↔ c.ready left written ∧
    c.lines place name (left.map place) = c.lines place name (c.own?.map place) := by
  cases c with
  | jcc cc x l => cases left <;> simp [test]
  | ret x => cases x <;> simp
  | _ => simp

theorem length_lines (name : String) (h : c.ready left written) :
    (c.lines place name (left.map place)).length = (c.lines place name (c.own?.map place)).length := by
  cases c with
  | jcc cc x l =>
    obtain ⟨y, rfl⟩ := Option.isSome_iff_exists.1 h
    rfl
  | ret x => cases x <;> rfl
  | _ => rfl

theorem along_served_iff (name : String) (cs : List Command) : along (Command.served place) left written cs ↔
    along Command.ready left written cs ∧
      code place name left cs = cs.flatMap fun c => c.lines place name (c.own?.map place) := by
  induction cs generalizing left written with
  | nil => simp [along, code]
  | cons c cs ih =>
    rw [along, along, Bool.and_eq_true, Bool.and_eq_true, served_iff name, ih, code, flatMap_cons]
    constructor
    · rintro ⟨⟨hready, hlines⟩, hrest, hcode⟩
      exact ⟨⟨hready, hrest⟩, by rw [hlines, hcode]⟩
    · rintro ⟨⟨hready, hrest⟩, hcode⟩
      obtain ⟨hlines, hcode⟩ := append_inj hcode (length_lines name hready)
      exact ⟨⟨hready, hlines⟩, hrest, hcode⟩

theorem framed_inj {words : Nat} {as bs : List Line} : framed name words as = framed name words bs ↔ as = bs := by
  simp [framed]

/-- A procedure compiles, with conditional jumps that test their own operands, exactly if the left operand of the last binary
operation before each jump is where its own operand is, and each call comes behind an argument in a register or something
that writes. -/
theorem compileData_jumps_iff (globals : List String) (name : String) (ps : List String) (cs : List Command) (f : Frame) :
    (∃ k, compileData (globalsOf globals) name (.list (ps.map .str)) (.list (cs.map fun c => c.record.toDatum)) f = .ok k ∧
      k.lines = framed name (aligned k.frame.temps.length) (stored (location globals k.frame.temps) ps ++
        cs.flatMap fun c => c.lines (location globals k.frame.temps) name (c.own?.map (location globals k.frame.temps)))) ↔
      along (Command.served (siteOf globals ps cs f)) none (!ps.isEmpty) cs = true := by
  rw [compileData_commands, along_served_iff name]
  constructor
  · rintro ⟨k, hk, hlines⟩
    split at hk
    · rename_i hready
      cases hk
      exact ⟨hready, append_cancel_left (framed_inj.1 hlines)⟩
    · cases hk
  · rintro ⟨hready, hcode⟩
    rw [if_pos hready]
    exact ⟨_, rfl, framed_inj.2 (congrArg _ hcode)⟩

/-- A jump that no binary operation precedes is refused; one behind `%1 = add %0, %0` tests `%0`. -/
theorem compileData_jumps_stale :
    compileData (globalsOf []) "f" (.list []) (.list ([.const (.int 0) "%0", .jcc .z "%0" ".L0", .label ".L0"].map
      fun c : Command => c.record.toDatum)) .empty = .error .unset ∧
    ∃ k, compileData (globalsOf []) "f" (.list []) (.list ([.const (.int 1) "%0", .binop .add "%0" "%0" "%1",
      .jcc .z "%1" ".L0", .label ".L0"].map fun c : Command => c.record.toDatum)) .empty = .ok k ∧
      k.frame.temps = [(.str "%0", 1), (.str "%1", 2)] ∧ test .z (.slot 1) ".L0" <:+: k.lines ∧
      .movq (Place.slot 2) Reg.r11 ∉ k.lines := by
  refine ⟨?_, procedure [] "f" [] [.const (.int 1) "%0", .binop .add "%0" "%0" "%1",
    .jcc .z "%1" ".L0", .label ".L0"] .empty, compileData_commands [] "f" [] _ _, rfl, ?_, ?_⟩
  · exact compileData_commands [] "f" [] _ _
  · decide
  · decide

end Jumps

end Commands

end Bx.Asm.Procedure
