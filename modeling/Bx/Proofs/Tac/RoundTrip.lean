import Bx.Proofs.Run.Agreement
import Bx.Proofs.Tac.Phrases
import Bx.Source.Reading

namespace Bx.Tac

open List

variable {r : Record} {i : Instr} {args : List Datum} {result d : Datum} {op : String}

theorem Record.Spells.text_eq (h : r.Spells i) (hi : i.isPhi = false) : i.text = r.text := by
  by_cases hl : i.opcode = "label"
  · obtain ⟨l, rfl⟩ := Instr.opcode_eq_label hl
    simp [Record.text, h.opcode, h.left, Datum.is, Instr.opcode, Instr.text, Instr.operands, Datum.text]
  · have hlabel : r.opcode.is "label" = false := by simp [h.opcode, Datum.is, hl]
    rw [Instr.text.eq_def]
    split
    · exact absurd rfl hl
    · cases hi
    · cases hi
    · rw [Record.text, hlabel, h.left, h.right, h.result, h.opcode]
      cases hd : i.dest <;> simp [Instr.optional, Datum.isNull, Datum.text]

namespace Reader

open Lexer Regex Bx.Parser

variable {cs : List Char} {ts : List (String × Datum)}

theorem delimited_cons {c : Char} (h : nameChars.mem c = false) : Delimited (c :: cs) := by
  intro d hd
  cases hd
  exact h

theorem lexes_separated {ds : List (String × Datum)} (hds : ∀ d ∈ ds, IsOperand d.1 d.2) (hcs : Delimited cs) (h : LexesTo cs ts) :
    LexesTo ((", ".intercalate (ds.map fun d => d.2.text)).toList ++ cs) (separated ds ++ ts) := by
  induction ds with
  | nil => simpa [separated] using h
  | cons d ds ih =>
    obtain ⟨hd, hds⟩ := forall_mem_cons.1 hds
    cases ds with
    | nil => simpa [separated] using lexes_operand hd hcs h
    | cons d' ds =>
      have hrest := lexes_mark (show (9, ',', "COMMA") ∈ marks by decide) (lexes_blank (ih hds))
      have hall := lexes_operand hd (delimited_cons (by decide)) hrest
      rw [map_cons, map_cons, String.intercalate_cons_cons, String.toList_append, String.toList_append]
      simpa [separated, comma] using hall

theorem getD_ne_dict (h : ∀ a ∈ args, Operand a) (k : Nat) (fields : List (String × Datum)) :
    (args[k]?).getD .null ≠ .dict fields := by
  rcases hk : args[k]? with _ | a
  · simp
  · obtain ⟨type, ha⟩ := h a (mem_of_getElem? hk)
    cases ha <;> simp

theorem isPhi_of_parts (hp : Parts result op args) (hr : r = ⟨.str op, .tuple args, result⟩) (h : r.check = .ok i) :
    i.isPhi = false := by
  obtain ⟨s, k, k₁, k₂, hop, hkinds, -, h₁, -, rfl⟩ := Instr.ofParts_eq_ok h
  subst hr
  by_cases hs : s = "phi"
  · -- sources are no operand of the text form
    subst hs
    cases hkinds
    have hdict := getD_ne_dict hp.operand 0
    simp only [Kind.accepts, Operand.isPhiArgs, Record.arg] at h₁
    cases h₁
  · unfold Instr.assemble
    split <;> first | rfl | exact absurd rfl hs | (split <;> rfl)

/-! ### Instructions -/

def resultText (result : Datum) : String := if result.isNull then "" else result.text ++ " = "

def argsText (args : List Datum) : String := if args.isEmpty then "" else " " ++ ", ".intercalate (args.map Datum.text)

theorem Operand.isNull (h : Operand d) : d.isNull = false := by
  obtain ⟨type, h⟩ := h
  cases h <;> rfl

theorem text_args (hargs : ∀ a ∈ args, Operand a) (hlen : args.length ≤ 2) (hr : r.args = .tuple args) :
    (if (r.arg 0).isNull then "" else if (r.arg 1).isNull then " " ++ (r.arg 0).text
      else " " ++ (r.arg 0).text ++ ", " ++ (r.arg 1).text) = argsText args := by
  have hnull (a : Datum) (ha : a ∈ args) := (hargs a ha).isNull
  have hnone : Datum.null.isNull := rfl
  simp only [Record.arg, hr]
  match args, hlen with
  | [], _ => rfl
  | [a], _ => simp [argsText, hnull a (by simp), hnone]
  | [a, b], _ => simp [argsText, hnull a (by simp), hnull b (by simp), String.intercalate_cons_cons, String.append_assoc]

theorem text_record (hp : Parts result op args) (hop : op ≠ "label") :
    Record.text ⟨.str op, .tuple args, result⟩ = "  " ++ resultText result ++ op ++ argsText args ++ ";" := by
  have hlabel : (Datum.str op).is "label" = false := by simpa [Datum.is] using hop
  rw [Record.text, text_args hp.operand hp.length rfl, resultText]
  cases hn : result.isNull <;> simp [hlabel, Datum.text, String.append_assoc]

theorem lexes_result (h : result = .null ∨ IsOperand "TEMP" result ∨ IsOperand "GSYM" result) :
    ∃ rs, ResultTokens result rs ∧ ∀ cs ts, LexesTo cs ts → LexesTo ((resultText result).toList ++ cs) (rs ++ ts) := by
  have equals {type : String} (hd : IsOperand type result) (cs : List Char) (ts : List (String × Datum)) (h : LexesTo cs ts) :
      LexesTo ((resultText result).toList ++ cs) ((type, result) :: ("EQ", .str "=") :: ts) := by
    have hrest := lexes_operand hd (delimited_cons (by decide))
      (lexes_blank (lexes_mark (show (10, '=', "EQ") ∈ marks by decide) (lexes_blank h)))
    rw [resultText, Operand.isNull ⟨_, hd⟩]
    simpa using hrest
  rcases h with rfl | h | h
  · exact ⟨[], .nothing, fun cs ts h => h⟩
  · exact ⟨_, .temp, equals h⟩
  · exact ⟨_, .global, equals h⟩

theorem exists_typed (h : ∀ a ∈ args, Operand a) :
    ∃ ds : List (String × Datum), ds.map Prod.snd = args ∧ ∀ d ∈ ds, IsOperand d.1 d.2 := by
  induction args with
  | nil => exact ⟨[], rfl, by simp⟩
  | cons a args ih =>
    obtain ⟨⟨type, ha⟩, hargs⟩ := forall_mem_cons.1 h
    obtain ⟨ds, rfl, hds⟩ := ih hargs
    exact ⟨(type, a) :: ds, rfl, forall_mem_cons.2 ⟨ha, hds⟩⟩

theorem delimited_args (args : List Datum) : Delimited ((argsText args).toList ++ ';' :: cs) := by
  cases args with
  | nil => exact delimited_cons (by decide)
  | cons a args =>
    simp only [argsText, isEmpty_cons, Bool.false_eq_true, if_false, String.toList_append]
    exact delimited_cons (by decide)

theorem lexes_args {ds : List (String × Datum)} (hds : ∀ d ∈ ds, IsOperand d.1 d.2) (h : LexesTo (';' :: cs) ts) :
    LexesTo ((argsText (ds.map Prod.snd)).toList ++ ';' :: cs) (separated ds ++ ts) := by
  cases ds with
  | nil => exact h
  | cons d ds =>
    have hlist := lexes_blank (lexes_separated hds (delimited_cons (by decide)) h)
    simpa [argsText, Function.comp_def] using hlist

theorem isLabel_operand (hd : Operand d) (hl : Kind.label.accepts d) : IsOperand "LABEL" d := by
  obtain ⟨type, hd⟩ := hd
  have prefixed {s : String} (h : Kind.label.accepts (.str s)) : ['%', '.', 'L'] <+: s.toList := by
    simpa [Kind.accepts, Tac.Operand.isLabel, Datum.string?, isLabelName, String.startsWith_string_iff] using h
  cases hd with
  | @temp s hs =>
    -- no temporary has a dot behind its first character
    obtain ⟨v, hv, hm⟩ := matches_text_seq.1 hs
    obtain ⟨rest, hrest⟩ := prefixed hl
    rw [hv] at hrest
    obtain rfl : v = '.' :: 'L' :: rest := by simpa using hrest.symm
    exact absurd hm.starts (by decide)
  | number => cases hl
  | label hs => exact .label hs
  | @global s hs =>
    obtain ⟨v, hv, -⟩ := matches_text_seq.1 hs
    have := prefixed hl
    rw [hv] at this
    simp at this

theorem label_parts (hp : Parts result "label" args) (h : Record.check ⟨.str "label", .tuple args, result⟩ = .ok i) :
    result = .null ∧ ∃ l, args = [l] ∧ IsOperand "LABEL" l := by
  obtain ⟨s, k, k₁, k₂, hop, hkinds, hd, h₁, h₂, -⟩ := Instr.ofParts_eq_ok h
  cases hop
  cases hkinds
  refine ⟨eq_null_of_accepts hd, ?_⟩
  match args, hp.length with
  | [], _ => cases h₁
  | [l], _ => exact ⟨l, rfl, isLabel_operand (hp.operand l (by simp)) h₁⟩
  | [l, x], _ =>
    have hx := (hp.operand x (by simp)).isNull
    rw [show x = .null from eq_null_of_accepts h₂] at hx
    cases hx

theorem lexes_instr (hi : Written i) :
    ∃ t ds, i.text? = .ok t ∧ InstrTokens i ds ∧ ∀ cs ts, LexesTo cs ts → LexesTo (t.toList ++ cs) (ds ++ ts) := by
  obtain ⟨result, op, args, hp, hi⟩ := hi
  obtain ⟨r, hr, hcheck⟩ := Record.check_of_ofParts hi
  cases hr
  have hphi := isPhi_of_parts hp rfl hcheck
  have htext : i.text? = .ok (Record.text ⟨.str op, .tuple args, result⟩) := by
    have hfrozen : i.isFrozen = false := by
      cases i <;> first | rfl | cases hphi
    rw [Instr.text?, hfrozen, (Record.spells_of_check hcheck hphi).text_eq hphi]
    rfl
  by_cases hop : op = "label"
  · subst hop
    obtain ⟨rfl, l, rfl, hl⟩ := label_parts hp hcheck
    refine ⟨_, _, htext, .label hi, fun cs ts h => ?_⟩
    have hcolon := lexes_mark (show (8, ':', "COLON") ∈ marks by decide) h
    simpa [Record.text, Datum.is, Record.arg] using lexes_operand hl (delimited_cons (by decide)) hcolon
  · obtain ⟨rs, hrs, hlhs⟩ := lexes_result hp.result
    obtain ⟨ds, rfl, hds⟩ := exists_typed hp.operand
    refine ⟨_, _, htext, .plain hrs hds (by simpa using hp.length) hi, fun cs ts h => ?_⟩
    have hargs := lexes_args hds (lexes_mark (show (11, ';', "SEMICOLON") ∈ marks by decide) h)
    have hline := lexes_blank (lexes_blank (hlhs _ _ (lexes_opcode hp.opcode (delimited_args _) hargs)))
    rw [text_record hp hop]
    simpa using hline

/-! ### Declarations -/

theorem lexes_body {is : List Instr} (his : ∀ i ∈ is, Written i) :
    ∃ lines ds, is.mapM Instr.text? = .ok lines ∧ BodyTokens is ds ∧
      ∀ cs ts, LexesTo cs ts → LexesTo ((String.join (lines.map (· ++ "\n"))).toList ++ cs) (ds.flatten ++ ts) := by
  induction is with
  | nil => exact ⟨[], [], rfl, .nil, fun cs ts h => h⟩
  | cons i is ih =>
    obtain ⟨hi, his⟩ := forall_mem_cons.1 his
    obtain ⟨line, d, hline, hd, hlex⟩ := lexes_instr hi
    obtain ⟨lines, ds, hlines, hds, hrest⟩ := ih his
    refine ⟨line :: lines, d :: ds, ?_, .cons hd hds, fun cs ts h => ?_⟩
    · rw [mapM_cons, hline, hlines]
      rfl
    · simpa using hlex _ _ (lexes_newline (hrest cs ts h))

theorem text_proc {p : Proc Instr} {lines : List String} (hp : ∀ d ∈ p.params, IsOperand "TEMP" d)
    (hlines : p.body.mapM Instr.text? = .ok lines) :
    p.text = .ok ("proc " ++ p.name ++ "(" ++ ", ".intercalate (p.params.map Datum.text) ++ "):\n" ++ String.join (lines.map (· ++ "\n"))) := by
  have hbody : p.body.mapM Instruction.text = .ok lines := hlines
  rw [Proc.text, hbody]
  refine bind_eq_ok.2 ⟨p.params.map Datum.text, mapM_eq_ok.2 ?_, ?_⟩
  · rw [forall₂_map_right_iff, forall₂_same]
    intro d hd
    have hd := hp d hd
    generalize ht : "TEMP" = type at hd
    cases hd with
    | number => simp at ht
    | _ => rfl
  · rfl

theorem lexes_keyword {s type : String} (hs : (s, type) ∈ [("var", "VAR"), ("proc", "PROC")]) (h : LexesTo cs ts) :
    LexesTo (s.toList ++ ' ' :: cs) ((type, .str s) :: ts) := by
  simp only [mem_cons, Prod.mk.injEq, not_mem_nil, or_false] at hs
  rcases hs with ⟨rfl, rfl⟩ | ⟨rfl, rfl⟩
  · exact lexes_word (matches_word (c := 'v') rfl rfl) rfl (delimited_cons (by decide)) (lexes_blank h)
  · exact lexes_word (matches_word (c := 'p') rfl rfl) rfl (delimited_cons (by decide)) (lexes_blank h)

theorem lexes_decl {d : Decl Instr} (hd : Declared d) :
    ∃ t ds, d.text = .ok t ∧ DeclTokens d ds ∧ ∀ cs ts, LexesTo cs ts → LexesTo (t.toList ++ cs) (ds ++ ts) := by
  cases d with
  | gvar g =>
    refine ⟨_, _, rfl, .gvar g, fun cs ts h => ?_⟩
    have hvalue := lexes_operand hd.2 (delimited_cons (by decide))
      (lexes_mark (show (11, ';', "SEMICOLON") ∈ marks by decide) (lexes_newline h))
    have hequals := lexes_blank (lexes_mark (show (10, '=', "EQ") ∈ marks by decide) (lexes_blank hvalue))
    have hall := lexes_keyword (by decide : ("var", "VAR") ∈ _) (lexes_operand hd.1 (delimited_cons (by decide)) hequals)
    simpa [Gvar.text, Datum.text] using hall
  | proc p =>
    obtain ⟨hname, hparams, hbody⟩ := hd
    obtain ⟨lines, ds, hlines, hds, hlex⟩ := lexes_body hbody
    refine ⟨_, _, text_proc hparams hlines, .proc hds, fun cs ts h => ?_⟩
    have htail := lexes_mark (show (7, ')', "RPAREN") ∈ marks by decide)
      (lexes_mark (show (8, ':', "COLON") ∈ marks by decide) (lexes_newline (hlex cs ts h)))
    have htemps : LexesTo _ (separated (p.params.map ("TEMP", ·)) ++ _) :=
      lexes_separated (by simpa using hparams) (delimited_cons (by decide)) htail
    have hall := lexes_keyword (by decide : ("proc", "PROC") ∈ _) (lexes_operand hname (delimited_cons (by decide))
      (lexes_mark (show (6, '(', "LPAREN") ∈ marks by decide) htemps))
    simpa [Datum.text, Function.comp_def] using hall

theorem lexes_decls {ds : List (Decl Instr)} (hds : ∀ d ∈ ds, Declared d) :
    ∃ texts us, ds.mapM Decl.text = .ok texts ∧ List.Forall₂ DeclTokens ds us ∧ LexesTo (String.join texts).toList us.flatten := by
  induction ds with
  | nil => exact ⟨[], [], rfl, .nil, .nil⟩
  | cons d ds ih =>
    obtain ⟨hd, hds⟩ := forall_mem_cons.1 hds
    obtain ⟨t, u, ht, hu, hlex⟩ := lexes_decl hd
    obtain ⟨texts, us, htexts, hus, hrest⟩ := ih hds
    refine ⟨t :: texts, u :: us, ?_, .cons hu hus, ?_⟩
    · rw [mapM_cons, ht, htexts]
      rfl
    · simpa using hlex _ _ hrest

theorem read_of_lexes {text : String} {ds : List (Decl Instr)} {us : List (List (String × Datum))}
    (hlex : LexesTo text.toList us.flatten) (hus : List.Forall₂ DeclTokens ds us) (provenance : String) :
    read (Source.parseSteps text) provenance text = (.ok ds, "") := by
  have hat : ((State.start (⟨provenance, ""⟩ : Memory)).feed text).At lexer mode (fun _ => True) ⟨provenance, ""⟩ text.toList := ⟨⟨[], rfl, rfl⟩, rfl, trivial, rfl⟩
  obtain ⟨toks, last, hreads, htoks, hmemory⟩ := hlex.reads rfl hat
  obtain ⟨n, hn, hmoves⟩ := leads_program hus
  have htyped : toks.map (language (ι := Instr)).typed = us.flatten.map valued := by
    rw [← htoks, map_map]
    rfl
  have hfuel : n < Source.parseSteps text := by
    have := hlex.length_le
    rw [String.length_toList] at this
    simp only [Source.parseSteps]
    omega
  have hf : ∀ k vs v s, made k vs = some v → True → (language (ι := Instr)).reduce k vs s = (.ok (some v), s) := by
    intro k vs v s hv _
    rw [made] at hv
    show (reduce k vs, s) = _
    split at hv
    · next h => rw [h, hv]
    · cases hv
  have hm : Moves (language (ι := Instr)).tables made n [] (toks.map language.typed) [⟨1, "program", .program ds⟩] [] := htyped ▸ hmoves
  have ha : tables.action? 1 "$end" = some .accept := action?_eq 1 "$end"
  have hparse : language.parse (Source.parseSteps text) true ((State.start ⟨provenance, ""⟩).feed text) =
      some (.ok (some (.program ds)), true, last) := Language.parse_of_moves hf tables_consistent hreads hm ha hfuel
  rw [read, hparse]
  show (Except.ok ds, last.memory.output) = _
  rw [hmemory]

/-- What has been read is printed as a text that reads as the same, without a word about it. -/
theorem read_printed {fuel : Nat} {provenance text : String} {ds : List (Decl Instr)} (h : (read fuel provenance text).1 = .ok ds) :
    ∃ texts, ds.mapM Decl.text = .ok texts ∧
      ∀ provenance', read (Source.parseSteps (String.join texts)) provenance' (String.join texts) = (.ok ds, "") := by
  obtain ⟨texts, us, htexts, hus, hlex⟩ := lexes_decls (declared_of_read h)
  exact ⟨texts, htexts, read_of_lexes hlex hus⟩

theorem ofParts_of_accepts {dest : Datum} {k k₁ k₂ : Kind} (hk : Instr.kinds? op = some (k, k₁, k₂))
    (hd : k.accepts dest) (h₁ : k₁.accepts ((args[0]?).getD .null))
    (h₂ : k₂.accepts ((args[1]?).getD .null)) :
    Instr.ofParts dest (.str op) (.tuple args) = .ok (Instr.assemble op dest ((args[0]?).getD .null) ((args[1]?).getD .null)) := by
  have hargs (n : Nat) : Instr.argument (.tuple args) n = .ok ((args[n]?).getD .null) := Instr.pick_or_null args n
  simp [Instr.ofParts, hargs, Except.mapError, Datum.isKey, Datum.string?, hk, hd, h₁, h₂]
  rfl

def small : List (Decl Instr) :=
  [.gvar ⟨"@g", .int 7⟩, .proc ⟨"@f", [.str "%0"], [.label "%.L1", .const "%x" (.int 0), .ret (some "%x")]⟩]

def smallText : String := "var @g = 7;\nproc @f(%0):\n%.L1:\n  %x = const 0;\n  ret %x;\n"

theorem declared_small : ∀ d ∈ small, Declared d := by
  have hg : global.Matches "@g".toList := matches_text_seq.2 ⟨['g'], rfl, matches_word (c := 'g') rfl rfl⟩
  have hf : global.Matches "@f".toList := matches_text_seq.2 ⟨['f'], rfl, matches_word (c := 'f') rfl rfl⟩
  have h₀ : temp.Matches "%0".toList := matches_text_seq.2 ⟨['0'], rfl, matches_alt.2 (.inl (matches_text.2 rfl))⟩
  have hx : temp.Matches "%x".toList := matches_text_seq.2 ⟨['x'], rfl, matches_alt.2 (.inr (matches_alt.2 (.inr
    (matches_set_seq.2 ⟨'x', [], rfl, rfl, matches_star_set.2 (by simp)⟩))))⟩
  have hl : label.Matches "%.L1".toList := matches_text_seq.2 ⟨['1'], rfl, matches_star_set.2 (by simp [CharSet.mem])⟩
  have haccepts : Kind.label.accepts (.str "%.L1") ∧ Kind.var.accepts (.str "%x") ∧ Kind.optional.accepts (.str "%x") := by
    simp [Kind.accepts, Tac.Operand.isLabel, Tac.Operand.isVar, Datum.string?, isLabelName, isVarName, String.startsWith_string_iff]
  have hlabel : Written (.label "%.L1") := ⟨.null, "label", [.str "%.L1"],
    ⟨.inl rfl, ⟨matches_word (c := 'l') rfl rfl, by decide, by decide⟩, forall_mem_singleton.2 ⟨_, .label hl⟩, by simp⟩,
    ofParts_of_accepts rfl rfl haccepts.1 rfl⟩
  have hconst : Written (.const "%x" (.int 0)) := ⟨.str "%x", "const", [.int 0],
    ⟨.inr (.inl (.temp hx)), ⟨matches_word (c := 'c') rfl rfl, by decide, by decide⟩,
      forall_mem_singleton.2 ⟨_, .number (n := 0) (by decide)⟩, by simp⟩, ofParts_of_accepts rfl haccepts.2.1 rfl rfl⟩
  have hret : Written (.ret (some "%x")) := ⟨.null, "ret", [.str "%x"],
    ⟨.inl rfl, ⟨matches_word (c := 'r') rfl rfl, by decide, by decide⟩, forall_mem_singleton.2 ⟨_, .temp hx⟩, by simp⟩,
    ofParts_of_accepts rfl rfl haccepts.2.2 rfl⟩
  simp only [small, forall_mem_cons]
  exact ⟨⟨.global hg, .number (n := 7) (by decide)⟩,
    ⟨.global hf, forall_mem_singleton.2 (.temp h₀), by simp [hlabel, hconst, hret]⟩, by simp⟩

theorem read_printed_small : (read (Source.parseSteps smallText) "small.tac" smallText).1 = .ok small ∧
    ∃ texts, small.mapM Decl.text = .ok texts ∧
      ∀ provenance, read (Source.parseSteps (String.join texts)) provenance (String.join texts) = (.ok small, "") := by
  obtain ⟨texts, us, htexts, hus, hlex⟩ := lexes_decls declared_small
  have htext : String.join texts = smallText := by
    cases htexts
    decide
  have h : (read (Source.parseSteps smallText) "small.tac" smallText).1 = .ok small := by
    rw [read_of_lexes (htext ▸ hlex) hus]
  exact ⟨h, read_printed h⟩

end Reader

end Bx.Tac
