import Bx.Proofs.Tac.Reading

namespace Bx.Tac.Reader

open List Bx.Parser

variable {ds : List (String × Datum)} {i : Instr} {is : List Instr}

def made (n : Nat) (vs : List (Value Instr)) : Option (Value Instr) :=
  match reduce n vs with
  | .ok v => v
  | .error _ => none

def valued (t : String × Datum) : String × Value Instr := (t.1, .word t.2)

abbrev Leads : Nat → List (Entry (Value Instr)) → List (String × Value Instr) → List (Entry (Value Instr)) →
    List (String × Value Instr) → Prop := Parser.Leads tables made

variable {m n k : Nat} {st st' below : List (Entry (Value Instr))} {t : String × Value Instr} {ts ts' us : List (String × Value Instr)}
  {name : String} {symbols : List String} {v : Value Instr}

theorem Leads.shift (h : act (topState st) t.1 = some (.shift k)) (h' : Leads m (⟨k, t.1, t.2⟩ :: st) ts st' ts') :
    Leads (m + 1) st (t :: ts) st' ts' := Parser.Leads.shift (action?_eq _ _ ▸ h) h'

theorem Leads.reduce (h : act (topState st) (aheadType ts) = some (.reduce n)) (hrow : ruleRows[n]? = some (name, symbols))
    (hlen : symbols.length ≤ st.length) (hv : Reader.reduce n ((st.take symbols.length).reverse.map Entry.value) = .ok (some v))
    (hk : (gotos (topState (st.drop symbols.length))).lookup name = some k)
    (h' : Leads m (⟨k, name, v⟩ :: st.drop symbols.length) ts st' ts') : Leads (m + 1) st ts st' ts' :=
  Parser.Leads.reduce (by rw [action?_eq, h]) (rules_eq hrow) hlen (by rw [made, hv]) (by rw [goto?_eq, hk]) h'

/-! ### Instructions -/

def comma : String × Datum := ("COMMA", .str ",")

def separated : List (String × Datum) → List (String × Datum)
  | [] => []
  | d :: ds => d :: ds.flatMap fun d' => [comma, d']

theorem leads_arg {d : String × Datum} (hd : IsOperand d.1 d.2) (hb : topState below = 27 ∨ topState below = 37)
    (hk : (gotos (topState below)).lookup "arg" = some k) (hu : aheadType us ∈ ["COMMA", "SEMICOLON"]) :
    Leads 2 below (valued d :: us) (⟨k, "arg", .word d.2⟩ :: below) us := by
  obtain ⟨type, d⟩ := d
  have hshift : act (topState below) type = operandShifts.lookup type := by
    cases hd <;> rcases hb with hb | hb <;> rw [hb] <;> rfl
  cases hd with
  | temp =>
    have hr : ∀ x ∈ ["COMMA", "SEMICOLON"], act 32 x = some (.reduce 22) := by decide
    exact .shift hshift (.reduce (hr _ hu) rfl (by simp) rfl hk (.refl _ _))
  | number =>
    have hr : ∀ x ∈ ["COMMA", "SEMICOLON"], act 33 x = some (.reduce 23) := by decide
    exact .shift hshift (.reduce (hr _ hu) rfl (by simp) rfl hk (.refl _ _))
  | label =>
    have hr : ∀ x ∈ ["COMMA", "SEMICOLON"], act 34 x = some (.reduce 24) := by decide
    exact .shift hshift (.reduce (hr _ hu) rfl (by simp) rfl hk (.refl _ _))
  | global =>
    have hr : ∀ x ∈ ["COMMA", "SEMICOLON"], act 35 x = some (.reduce 25) := by decide
    exact .shift hshift (.reduce (hr _ hu) rfl (by simp) rfl hk (.refl _ _))

theorem leads_args (hds : ∀ d ∈ ds, IsOperand d.1 d.2) (hlen : ds.length ≤ 2) (hb : topState below = 27)
    (hu : aheadType us = "SEMICOLON") :
    Leads 6 below ((separated ds).map valued ++ us) (⟨30, "args", .words (ds.map Prod.snd)⟩ :: below) us := by
  have hgoto (type : String) : (gotos (topState below)).lookup type = (gotos 27).lookup type := by rw [hb]
  have hend : act 31 (aheadType us) = some (.reduce 20) ∧ act 38 (aheadType us) = some (.reduce 19) ∧
      act (topState below) (aheadType us) = some (.reduce 21) := by
    rw [hu, hb]
    exact ⟨rfl, rfl, rfl⟩
  match ds, hlen with
  | [], _ => exact Leads.mono (Leads.reduce hend.2.2 rfl (by simp) rfl (hgoto _) (.refl _ _)) (by omega)
  | [d], _ =>
    have hd : Leads 2 below (valued d :: us) (⟨31, "arg", .word d.2⟩ :: below) us :=
      leads_arg (hds d (by simp)) (.inl hb) (hgoto _) (by simp [hu])
    exact (hd.trans (Leads.reduce hend.1 rfl (by simp) rfl (hgoto _) (.refl _ _))).mono (by omega)
  | [d, d'], _ =>
    have hd : Leads 2 below (valued d :: valued comma :: valued d' :: us) (⟨31, "arg", .word d.2⟩ :: below)
        (valued comma :: valued d' :: us) :=
      leads_arg (hds d (by simp)) (.inl hb) (hgoto _) (by simp [aheadType, valued, comma])
    have hd' : Leads 2 (⟨37, "COMMA", .word (.str ",")⟩ :: ⟨31, "arg", .word d.2⟩ :: below) (valued d' :: us)
        (⟨38, "arg", .word d'.2⟩ :: ⟨37, "COMMA", .word (.str ",")⟩ :: ⟨31, "arg", .word d.2⟩ :: below) us :=
      leads_arg (hds d' (by simp)) (.inr rfl) rfl (by simp [hu])
    exact hd.trans (Leads.shift rfl (hd'.trans (Leads.reduce hend.2.1 rfl (by simp) rfl (hgoto _) (.refl _ _))))

inductive ResultTokens : Datum → List (String × Datum) → Prop
  | nothing : ResultTokens .null []
  | temp {d : Datum} : ResultTokens d [("TEMP", d), ("EQ", .str "=")]
  | global {d : Datum} : ResultTokens d [("GSYM", d), ("EQ", .str "=")]

theorem leads_lhs {d : Datum} (h : ResultTokens d ds) (hb : topState below = 17) (hu : aheadType us = "OPCODE") :
    Leads 3 below (ds.map valued ++ us) (⟨22, "lhs", .word d⟩ :: below) us := by
  have hgoto : (gotos (topState below)).lookup "lhs" = some 22 := by
    rw [hb]
    rfl
  have hend : act 17 (aheadType us) = some (.reduce 18) ∧ act 29 (aheadType us) = some (.reduce 16) ∧
      act 26 (aheadType us) = some (.reduce 17) := by
    rw [hu]
    exact ⟨rfl, rfl, rfl⟩
  have hshift (type : String) : act (topState below) type = act 17 type := by rw [hb]
  cases h with
  | nothing => exact Leads.mono (Leads.reduce ((hshift _).trans hend.1) rfl (by simp) rfl hgoto (.refl _ _)) (by omega)
  | temp => exact .shift (hshift _) (.shift rfl (.reduce hend.2.1 rfl (by simp) rfl hgoto (.refl _ _)))
  | global => exact .shift (hshift _) (.shift rfl (.reduce hend.2.2 rfl (by simp) rfl hgoto (.refl _ _)))

inductive InstrTokens (i : Instr) : List (String × Datum) → Prop
  | label {l : Datum} (h : Instr.ofParts .null (.str "label") (.tuple [l]) = .ok i) :
      InstrTokens i [("LABEL", l), ("COLON", .str ":")]
  | plain {r : Datum} {rs ds : List (String × Datum)} {op : String} (hr : ResultTokens r rs)
      (hds : ∀ d ∈ ds, IsOperand d.1 d.2) (hlen : ds.length ≤ 2)
      (h : Instr.ofParts r (.str op) (.tuple (ds.map Prod.snd)) = .ok i) :
      InstrTokens i (rs ++ ("OPCODE", .str op) :: (separated ds ++ [("SEMICOLON", .str ";")]))

theorem InstrTokens.aheadType (h : InstrTokens i ds) : aheadType (ds.map valued ++ us) ∈ instrStarts := by
  cases h with
  | label => exact mem_cons_self
  | plain hr => cases hr <;> simp [Parser.aheadType, valued, instrStarts]

theorem build_eq {r op : Datum} {ds : List Datum} (h : Instr.ofParts r op (.tuple ds) = .ok i) :
    build r op ds = .ok (some (.instr i)) := by
  have h' : Instruction.ofParts r op (.tuple ds) = .ok i := h
  rw [build, h']

theorem leads_instr (h : InstrTokens i ds) (hb : topState below = 17) (hu : Parser.aheadType us ∈ instrStarts) :
    Leads 12 below (ds.map valued ++ us) (⟨21, "instr", .instr i⟩ :: below) us := by
  have hgoto : (gotos (topState below)).lookup "instr" = some 21 := by
    rw [hb]
    rfl
  have hend : ∀ x ∈ instrStarts, act 28 x = some (.reduce 15) ∧ act 36 x = some (.reduce 14) := by decide
  have hshift (type : String) : act (topState below) type = act 17 type := by rw [hb]
  cases h with
  | label h =>
    exact Leads.mono (Leads.shift (hshift _) (.shift rfl (.reduce (hend _ hu).1 rfl (by simp) (build_eq h) hgoto (.refl _ _)))) (by omega)
  | @plain r rs ds op hr hds hlen h =>
    have hargs : Leads 6 (⟨27, "OPCODE", .word (.str op)⟩ :: ⟨22, "lhs", .word r⟩ :: below)
        ((separated ds).map valued ++ valued ("SEMICOLON", .str ";") :: us) _ _ := leads_args hds hlen rfl rfl
    have hrest : Leads 9 (⟨22, "lhs", .word r⟩ :: below)
        (valued ("OPCODE", .str op) :: ((separated ds).map valued ++ valued ("SEMICOLON", .str ";") :: us))
        (⟨21, "instr", .instr i⟩ :: below) us :=
      .shift rfl (hargs.trans (Leads.shift rfl (.reduce (hend _ hu).2 rfl (by simp) (build_eq h) hgoto (.refl _ _))))
    simp only [map_append, map_cons, map_nil, append_assoc, cons_append, nil_append]
    exact (leads_lhs hr hb rfl).trans hrest

abbrev BodyTokens (is : List Instr) (ds : List (List (String × Datum))) : Prop := List.Forall₂ InstrTokens is ds

theorem BodyTokens.aheadType {ds : List (List (String × Datum))} (h : BodyTokens is ds) (hu : Parser.aheadType us ∈ instrStarts) :
    Parser.aheadType (ds.flatten.map valued ++ us) ∈ instrStarts := by
  cases h with
  | nil => exact hu
  | cons h _ => 
      rw [flatten_cons, map_append, append_assoc]
      exact h.aheadType

theorem leads_instrs {js : List Instr} {ds : List (List (String × Datum))} (h : BodyTokens is ds) (hb : topState below = 12)
    (hu : Parser.aheadType us ∈ instrStarts) :
    Leads (13 * ds.length) (⟨17, "instrs", .instrs js⟩ :: below) (ds.flatten.map valued ++ us) (⟨17, "instrs", .instrs (js ++ is)⟩ :: below) us := by
  have hend : ∀ x ∈ instrStarts, act 21 x = some (.reduce 12) := by decide
  have hgoto : (gotos (topState below)).lookup "instrs" = some 17 := by
    rw [hb]
    rfl
  induction h generalizing js with
  | nil => simpa using Leads.refl _ _
  | @cons i d is ds hi h ih =>
    rw [flatten_cons, map_append, append_assoc]
    have hahead := BodyTokens.aheadType h hu
    have hstep : Leads (12 + 1) (⟨17, "instrs", .instrs js⟩ :: below) (d.map valued ++ (ds.flatten.map valued ++ us))
        (⟨17, "instrs", .instrs (js ++ [i])⟩ :: below) (ds.flatten.map valued ++ us) :=
      (leads_instr hi rfl hahead).trans (Leads.reduce (hend _ hahead) rfl (by simp) rfl hgoto (.refl _ _))
    have hall := hstep.trans (@ih (js ++ [i]))
    rw [append_assoc] at hall
    exact hall.mono (by simp only [length_cons]; omega)

/-! ### Declarations -/

theorem leads_more {ds ps : List Datum} (hb : topState below = 10) (hu : aheadType us = "RPAREN") :
    Leads (3 * ds.length) (⟨14, "argtemps1", .words ps⟩ :: below)
      (((ds.map ("TEMP", ·)).flatMap fun d => [comma, d]).map valued ++ us) (⟨14, "argtemps1", .words (ps ++ ds)⟩ :: below) us := by
  have hgoto : (gotos (topState below)).lookup "argtemps1" = some 14 := by
    rw [hb]
    rfl
  induction ds generalizing ps with
  | nil => simpa using Leads.refl _ _
  | cons d ds ih =>
    have hend : ∀ x ∈ ["COMMA", "RPAREN"], act 25 x = some (.reduce 11) := by decide
    have hahead : aheadType (((ds.map ("TEMP", ·)).flatMap fun d => [comma, d]).map valued ++ us) ∈ ["COMMA", "RPAREN"] := by
      cases ds with
      | nil => simp [hu]
      | cons => exact mem_cons_self
    have hstep : Leads 3 (⟨14, "argtemps1", .words ps⟩ :: below)
        (valued comma :: valued ("TEMP", d) :: (((ds.map ("TEMP", ·)).flatMap fun d => [comma, d]).map valued ++ us))
        (⟨14, "argtemps1", .words (ps ++ [d])⟩ :: below) _ :=
      .shift rfl (.shift rfl (.reduce (hend _ hahead) rfl (by simp) rfl hgoto (.refl _ _)))
    have hall := hstep.trans (@ih (ps ++ [d]))
    rw [append_assoc] at hall
    exact hall.mono (by simp only [length_cons]; omega)

theorem leads_temps {ds : List Datum} (hb : topState below = 10) (hu : aheadType us = "RPAREN") :
    Leads (3 * ds.length + 1) below ((separated (ds.map ("TEMP", ·))).map valued ++ us) (⟨13, "argtemps", .words ds⟩ :: below) us := by
  have hgoto (name : String) : (gotos (topState below)).lookup name = (gotos 10).lookup name := by rw [hb]
  have hshift (type : String) : act (topState below) type = act 10 type := by rw [hb]
  cases ds with
  | nil =>
    have hnone : act 10 (aheadType us) = some (.reduce 9) := by
      rw [hu]
      rfl
    exact .reduce ((hshift _).trans hnone) rfl (by simp) rfl (hgoto _) (.refl _ _)
  | cons d ds =>
    have hend : ∀ x ∈ ["COMMA", "RPAREN"], act 15 x = some (.reduce 10) := by decide
    have hahead : aheadType (((ds.map ("TEMP", ·)).flatMap fun d => [comma, d]).map valued ++ us) ∈ ["COMMA", "RPAREN"] := by
      cases ds with
      | nil => simp [hu]
      | cons => exact mem_cons_self
    have hfirst : Leads 2 below (valued ("TEMP", d) :: (((ds.map ("TEMP", ·)).flatMap fun d => [comma, d]).map valued ++ us))
        (⟨14, "argtemps1", .words [d]⟩ :: below) _ :=
      .shift (hshift _) (.reduce (hend _ hahead) rfl (by simp) rfl (hgoto _) (.refl _ _))
    have hlast : Leads 1 (⟨14, "argtemps1", .words (d :: ds)⟩ :: below) us (⟨13, "argtemps", .words (d :: ds)⟩ :: below) us :=
      .reduce (n := 8) (by rw [hu]; rfl) rfl (by simp) rfl (hgoto _) (.refl _ _)
    exact ((hfirst.trans (leads_more hb hu)).trans hlast).mono (by simp only [length_cons]; omega)

inductive DeclTokens : Decl Instr → List (String × Datum) → Prop
  | gvar (g : Gvar) : DeclTokens (.gvar g)
      [("VAR", .str "var"), ("GSYM", .str g.name), ("EQ", .str "="), ("NUM64", g.init), ("SEMICOLON", .str ";")]
  | proc {p : Proc Instr} {ds : List (List (String × Datum))} (h : BodyTokens p.body ds) : DeclTokens (.proc p)
      (("PROC", .str "proc") :: ("GSYM", .str p.name) :: ("LPAREN", .str "(") ::
        (separated (p.params.map ("TEMP", ·)) ++ ("RPAREN", .str ")") :: ("COLON", .str ":") :: ds.flatten))

theorem leads_proc {p : Proc Instr} {ds : List (List (String × Datum))} (h : BodyTokens p.body ds) (hb : topState below = 1)
    (hu : aheadType us ∈ declStarts) :
    Leads (13 * ds.length + 3 * p.params.length + 9) below
      ((("PROC", .str "proc") :: ("GSYM", .str p.name) :: ("LPAREN", .str "(") ::
        (separated (p.params.map ("TEMP", ·)) ++ ("RPAREN", .str ")") :: ("COLON", .str ":") :: ds.flatten)).map valued ++ us)
      (⟨3, "proc", .decl (.proc p)⟩ :: below) us := by
  have hgoto : (gotos (topState below)).lookup "proc" = some 3 := by
    rw [hb]
    rfl
  have hshift : act (topState below) "PROC" = some (.shift 5) := by
    rw [hb]
    rfl
  have hstarts : ∀ x ∈ declStarts, x ∈ instrStarts ∧ act 17 x = some (.reduce 5) := by decide
  have hbegin : ∀ x ∈ instrStarts, act 12 x = some (.reduce 13) := by decide
  have hahead := BodyTokens.aheadType h (hstarts _ hu).1
  -- the stack up to the name, up to the parameters, and up to the colon
  let named : List (Entry (Value Instr)) := ⟨7, "GSYM", .word (.str p.name)⟩ :: ⟨5, "PROC", .word (.str "proc")⟩ :: below
  let headed : List (Entry (Value Instr)) :=
    ⟨12, "COLON", .word (.str ":")⟩ :: ⟨9, "procparams", .words p.params⟩ :: named
  have htemps : Leads (3 * p.params.length + 1) (⟨10, "LPAREN", .word (.str "(")⟩ :: named)
      ((separated (p.params.map ("TEMP", ·))).map valued ++
        valued ("RPAREN", .str ")") :: valued ("COLON", .str ":") :: (ds.flatten.map valued ++ us)) _ _ :=
    leads_temps rfl rfl
  have hparams : Leads (3 * p.params.length + 5) named
      (valued ("LPAREN", .str "(") :: ((separated (p.params.map ("TEMP", ·))).map valued ++
        valued ("RPAREN", .str ")") :: valued ("COLON", .str ":") :: (ds.flatten.map valued ++ us)))
      headed (ds.flatten.map valued ++ us) :=
    .shift rfl (htemps.trans (Leads.shift rfl (.reduce (n := 6) rfl rfl (by simp) rfl rfl (.shift rfl (.refl _ _)))))
  have hbody : Leads (13 * ds.length + 2) headed (ds.flatten.map valued ++ us) (⟨3, "proc", .decl (.proc p)⟩ :: below) us := by
    have hinstrs : Leads (13 * ds.length) (⟨17, "instrs", .instrs []⟩ :: headed) _ (⟨17, "instrs", .instrs p.body⟩ :: headed) us :=
      leads_instrs h rfl (hstarts _ hu).1
    exact .reduce (hbegin _ hahead) rfl (by simp) rfl rfl
      (hinstrs.trans (Leads.reduce (hstarts _ hu).2 rfl (by simp [headed, named]) rfl hgoto (.refl _ _)))
  simp only [map_append, map_cons, append_assoc, cons_append]
  exact Leads.mono (Leads.shift hshift (.shift rfl (hparams.trans hbody))) (by omega)

theorem length_separated (ds : List (String × Datum)) : ds.length ≤ (separated ds).length := by
  cases ds with
  | nil => exact Nat.le_refl 0
  | cons d ds =>
    rw [separated, length_cons, length_cons, Nat.succ_le_succ_iff]
    induction ds with
    | nil => exact Nat.le_refl 0
    | cons d' ds ih =>
      rw [flatMap_cons, length_append, length_cons, Nat.add_comm]
      exact Nat.add_le_add (by simp) ih

theorem InstrTokens.length_pos (h : InstrTokens i ds) : 0 < ds.length := by
  cases h <;> simp

theorem BodyTokens.length_le {ds : List (List (String × Datum))} (h : BodyTokens is ds) : ds.length ≤ ds.flatten.length := by
  induction h with
  | nil => exact Nat.le_refl 0
  | cons h _ ih =>
    have hpos := h.length_pos
    simp only [length_cons, flatten_cons, length_append]
    omega

theorem DeclTokens.aheadType {d : Decl Instr} (h : DeclTokens d ds) : aheadType (ds.map valued ++ us) ∈ declStarts := by
  cases h <;> simp [Parser.aheadType, valued, declStarts]

theorem leads_decl {d : Decl Instr} {ts : List (String × Datum)} (h : DeclTokens d ts) {ds : List (Decl Instr)}
    (hu : aheadType us ∈ declStarts) :
    Leads (16 * ts.length) [⟨1, "program", .program ds⟩] (ts.map valued ++ us) [⟨1, "program", .program (ds ++ [d])⟩] us := by
  have hstarts : ∀ x ∈ declStarts, act 2 x = some (.reduce 1) ∧ act 3 x = some (.reduce 2) ∧ act 16 x = some (.reduce 4) := by decide
  cases h with
  | gvar g =>
    have hall : Leads 7 [⟨1, "program", .program ds⟩] (valued ("VAR", .str "var") :: valued ("GSYM", .str g.name) ::
        valued ("EQ", .str "=") :: valued ("NUM64", g.init) :: valued ("SEMICOLON", .str ";") :: us)
        [⟨1, "program", .program (ds ++ [.gvar g])⟩] us :=
      .shift rfl (.shift rfl (.shift rfl (.shift rfl (.shift rfl (.reduce (hstarts _ hu).2.2 rfl (by simp) rfl rfl
        (.reduce (hstarts _ hu).1 rfl (by simp) rfl rfl (.refl _ _)))))))
    exact hall.mono (by simp)
  | @proc p is h =>
    have hlast : Leads 1 [⟨3, "proc", .decl (.proc p)⟩, ⟨1, "program", .program ds⟩] us
        [⟨1, "program", .program (ds ++ [.proc p])⟩] us :=
      .reduce (hstarts _ hu).2.1 rfl (by simp) rfl rfl (.refl _ _)
    refine ((leads_proc h rfl hu).trans hlast).mono ?_
    have hparams := length_separated (p.params.map ("TEMP", ·))
    have hbody := h.length_le
    simp only [length_cons, length_append, length_map] at hparams ⊢
    omega

theorem aheadType_of_decls {ds : List (Decl Instr)} {ts : List (List (String × Datum))} (h : List.Forall₂ DeclTokens ds ts) :
    aheadType (ts.flatten.map valued) ∈ declStarts := by
  cases h with
  | nil => decide
  | cons h _ =>
    rw [flatten_cons, map_append]
    exact h.aheadType

theorem leads_decls {ds es : List (Decl Instr)} {ts : List (List (String × Datum))} (h : List.Forall₂ DeclTokens ds ts) :
    Leads (16 * ts.flatten.length) [⟨1, "program", .program es⟩] (ts.flatten.map valued) [⟨1, "program", .program (es ++ ds)⟩] [] := by
  induction h generalizing es with
  | nil => simpa using Leads.refl _ _
  | @cons d t ds ts hd h ih =>
    have hall := (leads_decl hd (aheadType_of_decls h)).trans (@ih (es ++ [d]))
    rw [append_assoc, ← Nat.mul_add] at hall
    rwa [flatten_cons, map_append, length_append]

theorem leads_program {ds : List (Decl Instr)} {ts : List (List (String × Datum))} (h : List.Forall₂ DeclTokens ds ts) :
    Leads (16 * ts.flatten.length + 1) [] (ts.flatten.map valued) [⟨1, "program", .program ds⟩] [] := by
  have hstarts : ∀ x ∈ declStarts, act 0 x = some (.reduce 3) := by decide
  exact .reduce (hstarts _ (aheadType_of_decls h)) rfl (by simp) rfl rfl (leads_decls h)

end Bx.Tac.Reader
