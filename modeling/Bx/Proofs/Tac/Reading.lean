import Bx.Proofs.Tac.Lexemes
import Bx.Proofs.Tac.Tables
import Mathlib.Tactic.IntervalCases

namespace Bx.Tac.Reader

open List Bx.Parser Regex

def Operand (d : Datum) : Prop := ∃ type, IsOperand type d

structure Parts (result : Datum) (op : String) (args : List Datum) : Prop where
  result : result = .null ∨ IsOperand "TEMP" result ∨ IsOperand "GSYM" result
  opcode : IsOpcode op
  operand : ∀ a ∈ args, Operand a
  length : args.length ≤ 2

def Written (i : Instr) : Prop := ∃ result op args, Parts result op args ∧ Instr.ofParts result (.str op) (.tuple args) = .ok i

def Declared : Decl Instr → Prop
  | .gvar g => IsOperand "GSYM" (.str g.name) ∧ IsOperand "NUM64" g.init
  | .proc p => IsOperand "GSYM" (.str p.name) ∧ (∀ d ∈ p.params, IsOperand "TEMP" d) ∧ ∀ i ∈ p.body, Written i

def Good (type : String) (v : Value Instr) : Prop :=
  match type with
  | "TEMP" => ∃ d, v = .word d ∧ IsOperand "TEMP" d
  | "NUM64" => ∃ d, v = .word d ∧ IsOperand "NUM64" d
  | "LABEL" => ∃ d, v = .word d ∧ IsOperand "LABEL" d
  | "GSYM" => ∃ d, v = .word d ∧ IsOperand "GSYM" d
  | "OPCODE" => ∃ s, v = .word (.str s) ∧ IsOpcode s
  | "arg" => ∃ d, v = .word d ∧ Operand d
  | "args" => ∃ ds, v = .words ds ∧ (∀ d ∈ ds, Operand d) ∧ ds.length ≤ 2
  | "lhs" => ∃ d, v = .word d ∧ (d = .null ∨ IsOperand "TEMP" d ∨ IsOperand "GSYM" d)
  | "instr" => ∃ i, v = .instr i ∧ Written i
  | "instrs" => ∃ is, v = .instrs is ∧ ∀ i ∈ is, Written i
  | "argtemps1" | "argtemps" | "procparams" => ∃ ds, v = .words ds ∧ ∀ d ∈ ds, IsOperand "TEMP" d
  | "gvar" | "proc" => ∃ d, v = .decl d ∧ Declared d
  | "program" => ∃ ds, v = .program ds ∧ ∀ d ∈ ds, Declared d
  | _ => True

theorem good_token {type : String} {d : Datum} (h : IsToken type d) : Good type (.word d) := by
  cases h with
  | operand h => cases h <;> exact ⟨_, rfl, by constructor; assumption⟩
  | opcode h => exact ⟨_, rfl, h⟩
  | mark h =>
    simp only [markTypes, mem_cons, not_mem_nil, or_false] at h
    rcases h with rfl | rfl | rfl | rfl | rfl | rfl | rfl | rfl <;> trivial

theorem eq_str_of_global {d : Datum} (h : IsOperand "GSYM" d) : ∃ s, d = .str s := by
  generalize ht : "GSYM" = type at h
  cases h with
  | number => simp at ht
  | _ => exact ⟨_, rfl⟩

theorem build_good {result : Datum} {op : String} {args : List Datum} {r : Option (Value Instr)} (hp : Parts result op args)
    (h : build result (.str op) args = .ok r) : ∃ v, r = some v ∧ Good "instr" v := by
  rw [build] at h
  split at h
  · next i hi =>
      cases h
      exact ⟨_, rfl, i, rfl, result, op, args, hp, hi⟩
  · cases h

theorem reduce_good {n : Nat} {name : String} {symbols : List String} {vs : List (Value Instr)} {r : Option (Value Instr)}
    (hn : ruleRows[n]? = some (name, symbols)) (hvs : List.Forall₂ Good symbols vs) (h : reduce n vs = .ok r) :
    ∃ v, r = some v ∧ Good name v := by
  have hlt : n < 26 := (List.getElem?_eq_some_iff.1 hn).1
  have label : IsOpcode "label" := ⟨matches_word (c := 'l') rfl rfl, by decide, by decide⟩
  interval_cases n <;> cases hn
  case «0» =>
    obtain _ | ⟨-, _ | _⟩ := hvs
    cases h
    exact ⟨_, rfl, trivial⟩
  case «1» | «2» =>
    obtain _ | ⟨⟨ds, rfl, hds⟩, _ | ⟨⟨d, rfl, hd⟩, _ | _⟩⟩ := hvs
    cases h
    exact ⟨_, rfl, _, rfl, forall_mem_append.2 ⟨hds, forall_mem_singleton.2 hd⟩⟩
  case «3» =>
    cases hvs
    cases h
    exact ⟨_, rfl, [], rfl, by simp⟩
  case «4» =>
    obtain _ | ⟨-, _ | ⟨⟨g, rfl, hg⟩, _ | ⟨-, _ | ⟨⟨d, rfl, hd⟩, _ | ⟨-, _ | _⟩⟩⟩⟩⟩ := hvs
    obtain ⟨g, rfl⟩ := eq_str_of_global hg
    cases h
    exact ⟨_, rfl, _, rfl, hg, hd⟩
  case «5» =>
    obtain _ | ⟨-, _ | ⟨⟨g, rfl, hg⟩, _ | ⟨⟨ps, rfl, hps⟩, _ | ⟨-, _ | ⟨⟨is, rfl, his⟩, _ | _⟩⟩⟩⟩⟩ := hvs
    obtain ⟨g, rfl⟩ := eq_str_of_global hg
    cases h
    exact ⟨_, rfl, _, rfl, hg, hps, his⟩
  case «6» =>
    obtain _ | ⟨-, _ | ⟨hv, _ | ⟨-, _ | _⟩⟩⟩ := hvs
    cases h
    exact ⟨_, rfl, hv⟩
  case «7» | «9» =>
    cases hvs
    cases h
    exact ⟨_, rfl, [], rfl, by simp⟩
  case «8» =>
    obtain _ | ⟨hv, _ | _⟩ := hvs
    cases h
    exact ⟨_, rfl, hv⟩
  case «10» =>
    obtain _ | ⟨⟨d, rfl, hd⟩, _ | _⟩ := hvs
    cases h
    exact ⟨_, rfl, _, rfl, forall_mem_singleton.2 hd⟩
  case «11» =>
    obtain _ | ⟨⟨ds, rfl, hds⟩, _ | ⟨-, _ | ⟨⟨d, rfl, hd⟩, _ | _⟩⟩⟩ := hvs
    cases h
    exact ⟨_, rfl, _, rfl, forall_mem_append.2 ⟨hds, forall_mem_singleton.2 hd⟩⟩
  case «12» =>
    obtain _ | ⟨⟨is, rfl, his⟩, _ | ⟨⟨i, rfl, hi⟩, _ | _⟩⟩ := hvs
    cases h
    exact ⟨_, rfl, _, rfl, forall_mem_append.2 ⟨his, forall_mem_singleton.2 hi⟩⟩
  case «13» =>
    cases hvs
    cases h
    exact ⟨_, rfl, [], rfl, by simp⟩
  case «14» =>
    obtain _ | ⟨⟨r, rfl, hr⟩, _ | ⟨⟨op, rfl, hop⟩, _ | ⟨⟨args, rfl, hargs, hlen⟩, _ | ⟨-, _ | _⟩⟩⟩⟩ := hvs
    exact build_good ⟨hr, hop, hargs, hlen⟩ h
  case «15» =>
    obtain _ | ⟨⟨l, rfl, hl⟩, _ | ⟨-, _ | _⟩⟩ := hvs
    exact build_good ⟨.inl rfl, label, forall_mem_singleton.2 ⟨_, hl⟩, by simp⟩ h
  case «16» =>
    obtain _ | ⟨⟨d, rfl, hd⟩, _ | ⟨-, _ | _⟩⟩ := hvs
    cases h
    exact ⟨_, rfl, d, rfl, .inr (.inl hd)⟩
  case «17» =>
    obtain _ | ⟨⟨d, rfl, hd⟩, _ | ⟨-, _ | _⟩⟩ := hvs
    cases h
    exact ⟨_, rfl, d, rfl, .inr (.inr hd)⟩
  case «18» =>
    cases hvs
    cases h
    exact ⟨_, rfl, _, rfl, .inl rfl⟩
  case «19» =>
    obtain _ | ⟨⟨d, rfl, hd⟩, _ | ⟨-, _ | ⟨⟨d', rfl, hd'⟩, _ | _⟩⟩⟩ := hvs
    cases h
    exact ⟨_, rfl, _, rfl, forall_mem_cons.2 ⟨hd, forall_mem_singleton.2 hd'⟩, by simp⟩
  case «20» =>
    obtain _ | ⟨⟨d, rfl, hd⟩, _ | _⟩ := hvs
    cases h
    exact ⟨_, rfl, _, rfl, forall_mem_singleton.2 hd, by simp⟩
  case «21» =>
    cases hvs
    cases h
    exact ⟨_, rfl, [], rfl, by simp, by simp⟩
  case «22» | «23» | «24» | «25» =>
    obtain _ | ⟨⟨d, rfl, hd⟩, _ | _⟩ := hvs
    cases h
    exact ⟨_, rfl, d, rfl, _, hd⟩

theorem language_checked : (language (ι := Instr)).Checked (fun s => s.mode = "INITIAL") Good "program" := by
  refine ⟨fun s t s' hs ht => ?_, fun t s => ?_, fun k n hn => ?_, fun k t ha => accept_spells ha,
    fun k j => action?_end_ne_shift k j⟩
  · obtain ⟨hs', htok⟩ := lexer_makes.token hs ht
    exact ⟨hs', fun t' ht' => good_token (htok t' ht')⟩
  · cases t <;> exact ⟨_, _, rfl⟩
  · obtain ⟨name, symbols, hrow, hspells⟩ := reduces_row hn
    obtain ⟨p, hp, rfl, rfl⟩ := rules_eq hrow
    refine ⟨p, hp, hspells, fun vs s r s' hvs hs hr => ?_⟩
    obtain ⟨hv, rfl⟩ : reduce n vs = .ok r ∧ s = s' := Prod.mk.inj hr
    exact ⟨hs, reduce_good hrow hvs hv⟩

theorem declared_of_read {fuel : Nat} {provenance text : String} {ds : List (Decl Instr)}
    (h : (read fuel provenance text).1 = .ok ds) : ∀ d ∈ ds, Declared d := by
  rw [read] at h
  split at h
  · next hparse =>
      cases h
      obtain ⟨ds', hds, hall⟩ := language_checked.parse (s := (Lexer.State.start ⟨provenance, ""⟩).feed text) rfl hparse
      cases hds
      exact hall
  · cases h
    simp
  · cases h
  · cases h
    simp

end Bx.Tac.Reader
