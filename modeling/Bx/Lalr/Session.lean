import Bx.Lalr.View

namespace Bx.Lalr

open Grammar

inductive Fault
  | grammar (e : Grammar.Error)
  | table (e : Failure)
  | index
  | absent
  | unsuited

/-- Terminals and terms of precedence that are no texts are only listed, each in its place. -/
structure Session where
  grammar : Grammar
  memory : Memory
  terminals : List Datum
  terms : List (Datum × String)

def Session.start (terminals : Datum) : Session :=
  let ts := terminals.members.toOption.getD []
  let ts := ts.foldl (fun acc t => if acc.any t.same then acc else acc ++ [t]) []
  ⟨.ofTerminals (ts.filterMap Datum.string?), .empty, ts, []⟩

def Session.setPrecedence (s : Session) (term : Datum) (assoc : String) (level : Datum) : Except Error Session := do
  let g ← match term with
    | .str t => s.grammar.setPrecedence t assoc level
    | t =>
      if !s.grammar.isEmpty then .error .latePrecedence
      else if !t.isKey then .error .unsuited
      else if s.terms.any (·.1.same t) then .error (.precedenceTwice t)
      else if (Assoc.ofName? assoc).isNone then .error .badAssociativity
      else .ok s.grammar
  return { s with grammar := g, terms := s.terms ++ [(term, assoc)] }

def Session.unusedTerminals (s : Session) : List Datum :=
  let idle := s.grammar.unusedTerminals
  s.terminals.filter (fun t => t.string?.all idle.contains) ++
    (idle.filter fun t => !s.terminals.any (·.is t)).map Datum.str

def Session.unusedPrecedence (s : Session) : List Datum :=
  let idle := s.grammar.unusedPrecedence.map (·.1)
  (s.terms.filter fun (t, _) => t.string?.all idle.contains).map fun (t, a) => .list [t, .str a]

def place (size : Nat) (n : Datum) : Except Fault Nat :=
  match n.number? with
  | none => .error .unsuited
  | some k =>
    let k := if k < 0 then k + size else k
    if 0 ≤ k ∧ k < size then .ok k.toNat else .error .index

def Session.production (s : Session) (n : Datum) : Except Fault (Option Production) :=
  (place (s.grammar.rules.length + 1) n).map s.grammar.production?

def addProduction (g : Grammar) (name syms : Datum) (site : Site) : Except Error Unit × Grammar :=
  match name, syms.members with
  | .str n, .ok ds => match ds.dropWhile Datum.isString with
    | [] => g.addProduction n (ds.filterMap Datum.string?) "" site
    | odd :: _ => match g.checkName n site with
      | .error e => (.error e, g)
      | .ok _ => match readSymbols site n g ((ds.takeWhile Datum.isString).filterMap Datum.string?) with
        | (.error e, g) => (.error e, g)
        | (.ok _, g) => (.error (match odd with | .list [] => .emptySymbol | _ => .unsuited), g)
  | .str n, .error _ => ((g.checkName n site).bind fun _ => .error .unsuited, g)
  | _, _ => (.error .unsuited, g)

def computeFollow (g : Grammar) (start : Datum) : Except Error Unit × Grammar :=
  if !start.truthy then g.computeFollow none else
  match start with
  | .str s => g.computeFollow (some s)
  | _ =>
    if !g.follow.isEmpty then (.ok (), g) else
    match g.computeFirst with
    | (.error e, g) => (.error e, g)
    | (.ok _, g) => (.error .unsuited, { g with follow := g.nonterminals.map fun (n, _) => (n, []) })

def Session.perform (s : Session) (c : List Datum) : Except Fault Datum × Session :=
  let g := s.grammar
  let keep (d : Datum) : Except Fault Datum × Session := (.ok d, s)
  let ask (r : Except Fault Datum) : Except Fault Datum × Session := (r, s)
  let change (r : Except Error Grammar) : Except Fault Datum × Session :=
    ((r.map fun _ => Datum.null).mapError .grammar, { s with grammar := r.toOption.getD g })
  let leave (r : Except Error Unit × Grammar) (f : Grammar → Datum) : Except Fault Datum × Session :=
    ((r.1.map fun _ => f r.2).mapError (.grammar ∘ Error.told), { s with grammar := r.2 })
  match c with
  | [.str "set_precedence", t, a, l] => match s.setPrecedence t (a.string?.getD "") l with
    | .ok s => (.ok .null, s)
    | .error e => ask (.error (.grammar e))
  | .str "set_start" :: rest => change (g.setStartTo (rest.head?.getD .null))
  | .str "add_production" :: n :: syms :: rest =>
    leave (addProduction g n syms ⟨"g", rest.head?.getD (.int 0)⟩) fun g =>
      g.rules.getLast?.elim .null Production.literal
  | [.str "find_unreachable"] => ask (match g.unreachable with
    | .error _ => .error .absent
    | .ok xs => .ok (namesDatum xs))
  | [.str "infinite_cycles"] => keep (namesDatum g.unproductive)
  | [.str "unused_terminals"] => keep (.list s.unusedTerminals)
  | [.str "unused_precedence"] => keep (.list s.unusedPrecedence)
  | [.str "undefined_symbols"] => keep (.list (g.undefinedSymbols.map fun (x, p) => .list [.str x, .str p.text]))
  | [.str "unused_rules"] => keep (.list (g.unusedRules.map Production.literal))
  | [.str "compute_first"] =>
    let (r, s) := leave g.computeFirst fun g => Sets.toDatum g.first
    if s.terminals.all Datum.isString then (r, s) else (r.bind fun _ => .error .unsuited, s)
  | .str "compute_follow" :: rest => leave (computeFollow g (rest.head?.getD .null)) fun g => Sets.toDatum g.follow
  | [.str "production", n] => ask ((s.production n).bind fun p => p.elim (.error .unsuited) (.ok ∘ Production.toDatum))
  | [.str "items"] => ask (g.augmented.elim (.error .unsuited) fun p => .ok (itemsDatum g p))
  | [.str "lr_item", i, n] => ask (do
      let some p ← s.production i | throw .absent
      let some k := n.number? | throw .unsuited
      if k > p.symbols.length then return .str "None"
      throw .absent)
  | [.str "table"] =>
    let (r, g, m) := build g s.memory
    ((r.map (Table.toDatum g)).mapError .table, { s with grammar := g, memory := m })
  | _ => keep .null

end Bx.Lalr
