import Bx.Grammar.Basic

namespace Bx.Grammar

def extend (xs ys : List String) : List String := ys.foldl (fun acc y => if acc.contains y then acc else acc ++ [y]) xs

def symbolCount (g : Grammar) : Nat := g.terminals.length + g.nonterminals.length

def reach (g : Grammar) : Nat → List String → List String → List String
  | 0, _, seen => seen
  | _ + 1, [], seen => seen
  | n + 1, s :: todo, seen =>
    if seen.contains s then reach g n todo seen
    else reach g n ((g.productionsOf s).flatMap (·.symbols) ++ todo) (s :: seen)

def unreachable (g : Grammar) : Except Error (List String) :=
  match g.augmented with
  | none => .error .notAugmented
  | some p =>
    let size := (g.rules.map fun r => r.symbols.length + 1).foldl (· + ·) 2
    let seen := reach g size p.symbols []
    .ok ((g.nonterminals.map (·.1)).filter fun s => !seen.contains s)

def productiveRound (g : Grammar) (good : List String) : List String :=
  g.byName.foldl (fun good (n, ps) =>
    if !good.contains n && ps.any (fun p => p.symbols.all good.contains) then good ++ [n] else good) good

def iterate {α : Type} (f : α → α) : Nat → α → α
  | 0, x => x
  | n + 1, x => iterate f n (f x)

def unproductive (g : Grammar) : List String :=
  let terms := (g.terminals.map (·.1) ++ ["$end"]).filter fun s => !g.isNonterminal s
  let good := iterate (productiveRound g) (g.byName.length + 1) terms
  let names := extend (g.terminals.map (·.1) ++ ["$end"]) (g.nonterminals.map (·.1))
  names.filter fun s => !good.contains s && ((g.byName.lookup s).isSome || g.isTerminal s)

def undefinedSymbols (g : Grammar) : List (String × Production) :=
  (g.augmented.toList ++ g.rules).flatMap fun p =>
    (p.symbols.filter fun s => (g.byName.lookup s).isNone && !g.isTerminal s && s != "error").map (·, p)

def unusedTerminals (g : Grammar) : List String :=
  (g.terminals.filter fun (s, ns) => s != "error" && ns.isEmpty).map (·.1)

def unusedRules (g : Grammar) : List Production :=
  g.nonterminals.filterMap fun (s, ns) => if ns.isEmpty then (g.productionsOf s).head? else none

def unusedPrecedence (g : Grammar) : List (String × Assoc) :=
  (g.precedence.filter fun (t, _) => !(g.isTerminal t || g.usedPrecedence.contains t)).map fun (t, p) => (t, p.assoc)

def firstOf (first : List (String × List String)) : List String → Except Error (List String)
  | [] => .ok ["<empty>"]
  | x :: rest => match first.lookup x with
    | none => .error (.ruleMissing x)
    | some fs =>
      let here := fs.filter (· != "<empty>")
      if fs.contains "<empty>" then (firstOf first rest).map (extend here) else .ok here

abbrev Sets := List (String × List String)

def addTo (sets : Sets) (k : String) (xs : List String) : Sets × Bool :=
  let old := (sets.lookup k).getD []
  let new := extend old xs
  (if new.length == old.length then sets else Datum.put k new sets, new.length != old.length)

def firstRound (g : Grammar) (sets : Sets) : Except Error Unit × Sets × Bool :=
  g.nonterminals.foldl (fun (r, sets, changed) (n, _) =>
    match r, g.byName.lookup n with
    | .error e, _ => (.error e, sets, changed)
    | .ok _, none => (.error (.ruleMissing n), sets, changed)
    | .ok _, some ps => ps.foldl (fun (r, sets, changed) p =>
        match r, firstOf sets p.symbols with
        | .error e, _ | .ok _, .error e => (.error e, sets, changed)
        | .ok _, .ok fs =>
          let (sets, new) := addTo sets n fs
          (.ok (), sets, changed || new)) (.ok (), sets, changed))
    (.ok (), sets, false)

def saturate (round : Sets → Except Error Unit × Sets × Bool) : Nat → Sets → Except Error Unit × Sets
  | 0, sets => (.ok (), sets)
  | n + 1, sets => match round sets with
    | (.error e, sets, _) => (.error e, sets)
    | (.ok _, sets, true) => saturate round n sets
    | (.ok _, sets, false) => (.ok (), sets)

def computeFirst (g : Grammar) : Except Error Unit × Grammar :=
  if !g.first.isEmpty then (.ok (), g) else
  let sets := g.terminals.foldl (fun acc (t, _) => Datum.put t [t] acc) []
  let sets := Datum.put "$end" ["$end"] sets
  let sets := g.nonterminals.foldl (fun acc (n, _) => Datum.put n [] acc) sets
  let (r, sets) := saturate (firstRound g) (g.symbolCount * g.symbolCount + 2) sets
  (r, { g with first := sets })

def followProduction (g : Grammar) (p : Production) :
    List String → Except Error Unit × Sets × Bool → Except Error Unit × Sets × Bool
  | [], acc => acc
  | b :: rest, (r, sets, changed) =>
    if !g.isNonterminal b then followProduction g p rest (r, sets, changed) else
    match r, firstOf g.first rest with
    | .error e, _ | .ok _, .error e => (.error e, sets, changed)
    | .ok _, .ok fs =>
      let (sets, new) := addTo sets b (fs.filter (· != "<empty>"))
      let changed := changed || new
      if fs.contains "<empty>" || rest.isEmpty then
        match sets.lookup p.name with
        | none => (.error (.ruleMissing p.name), sets, changed)
        | some fs =>
          let (sets, new) := addTo sets b fs
          followProduction g p rest (.ok (), sets, changed || new)
      else followProduction g p rest (.ok (), sets, changed)

def followRound (g : Grammar) (sets : Sets) : Except Error Unit × Sets × Bool :=
  g.rules.foldl (fun acc p => match acc with
    | (.error e, sets, changed) => (.error e, sets, changed)
    | (.ok _, sets, changed) => followProduction g p p.symbols (.ok (), sets, changed)) (.ok (), sets, false)

def computeFollow (g : Grammar) (start : Option String) : Except Error Unit × Grammar :=
  if !g.follow.isEmpty then (.ok (), g) else
  match g.computeFirst with
  | (.error e, g) => (.error e, g)
  | (.ok _, g) =>
    let sets := g.nonterminals.foldl (fun acc (n, _) => Datum.put n [] acc) []
    let chosen := match start with
      | some s => if s.isEmpty then g.rules.head?.map (·.name) else some s
      | none => g.rules.head?.map (·.name)
    match chosen with
    | none => (.error .noProductions, { g with follow := sets })
    | some s =>
      let (r, sets) := saturate (followRound g) (g.symbolCount * g.symbolCount + 2) (Datum.put s ["$end"] sets)
      (r, { g with follow := sets })

end Bx.Grammar
