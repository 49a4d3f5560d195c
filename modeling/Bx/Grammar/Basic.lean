import Bx.Datum.Literal
import Bx.Text.Quoted

namespace Bx

namespace Grammar

inductive Assoc
  | left | right | nonassoc
  deriving DecidableEq

def Assoc.name : Assoc → String
  | .left => "left"
  | .right => "right"
  | .nonassoc => "nonassoc"

def Assoc.ofName? (s : String) : Option Assoc := [.left, .right, .nonassoc].find? (·.name == s)

/-- Levels are numbers as a rule, but any values that compare will do. -/
structure Precedence where
  assoc : Assoc
  level : Datum

def Precedence.none : Precedence := ⟨.right, .int 0⟩

/-- Only a line that is a number can be told. -/
structure Site where
  file : String
  line : Datum

def Site.text (s : Site) : String := s.file ++ ":" ++ toString (s.line.number?.getD 0)

structure Production where
  number : Nat
  name : String
  symbols : List String
  prec : Precedence
  action : String
  site : Site

def Production.text (p : Production) : String :=
  p.name ++ " -> " ++ if p.symbols.isEmpty then "<empty>" else " ".intercalate p.symbols

def Production.distinct (p : Production) : List String :=
  p.symbols.foldl (fun acc s => if acc.contains s then acc else acc ++ [s]) []

inductive Error
  | latePrecedence
  | precedenceTwice (term : Datum)
  | badAssociativity
  | tokenAsRule (site : Site) (name : String)
  | badRuleName (site : Site) (name : String)
  | longLiteral (site : Site) (symbol rule : String)
  | badSymbol (site : Site) (symbol rule : String)
  | emptySymbol
  | unsuited
  | unknownName
  | absent
  | precedenceMissing (site : Site)
  | precedenceInside (site : Site)
  | precedenceUnknown (site : Site) (name : String)
  | duplicate (site : Site) (earlier : Production)
  | startUndefined (name : String)
  | noProductions
  | notAugmented
  | ruleMissing (name : String)

def Error.message : Error → String
  | .latePrecedence => "Must call set_precedence() before add_production()"
  | .precedenceTwice t => "Precedence already specified for terminal " ++ t.literal
  | .badAssociativity => "Associativity must be one of 'left','right', or 'nonassoc'"
  | .tokenAsRule s n => s.text ++ ": Illegal rule name " ++ Datum.quote n ++ ". Already defined as a token"
  | .badRuleName s n => s.text ++ ": Illegal rule name " ++ Datum.quote n
  | .longLiteral s x n =>
    s.text ++ ": Literal token " ++ x ++ " in rule " ++ Datum.quote n ++ " may only be a single character"
  | .badSymbol s x n => s.text ++ ": Illegal name " ++ Datum.quote x ++ " in rule " ++ Datum.quote n
  | .precedenceMissing s => s.text ++ ": Syntax error. Nothing follows %prec"
  | .precedenceInside s => s.text ++ ": Syntax error. %prec can only appear at the end of a grammar rule"
  | .precedenceUnknown s n => s.text ++ ": Nothing known about the precedence of " ++ Datum.quote n
  | .duplicate s p => s.text ++ ": Duplicate rule " ++ p.text ++ ". Previous definition at " ++ p.site.text
  | .startUndefined n => "start symbol " ++ n ++ " undefined"
  | .ruleMissing n => n
  | .emptySymbol | .unsuited | .unknownName | .absent | .noProductions | .notAugmented => ""

def Error.sites : Error → List Site
  | .tokenAsRule s _ | .badRuleName s _ | .longLiteral s _ _ | .badSymbol s _ _ => [s]
  | .precedenceMissing s | .precedenceInside s | .precedenceUnknown s _ => [s]
  | .duplicate s p => [s, p.site]
  | _ => []

def Error.told (e : Error) : Error := if e.sites.all (·.line.isNumber) then e else .unsuited

end Grammar

open Grammar in
/-- `terminals` and `nonterminals` say for each symbol in which rules it is used. -/
structure Grammar where
  augmented : Option Production
  rules : List Production
  byName : List (String × List Production)
  terminals : List (String × List Nat)
  nonterminals : List (String × List Nat)
  first : List (String × List String)
  follow : List (String × List String)
  precedence : List (String × Precedence)
  usedPrecedence : List String

namespace Grammar

def ofTerminals (terminals : List String) : Grammar where
  augmented := none
  rules := []
  byName := []
  terminals := Datum.put "error" [] (terminals.foldl (fun ts t => Datum.put t [] ts) [])
  nonterminals := []
  first := []
  follow := []
  precedence := []
  usedPrecedence := []

def isTerminal (g : Grammar) (s : String) : Bool := (g.terminals.lookup s).isSome

def isNonterminal (g : Grammar) (s : String) : Bool := (g.nonterminals.lookup s).isSome

def productionsOf (g : Grammar) (s : String) : List Production := (g.byName.lookup s).getD []

def production? (g : Grammar) : Nat → Option Production
  | 0 => g.augmented
  | n + 1 => g.rules[n]?

def isEmpty (g : Grammar) : Bool := g.augmented.isNone && g.rules.isEmpty

def setPrecedence (g : Grammar) (term assoc : String) (level : Datum) : Except Error Grammar :=
  if !g.isEmpty then .error .latePrecedence
  else if (g.precedence.lookup term).isSome then .error (.precedenceTwice (.str term))
  else match Assoc.ofName? assoc with
    | none => .error .badAssociativity
    | some a => .ok { g with precedence := g.precedence ++ [(term, ⟨a, level⟩)] }

def isName (s : String) : Bool :=
  let ok := fun c : Char => c.isAlphanum || c == '_' || c == '-'
  match s.toList.reverse with
  | '\n' :: c :: cs => (c :: cs).all ok
  | c :: cs => (c :: cs).all ok
  | [] => false

def readSymbols (site : Site) (name : String) : Grammar → List String → Except Error (List String) × Grammar
  | g, [] => (.ok [], g)
  | g, s :: rest =>
    if s.isEmpty then (.error .emptySymbol, g) else
    match Text.Quoted.read? s with
    | some .row => (.error (.longLiteral site s name), g)
    | some .unknown => (.error .unknownName, g)
    | some .absent => (.error .absent, g)
    | some .outside => (.error .emptySymbol, g)
    | some .unsuited | some (.number _) => (.error .unsuited, g)
    | some (.text cs) =>
      if cs.length > 1 then (.error (.longLiteral site s name), g) else
      let c := String.ofList cs
      let g := if g.isTerminal c then g else { g with terminals := g.terminals ++ [(c, [])] }
      let (r, g) := readSymbols site name g rest
      (r.map (c :: ·), g)
    | none =>
      if isName s || s == "%prec" then
        let (r, g) := readSymbols site name g rest
        (r.map (s :: ·), g)
      else (.error (.badSymbol site s name), g)

def readPrecedence (g : Grammar) (site : Site) (syms : List String) :
    Except Error (Precedence × List String × Grammar) :=
  if syms.contains "%prec" then
    match syms.reverse with
    | "%prec" :: _ => .error (.precedenceMissing site)
    | term :: "%prec" :: rest => match g.precedence.lookup term with
      | some p =>
        let used := if g.usedPrecedence.contains term then g.usedPrecedence else g.usedPrecedence ++ [term]
        .ok (p, rest.reverse, { g with usedPrecedence := used })
      | none => .error (.precedenceUnknown site term)
    | _ => .error (.precedenceInside site)
  else
    let prec := (syms.reverse.find? g.isTerminal).bind fun t => g.precedence.lookup t
    .ok (prec.getD .none, syms, g)

def noteUse (n : Nat) (g : Grammar) (s : String) : Grammar :=
  if let some ns := g.terminals.lookup s then { g with terminals := Datum.put s (ns ++ [n]) g.terminals }
  else { g with nonterminals := Datum.put s ((g.nonterminals.lookup s).getD [] ++ [n]) g.nonterminals }

def checkName (g : Grammar) (name : String) (site : Site) : Except Error Unit :=
  if g.isTerminal name then .error (.tokenAsRule site name)
  else if !isName name then .error (.badRuleName site name)
  else .ok ()

def addProduction (g : Grammar) (name : String) (syms : List String) (action : String) (site : Site) :
    Except Error Unit × Grammar :=
  match g.checkName name site with
  | .error e => (.error e, g)
  | .ok _ => match readSymbols site name g syms with
    | (.error e, g) => (.error e, g)
    | (.ok syms, g) => match g.readPrecedence site syms with
      | .error e => (.error e, g)
      | .ok (prec, syms, g) =>
        match g.rules.find? fun p => p.name == name && p.symbols == syms with
        | some p => (.error (.duplicate site p), g)
        | none =>
          let n := g.rules.length + 1
          let g := if g.isNonterminal name then g else { g with nonterminals := g.nonterminals ++ [(name, [])] }
          let g := syms.foldl (noteUse n) g
          let p : Production := ⟨n, name, syms, prec, action, site⟩
          (.ok (), { g with rules := g.rules ++ [p], byName := Datum.put name (g.productionsOf name ++ [p]) g.byName })

def setStart (g : Grammar) (start : Option String) : Except Error Grammar :=
  let chosen := match start, g.rules with
    | some s, _ => if s.isEmpty then g.rules.head?.map (·.name) else some s
    | none, rs => rs.head?.map (·.name)
  match chosen with
  | none => .error .noProductions
  | some s => match g.nonterminals.lookup s with
    | none => .error (.startUndefined s)
    | some ns => .ok { g with
        augmented := some ⟨0, "S'", [s], .none, "", ⟨"", .int 0⟩⟩
        nonterminals := Datum.put s (ns ++ [0]) g.nonterminals }

def setStartTo (g : Grammar) (d : Datum) : Except Error Grammar :=
  if !d.truthy then g.setStart none else
  match d with
  | .str s => g.setStart (some s)
  | d => .error (if d.isKey then .startUndefined d.text else .unsuited)

end Grammar

end Bx
