import Bx.Declaration
import Bx.Parser.Machine
import Bx.Text.Template

namespace Bx.Parser

open Grammar

inductive BuildError
  | unbuildable
  | operator
  | grammar (e : Grammar.Error)
  | conflict (c : Lalr.Conflict)
  | refusal
  | absent
  | template (e : Text.Template.Fault)

structure Logs where
  errors : Array String
  debug : Array String

abbrev Build := ExceptT BuildError (StateM Logs)

def warn (s : String) : Build Unit := modify fun l => { l with errors := l.errors.push ("WARNING: " ++ s) }

def complain (s : String) : Build Unit := modify fun l => { l with errors := l.errors.push ("ERROR: " ++ s) }

def inform (s : String) : Build Unit := modify fun l => { l with debug := l.debug.push s }

def fill (s : String) : Build String := match Text.Template.fill s with
  | .ok s => pure s
  | .error e => throw (.template e)

structure Declared extends Declarations

namespace Declared

def ruleFunctions (d : Declared) : List Function :=
  let fs := d.names.filterMap fun (n, v) => match v with
    | .function f => if n.startsWith "p_" && n != "p_error" then some { f with name := n } else none
    | .value _ => none
  fs.mergeSort fun f g => f.line < g.line || (f.line == g.line && decide (f.name ≤ g.name))

inductive Tokens
  | names (ts : List String)
  | others (ds : List Datum)

def Tokens.list : Tokens → List String
  | .names ts => ts
  | .others _ => []

def Tokens.ofData? (ds : List Datum) : Option Tokens :=
  if ds.all Datum.isString then some (.names ((ds.filterMap Datum.string?).mergeSort fun a b => decide (a ≤ b)))
  else if ds.length == 1 then some (.others ds)
  else (ds.mapM fun d : Datum => d.number?.map (·, d)).map fun ns =>
    .others ((ns.mergeSort fun a b => decide (a.1 ≤ b.1)).map (·.2))

def Tokens.distinct : List Datum → List Datum
  | ds => ds.foldl (fun acc d => if acc.any d.same then acc else acc ++ [d]) []

def tokens (d : Declared) : Build (Option Tokens) := do
  match d.names.lookup "tokens" with
  | some (.value v) =>
    if !v.truthy then complain "No token list is defined"; return none
    match v with
    | .list xs | .tuple xs => match Tokens.ofData? xs with
      | some ts => return some ts
      | none => throw .operator
    | _ => complain "tokens must be a list or tuple"; return none
  | some (.function _) => complain "tokens must be a list or tuple"; return none
  | none => complain "No token list is defined"; return none

def checkTokens (ts : Tokens) : Build Bool := do
  if ts.list.contains "error" then
    complain "Illegal token name 'error'. Is a reserved word"
    return false
  let data := match ts with
    | .names ts => ts.map Datum.str
    | .others ds => ds
  let _ ← data.foldlM (fun (seen : List Datum) t => do
    if !t.isKey then throw .operator
    if seen.any t.same then warn ("Token " ++ t.literal ++ " multiply defined")
    return t :: seen) []
  return true

structure PrecedenceEntry where
  term : String
  assoc : String
  level : Int

def precedenceRow (level : Nat) (row : Datum) : Except String (List PrecedenceEntry) :=
  match row with
  | .list xs | .tuple xs => match xs with
    | assoc :: t :: ts => match assoc with
      | .str a => (t :: ts).mapM fun x => match x with
        | .str s => .ok ⟨s, a, level + 1⟩
        | _ => .error "precedence items must be strings"
      | _ => .error "precedence associativity must be a string"
    | _ => .error ("Malformed precedence entry " ++ row.text ++ ". Must be (assoc, term, ..., term)")
  | _ => .error "Bad precedence table"

def precedence (d : Declared) : Except String (List PrecedenceEntry) :=
  match d.names.lookup "precedence" with
  | some (.value v) =>
    if !v.truthy then .ok [] else
    match v with
    | .list xs | .tuple xs => (xs.zipIdx.mapM fun (row, k) => precedenceRow k row).map List.flatten
    | _ => .error "precedence must be a list or tuple"
  | some (.function _) => .error "precedence must be a list or tuple"
  | none => .ok []

structure Written where
  line : Int
  name : String
  symbols : List String

def readProductions (file : String) : Int → Option String → List String → Except String (List Written)
  | _, _, [] => .ok []
  | line, last, text :: rest =>
    let line := line + 1
    let here := (Site.mk file (.int line)).text
    match Text.words text with
    | [] => readProductions file line last rest
    | "|" :: syms => match last with
      | none => .error (here ++ ": Misplaced '|'")
      | some name => (readProductions file line last rest).map (⟨line, name, syms⟩ :: ·)
    | [_] => .error (here ++ ": Syntax error in rule " ++ Datum.quote (Text.trimBlank text))
    | name :: assign :: syms =>
      if assign == ":" || assign == "::=" then
        (readProductions file line (some name) rest).map (⟨line, name, syms⟩ :: ·)
      else .error (here ++ ": Syntax error. Expected ':'")

def isChecked (d : Declared) : Bool :=
  (match d.names.lookup "p_error" with
    | some (.function _) => true
    | _ => false) || d.ruleFunctions.any fun f => f.arity == 1 && f.doc.truthy

def productions (d : Declared) : Build (List (String × Written) × Bool) := do
  let mut out := #[]
  let mut good := true
  let functions := d.ruleFunctions
  if functions.isEmpty then
    complain "no rules of the form p_rulename are defined"
    return ([], false)
  for f in functions do
    let here := d.site f.line ++ ": "
    if f.arity > 1 then
      complain (here ++ "Rule " ++ Datum.quote f.name ++ " has too many arguments")
      good := false
    else if f.arity < 1 then
      complain (here ++ "Rule " ++ Datum.quote f.name ++ " requires an argument")
      good := false
    else
      if !f.doc.truthy then
        warn (here ++ "No documentation string specified in function " ++ Datum.quote f.name ++ " (ignored)")
      else
        let some doc := f.doc.string? | throw .absent
        match readProductions d.file f.line none (Text.lines doc) with
        | .ok ps => out := out ++ (ps.map fun p => (f.name, p)).toArray
        | .error e =>
          complain (← fill e)
          good := false
  for (n, v) in d.names do
    let isRule := match v with
      | .function _ => n.startsWith "p_"
      | .value _ => false
    if !isRule && !n.startsWith "t_" then
      if n.startsWith "p_" && n != "p_error" then warn (Datum.quote n ++ " not defined as a function")
      match v with
      | .function f =>
        if f.arity == 1 && f.doc.truthy then
          let some doc := f.doc.string? | throw .absent
          if (doc.splitOn " ")[1]? == some ":" then
            warn (d.site f.line ++ ": Possible grammar rule " ++ Datum.quote n ++ " defined without p_ prefix")
      | .value _ => pure ()
  return (out.toList, good)

def errorHandler (d : Declared) : Build (Option Bool) := do
  match d.names.lookup "p_error" with
  | none => return none
  | some (.value v) =>
    if !v.truthy then return none
    complain "'p_error' defined, but is not a function or method"
    return some false
  | some (.function f) =>
    if f.arity != 1 then
      complain (d.site f.line ++ ": p_error() requires 1 argument")
      return some false
    return some true

def signature (d : Declared) (tokens : Option Tokens) : Except BuildError String :=
  let join (x : Datum) : Option String := match x with
    | .str s => some s
    | .list xs | .tuple xs => if xs.all Datum.isString then some (String.join (xs.filterMap Datum.string?)) else none
    | .dict fs => some (String.join (fs.map (·.1)))
    | _ => none
  let prec := match d.names.lookup "precedence" with
    | some (.value v) =>
      if v.truthy then (v.members.toOption.bind fun rows => (rows.mapM join).map String.join) else some ""
    | some (.function _) => none
    | none => some ""
  let docs := (d.ruleFunctions.map Function.doc).filter Datum.truthy
  let rest : List Datum := match prec, tokens with
    | none, _ => []
    | some p, some (.others _) => [.str p]
    | some p, some (.names ts) => .str p :: .str (" ".intercalate ts) :: docs
    | some p, none => .str p :: docs
  let joined (parts : List Datum) : Except BuildError String :=
    if parts.all Datum.isString then .ok (String.join (parts.filterMap Datum.string?)) else .error .operator
  match d.names.lookup "start" with
  | some (.function _) => .error .operator
  | some (.value v) => joined (if v.truthy then v :: rest else rest)
  | none => joined rest

end Declared

structure Built where
  grammar : Grammar
  tables : Tables
  hasHandler : Bool

def described (p : Production) : String := "(" ++ p.text ++ ")"

def assemble (d : Declared) (g : Grammar) (ps : List (String × Declared.Written)) : Build (Grammar × Bool) :=
  ps.foldlM (fun (g, good) (f, p) => do
    match g.addProduction p.name p.symbols f ⟨d.file, .int p.line⟩ with
    | (.ok _, g) => return (g, good)
    | (.error .emptySymbol, _) => throw (.grammar .emptySymbol)
    | (.error .unsuited, _) => throw (.grammar .unsuited)
    | (.error .unknownName, _) => throw (.grammar .unknownName)
    | (.error .absent, _) => throw (.grammar .absent)
    | (.error e, g) =>
      complain e.message
      return (g, false)) (g, true)

def chooseStart (g : Grammar) (start : Datum) : Build (Grammar × Bool) := do
  match g.setStartTo start with
  | .ok g => return (g, true)
  | .error .noProductions => throw (.grammar .noProductions)
  | .error .unsuited => throw (.grammar .unsuited)
  | .error e =>
    complain (← fill e.message)
    return (g, false)

def sortedNames (xs : List (String × List Nat)) : List (String × List Nat) :=
  xs.mergeSort fun a b => decide (a.1 ≤ b.1)

def useLine (e : String × List Nat) : String :=
  Text.padRight 20 e.1 ++ " : " ++ " ".intercalate (e.2.map toString)

def counted (n : Nat) (one many : String) : Build Unit :=
  if n == 1 then warn one else if n > 1 then warn many else pure ()

def inspect (g : Grammar) (others : List Datum) (checkRecursion : Bool) : Build Bool := do
  let mut good := true
  for (s, p) in g.undefinedSymbols do
    complain (p.site.text ++ ": Symbol " ++ Datum.quote s ++ " used, but not defined as a token or a rule")
    good := false
  let idle := others ++ g.unusedTerminals.map Datum.str
  if !idle.isEmpty then
    inform ""
    inform "Unused terminals:"
    inform ""
    for t in idle do
      warn ("Token " ++ t.literal ++ " defined, but not used")
      inform ("    " ++ t.text)
  inform ""
  inform "Grammar"
  inform ""
  for p in g.augmented.toList ++ g.rules do
    inform ("Rule " ++ Text.padRight 5 (toString p.number) ++ " " ++ p.text)
  let unused := g.unusedRules
  for p in unused do
    warn (p.site.text ++ ": Rule " ++ Datum.quote p.name ++ " defined, but not used")
  counted idle.length "There is 1 unused token" ("There are " ++ toString idle.length ++ " unused tokens")
  counted unused.length "There is 1 unused rule" ("There are " ++ toString unused.length ++ " unused rules")
  inform ""
  inform "Terminals, with rules where they appear"
  inform ""
  if !others.isEmpty then throw .operator
  for e in sortedNames g.terminals do inform (useLine e)
  inform ""
  inform "Nonterminals, with rules where they appear"
  inform ""
  for e in sortedNames g.nonterminals do inform (useLine e)
  inform ""
  if checkRecursion then
    match g.unreachable with
    | .error e => throw (.grammar e)
    | .ok us => for u in us do warn ("Symbol " ++ Datum.quote u ++ " is unreachable")
    for s in g.unproductive do
      complain ("Infinite recursion detected for symbol " ++ Datum.quote s)
      good := false
  for (t, a) in g.unusedPrecedence do
    complain ("Precedence rule " ++ Datum.quote a.name ++ " defined for unknown symbol " ++ Datum.quote t)
    good := false
  return good

def reportConflicts (g : Grammar) (t : Lalr.Table) : Build Unit := do
  let rule := fun n => ((g.production? n).map described).getD ""
  let sr := t.shiftReduce.length
  let rr := t.reduceReduce.length
  counted sr "1 shift/reduce conflict" (toString sr ++ " shift/reduce conflicts")
  counted rr "1 reduce/reduce conflict" (toString rr ++ " reduce/reduce conflicts")
  if sr == 0 && rr == 0 then return
  let both := fun (s : String) => do
    inform ("WARNING: " ++ s)
    warn s
  inform "WARNING: "
  inform "WARNING: Conflicts:"
  inform "WARNING: "
  for c in t.shiftReduce do
    inform ("WARNING: shift/reduce conflict for " ++ c.token ++ " in state " ++ toString c.state ++
      " resolved as " ++ if c.shifted then "shift" else "reduce")
  for c in t.reduceReduce.eraseDups do
    both ("reduce/reduce conflict in state " ++ toString c.state ++ " resolved using rule " ++ rule c.chosen)
    both ("rejected rule " ++ rule c.rejected ++ " in state " ++ toString c.state)
  for n in (t.reduceReduce.map (·.rejected)).eraseDups do
    if (t.reduced.lookup n).getD 0 == 0 then both ("Rule " ++ rule n ++ " is never reduced")

structure Options where
  start : Option Datum
  checkRecursion : Bool
  verbose : Bool
  /-- A description file that cannot be opened, with the reason. -/
  unwritable : Option (String × String)

def Declared.build (d : Declared) (o : Options) : Build Built := do
  let d := match o.start with
    | some s => { d with names := Datum.put "start" (.value s) d.names }
    | none => d
  let some tokens ← d.tokens | throw .unbuildable
  if let some (name, reason) := o.unwritable then
    warn (← fill ("Couldn't open " ++ Datum.quote name ++ ". " ++ reason))
  inform "Created by PLY (http://www.dabeaz.com/ply)"
  match d.names.lookup "start" with
  | some (.value v) => if !v.isNull && !v.isString then complain "'start' must be a string"
  | some (.function _) => complain "'start' must be a string"
  | none => pure ()
  let handler ← d.errorHandler
  let mut good := handler != some false
  good := (← Declared.checkTokens tokens) && good
  let mut precs := []
  match d.precedence with
  | .ok ps => precs := ps
  | .error e =>
    complain e
    good := false
  let (ps, sound) ← d.productions
  good := good && sound
  let lines := if d.isChecked then d.sourceLines else []
  for (line, n, prev) in Declarations.redefinitions (Declarations.definedOn "p_") 1 [] lines do
    warn (d.site line ++ ": Function " ++ n ++ " redefined. Previously defined on line " ++ toString prev)
  if !good then throw .unbuildable
  if handler.isNone then warn "no p_error() function is defined"
  let g ← precs.foldlM (fun (g : Grammar) e => do
    match g.setPrecedence e.term e.assoc (.int e.level) with
    | .ok g => return g
    | .error err =>
      warn err.message
      return g) (Grammar.ofTerminals tokens.list)
  let (g, added) ← assemble d g ps
  let (g, started) ← chooseStart g ((o.start <|> d.value? "start").getD .null)
  if !(added && started) then throw .unbuildable
  let others := match tokens with
    | .names _ => []
    | .others ds => Declared.Tokens.distinct ds
  if !(← inspect g others o.checkRecursion) then throw .unbuildable
  match Lalr.build g Lalr.Memory.empty with
  | (.error (.grammar e), _, _) => throw (.grammar e)
  | (.error (.conflict c log), _, _) =>
    modify fun l => { l with debug := l.debug ++ log }
    throw (.conflict c)
  | (.ok t, g, _) =>
    modify fun l => { l with debug := l.debug ++ t.log }
    if o.verbose then reportConflicts g t
    match t.defaulted? with
    | none => throw .refusal
    | some ds => return {
        grammar := g
        tables := ⟨(g.augmented.toList ++ g.rules).toArray, t.actions, t.gotos, ds⟩
        hasHandler := handler.isSome }

end Bx.Parser
