import Bx.Declaration
import Bx.Lexer.Basic
import Bx.Regex.Reader
import Bx.Text.Template

namespace Bx.Lexer

inductive BuildError
  | unbuildable
  | operator
  | template (e : Text.Template.Fault)

/-- Lines of the error log are marked. -/
structure Logs where
  lines : Array (Bool × String)
  failed : Bool

def Logs.errors (l : Logs) : Array String := (l.lines.filter (·.1)).map (·.2)

def Logs.debug (l : Logs) : Array String := (l.lines.filter fun x => !x.1).map (·.2)

abbrev Build := ExceptT BuildError (StateM Logs)

def warn (s : String) : Build Unit := modify fun l => { l with lines := l.lines.push (true, "WARNING: " ++ s) }

def complain (s : String) : Build Unit :=
  modify fun l => { l with lines := l.lines.push (true, "ERROR: " ++ s), failed := true }

def inform (s : String) : Build Unit := modify fun l => { l with lines := l.lines.push (false, s) }

def fill (s : String) : Build String := match Text.Template.fill s with
  | .ok s => pure s
  | .error e => throw (.template e)

structure Declared extends Declarations

structure Found where
  mode : String
  functions : List Function
  texts : List (String × String)
  ignore : Option String
  onError : Option Function
  onEnd : Option Function

namespace Declared

variable (d : Declared)

def tokens : Build (List Datum) := do
  match d.names.lookup "tokens" with
  | none => complain "No token list is defined"; return []
  | some (.function _) => complain "tokens must be a list or tuple"; return []
  | some (.value v) =>
    if !v.truthy then complain "No token list is defined"; return []
    match v with
    | .list xs | .tuple xs => return xs
    | _ => complain "tokens must be a list or tuple"; return []

def isTokenName (s : String) : Bool :=
  match s.toList.reverse with
  | '\n' :: c :: cs => (c :: cs).all Declarations.isNameChar
  | c :: cs => (c :: cs).all Declarations.isNameChar
  | [] => false

def checkTokens : List Datum → List Datum → Build Unit
  | _, [] => pure ()
  | seen, t :: rest => do
    match t with
    | .str s =>
      if !isTokenName s then complain (← fill ("Bad token name " ++ t.literal))
      if seen.any t.same then warn (← fill ("Token " ++ t.literal ++ " multiply defined"))
      checkTokens (t :: seen) rest
    | _ => throw .operator

def literals : Datum :=
  match d.names.lookup "literals" with
  | some (.value v) => if v.truthy then v else .str ""
  | some (.function _) => .null
  | none => .str ""

def checkLiterals (v : Datum) : Build Unit := do
  let refused := complain "Invalid literals specification. literals must be a sequence of characters"
  match v.members with
  | .error _ => refused
  | .ok cs => for c in cs do
      let single := match c with
        | .str s => s.length ≤ 1
        | _ => false
      if !single then
        match Text.Template.fill ("Invalid literal " ++ c.literal ++ ". Must be a single character") with
        | .ok m => complain m
        | .error .noValue => return ← refused
        | .error e => throw (.template e)

def literalChars (v : Datum) : List Char :=
  match v with
  | .dict fs => fs.filterMap fun (k, _) => match k.toList with
    | [c] => some c
    | _ => none
  | v => (v.members.toOption.getD []).flatMap fun c => (c.string?.getD "").toList

def addMode (acc : List (String × Bool)) (s : Datum) : Build (List (String × Bool)) := do
  match s with
  | .tuple [name, kind] => match name with
    | .str n =>
      if !(kind.is "inclusive" || kind.is "exclusive") then
        complain ("State type for state " ++ name.literal ++ " must be 'inclusive' or 'exclusive'")
        return acc
      if (acc.lookup n).isSome then
        complain ("State " ++ name.literal ++ " already defined")
        return acc
      return acc ++ [(n, kind.is "exclusive")]
    | _ =>
      complain ("State name " ++ name.literal ++ " must be a string")
      return acc
  | _ =>
    complain ("Invalid state specifier " ++ s.literal ++ ". Must be a tuple (statename,'exclusive|inclusive')")
    return acc

def modes : Build (List (String × Bool)) := do
  let start := [("INITIAL", false)]
  let refused : Build (List (String × Bool)) := do
    complain "states must be defined as a tuple or list"
    return start
  match d.names.lookup "states" with
  | none => return start
  | some (.function _) => refused
  | some (.value v) =>
    if !v.truthy then return start
    match v with
    | .list xs | .tuple xs => xs.foldlM addMode start
    | _ => refused

def splitName (modes : List String) (name : String) : List String × String :=
  let parts := (name.splitOn "_").drop 1
  let known := parts.takeWhile fun p => modes.contains p || p == "ANY"
  let n := min known.length (parts.length - 1)
  let here := parts.take n
  let states := if n = 0 then ["INITIAL"] else here
  (if states.contains "ANY" then modes else states, "_".intercalate (parts.drop n))

def Found.empty (mode : String) : Found := ⟨mode, [], [], none, none, none⟩

def place (states : List String) (f : Found → Found) (found : List Found) : List Found :=
  states.foldl (fun found s => found.map fun m => if m.mode == s then f m else m) found

def collect (modes : List String) (found : List Found) (name : String) (v : Definition) : Build (List Found) := do
  let (states, token) := splitName modes name
  match v with
  | .function f =>
    let f := { f with name := name }
    if token == "error" then return place states (fun m => { m with onError := some f }) found
    else if token == "eof" then return place states (fun m => { m with onEnd := some f }) found
    else if token == "ignore" then
      complain (d.site f.line ++ ": Rule " ++ Datum.quote name ++ " must be defined as a string")
      return found
    else return place states (fun m => { m with functions := m.functions ++ [f] }) found
  | .value (.str s) =>
    if token == "ignore" then
      if s.toList.contains '\\' then warn (name ++ " contains a literal backslash '\\'")
      return place states (fun m => { m with ignore := some s }) found
    else if token == "error" then
      complain ("Rule " ++ Datum.quote name ++ " must be defined as a function")
      return found
    else return place states (fun m => { m with texts := m.texts ++ [(name, s)] }) found
  | .value _ =>
    complain (name ++ " not defined as a function or string")
    return found

def rules (modes : List String) : Build (List Found) := do
  let named := d.names.filter fun (n, _) => n.startsWith "t_"
  let start := modes.map Found.empty
  if named.isEmpty then
    complain "No rules of the form t_rulename are defined"
    return start
  let found ← named.foldlM (fun found (n, v) => collect d modes found n v) start
  return found.map fun m => { m with
    functions := m.functions.mergeSort fun f g => f.line ≤ g.line
    texts := m.texts.mergeSort fun a b => decide (a.2.length ≥ b.2.length) }

def named (name pattern : String) : String := "(?P<" ++ name ++ ">" ++ pattern ++ ")"

def checkArity (f : Function) : Build Bool := do
  let here := d.site f.line ++ ": Rule " ++ Datum.quote f.name
  if f.arity > 1 then complain (here ++ " has too many arguments"); return false
  if f.arity < 1 then complain (here ++ " requires an argument"); return false
  return true

def checkFunction (f : Function) : Build Unit := do
  if ← checkArity d f then
    let here := d.site f.line ++ ": "
    let pattern := f.doc.text
    if !f.doc.truthy then complain (here ++ "No regular expression defined for rule " ++ Datum.quote f.name)
    else
      let whole := named f.name pattern
      match Regex.read whole with
      | .ok (r, _) => if r.matchesEmpty then
          complain (here ++ "Regular expression for rule " ++ Datum.quote f.name ++ " matches empty string")
      | .error e =>
        complain (here ++ "Invalid regular expression for rule '" ++ f.name ++ "'. " ++ e.message whole)
        match f.doc.contains (.str "#") with
        | .error _ => throw .operator
        | .ok marked => if marked then
          complain (d.site f.line ++ ". Make sure '#' in rule " ++ Datum.quote f.name ++ " is escaped with '\\#'")

def holds (part text : String) : Bool := (text.splitOn part).length > 1

def checkText (modes : List String) (tokens : List Datum) (name pattern : String) : Build Unit := do
  let token := (splitName modes name).2
  if !tokens.any (·.is token) && !holds "ignore_" token then
    complain ("Rule " ++ Datum.quote name ++ " defined for an unspecified token " ++ token)
  else
    let whole := named name pattern
    match Regex.read whole with
    | .ok (r, _) => if r.matchesEmpty then
        complain ("Regular expression for rule " ++ Datum.quote name ++ " matches empty string")
    | .error e =>
      complain ("Invalid regular expression for rule " ++ Datum.quote name ++ ". " ++ e.message whole)
      if pattern.toList.contains '#' then
        complain ("Make sure '#' in rule " ++ Datum.quote name ++ " is escaped with '\\#'")

def checkRules (modes : List String) (tokens : List Datum) (found : List Found) : Build Unit := do
  for m in found do
    for f in m.functions do checkFunction d f
    for (n, r) in m.texts do checkText modes tokens n r
    if m.functions.isEmpty && m.texts.isEmpty then complain ("No rules defined for state " ++ Datum.quote m.mode)
    if let some f := m.onError then discard (checkArity d f)
  if found.any fun m => !m.functions.isEmpty || m.onError.isSome then
    let named := fun line => (Declarations.definedOn "t_" line) <|> (Declarations.assignedOn "t_" line)
    for (line, n, prev) in Declarations.redefinitions named 1 [] d.sourceLines do
      complain (d.site line ++ ": Rule " ++ n ++ " redefined. Previously defined on line " ++ toString prev)

structure Compiled where
  text : String
  groups : List String
  rule : Rule String

def compile (name pattern : String) (rule : Regex → Rule String) : Compiled :=
  let whole := named name pattern
  match Regex.read whole with
  | .ok (r, gs) => ⟨whole, gs, rule r⟩
  | .error _ => ⟨whole, [name], rule (.set .none)⟩

def compileMode (modes : List String) (m : Found) : List Compiled :=
  m.functions.map (fun f => compile f.name (f.doc.text) fun r => ⟨r, some (splitName modes f.name).2, some f.name⟩) ++
    m.texts.map fun (n, p) => compile n p fun r =>
      ⟨r, if holds "ignore_" n then none else some (splitName modes n).2, none⟩

def grouped : Nat → List Compiled → List (List Compiled)
  | 0, rs => [rs]
  | n + 1, rs =>
    if rs.isEmpty then [] else
    let names := rs.flatMap (·.groups)
    if names.eraseDups.length == names.length then [rs] else
    let half := rs.length / 2 + 1
    grouped n (rs.take half) ++ grouped n (rs.drop half)

def build : Build (Lexer String) := do
  let tokens ← d.tokens
  let literals := d.literals
  let kinds ← d.modes
  let names := kinds.map (·.1)
  let found ← d.rules names
  checkTokens [] tokens
  checkLiterals literals
  checkRules d names tokens found
  if (← get).failed then throw .unbuildable
  inform ("lex: tokens   = " ++ (Datum.list tokens).literal)
  inform ("lex: literals = " ++ literals.literal)
  inform ("lex: states   = " ++
    (Datum.dict (kinds.map fun (n, ex) => (n, .str (if ex then "exclusive" else "inclusive")))).literal)
  for m in found do
    for f in m.functions do
      inform ("lex: Adding rule " ++ f.name ++ " -> '" ++ f.doc.text ++ "' (state '" ++ m.mode ++ "')")
    for (n, r) in m.texts do
      inform ("lex: Adding rule " ++ n ++ " -> '" ++ r ++ "' (state '" ++ m.mode ++ "')")
  inform "lex: ==== MASTER REGEXS FOLLOW ===="
  let compiled := found.map fun m =>
    let rs := compileMode names m
    (m, grouped (rs.length + 1) rs)
  for (m, gs) in compiled do
    for (g, k) in gs.zipIdx do
      inform ("lex: state '" ++ m.mode ++ "' : regex[" ++ toString k ++ "] = '" ++ "|".intercalate (g.map (·.text)) ++ "'")
  let own := compiled.map fun (m, gs) => (m, gs.map fun g => g.map (·.rule))
  let initial := own.find? fun (m, _) => m.mode == "INITIAL"
  let base := (initial.map (·.2)).getD []
  let first := (initial.map (·.1)).getD (Found.empty "INITIAL")
  if first.onError.isNone then warn "No t_error rule is defined"
  for (n, exclusive) in kinds do
    if exclusive then
      let m := (found.find? (·.mode == n)).getD (Found.empty n)
      if m.onError.isNone then warn ("No error rule is defined for exclusive state " ++ Datum.quote n)
      if m.ignore.isNone && !(first.ignore.getD "").isEmpty then
        warn ("No ignore rule is defined for exclusive state " ++ Datum.quote n)
  let finish (m : Found) (groups : List (List (Rule String))) : String × Mode String :=
    let inherits := kinds.lookup m.mode == some false
    let groups := if inherits && m.mode != "INITIAL" then groups ++ base else groups
    let ignore := if inherits then (m.ignore <|> first.ignore) else m.ignore
    let onError := if inherits then (m.onError <|> first.onError) else m.onError
    (m.mode, ⟨groups, (ignore.getD "").toList, onError.map (·.name), m.onEnd.map (·.name)⟩)
  return ⟨own.map fun (m, gs) => finish m gs, literalChars literals⟩

end Declared

end Bx.Lexer
