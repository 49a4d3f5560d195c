import Bx.Procedural.Tree
import Bx.Source.Lexer
import Bx.Word

namespace Bx.Procedural

open Source

inductive Ty
  | base (b : Base)
  | proc (params : List Base) (ret : Base)
  deriving DecidableEq

def Base.literal : Base → String
  | .int => "<Type.INT: 1>"
  | .bool => "<Type.BOOL: 2>"
  | .void => "<Type.VOID: 3>"

def Ty.text : Ty → String
  | .base b => b.name
  | .proc ps r => "([" ++ ", ".intercalate (ps.map Base.literal) ++ "], " ++ r.literal ++ ")"

inductive CheckError
  | undeclared (line : Int) (x : String)
  | outOfRange (line : Int)
  | mismatch (line : Int) (l r : Ty)
  | notBoolean (line : Int) (t : Ty)
  | notInteger (line : Int) (t : Ty)
  | printArity (line : Int)
  | unprintable (t : Ty)
  | noProcedure (line : Int) (f : String)
  | notCallable (f : String)
  | arity (line : Int) (f : String) (expected got : Nat)
  | argument (line : Int) (position : Nat) (expected : Base) (got : Ty)
  | declaredTwice (line : Int) (x : String)
  | declaration (line : Int) (x : String)
  | assignment (line : Int) (value target : Ty)
  | condition (line : Int) (t : Ty)
  | breakOutside (line : Int)
  | continueOutside (line : Int)
  | returned (line : Int) (f : String) (expected : Base) (got : Ty)
  | missingReturn (line : Int) (f : String)
  | notConstant (line : Int) (x : String)
  | procedureTwice (line : Int) (f : String)
  | reservedName (line : Int)
  | mainParams (line : Int)
  | mainType (line : Int)
  | noMain (line : Int)

def CheckError.message (e : CheckError) : String :=
  let at_ := fun (line : Int) (s : String) => "ERROR [line: " ++ place line ++ "]: " ++ s
  match e with
  | .undeclared l x => at_ l ("Variable " ++ x ++ " not declared!")
  | .outOfRange l => at_ l "Value out of range (63 bits)!"
  | .mismatch l t u => at_ l ("Operation involving non-matching types: " ++ t.text ++ " and " ++ u.text ++ "!")
  | .notBoolean l t => at_ l ("Unsuppoprted type " ++ t.text ++ " for a boolean operation!")
  | .notInteger l t => at_ l ("Unsuppoprted type " ++ t.text ++ " for an integer operation!")
  | .printArity l => at_ l "Print functional call takes only one argument!"
  | .unprintable t => "Cannot print() expressions of type: " ++ t.text
  | .noProcedure l f => at_ l ("Procedure " ++ f ++ " not defined!")
  | .notCallable f => f
  | .arity l f n m => at_ l ("Procedure " ++ f ++ " takes " ++ toString n ++ " argument(s) - " ++ toString m ++ " given!")
  | .argument l i t u => at_ l ("Expected type of argument on position " ++ toString (i + 1) ++ " is " ++ t.name ++
      " (actual arg type " ++ u.text ++ ")!")
  | .declaredTwice l x => at_ l ("Variable " ++ x ++ " already declared in scope!")
  | .declaration l x => at_ l ("Type of variable " ++ x ++ " not matching with it's declaration!")
  | .assignment l v t => at_ l ("Expression of type " ++ v.text ++ " assinged to variable of type " ++ t.text ++ "!")
  | .condition l t => at_ l ("Condition must be of type BOOL (current type: " ++ t.text ++ ")!")
  | .breakOutside l => at_ l "Break used out of a loop!"
  | .continueOutside l => at_ l "Continue used out of a loop!"
  | .returned l f t u => at_ l ("Function " ++ f ++ " should return " ++ t.name ++ ", instead it returns " ++ u.text ++ "!")
  | .missingReturn l f => at_ l ("Procedure " ++ f ++ " is missing a return statement!")
  | .notConstant l x => at_ l ("Global variable " ++ x ++ " initialized with an expression different from Number or Boolean!")
  | .procedureTwice l f => at_ l ("Procedure " ++ f ++ " already declared in scope!")
  | .reservedName l => at_ l "Procedure name can't start with '__bx_'!"
  | .mainParams l => at_ l "Procedure main should have no arguments!"
  | .mainType l => at_ l "Procedure main should be of type void!"
  | .noMain l => at_ l "Main procedure not declared!"

abbrev Scope := List (String × Ty)

/-- Open scopes, the last opened first, and the global one apart. -/
structure Scopes where
  inner : List Scope
  globals : Scope

def Scopes.find? (s : Scopes) (x : String) : Option Ty := (s.inner ++ [s.globals]).findSome? fun scope => scope.lookup x

def Scopes.enter (s : Scopes) (scope : Scope) : Scopes := { s with inner := scope :: s.inner }

def require (b : Bool) (e : CheckError) : Except CheckError Unit := if b then .ok () else .error e

def variableType (s : Scopes) (line : Int) (x : String) : Except CheckError Ty :=
  match s.find? x with
  | some t => .ok t
  | none => .error (.undeclared line x)

def resultType (op : Op) : Ty := .base (if op.isBoolean then .bool else .int)

def printer (t : Ty) : Except CheckError String :=
  match t with
  | .base .int => .ok "__bx_print_int"
  | .base .bool => .ok "__bx_print_bool"
  | t => .error (.unprintable t)

mutual

def Expr.check (s : Scopes) : Expr → Except CheckError (Ty × Expr)
  | .var line x => do return (← variableType s line x, .var line x)
  | .num line n => do
    require (-Word.half ≤ n && n < Word.half) (.outOfRange line)
    return (.base .int, .num line n)
  | .bool line b => .ok (.base .bool, .bool line b)
  | .unary line op e => do
    let (t, e) ← e.check s
    if op.wantsBoolean then require (t == .base .bool) (.notBoolean line t)
    else require (t == .base .int) (.notInteger line t)
    return (resultType op, .unary line op e)
  | .binary line op l r => do
    let (t, l) ← l.check s
    let (u, r) ← r.check s
    require (t == u) (.mismatch line t u)
    if op.wantsBoolean then require (t == .base .bool) (.notBoolean line t)
    return (resultType op, .binary line op l r)
  | .call line f args =>
    if f == "print" then match args with
      | [e] => do
        let (t, e) ← e.check s
        return (.base .void, .call line (← printer t) [e])
      | _ => .error (.printArity line)
    else match s.globals.lookup f with
      | none => .error (.noProcedure line f)
      | some (.base _) => .error (.notCallable f)
      | some (.proc params ret) => do
        require (args.length == params.length) (.arity line f params.length args.length)
        let args ← checkArgs s line 0 params args
        return (.base ret, .call line f args)

def checkArgs (s : Scopes) (line : Int) (k : Nat) : List Base → List Expr → Except CheckError (List Expr)
  | p :: params, e :: rest => do
    let (t, e) ← e.check s
    require (t == .base p) (.argument line k p t)
    return e :: (← checkArgs s line (k + 1) params rest)
  | _, _ => .ok []

end

def declare (s : Scopes) (line : Int) (x : String) (t : Ty) (ty : Base) : Except CheckError Scopes := do
  match s.inner with
  | [] =>
    require (s.globals.lookup x).isNone (.declaredTwice line x)
    require (t == .base ty) (.declaration line x)
    return { s with globals := s.globals ++ [(x, t)] }
  | scope :: rest =>
    require (scope.lookup x).isNone (.declaredTwice line x)
    require (t == .base ty) (.declaration line x)
    return { s with inner := (scope ++ [(x, t)]) :: rest }

mutual

def Stmt.returns : Stmt → Bool
  | .return _ _ => true
  | .block _ body => anyReturns body
  | .ifelse _ _ yes no => anyReturns yes && no.returns
  | _ => false

def anyReturns : List Stmt → Bool
  | [] => false
  | s :: rest => s.returns || anyReturns rest

end

structure Within where
  name : String
  ret : Base

mutual

def Stmt.check (w : Within) (loop : Bool) (s : Scopes) : Stmt → Except CheckError (Scopes × Stmt)
  | .vardecl line x e ty => do
    let (t, e) ← e.check s
    return (← declare s line x t ty, .vardecl line x e ty)
  | .assign line varLine x e => do
    let t ← variableType s varLine x
    let (u, e) ← e.check s
    require (t == u) (.assignment line u t)
    return (s, .assign line varLine x e)
  | .eval line e => do
    let (_, e) ← e.check s
    return (s, .eval line e)
  | .block line body => do
    let (s, body) ← checkAll w loop (s.enter []) body
    return (s, .block line body)
  | .ifelse line c yes no => do
    let (t, c) ← c.check s
    let (s, yes) ← checkAll w loop (s.enter []) yes
    let (s, no) ← no.check w loop s
    require (t == .base .bool) (.condition line t)
    return (s, .ifelse line c yes no)
  | .while line c body => do
    let (t, c) ← c.check s
    let (s, body) ← checkAll w true (s.enter []) body
    require (t == .base .bool) (.condition line t)
    return (s, .while line c body)
  | .break line => do
    require loop (.breakOutside line)
    return (s, .break line)
  | .continue line => do
    require loop (.continueOutside line)
    return (s, .continue line)
  | .return line none => do
    require (w.ret == .void) (.returned line w.name w.ret (.base .void))
    return (s, .return line none)
  | .return line (some e) => do
    let (t, e) ← e.check s
    require (t == .base w.ret) (.returned line w.name w.ret t)
    return (s, .return line (some e))

def checkAll (w : Within) (loop : Bool) (s : Scopes) : List Stmt → Except CheckError (Scopes × List Stmt)
  | [] => .ok (s, [])
  | a :: rest => do
    let (s, a) ← a.check w loop s
    let (s, rest) ← checkAll w loop s rest
    return (s, a :: rest)

end

def Procedure.check (s : Scopes) (p : Procedure) : Except CheckError (Scopes × Procedure) := do
  let params := p.params.foldl (fun (acc : Scope) (x, t) => Datum.put x (.base t) acc) []
  let (s, body) ← checkAll ⟨p.name, p.ret⟩ false ((s.enter params).enter []) p.body
  require (anyReturns body || p.ret == .void) (.missingReturn p.line p.name)
  return (s, { p with body := body })

def isConstant : Expr → Bool
  | .num _ _ | .bool _ _ => true
  | _ => false

def declareGlobal (line : Int) (globals : Scope) : Decl → Except CheckError Scope
  | .var _ x e ty => do
    require (globals.lookup x).isNone (.declaredTwice line x)
    require (isConstant e) (.notConstant line x)
    return globals ++ [(x, .base ty)]
  | .proc p => do
    require (globals.lookup p.name).isNone (.procedureTwice line p.name)
    require (!p.name.startsWith "__bx_") (.reservedName line)
    if p.name == "main" then
      require p.params.isEmpty (.mainParams line)
      require (p.ret == .void) (.mainType line)
    return globals ++ [(p.name, .proc (p.params.map (·.2)) p.ret)]

def isMain : Decl → Bool
  | .proc p => p.name == "main"
  | .var _ _ _ _ => false

def checkDecls (s : Scopes) : List Decl → Except CheckError (List Decl)
  | [] => .ok []
  | .var line x e ty :: rest => do return .var line x e ty :: (← checkDecls s rest)
  | .proc p :: rest => do
    let (s, p) ← p.check s
    return .proc p :: (← checkDecls s rest)

def check (p : Program) : Except CheckError Program := do
  let globals ← p.decls.foldlM (declareGlobal p.line) []
  require (p.decls.any isMain) (.noMain p.line)
  return { p with decls := ← checkDecls ⟨[], globals⟩ p.decls }

end Bx.Procedural
