import Bx.Source.Lexer
import Bx.Structured.Tree
import Bx.Word

namespace Bx.Structured

open Source

inductive Ty
  | int | bool
  deriving DecidableEq

def Ty.name : Ty → String
  | .int => "INT"
  | .bool => "BOOL"

inductive CheckError
  | undeclared (line : Int) (x : String)
  | outOfRange (line : Int)
  | mismatch (line : Int) (l r : Ty)
  | notBoolean (line : Int) (t : Ty)
  | notInteger (line : Int) (t : Ty)
  | declaredTwice (line : Int) (x : String)
  | assignment (line : Int) (value target : Ty)
  | notPrintable (line : Int) (t : Ty)
  | condition (line : Int) (t : Ty)
  | breakOutside (line : Int)
  | continueOutside (line : Int)

def CheckError.message (e : CheckError) : String :=
  let at_ := fun (line : Int) (s : String) => "ERROR [line: " ++ place line ++ "]: " ++ s
  match e with
  | .undeclared l x => at_ l ("Variable " ++ x ++ " not declared!")
  | .outOfRange l => at_ l "Value out of range (63 bits)!"
  | .mismatch l t u => at_ l ("Operation involving non-matching types: " ++ t.name ++ " and " ++ u.name ++ "!")
  | .notBoolean l t => at_ l ("Unsuppoprted type " ++ t.name ++ " for a boolean operation!")
  | .notInteger l t => at_ l ("Unsuppoprted type " ++ t.name ++ " for an integer operation!")
  | .declaredTwice l x => at_ l ("Variable " ++ x ++ " already declared in scope!")
  | .assignment l v t => at_ l ("Expression of type " ++ v.name ++ " assinged to variable of type " ++ t.name ++ "!")
  | .notPrintable l t => at_ l ("Print expression must be of type INT (current type " ++ t.name ++ ")!")
  | .condition l t => at_ l ("Condition must be of type BOOL (current type: " ++ t.name ++ ")!")
  | .breakOutside l => at_ l "Break used out of a loop!"
  | .continueOutside l => at_ l "Continue used out of a loop!"

abbrev Scope := List (String × Ty)

abbrev Scopes := List Scope

def Scopes.find? (s : Scopes) (x : String) : Option Ty := s.findSome? fun scope => scope.lookup x

def require (b : Bool) (e : CheckError) : Except CheckError Unit := if b then .ok () else .error e

def variableType (s : Scopes) (line : Int) (x : String) : Except CheckError Ty :=
  match s.find? x with
  | some t => .ok t
  | none => .error (.undeclared line x)

def resultType (op : Op) : Ty := if op.isBoolean then .bool else .int

def Expr.check (s : Scopes) : Expr → Except CheckError Ty
  | .var line x => variableType s line x
  | .num line n => do
    require (n < Word.half) (.outOfRange line)
    return .int
  | .bool _ _ => .ok .bool
  | .unary line op e => do
    let t ← e.check s
    if op.wantsBoolean then require (t == .bool) (.notBoolean line t) else require (t == .int) (.notInteger line t)
    return resultType op
  | .binary line op l r => do
    let t ← l.check s
    let u ← r.check s
    require (t == u) (.mismatch line t u)
    if op.wantsBoolean then require (t == .bool) (.notBoolean line t)
    return resultType op

def declare (s : Scopes) (line : Int) (x : String) (t : Ty) : Except CheckError Scopes :=
  match s with
  | [] => .ok [[(x, t)]]
  | scope :: rest => do
    require (scope.lookup x).isNone (.declaredTwice line x)
    return (scope ++ [(x, t)]) :: rest

mutual

def Stmt.check (loop : Bool) (s : Scopes) : Stmt → Except CheckError Scopes
  | .vardecl line x e => do
    let t ← e.check s
    declare s line x t
  | .assign line varLine x e => do
    let t ← variableType s varLine x
    let u ← e.check s
    require (t == u) (.assignment line u t)
    return s
  | .print line e => do
    let t ← e.check s
    require (t == .int) (.notPrintable line t)
    return s
  | .block _ body => checkAll loop ([] :: s) body
  | .ifelse line c yes no => do
    let t ← c.check s
    let s ← checkAll loop ([] :: s) yes
    let s ← no.check loop s
    require (t == .bool) (.condition line t)
    return s
  | .while line c body => do
    let t ← c.check s
    let s ← checkAll true ([] :: s) body
    require (t == .bool) (.condition line t)
    return s
  | .break line => do
    require loop (.breakOutside line)
    return s
  | .continue line => do
    require loop (.continueOutside line)
    return s

def checkAll (loop : Bool) (s : Scopes) : List Stmt → Except CheckError Scopes
  | [] => .ok s
  | a :: rest => do checkAll loop (← a.check loop s) rest

end

def check (program : List Stmt) : Except CheckError Unit := do
  let _ ← checkAll false [[]] program
  return

end Bx.Structured
