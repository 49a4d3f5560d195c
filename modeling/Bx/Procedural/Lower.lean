import Bx.Procedural.Tree
import Bx.Tac.Program

namespace Bx.Procedural

open Source Tac

inductive LowerError
  | noOpcode (op : Op)
  | notCondition (kind : String)
  | variableCondition
  | outsideLoop

def LowerError.message : LowerError → String
  | .noOpcode op => op.name
  | .notCondition k => "tmm_bool_expr: unknown stmt kind: <class 'bx_ast." ++ k ++ "'>"
  | .variableCondition | .outsideLoop => ""

abbrev Names := List (String × String)

structure Gen where
  next : Nat
  nextLabel : Nat
  scopes : List Names
  code : List Record

abbrev Lower := StateT Gen (Except LowerError)

def fresh : Lower String := do
  let g ← get
  set { g with next := g.next + 1 }
  return "%" ++ toString g.next

def freshLabel : Lower String := do
  let g ← get
  set { g with nextLabel := g.nextLabel + 1 }
  return ".L" ++ toString g.nextLabel

def bindName (x t : String) : List Names → List Names
  | [] => [[(x, t)]]
  | scope :: rest => Datum.put x t scope :: rest

def lookup (x : String) : Lower String := do
  match (← get).scopes.findSome? fun scope => scope.lookup x with
  | some t => return t
  | none =>
    let t ← fresh
    modify fun g => { g with scopes := bindName x t g.scopes }
    return t

def emit (op : String) (args : List Datum) (result : Datum) : Lower Unit :=
  modify fun g => { g with code := g.code ++ [.of op args result] }

def emitLabel (l : String) : Lower Unit := emit "label" [.str l] .null

def emitJump (l : String) : Lower Unit := emit "jmp" [.str l] .null

def opcode (op : Op) : Lower String :=
  match op.opcode? with
  | some s => return s
  | none => throw (.noOpcode op)

def inOrder : Nat := 6

mutual

def intExpr (target : Datum) : Expr → Lower Unit
  | .var _ x => do emit "copy" [.str (← lookup x)] target
  | .num _ n => emit "const" [.int n] target
  | .bool _ b => emit "const" [.int (if b then 1 else 0)] target
  | .unary _ op e => do
    let t ← fresh
    intExpr (.str t) e
    emit (← opcode op) [.str t] target
  | .binary _ op l r => do
    let t ← fresh
    intExpr (.str t) l
    let u ← fresh
    intExpr (.str u) r
    emit (← opcode op) [.str t, .str u] target
  | .call _ f args => do
    params 0 args
    emit "call" [.str ("@" ++ f), .int args.length] target

def params (k : Nat) : List Expr → Lower Unit
  | [] => pure ()
  | e :: rest =>
    if k < inOrder then do
      let t ← fresh
      intExpr (.str t) e
      emit "param" [.int (k + 1), .str t] .null
      params (k + 1) rest
    else do
      params (k + 1) rest
      let t ← fresh
      intExpr (.str t) e
      emit "param" [.int (k + 1), .str t] .null

end

def comparison? : Op → Option String
  | .booleq => some "jz"
  | .boolneq => some "jnz"
  | .less => some "jl"
  | .lesseq => some "jle"
  | .greater => some "jnle"
  | .greatereq => some "jnl"
  | _ => none

def compare (jump : String) (l r : Expr) (yes no : String) : Lower Unit := do
  let t ← fresh
  let u ← fresh
  intExpr (.str t) l
  intExpr (.str u) r
  emit "sub" [.str t, .str u] (.str t)
  emit jump [.str t, .str yes] .null
  emitJump no

def boolExpr (yes no : String) : Expr → Lower Unit
  | .unary _ .boolnot e => boolExpr no yes e
  | .unary _ _ _ => pure ()
  | .binary _ .booland l r => do
    let between ← freshLabel
    boolExpr between yes l
    emitLabel between
    boolExpr between yes r
  | .binary _ .boolor l r => do
    let between ← freshLabel
    boolExpr yes between l
    emitLabel between
    boolExpr yes no r
  | .binary _ op l r => match comparison? op with
    | some jump => compare jump l r yes no
    | none => pure ()
  | .var _ _ => throw .variableCondition
  | .num _ _ => throw (.notCondition "Number")
  | .bool _ _ => throw (.notCondition "Boolean")
  | .call _ _ _ => throw (.notCondition "Call")

structure Loop where
  head : String
  exit : String

def enterScope : Lower Unit := modify fun g => { g with scopes := [] :: g.scopes }

def leaveScope : Lower Unit := modify fun g => { g with scopes := g.scopes.drop 1 }

mutual

def stmt (loop : Option Loop) : Stmt → Lower Unit
  | .vardecl _ x e _ | .assign _ _ x e => do intExpr (.str (← lookup x)) e
  | .eval _ e => intExpr .null e
  | .block _ body => do
    enterScope
    stmts loop body
    leaveScope
  | .ifelse _ c yes no => do
    let onYes ← freshLabel
    let onNo ← freshLabel
    let done ← freshLabel
    boolExpr onYes onNo c
    emitLabel onYes
    enterScope
    stmts loop yes
    leaveScope
    emitJump done
    emitLabel onNo
    stmt loop no
    emitLabel done
  | .while _ c body => do
    let head ← freshLabel
    let inside ← freshLabel
    let exit ← freshLabel
    emitLabel head
    boolExpr inside exit c
    emitLabel inside
    enterScope
    stmts (some ⟨head, exit⟩) body
    leaveScope
    emitJump head
    emitLabel exit
  | .break _ => match loop with
    | some l => emitJump l.exit
    | none => throw .outsideLoop
  | .continue _ => match loop with
    | some l => emitJump l.head
    | none => throw .outsideLoop
  | .return _ (some e) => do
    let t ← fresh
    intExpr (.str t) e
    emit "ret" [.str t] .null
  | .return _ none => emit "ret" [.str "%_"] .null

def stmts (loop : Option Loop) : List Stmt → Lower Unit
  | [] => pure ()
  | s :: rest => do
    stmt loop s
    stmts loop rest

end

def lowerGlobal : Decl → Option Gvar
  | .var _ x (.num _ n) _ => some ⟨"@" ++ x, .int n⟩
  | .var _ x (.bool _ b) _ => some ⟨"@" ++ x, .int (if b then 1 else 0)⟩
  | _ => none

def startScopes (globals : List Gvar) (p : Procedure) : List Names :=
  let bind := fun (acc : Names) (x t : String) => Datum.put x t acc
  [p.params.foldl (fun acc (x, _) => bind acc x ("%" ++ x)) [],
    globals.foldl (fun acc g => bind acc (String.ofList (g.name.toList.drop 1)) g.name) []]

def lowerProc (globals : List Gvar) (p : Procedure) : Except LowerError (Proc Record) := do
  let (_, g) ← (stmts none p.body).run ⟨0, 0, startScopes globals p, []⟩
  return ⟨"@" ++ p.name, p.params.map fun (x, _) => .str ("%" ++ x), g.code⟩

def lower (p : Program) : Except LowerError (List (Tac.Decl Record)) := do
  let globals := p.decls.filterMap lowerGlobal
  let procs ← (p.decls.filterMap fun d => match d with
    | .proc q => some q
    | .var _ _ _ _ => none).mapM (lowerProc globals)
  return globals.map .gvar ++ procs.map .proc

end Bx.Procedural
