import Bx.Straight.Tree

namespace Bx.Straight

inductive LoadError
  | shape (f : Datum.Fault)
  /-- A node of the wrong kind, shown. -/
  | wrongNode (shown : String)
  | undeclared (place name : Datum)

def LoadError.message : LoadError → String
  | .shape _ => ""
  | .wrongNode s => s
  | .undeclared p x => "ERROR: (line " ++ p.text ++ ") Variable " ++ x.text ++ " used not declared!"

namespace Load

def at? (d : Datum) : List Int → Except Datum.Fault Datum
  | [] => .ok d
  | k :: ks => do at? (← d.item k) ks

def follow (d : Datum) (path : List Int) : Except LoadError Datum := (at? d path).mapError .shape

def missing : String := "<class 'NoneType'>"

def place (d : Datum) : Datum :=
  match d with
  | .list (_ :: p :: _) => p
  | _ => .null

def operand (e : Option Expr) : Except LoadError Expr :=
  match e with
  | some e => .ok e
  | none => .error (.wrongNode missing)

def operator (op : Datum) : Except LoadError String :=
  match op with
  | .str s => .ok s
  | op => .error (.wrongNode op.text)

def expr : Nat → Datum → Except LoadError (Option Expr)
  | n + 1, .list xs => do
    let node ← follow (.list xs) [0]
    let tag ← follow node [0]
    if tag.is "<var>" then return some (.var (← follow node [1]))
    else if tag.is "<number>" then return some (.num (← follow node [1]))
    else if tag.is "<binop>" then
      let op ← follow node [2, 0, 0]
      let l ← expr n (← follow node [1])
      let r ← expr n (← follow node [3])
      return some (.binary (← operator op) (← operand l) (← operand r))
    else if tag.is "<unop>" then
      let op ← follow node [1, 0, 0]
      let e ← expr n (← follow node [2])
      return some (.unary (← operator op) (← operand e))
    else return none
  | _, _ => return none

def named? : Option Expr → Option Datum
  | some (.var x) => some x
  | _ => none

def stmt (declared d : Datum) : Except LoadError (Option Stmt) :=
  match d with
  | .list xs => do
    let node ← follow (.list xs) [0]
    let tag ← follow node [0]
    if tag.is "<assign>" then
      let lhs ← follow node [1]
      let lhs ← expr lhs.depth lhs
      let rhs ← follow node [2]
      let rhs ← expr rhs.depth rhs
      match named? lhs with
      | none => throw (.shape .method)
      | some x =>
        if ← (declared.contains x).mapError .shape then return some (.assign x rhs)
        else throw (.undeclared (place d) x)
    else if tag.is "<vardecl>" then
      let x ← follow node [1, 0]
      let rhs ← follow node [2]
      return some (.vardecl x (← expr rhs.depth rhs))
    else if tag.is "<eval>" then
      let arg ← follow (← follow node [1, 0]) [2, 0]
      match ← expr arg.depth arg with
      | some e => return some (.print e)
      | none => throw (.wrongNode "")
    else return none
  | _ => .ok none

def stmts : List Datum → List Datum → Except LoadError (List Datum × List Stmt)
  | declared, [] => .ok (declared, [])
  | declared, d :: rest => do
    let tag ← follow d [0, 0]
    let declared ← if tag.is "<vardecl>" then do pure (declared ++ [← follow d [0, 1, 0]]) else pure declared
    match ← stmt (.list declared) d with
    | none => throw (.wrongNode d.text)
    | some s =>
      let (declared, more) ← stmts declared rest
      return (declared, s :: more)

def elements (d : Datum) : Except LoadError (List Datum) :=
  match d with
  | .dict _ => .error (.shape .operator)
  | d => d.members.mapError .shape

def program (d : Datum) : Except LoadError (List Datum × List Stmt) := do
  match d with
  | .list xs =>
    match ← follow (.list xs) [0] with
    | .list [p] =>
      let p ← follow p [0]
      if (← (← follow p [2]).size.mapError .shape) ≠ 0 then throw (.wrongNode "")
      stmts [] (← elements (← follow p [4, 0, 1]))
    | _ => throw (.wrongNode "")
  | _ => throw (.wrongNode "")

end Load

end Bx.Straight
