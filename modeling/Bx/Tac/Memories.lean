import Bx.Tac.Store

namespace Bx.Tac

/-- A memory such as a running procedure has, or a plain table under any keys. -/
inductive Memory
  | checked (temps : Fields)
  | plain (entries : List (Datum × Datum))

namespace Memory

def entries : Memory → List (Datum × Datum)
  | .checked temps => temps.map fun (x, v) => (.str x, v)
  | .plain entries => entries

def putEntry (k v : Datum) : List (Datum × Datum) → List (Datum × Datum)
  | [] => [(k, v)]
  | (k', v') :: rest => if k'.same k then (k', v) :: rest else (k', v') :: putEntry k v rest

def get (m : Memory) (globals : Fields) (x : Datum) : Except Fault Datum :=
  match m with
  | .checked temps => Store.read ⟨temps, globals⟩ x
  | .plain entries =>
    if !x.isKey then .error (.shape .operator) else
    match entries.find? fun e => e.1.same x with
    | some e => .ok e.2
    | none => .error (.shape (.key x))

def set (m : Memory) (globals : Fields) (x v : Datum) : Except Fault (Memory × Fields) :=
  match m with
  | .checked temps => do
    let s ← Store.write ⟨temps, globals⟩ x v
    return (.checked s.temps, s.globals)
  | .plain entries => if x.isKey then .ok (.plain (putEntry x v entries), globals) else .error (.shape .operator)

end Memory

structure Memories where
  globals : Fields
  all : List Memory

namespace Memories

def start (globals : Fields) : Memories := ⟨globals, [.checked []]⟩

def place (m : Memories) (k : Datum) : Except Fault Nat := do
  match Datum.position? m.all.length (← Fault.number k) with
  | some n => return n
  | none => throw (.shape .range)

def memory (m : Memories) (k : Datum) : Except Fault Memory := return (m.all[← m.place k]?).getD (.plain [])

def get (m : Memories) (k x : Datum) : Except Fault Datum := do (← m.memory k).get m.globals x

def set (m : Memories) (k x v : Datum) : Except Fault Memories := do
  let (memory, globals) ← (← m.memory k).set m.globals x v
  return ⟨globals, m.all.set (← m.place k) memory⟩

def copy (m : Memories) (k : Datum) (asTable : Bool) : Except Fault Memories := do
  let memory ← m.memory k
  return { m with all := m.all ++ [if asTable then .plain memory.entries else memory] }

def toDatum (m : Memories) : Datum := .list (m.all.map fun t => .list (t.entries.map fun (x, v) => .list [x, v]))

end Memories

end Bx.Tac
