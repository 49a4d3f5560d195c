import Bx.Flow.Liveness
import Bx.Text.Search

namespace Bx.Flow

def dropChars (n : Nat) (s : String) : String := String.ofList (s.toList.drop n)

def dotFileName (source : String) (g : Graph) : String := source ++ "." ++ dropChars 1 g.name ++ ".dot"

def liveNote (mark : String) (s : NameSet) : String := "  // " ++ mark ++ ": \x7b" ++ ",".intercalate s ++ "\x7d\\l"

def dotLabel : Label → Except Fault String
  | .name s => .ok (dropChars 2 s)
  | _ => .error .unsuited

def lineEnd : String := "\\l"

def dotText (b : Block) : Except Fault (String × String) := do
  let text ← b.text.mapError fun _ => .frozen
  let text := lineEnd.intercalate (text.splitOn "\n")
  let n := (Text.place? lineEnd text).elim 1 (· + 2)
  return (String.ofList (text.toList.take n), dropChars n text)

def dotNode (live : Option Liveness) (b : Block) : Except Fault String := do
  let (head, body) ← dotText b
  let (before, after) ← match live, b.lines.head?, b.lines.getLast? with
    | none, _, _ => .ok ("", "")
    | some v, some i, some j => .ok (liveNote "LI" (v.livein i.id), liveNote "LO" (v.liveout j.id))
    | some _, _, _ => .error .emptyBlock
  return (← dotLabel b.label) ++ "[shape=\"box\",fontname=\"monospace\",fontsize=8,label=\"" ++ head ++ before ++ body ++ after ++
    "\"];\n"

def dotEdge (a b : Label) : Except Fault String := return (← dotLabel a) ++ " -> " ++ (← dotLabel b) ++ ";\n"

def dot (g : Graph) (live : Option Liveness) : List (Except Fault String) :=
  [.ok ("digraph " ++ dropChars 1 g.name ++ " \x7b\n")] ++ (g.blocks.map fun b => dotNode live b.2) ++
    (g.edges.map fun (a, b) => dotEdge a b) ++ [.ok "\x7d\n"]

def drawing (files : List String) (source : String) (live : Bool) (g : Graph) :
    Except Fault (String × List (Except Fault String)) := do
  let v ← if live then some <$> liveness g else pure none
  return (← (FileName.resolve files true (dotFileName source g)).mapError .file, dot g v)

end Bx.Flow
