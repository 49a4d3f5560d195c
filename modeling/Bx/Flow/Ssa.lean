import Bx.Flow.Liveness

namespace Bx.Flow

open Tac

def phisOf (g : Graph) (v : Liveness) (fresh : Nat) (b : Block) : List Line :=
  let ways := match (g.preds.lookup b.label).getD [] with
    | [] => [g.name]
    | ps => ps.map Label.text
  let live := (b.lines.head?.elim [] fun l => v.livein l.id)
  live.zipIdx.map fun (t, k) => ⟨fresh + k, .phi t (ways.map fun l => (l, t))⟩

def insertPhis (g : Graph) (v : Liveness) : Nat → List (Label × Block) → List (Label × Block)
  | _, [] => []
  | fresh, (l, b) :: rest =>
    let phis := phisOf g v fresh b
    (l, { b with body := phis ++ b.body }) :: insertPhis g v (fresh + phis.length) rest

def versionLine (k : Nat) (l : Line) : Line × Nat :=
  if l.instr.dest.any fun d => d.startsWith "%" then
    ({ l with instr := l.instr.renameDest (· ++ "." ++ toString k) }, k + 1)
  else (l, k)

def versionLines : Nat → List Line → List Line × Nat
  | k, [] => ([], k)
  | k, l :: rest =>
    let (l, k) := versionLine k l
    let (rest, k) := versionLines k rest
    (l :: rest, k)

def versionBlocks : Nat → List (Label × Block) → List (Label × Block)
  | _, [] => []
  | k, (x, b) :: rest =>
    let (body, k) := versionLines k b.body
    let (jumps, k) := versionLines k b.jumps
    (x, { b with body := body, jumps := jumps }) :: versionBlocks k rest

def renameUses : Renaming → List Line → List Line × Renaming
  | r, [] => ([], r)
  | r, l :: rest =>
    let i := l.instr.renameReads r.apply
    let r := match i.dest with
      | some d => Datum.put (tmpRoot d) d r
      | none => r
    let (rest, r) := renameUses r rest
    (⟨l.id, i⟩ :: rest, r)

def renameBlock (b : Block) : Block × Renaming :=
  let (body, r) := renameUses [] b.body
  let (jumps, r) := renameUses r b.jumps
  ({ b with body := body, jumps := jumps }, r)

def renameSources (ends : List (String × Renaming)) : List (String × String) → List (String × String) × Option Fault
  | [] => ([], none)
  | (l, t) :: rest => match ends.lookup l with
    | none => ((l, t) :: rest, some (.missing (.name l)))
    | some r =>
      let (rest, e) := renameSources ends rest
      ((l, r.apply t) :: rest, e)

def renamePhis (ends : List (String × Renaming)) : List Line → List Line × Option Fault
  | [] => ([], none)
  | l :: rest => match l.instr with
    | .phi d sources => match renameSources ends sources with
      | (sources, some e) => (⟨l.id, .phi d sources⟩ :: rest, some e)
      | (sources, none) =>
        let (rest, e) := renamePhis ends rest
        (⟨l.id, .phi d sources⟩ :: rest, e)
    | _ =>
      let (rest, e) := renamePhis ends rest
      (l :: rest, e)

def renamePhiBlocks (ends : List (String × Renaming)) : List (Label × Block) → List (Label × Block) × Option Fault
  | [] => ([], none)
  | (x, b) :: rest => match renamePhis ends b.body with
    | (body, some e) => ((x, { b with body := body }) :: rest, some e)
    | (body, none) => match renamePhis ends b.jumps with
      | (jumps, some e) => ((x, { b with body := body, jumps := jumps }) :: rest, some e)
      | (jumps, none) =>
        let (rest, e) := renamePhiBlocks ends rest
        ((x, { b with body := body, jumps := jumps }) :: rest, e)

def ssa (taken : Nat) (params : List Datum) (g : Graph) : Graph × Option Fault :=
  match liveness g with
  | .error e => (g, some e)
  | .ok v =>
    let blocks := versionBlocks 0 (insertPhis g v (freshId taken g.lines) g.blocks)
    if !(params.all Datum.isKey) then ({ g with blocks := blocks }, some .unsuited) else
    let renamed := blocks.map fun (x, b) => (x, renameBlock b)
    let ends := renamed.foldl (fun acc (x, _, r) => Datum.put x.text r acc) [(g.name, [])]
    let (blocks, e) := renamePhiBlocks ends (renamed.map fun (x, b, _) => (x, b))
    ({ g with blocks := blocks }, e)

end Bx.Flow
