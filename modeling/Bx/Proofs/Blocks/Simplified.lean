import Bx.Blocks.Optimize
import Bx.Proofs.Run.Loose
import Mathlib

namespace Bx.Blocks

open Tac

def linesOf (body : List Record) : List Line := body.zipIdx.map fun (r, k) => ⟨k, r⟩

def simplified (name : String) (body : List Record) : Except Fault (List Record) :=
  let work : Work (List Line) := do return (← lift (serialize true (← optimize (← build name (linesOf body))))).1
  match work.run.run ⟨#[], []⟩ with
  | (r, desk) => r.map fun lines => lines.map (current desk.ledger)

def simplifiedProc (e : String × Proc Record) : Except Fault (String × Proc Record) := do
  return (e.1, { e.2 with body := ← simplified (String.ofList (e.1.toList.drop 1)) e.2.body })

def joinable : List Record :=
  [.of "label" [.str ".L0"] .null, .of "jmp" [.str ".L1"] .null, .of "label" [.str ".L1"] .null, .of "ret" [] .null]

def retested : List Record :=
  [.of "label" [.str ".A"] .null, .of "const" [.int 0] (.str "%x"), .of "jz" [.str "%x", .str ".K"] .null, .of "ret" [] .null,
    .of "label" [.str ".K"] .null, .of "jz" [.str "%x", .str ".T"] .null, .of "const" [.int 7] (.str "%y"),
    .of "param" [.int 1, .str "%y"] .null, .of "call" [.str "@__bx_print_int", .int 1] .null, .of "jmp" [.str ".B"] .null,
    .of "label" [.str ".T"] .null, .of "jz" [.str "%x", .str ".B"] .null, .of "ret" [] .null,
    .of "label" [.str ".B"] .null, .of "ret" [] .null]

open Run Run.Loose

/-- Blocks that could be joined make the simplification fail, and a test that is made again may be dropped. -/
theorem not_sameRuns_simplified :
    simplified "main" joinable = .error (.shape .method) ∧
    Yields (semantics {} [("@main", ⟨"@main", [], retested⟩)]) "@main" (.list []) 0 ⟨[], #[]⟩ (.ok .null) ⟨[], #[]⟩ ∧
    ∃ q, simplifiedProc ("@main", ⟨"@main", [], retested⟩) = .ok q ∧
      Yields (semantics {} [q]) "@main" (.list []) 0 ⟨[], #[]⟩ (.ok .null) ⟨[], #["7\n"]⟩ := by
  refine ⟨by cbv, ⟨12, by cbv⟩, ("@main", ⟨"@main", [], [.of "label" [.str ".A"] .null, .of "const" [.int 0] (.str "%x"),
    .of "jz" [.str "%x", .str ".K"] .null, .of "ret" [] .null, .of "label" [.str ".K"] .null, .of "nop" [.str "%x", .str ".T"] .null,
    .of "const" [.int 7] (.str "%y"), .of "param" [.int 1, .str "%y"] .null, .of "call" [.str "@__bx_print_int", .int 1] .null,
    .of "label" [.str ".B"] .null, .of "ret" [] .null]⟩), by cbv, ⟨14, by cbv⟩⟩

end Bx.Blocks
