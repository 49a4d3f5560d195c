import Bx.Command.Job

namespace Bx.Command

open Tac

section

variable (ι : Type) [Instruction ι]

def loadCode (file : String) : Job (List (Option (Decl ι))) := do
  let text ← readText file
  if file.endsWith ".tac" then
    let (r, out) := Reader.read (Source.parseSteps text) file text
    write out
    return (← lift .code r).map some
  else if file.endsWith ".tac.json" then
    (← members (← readJson file)).mapM fun d => lift .load (Decl.load d)
  else fail .notCode

end

variable {ι φ : Type} [Instruction ι]

def named (decls : List (Option (Decl ι))) : Job (List (Decl ι)) :=
  decls.mapM fun d => match d with
    | some d => pure d
    | none => fail (.shape .method)

def distinct : List String → List (Option (Decl ι)) → Job (List (Decl ι))
  | _, [] => return []
  | _, none :: _ => fail (.shape .method)
  | seen, some d :: rest => do
    if seen.contains d.name then fail (.repeated d.name)
    return d :: (← distinct (d.name :: seen) rest)

def runSteps : Nat := 1000000000

def runMain (semantics : List (String × Proc ι) → Run.Semantics φ) (p : Program ι) : Job Fields := do
  let (r, w) := (Run.call (semantics p.procs) runSteps "@main" (.list []) 0).run.run ⟨p.globals, #[]⟩
  write w.text
  let _ ← lift .run r
  return w.globals

def printProgram (p : Program ι) : Job Unit := do
  p.globals.forM fun (x, v) => say (Gvar.text ⟨x, v⟩)
  p.procs.forM fun (_, q) => do say (← lift .shape q.text)

def runnerShape : Shape := ⟨["-v", "--dump-json", "--trace-procs", "--trace-instrs", "--trace-all", "--no-exec"], true⟩

def runOptions (a : Arguments) : Run.Options where
  showProcs := a.has "--trace-procs" || a.has "--trace-all" || a.count "-v" > 3
  showInstrs := a.has "--trace-instrs" || a.has "--trace-all" || a.count "-v" > 4
  onlyDecimal := a.count "-v" ≤ 1

def runCode (greeting : List String) (semantics : Run.Options → List (String × Proc ι) → Run.Semantics φ)
    (argv : List String) : Job Unit := do
  let a ← arguments runnerShape argv
  a.files.forM fun file => do
    let decls ← loadCode ι file
    if a.has "--dump-json" && file.endsWith ".tac" then
      let ds ← named decls
      writeFile (file ++ ".json") (Json.writeIndented 0 (.list (ds.map Decl.toDatum)))
    let p := Program.ofDecls (← distinct [] decls)
    greeting.forM say
    if !a.has "--no-exec" then
      let _ ← runMain (semantics (runOptions a)) p
    else if a.count "-v" > 0 then printProgram p

def graphShape : Shape := ⟨["-v"], false⟩

def printProc (r : Flow.Routine) : Job Unit := do
  let p ← lift .flow (Flow.linearizeProc r)
  say (← lift .shape p.text)

def onGraphs (argv : List String) (act : String → Nat → Flow.Routine → Job Unit) : Job Unit := do
  let a ← arguments graphShape argv
  let file := a.files.headD ""
  (← loadCode Instr file).forM fun d => match d with
    | some (.proc p) => do act file (a.count "-v") (← lift .flow (Flow.inferProc p))
    | _ => pure ()

def inferGraphs (argv : List String) : Job Unit :=
  onGraphs argv fun _ verbosity r => if verbosity > 0 then printProc r else pure ()

def drawGraph (file : String) (live : Bool) (g : Flow.Graph) : Job Unit := do
  let root := if file.endsWith ".tac.json" then Text.dropLast 5 file else file
  let (target, pieces) ← lift .flow (Flow.drawing ((← get).files.map (·.1)) root live g)
  writePieces .flow target pieces
  call (.shell ("dot -Tpdf -O " ++ Flow.dotFileName root g))

def ssaGraphs (argv : List String) : Job Unit :=
  onGraphs argv fun file verbosity r => do
    let r ← lift .flow (Flow.ssaProc r)
    drawGraph file (verbosity ≥ 1) r.graph
    if verbosity ≥ 2 then printProc r

def optimizeFlow (argv : List String) : Job Unit := do
  match argv.getLast? with
  | none => fail (.file .absent)
  | some file =>
    let p := Program.ofDecls (← named (← loadCode Instr file))
    let run := runMain (Run.Checked.semantics {})
    say "First: "
    let globals ← run p
    say "First done"
    let procs ← lift .flow (Flow.optimize (globals.map (·.1)) (p.procs.map (·.2)))
    let p : Program Instr := ⟨globals, procs.map fun q => (q.name, q)⟩
    match argv with
    | [_] => printProgram p
    | ["-o", target, _] =>
      writeFile target "["
      fail .unwritable
    | _ => fail .wrongForm
    say "Second: "
    let _ ← run p
    say "Second done"

end Bx.Command
