import Bx.Command.Code
import Bx.Command.Compile

namespace Bx.Command

inductive Tool
  /-- Straight-line programs. -/
  | documentCompiler | treeCompiler | straightCompiler | plainAssembler | aligningAssembler
  /-- Structured programs. -/
  | structuredCompiler
  /-- Programs with procedures. -/
  | proceduralChecker | proceduralCompiler | blockOptimizer
  /-- Three-address code. -/
  | looseRunner | checkedRunner | grapher | ssaGrapher | flowOptimizer

def Tool.all : List Tool := [.documentCompiler, .treeCompiler, .straightCompiler, .plainAssembler, .aligningAssembler,
  .structuredCompiler, .proceduralChecker, .proceduralCompiler, .blockOptimizer, .looseRunner, .checkedRunner, .grapher,
  .ssaGrapher, .flowOptimizer]

def Tool.name : Tool → String
  | .documentCompiler => "compile-document"
  | .treeCompiler => "compile-tree"
  | .straightCompiler => "compile-straight"
  | .plainAssembler => "assemble"
  | .aligningAssembler => "assemble-aligned"
  | .structuredCompiler => "compile-structured"
  | .proceduralChecker => "check"
  | .proceduralCompiler => "compile"
  | .blockOptimizer => "optimize-blocks"
  | .looseRunner => "run-loose"
  | .checkedRunner => "run"
  | .grapher => "graph"
  | .ssaGrapher => "graph-ssa"
  | .flowOptimizer => "optimize-flow"

def Tool.ofName? (s : String) : Option Tool := Tool.all.find? fun t => t.name == s

def firstArgument (argv : List String) : Job String :=
  match argv with
  | a :: _ => return a
  | [] => fail .noArgument

def onlyArgument (self hint : String) (argv : List String) : Job String :=
  match argv with
  | [a] => return a
  | _ => do
    say ("Usage: " ++ self ++ " " ++ hint)
    throw (.exit 1)

def schemeShape : Shape := ⟨["--bmm", "--tmm", "--continue"], false⟩

def withScheme (compile : Straight.Scheme → String → Job String) (argv : List String) : Job Unit := do
  let a ← arguments schemeShape argv
  if a.has "--tmm" && a.has "--bmm" then fail .bothSchemes
  let scheme : Straight.Scheme := if a.has "--tmm" || !a.has "--bmm" then .topDown else .bottomUp
  let code ← compile scheme (a.files.headD "")
  if a.has "--continue" then assembleAligning code

def compilerShape : Shape := ⟨["--keep-tac", "--run"], false⟩

def compileAndLinkStructured (argv : List String) : Job Unit := do
  let a ← arguments compilerShape argv
  let file := a.files.headD ""
  assembleStructured (← compileStructured file)
  let root := Text.dropLast 3 file
  call (.program ["gcc", "-o", root, "bx_runtime.c", root ++ ".s"])
  if a.has "--run" then call (.program ["./" ++ root])

def compileAndLinkProcedural (argv : List String) : Job Unit := do
  let a ← arguments compilerShape argv
  let code ← compileProcedural (a.files.headD "")
  let root ← assembleProcedural (← optimizeBlocks false code)
  call (.program ["gcc", "-o", root, "bx_runtime.c", root ++ ".s"])
  call (.program ["rm", code])
  call (.program ["rm", root ++ ".s"])
  if !a.has "--keep-tac" then call (.program ["rm", root ++ "_tac.json"])
  if a.has "--run" then call (.program ["./" ++ root])

def checkOnly (argv : List String) : Job Unit :=
  match argv with
  | [file] => do
    let _ ← checkProcedural file
  | _ => fail .refused

def Tool.job (t : Tool) (self : String) (argv : List String) : Job Unit :=
  match t with
  | .documentCompiler => do compileDocument (← firstArgument argv)
  | .treeCompiler => withScheme compileTree argv
  | .straightCompiler => do
    let _ ← firstArgument argv
    withScheme compileStraight argv
  | .plainAssembler => do assemblePlain (← onlyArgument self "tacfile.json" argv)
  | .aligningAssembler => do assembleAligning (← onlyArgument self "tacfile.tac.json" argv)
  | .structuredCompiler => compileAndLinkStructured argv
  | .proceduralChecker => checkOnly argv
  | .proceduralCompiler => compileAndLinkProcedural argv
  | .blockOptimizer => argv.forM fun file => do
    let _ ← optimizeBlocks true file
  | .looseRunner => runCode ["HEREEE"] Tac.Run.Loose.semantics argv
  | .checkedRunner => runCode [] Tac.Run.Checked.semantics argv
  | .grapher => inferGraphs argv
  | .ssaGrapher => ssaGraphs argv
  | .flowOptimizer => optimizeFlow argv

structure Outcome where
  result : Except Error Nat
  desk : Desk

def Tool.run (t : Tool) (self : String) (argv : List String) (files : List (String × String)) : Outcome :=
  match (t.job self argv).run.run (.start files) with
  | (.ok _, d) => ⟨.ok 0, d⟩
  | (.error (.exit n), d) => ⟨.ok n, d⟩
  | (.error (.failure e), d) => ⟨.error e, d⟩

def Outcome.changed (o : Outcome) (files : List (String × String)) : List (String × String) :=
  o.desk.files.filter fun (name, text) => (Desk.start files).files.lookup name != some text

end Bx.Command
