import Bx.Command.Job

namespace Bx.Command

open Source Tac

def parseFile {α ε : Type} (read : String → Reading → Except (ReadError ε) α × String × Reading)
    (wrap : ReadError ε → Error) (file : String) : Job α := do
  require (file.endsWith ".bx")
  let text ← readText file
  let (r, out, reading) := read text (← get).reading
  modify fun d => { d with reading := reading }
  write out
  lift wrap r

def codeFile (file : String) : String := Text.dropLast 2 file ++ "tac.json"

def writeCode (file target : String) (d : Datum) : Job String := do
  writeJson target d
  report file target
  return target

def compileStraight (scheme : Straight.Scheme) (file : String) : Job String := do
  let stmts ← parseFile Straight.Parser.read .straight file
  let (code, _) ← lift .straightLower (Straight.lower scheme stmts)
  writeCode file (codeFile file) (Straight.mainDatum code)

def compileStructured (file : String) : Job String := do
  let stmts ← parseFile Structured.Parser.read .source file
  lift .structuredCheck (Structured.check stmts)
  let code ← lift .structuredLower (Structured.lower stmts)
  writeCode file (codeFile file) (Straight.mainDatum code)

def checkProcedural (file : String) : Job Procedural.Program := do
  let p ← parseFile Procedural.Parser.read .source file
  lift .proceduralCheck (Procedural.check p)

def compileProcedural (file : String) : Job String := do
  let p ← checkProcedural file
  let decls ← lift .proceduralLower (Procedural.lower p)
  writeCode file (codeFile file) (.list (decls.map Tac.Decl.toDatum))

def compileTree (scheme : Straight.Scheme) (file : String) : Job String := do
  require (file.endsWith ".json")
  let d ← readBytes file
  let (_, stmts) ← lift .straightLoad (Straight.Load.program (← entry d "ast"))
  let (code, _) ← lift .straightLower (Straight.lower scheme stmts)
  writeCode file (Text.dropLast 4 file ++ "tac.json") (Straight.mainDatum code)

def compileDocument (file : String) : Job Unit := do
  let d ← readJson file
  match Straight.Document.program d with
  | .error e =>
    write e.notice
    fail (.document e)
  | .ok code =>
    let target := Text.stripOf ['.', 'j', 's', 'o', 'n'] file ++ ".tac.json"
    if code.isEmpty then
      writeFile target ""
      fail (.shape .range)
    writeFile target ("[ \x7b \"proc\": \"@main\", \"body\": [\n" ++
      ",\n".intercalate (code.map fun r => Json.write r.toDatum) ++ "\n]\x7d]")

def mainBody (d : Datum) : Job Datum := do
  match d with
  | .list [p] =>
    if !(← lift .shape (p.contains (.str "proc"))) then fail (.unexpected p)
    if !(← entry p "proc").is "@main" then fail (.unexpected p)
    entry p "body"
  | d => fail (.unexpected d)

def assembleBody (target : Asm.Body.Target) (file root : String) : Job (String × String) := do
  let body ← mainBody (← readBytes file)
  let lines ← lift .asm (Asm.Body.compileData target body)
  let asm := root ++ ".s"
  writeLines asm (Asm.Body.file lines)
  report file asm
  return (asm, root ++ ".exe")

def assembleAndLink (target : Asm.Body.Target) (file root : String) : Job Unit := do
  let (asm, exe) ← assembleBody target file root
  call (.shell ("gcc -o " ++ exe ++ " " ++ asm))
  report asm exe

def assemblePlain (file : String) : Job Unit := do
  require (file.endsWith ".json")
  assembleAndLink .plain file (Text.dropLast 5 file)

def assembleAligning (file : String) : Job Unit := do
  let root ← if file.endsWith ".tac.json" then pure (Text.dropLast 9 file)
    else if file.endsWith ".json" then pure (Text.dropLast 5 file)
    else fail (.wrongSuffix file)
  assembleAndLink .aligning file root

def assembleStructured (file : String) : Job Unit := do
  let (asm, exe) ← assembleBody .structured file (Text.dropLast 9 file)
  report asm exe

section Assembly

def field (d : Datum) (key : String) : Except Error Datum := (d.entry key).mapError .shape

def hasField (d : Datum) (key : String) : Except Error Bool := (d.contains (.str key)).mapError .shape

def elements : Datum → Except Error (List Datum)
  | .list xs => .ok xs
  | d => .error (.unexpected d)

def declarations (decls : List Datum) (key : String) : Except Error (List Datum) := decls.filterM (hasField · key)

def bareName (d : Datum) : Except Error String := do return (← d.rest.mapError .shape).text

def globalLines (d : Datum) : Except Error (Option (Datum × List String)) := do
  if !(← hasField d "var") then return none
  let name ← field d "var"
  let value ← field d "init"
  return some (name, Asm.Procedure.globalText (← bareName name) value)

def procedureLines (globals : Datum) (behind : Asm.Procedure.Frame × List String) (d : Datum) :
    Except Error (Asm.Procedure.Frame × List String) := do
  let name ← field d "proc"
  let args ← field d "args"
  let body ← field d "body"
  let name ← bareName name
  let c ← (Asm.Procedure.compileData globals name args body behind.1).mapError .asm
  return (c.frame, behind.2 ++ Asm.Procedure.text name c)

def assembly (d : Datum) : Except Error (List String) := do
  let decls ← elements d
  let globals := (← decls.mapM globalLines).filterMap id
  let procs ← declarations decls "proc"
  let result ← procs.foldlM (procedureLines (.list (globals.map (·.1)))) (.empty, [])
  return globals.flatMap (·.2) ++ result.2

end Assembly

def assembleProcedural (file : String) : Job String := do
  let root := Text.dropLast 9 file
  let lines ← lift id (assembly (← readBytes file))
  let asm := root ++ ".s"
  writeLines asm lines
  report file asm
  report asm (root ++ ".exe")
  return root

def onBlocks {α : Type} (w : Blocks.Work α) (ledger : List Blocks.Line) : Job (α × List Blocks.Line) := do
  let (r, desk) := w.run.run ⟨#[], ledger⟩
  write (String.join (desk.said.toList.map (· ++ "\n")))
  return (← lift .blocks r, desk.ledger)

def optimizeProc (d : Datum) : Job Datum := do
  let name ← entry d "proc"
  let args ← entry d "args"
  let body ← (← members (← entry d "body")).mapM fun x => lift .shape (Record.ofFields x)
  say ("Building CFG for " ++ name.text)
  let bare ← lift id (bareName name)
  let (g, ledger) ← onBlocks (Blocks.build bare (body.zipIdx.map fun (r, k) => ⟨k, r⟩)) []
  say ("Optimization for " ++ name.text)
  let (g, ledger) ← onBlocks (Blocks.optimize g) ledger
  say ("Serialization for " ++ name.text)
  let ((lines, _), ledger) ← onBlocks (Blocks.lift (Blocks.serialize true g)) ledger
  return .dict [("proc", name), ("args", args), ("body", .list (lines.map fun l => (Blocks.current ledger l).toDatum))]

def optimizeBlocks (showing : Bool) (file : String) : Job String := do
  say ("[[ Optimizing " ++ file ++ " ]]")
  let decls ← lift id (elements (← readBytes file))
  let globals ← lift id (declarations decls "var")
  let procs ← (← lift id (declarations decls "proc")).mapM optimizeProc
  say "Optimization done - Writing file"
  let target := Text.dropLast 9 file ++ ".optimized_tac.json"
  writeJson target (.list (globals ++ procs))
  if showing then (globals ++ procs).forM fun d => say d.text
  say ("[[ Output " ++ target ++ " ]]")
  return target

end Bx.Command
