import ClassDiagram.Command.Arguments
import ClassDiagram.Command.Json
import ClassDiagram.Config.Settings
import ClassDiagram.Diagram.File
import ClassDiagram.Extraction
import ClassDiagram.Text.Lines

/-! Carrying out a call: what it prints, what it changes, and how it ends. -/

namespace ClassDiagram.Command

open Files

/-- A printed line. A timed one is followed by how long the work took. -/
inductive Print where
  | line (text : String)
  | timed (text : String)
  deriving DecidableEq, Repr

structure Console where
  disk : Disk
  printed : List Print := []
  deriving Inhabited

/-- Why a command fails: messages from the outermost to the innermost cause. Settings that cannot be
loaded are named without their cause. -/
inductive Trouble where
  | settings (path : Path)
  | causes (first : String) (others : List String)
  deriving DecidableEq, Repr

/-- Printing and changes up to a failure remain. -/
abbrev Session := ExceptT Trouble (StateM Console)

namespace Session

def say (text : String) : Session Unit :=
  modify fun console => { console with printed := console.printed ++ [.line text] }

def sayTimed (text : String) : Session Unit :=
  modify fun console => { console with printed := console.printed ++ [.timed text] }

def fail (context : String) (error : Error) : Session α :=
  throw (.causes context error.messages)

/-- Asks something of the disk; a failure is put behind the context. -/
def ask (context : String) (question : Disk → Except Error α) : Session α := do
  match question (← get).disk with
  | .ok answer => return answer
  | .error error => fail context error

def perform (context : String) (work : Work α) : Session α := do
  let console ← get
  let (result, disk) := work.run.run console.disk
  set { console with disk }
  match result with
  | .ok answer => return answer
  | .error error => fail context error

end Session

open Session

def version : String := "0.2.0"

def rule : String :=
  String.ofList (List.replicate 50 '=')

/-- A value from the command line, else from the settings. -/
def require (given configured : Option Path) (what : String) : Session Path :=
  match given, configured with
  | some path, _ => return path
  | none, some path => return path
  | none, none =>
    throw (.causes ("No " ++ what ++ " given: pass it on the command line or set it in the config file") [])

def sayPaths (label : String) : List Path → Session Unit
  | [] => return ()
  | path :: rest => do
    say ("  [" ++ label ++ "] " ++ path.text)
    sayPaths label rest

def readSources (config : Config) (source : Path) : Session Extraction :=
  ask ("Failed to read source folder " ++ Text.quotedPath source.text) (extract · source config.exclude)

def runUml (config : Config) (source output : Path) : Session Unit := do
  say ("Java to UML v" ++ version)
  say rule
  say "\n[1/2] Reading Java sources..."
  let extraction ← readSources config source
  say ("  Parsed " ++ toString extraction.filesParsed ++ " files, extracted "
    ++ toString extraction.project.classCount ++ " classes")
  sayPaths "skipped" extraction.filesSkipped
  say "\n[2/2] Writing diagram..."
  let path ← perform ("Failed to write diagram to " ++ Text.quotedPath output.text)
    (Diagram.save extraction.project output)
  say ("  Written " ++ path.text)
  say ("\n" ++ rule)
  sayTimed "Done in "

def runJava (diagram target : Path) : Session Unit := do
  say ("UML to Java v" ++ version)
  say rule
  say "\n[1/2] Reading diagram..."
  let project ← ask ("Failed to read diagram " ++ Text.quotedPath diagram.text) (Diagram.load · diagram)
  say ("  Found " ++ toString project.classCount ++ " classes")
  say "\n[2/2] Writing Java sources..."
  let report ← perform ("Failed to write Java sources to " ++ Text.quotedPath target.text)
    (generate project target)
  sayPaths "created" report.created
  sayPaths "merged" report.merged
  sayPaths "skipped" report.skipped
  say ("\n" ++ rule)
  sayTimed ("Done! " ++ toString report.created.length ++ " created, " ++ toString report.merged.length
    ++ " merged, " ++ toString report.unchanged.length ++ " unchanged, "
    ++ toString report.skipped.length ++ " skipped in ")

def runModel (config : Config) (source : Path) : Session Unit := do
  let extraction ← readSources config source
  say ((Json.ofProject extraction.project).render 0)

def loadConfig (path : Path) : Session Config := do
  match Config.loadOrDefault (← get).disk path with
  | .ok config => return config
  | .error _ => throw (.settings path)

def carryOut (call : Call) : Session Unit := do
  let config ← loadConfig call.config
  match call.action with
  | .uml source output _ =>
    let source ← require source config.sourceFolder "source folder"
    let output ← require output config.outputFolder "output folder"
    runUml config source output
  | .java diagram target =>
    let diagram ← require diagram config.outputFolder "diagram"
    let target ← require target config.sourceFolder "target folder"
    runJava diagram target
  | .model source =>
    let source ← require source config.sourceFolder "source folder"
    runModel config source

/-- A cause on lines of its own, which the padding indents. -/
def indented (first padding message : String) : String :=
  first ++ ("\n" ++ padding).intercalate ((Text.pieces '\n' message.toList).map String.ofList)

def numbered : Nat → List String → String
  | _, [] => ""
  | n, message :: rest =>
    "\n" ++ indented ("    " ++ toString n ++ ": ") "       " message ++ numbered (n + 1) rest

def Trouble.report : Trouble → String
  | settings path => "Error: Failed to load config from " ++ Text.quotedPath path.text
  | causes first [] => "Error: " ++ first ++ "\n"
  | causes first [only] => "Error: " ++ first ++ "\n\nCaused by:\n" ++ indented "    " "    " only ++ "\n"
  | causes first others => "Error: " ++ first ++ "\n\nCaused by:" ++ numbered 0 others ++ "\n"

/-- How a call ends. -/
inductive Exit where
  | done
  | failed (trouble : Trouble)
  | ended (ending : Ending)
  deriving DecidableEq, Repr

def Exit.code : Exit → Nat
  | done => 0
  | failed _ => 1
  | ended .misuse => 2
  | ended _ => 0

def run (arguments : List String) (disk : Disk) : Exit × Console :=
  match call arguments with
  | .error .version => (.ended .version, { disk, printed := [.line ("javauml " ++ version)] })
  | .error ending => (.ended ending, { disk })
  | .ok call =>
    match (carryOut call).run.run { disk } with
    | (.ok (), console) => (.done, console)
    | (.error trouble, console) => (.failed trouble, console)

/-- A place that a call may look at: what is there itself, or all sources below it too. -/
inductive Touched where
  | node (path : Path)
  | tree (path : Path)
  deriving DecidableEq, Repr

/-- The places a call may look at once its settings are on the disk. Trees come first. -/
def Call.touches (call : Call) (disk : Disk) : List Touched :=
  let config := (Config.loadOrDefault disk call.config).toOption.getD {}
  let tree (given configured : Option Path) := ((given <|> configured).map Touched.tree).toList
  let diagram (given configured : Option Path) :=
    match given <|> configured with
    | some path => [.node path, .node (path.join Diagram.fileName)]
    | none => []
  let others :=
    match call.action with
    | .uml source output _ => tree source config.sourceFolder ++ diagram output config.outputFolder
    | .java path target => tree target config.sourceFolder ++ diagram path config.outputFolder
    | .model source => tree source config.sourceFolder
  others ++ [.node call.config]

/-- The printed text, with the given text for times. -/
def Console.text (elapsed : String) (console : Console) : String :=
  String.join (console.printed.map fun
    | .line text => text ++ "\n"
    | .timed text => text ++ elapsed ++ "\n")

end ClassDiagram.Command
