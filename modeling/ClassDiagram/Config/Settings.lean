import ClassDiagram.Config.Toml
import ClassDiagram.Files.Disk

/-! Settings of the commands: where sources are, where the diagram goes, and what to leave out. Relative
folders start at the directory of the settings file. -/

namespace ClassDiagram

open Files

structure Config where
  sourceFolder : Option Path := none
  outputFolder : Option Path := none
  exclude : List String := []
  deriving DecidableEq, Repr, Inhabited

namespace Config

inductive Failure where
  | io (fault : Fault)
  | malformed
  deriving DecidableEq, Repr

def text? : Toml.Item → Option String
  | .string text => some text
  | _ => none

/-- A setting that may be missing but must be a text. -/
def optionalText? (entries : Toml.Entries) (key : String) : Option (Option String) :=
  match entries.lookup key with
  | none => some none
  | some item => (text? item).map some

def texts? : Toml.Item → Option (List String)
  | .array items => items.mapM text?
  | _ => none

/-- Source and output folder, by name or as the first two items of a list. -/
def folders? : Toml.Item → Option (Option String × Option String)
  | .table _ entries => do
    let source ← optionalText? entries "source_folder"
    let output ← optionalText? entries "output_folder"
    return (source, output)
  | .array (source :: output :: _) => do
    let source ← text? source
    let output ← text? output
    return (some source, some output)
  | _ => none

/-- Exclude patterns, by name or as the first item of a list. -/
def exclude? : Toml.Item → Option (List String)
  | .table _ entries =>
    match entries.lookup "exclude" with
    | none => some []
    | some item => texts? item
  | .array [] => some []
  | .array (item :: _) => texts? item
  | _ => none

/-- Settings as written. Unknown keys are ignored. -/
def ofEntries? (entries : Toml.Entries) : Option Config := do
  let (source, output) ←
    match entries.lookup "project" with
    | none => some (none, none)
    | some item => folders? item
  let exclude ←
    match entries.lookup "scan" with
    | none => some []
    | some item => exclude? item
  return { sourceFolder := source.map Path.mk, outputFolder := output.map Path.mk, exclude }

def resolve (base path : Path) : Path :=
  if path.isAbsolute then path else base.join path.text

def resolveFolders (config : Config) (base : Path) : Config :=
  { config with
    sourceFolder := config.sourceFolder.map (resolve base)
    outputFolder := config.outputFolder.map (resolve base) }

def load (disk : Disk) (path : Path) : Except Failure Config :=
  match disk.readText path with
  | .error fault => .error (.io fault)
  | .ok text =>
    match (Toml.parse? text).bind ofEntries? with
    | none => .error .malformed
    | some config =>
      match path.parent? with
      | some base => .ok (config.resolveFolders base)
      | none => .ok config

/-- Without a settings file nothing is set. -/
def loadOrDefault (disk : Disk) (path : Path) : Except Failure Config :=
  if disk.has path then load disk path else .ok {}

end Config

end ClassDiagram
