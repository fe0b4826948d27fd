import ClassDiagram.Files.Disk
import ClassDiagram.Files.Glob
import ClassDiagram.Text.Quoted

/-! Why work on a project fails, and how that is said. -/

namespace ClassDiagram

open Files

inductive Error where
  | sourceFolderNotFound (path : Path)
  | syntaxError (path : Path)
  | io (path : Path) (fault : Fault)
  | invalidPattern (pattern : String) (error : Glob.Error)
  deriving DecidableEq, Repr

namespace Error

def message : Error → String
  | sourceFolderNotFound path => "Source folder does not exist: " ++ Text.quotedPath path.text
  | syntaxError path => "Failed to parse " ++ Text.quotedPath path.text ++ ": syntax error"
  | io path fault => "IO error on " ++ Text.quotedPath path.text ++ ": " ++ fault.message
  | invalidPattern pattern error =>
    "Invalid exclude pattern " ++ Text.quotedText pattern ++ ": " ++ error.message

/-- The messages of a fault and of the fault that it wraps. -/
def faultMessages : Fault → List String
  | .listing path cause => Fault.message (.listing path cause) :: faultMessages cause
  | fault => [fault.message]

/-- The message and those of the causes behind it, outermost first. -/
def messages (error : Error) : List String :=
  match error with
  | io _ fault => error.message :: faultMessages fault
  | _ => [error.message]

end Error

end ClassDiagram
