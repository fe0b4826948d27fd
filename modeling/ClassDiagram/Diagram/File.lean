import ClassDiagram.Diagram.Reader
import ClassDiagram.Diagram.Writer
import ClassDiagram.Generation

/-! Diagrams in files. A directory stands for the diagram file in it. -/

namespace ClassDiagram.Diagram

open Files

def fileName : String := "diagram.puml"

/-- Reads a diagram from a file, or from the one in a directory. -/
def load (disk : Disk) (path : Path) : Except Error Project :=
  let file := if disk.isDir path then path.join fileName else path
  match disk.readText file with
  | .ok text => .ok (read text)
  | .error fault => .error (.io file fault)

/-- Writes the diagram of a project into a directory, which is made if need be. -/
def save (project : Project) (dir : Path) : Work Path := do
  Work.makeDirs dir
  let path := dir.join fileName
  Work.attempt path (·.writeText path (renderText project))
  return path

end ClassDiagram.Diagram
