import ClassDiagram.Diagram.BodyLine
import ClassDiagram.Diagram.Header
import ClassDiagram.Model.Project

/-! Reading a diagram as nested blocks. A block takes the lines from its header through its closing
brace, and text that ends inside a block closes it. Each reader returns the lines behind its block.
Arrows are not read: containment follows from the fields. -/

namespace ClassDiagram.Diagram

/-- Lines that remain once some of the given ones are read. -/
abbrev Remaining (lines : List (List Char)) :=
  { rest : List (List Char) // rest.length ≤ lines.length }

def addLine (c : Class) (line : List Char) : Class :=
  match entryOf? line with
  | some entry => entry.addTo c
  | none => c

/-- The lines behind the first one with a closing brace. -/
def behindBrace (lines : List (List Char)) : Remaining lines :=
  ⟨(lines.dropWhile (!closes ·)).drop 1, by
    have shorter := (List.dropWhile_sublist (l := lines) (!closes ·)).length_le
    rw [List.length_drop]
    omega⟩

def readClass (header : List Char) (lines : List (List Char)) : Class × Remaining lines :=
  let c := classHeader header
  if closes header then (c, ⟨lines, Nat.le_refl _⟩)
  else ((lines.takeWhile (!closes ·)).foldl addLine c, behindBrace lines)

/-- Reads the inside of a package. Headers come before braces, since the block of a header may close
on its own line. -/
def readBody (p : Package) : (lines : List (List Char)) → Package × Remaining lines
  | [] => (p, ⟨[], Nat.le_refl _⟩)
  | line :: lines =>
    if isClassHeader line then
      let (c, rest) := readClass line lines
      let (whole, after) := readBody (p.addClass c) rest
      (whole, ⟨after, by grind⟩)
    else if isPackageHeader line then
      let child : Package := { name := packageName line }
      if closes line then
        let (whole, after) := readBody (p.addPackage child) lines
        (whole, ⟨after, by grind⟩)
      else
        let (child, rest) := readBody child lines
        let (whole, after) := readBody (p.addPackage child) rest
        (whole, ⟨after, by grind⟩)
    else if closes line then (p, ⟨lines, by simp⟩)
    else
      let (whole, after) := readBody p lines
      (whole, ⟨after, by grind⟩)
termination_by lines => lines.length
decreasing_by all_goals grind

def readPackage (header : List Char) (lines : List (List Char)) : Package × Remaining lines :=
  let p : Package := { name := packageName header }
  if closes header then (p, ⟨lines, Nat.le_refl _⟩) else readBody p lines

/-- The blocks at top level, where a brace closes nothing. -/
def readBlocks (project : Project) : List (List Char) → Project
  | [] => project
  | line :: lines =>
    if isClassHeader line then
      let (c, rest) := readClass line lines
      readBlocks (project.addClass c) rest
    else if isPackageHeader line then
      let (p, rest) := readPackage line lines
      readBlocks (project.addPackage p) rest
    else readBlocks project lines
termination_by lines => lines.length
decreasing_by all_goals grind

/-- The blocks of a diagram, before index and containment. -/
def readLines (lines : List (List Char)) : Project :=
  readBlocks {} lines

def read (text : String) : Project :=
  (readLines (Text.lines text.toList)).indexNames.inferContainment

end ClassDiagram.Diagram
