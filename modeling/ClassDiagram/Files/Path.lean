import ClassDiagram.Text.Lines

/-! Paths are kept as they were written and joined. Only their components tell what they lead to: empty
and single-dot segments do not count, but for a dot at the start of a relative path. -/

namespace ClassDiagram

structure Path where
  text : String
  deriving DecidableEq, Repr, Inhabited

inductive Component where
  | root
  | current
  | parent
  | normal (name : String)
  deriving DecidableEq, Repr

namespace Path

/-- The texts between slashes. -/
def segments (p : Path) : List String :=
  (Text.pieces '/' p.text.toList).map String.ofList

def isAbsolute (p : Path) : Bool :=
  p.text.toList.head? == some '/'

/-- Segments that lead nowhere. -/
def isIdle (segment : String) : Bool :=
  segment == "" || segment == "."

def component (segment : String) : Component :=
  if segment == ".." then .parent else .normal segment

def ofSegments (segments : List String) : List Component :=
  (segments.filter (!isIdle ·)).map component

def components (p : Path) : List Component :=
  match p.segments with
  | first :: rest =>
    if p.isAbsolute then .root :: ofSegments rest
    else if first == "." then .current :: ofSegments rest
    else ofSegments (first :: rest)
  | [] => []

/-- An absolute path replaces the one it is joined to. -/
def join (p : Path) (name : String) : Path :=
  let added : Path := ⟨name⟩
  if added.isAbsolute || p.text == "" then added
  else if p.text.toList.getLast? == some '/' then ⟨p.text ++ name⟩
  else ⟨p.text ++ "/" ++ name⟩

def fileName? (p : Path) : Option String :=
  match p.components.getLast? with
  | some (.normal name) => some name
  | _ => none

/-- What follows the last dot of the file name, unless that dot is its first character. -/
def extension? (p : Path) : Option String :=
  match p.fileName? with
  | none => none
  | some name =>
    match (Text.pieces '.' name.toList).reverse with
    | last :: before :: more =>
      if before == [] && more.isEmpty then none else some (String.ofList last)
    | _ => none

/-- Drops idle segments from the end, given last first, but never the very first. -/
def trimIdle : List String → List String
  | segment :: next :: rest => if isIdle segment then trimIdle (next :: rest) else segment :: next :: rest
  | segments => segments

def ofReversed (absolute : Bool) (segments : List String) : Path :=
  let text := "/".intercalate segments.reverse
  ⟨if absolute && text == "" then "/" else text⟩

/-- The path without its last component. -/
def parent? (p : Path) : Option Path :=
  match p.components.getLast? with
  | none => none
  | some .root => none
  | some _ => some (ofReversed p.isAbsolute (trimIdle (trimIdle p.segments.reverse).tail))

/-- The path and all paths above it that have a component left. -/
def ancestors : Nat → Path → List Path
  | 0, _ => []
  | fuel + 1, p =>
    if p.components.isEmpty then []
    else p :: match p.parent? with
      | some parent => ancestors fuel parent
      | none => []

def lineage (p : Path) : List Path :=
  ancestors (p.segments.length + 1) p

/-- Drops as many segments as lead to the given number of components. -/
def dropComponents : Nat → List String → List String
  | 0, segments => segments
  | _ + 1, [] => []
  | n + 1, segment :: rest =>
    if isIdle segment then dropComponents (n + 1) rest else dropComponents n rest

/-- The rest of a path below another one, as far as their components agree. -/
def below? (base p : Path) : Option Path :=
  match base.components with
  | [] => some (ofReversed p.isAbsolute (trimIdle p.segments.reverse))
  | first :: rest =>
    if (first :: rest).isPrefixOf p.components then
      let left :=
        match first with
        | .root => dropComponents rest.length p.segments.tail
        | .current => dropComponents rest.length p.segments.tail
        | _ => dropComponents (rest.length + 1) p.segments
      some (ofReversed false (trimIdle (left.dropWhile isIdle).reverse))
    else none

/-- Paths that lead down only. -/
def isDownward (p : Path) : Bool :=
  p.components.all fun
    | .normal _ => true
    | _ => false

def isFileName (p : Path) : Bool :=
  match p.components with
  | [.normal _] => true
  | _ => false

end Path

end ClassDiagram
