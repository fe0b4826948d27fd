import ClassDiagram.Java.Missing
import ClassDiagram.Java.Outline

/-! Adding to an existing source what a model has beyond it. Only a source with exactly one type is
touched, and only where something is missing. -/

namespace ClassDiagram.Java

inductive Merge where
  | merged (fields methods : Nat) (text : String)
  | unchanged
  | refused
  | notOneType (count : Nat)
  deriving DecidableEq, Repr

/-- Whether the existing type is an interface does not matter to the form of new methods: the model says
what they are methods of. -/
def merge (source : String) (model : Class) : Merge :=
  match sourceTypes? source with
  | none => .refused
  | some [existing] =>
    let missing := Missing.between existing.type model
    if missing.isEmpty then .unchanged
    else
      match splice? source existing.anchor (missing.lines model.isInterface) with
      | some text => .merged missing.fields.length missing.methods.length text
      | none => .unchanged
  | some types => .notOneType types.length

end ClassDiagram.Java
