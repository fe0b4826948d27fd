import ClassDiagram.Java.Skeleton

/-! Members that a model has and an existing class lacks. Members are told apart by name only. -/

namespace ClassDiagram.Java

structure Missing where
  fields : List Field
  methods : List Method
  deriving DecidableEq, Repr

namespace Missing

def between (existing model : Class) : Missing where
  fields := model.fields.filter (!existing.hasField ·.name)
  methods := model.methods.filter (!existing.hasMethod ·.name)

def isEmpty (missing : Missing) : Bool :=
  missing.fields.isEmpty && missing.methods.isEmpty

/-- Fields first, then methods, as they would stand in a new file. -/
def lines (signatureOnly : Bool) (missing : Missing) : List String :=
  missing.fields.map fieldText ++ missing.methods.flatMap (methodLines signatureOnly)

end Missing

end ClassDiagram.Java
