/-! Members of a class. Types are the texts by which the source names them; nothing is resolved. -/

namespace ClassDiagram

structure Field where
  name : String
  type : String
  isPrivate : Bool := false
  deriving DecidableEq, Repr, Inhabited

structure Parameter where
  name : String
  type : String
  deriving DecidableEq, Repr, Inhabited

/-- The return type of a method that returns nothing is the text `void`. -/
structure Method where
  name : String
  returnType : String
  parameters : List Parameter := []
  isPrivate : Bool := false
  deriving DecidableEq, Repr, Inhabited

def Method.returnsVoid (method : Method) : Bool :=
  method.returnType == "void"

end ClassDiagram
