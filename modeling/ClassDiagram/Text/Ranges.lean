/-! Sets of characters given as inclusive ranges of code points. -/

namespace ClassDiagram.Text

abbrev Ranges := List (Nat × Nat)

def Ranges.has (ranges : Ranges) (c : Char) : Bool :=
  ranges.any fun (low, high) => low ≤ c.toNat && c.toNat ≤ high

end ClassDiagram.Text
