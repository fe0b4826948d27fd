/-! Spans of time as text, in the largest unit that leaves no empty whole part. -/

namespace ClassDiagram.Command

/-- The digits behind the point of `rest / 10 ^ places`, without zeros at the end. -/
def fractionDigits (places rest : Nat) : List Char :=
  let digits := Nat.toDigits 10 rest
  let padded := List.replicate (places - digits.length) '0' ++ digits
  (padded.reverse.dropWhile (· == '0')).reverse

/-- The decimal `count / 10 ^ places`. -/
def decimal (places count : Nat) : String :=
  let unit := Nat.pow 10 places
  let whole := toString (count / unit)
  match fractionDigits places (count % unit) with
  | [] => whole
  | digits => whole ++ "." ++ String.ofList digits

def elapsed (nanoseconds : Nat) : String :=
  if 1_000_000_000 ≤ nanoseconds then decimal 9 nanoseconds ++ "s"
  else if 1_000_000 ≤ nanoseconds then decimal 6 nanoseconds ++ "ms"
  else if 1_000 ≤ nanoseconds then decimal 3 nanoseconds ++ "µs"
  else decimal 0 nanoseconds ++ "ns"

end ClassDiagram.Command
