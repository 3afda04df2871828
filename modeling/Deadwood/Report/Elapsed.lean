/-
  How long something took, in words for people.

  The unit is the greatest one of which a whole number has passed; two places are written and a
  half is rounded up.
-/

namespace Deadwood.Report

/-- A number of units with two places, where `unit` is the number of nanoseconds of one. -/
def hundredths (nanoseconds unit : Nat) : String :=
  let n := (200 * nanoseconds + unit) / (2 * unit)
  let places := toString (n % 100)
  s!"{n / 100}." ++ (if places.length = 1 then "0" ++ places else places)

/-- How long something took. -/
def elapsedText (nanoseconds : Nat) : String :=
  if 1000000000 ≤ nanoseconds then hundredths nanoseconds 1000000000 ++ "s"
  else if 1000000 ≤ nanoseconds then hundredths nanoseconds 1000000 ++ "ms"
  else if 1000 ≤ nanoseconds then hundredths nanoseconds 1000 ++ "µs"
  else hundredths nanoseconds 1 ++ "ns"

example : elapsedText 12345678 = "12.35ms" := by decide +kernel
example : elapsedText 1005 = "1.01µs" := by decide +kernel

end Deadwood.Report
