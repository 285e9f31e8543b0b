/-!
# Exact magnitudes and their text

A magnitude as a quotient of whole numbers, and the one way numbers are written: at most six
decimal places, a tie going to the even neighbour, without zeros at the end of the fraction and
without a point that nothing follows.

* `roundDiv_spec`: the rounded quotient is within half a unit of the exact one.
-/

namespace LayoutCompiler

/-- An exact magnitude, `numerator / denominator` with a sign, or a value that is no number. -/
inductive Exact where
  | finite (negative : Bool) (numerator denominator : Nat)
  | infinite (negative : Bool)
  | undefined
deriving Repr, DecidableEq

namespace Exact

/-- The whole number nearest to a quotient; of two equally near ones the even one. -/
def roundDiv (numerator denominator : Nat) : Nat :=
  let q := numerator / denominator
  let r := numerator % denominator
  if 2 * r < denominator then q
  else if 2 * r = denominator then q + q % 2
  else q + 1

theorem roundDiv_spec (n : Nat) {d : Nat} (h : 0 < d) :
    2 * n ≤ 2 * (roundDiv n d * d) + d ∧ 2 * (roundDiv n d * d) ≤ 2 * n + d := by
  have key := Nat.div_add_mod n d
  have lt := Nat.mod_lt n h
  have comm : n / d * d = d * (n / d) := Nat.mul_comm _ _
  have step : (n / d + 1) * d = d * (n / d) + d := by rw [Nat.add_mul, Nat.mul_comm]; omega
  unfold roundDiv
  simp only
  split
  · omega
  · split
    · rcases Nat.mod_two_eq_zero_or_one (n / d) with e | e <;> rw [e]
      · simp only [Nat.add_zero]; omega
      · omega
    · omega

/-- The digits of a number below `10 ^ places`, with zeros in front to make up the places. -/
def padded (places n : Nat) : List Char :=
  let digits := (toString n).toList
  List.replicate (places - digits.length) '0' ++ digits

/-- The list without the zeros at its end. -/
def dropZeros (cs : List Char) : List Char := (cs.reverse.dropWhile (· == '0')).reverse

/-- How many decimal places are written at most. -/
def places : Nat := 6

/-- A non-negative number of millionths. -/
def millionths (n : Nat) : String :=
  let whole := toString (n / Nat.pow 10 places)
  match dropZeros (padded places (n % Nat.pow 10 places)) with
  | [] => whole
  | fraction => whole ++ "." ++ String.ofList fraction

/-- The written form of a magnitude. A negative one keeps its sign even when it rounds to zero;
only zero itself has none. -/
def text : Exact → String
  | finite negative numerator denominator =>
    let digits := millionths (roundDiv (numerator * Nat.pow 10 places) denominator)
    if negative && numerator != 0 then "-" ++ digits else digits
  | infinite negative => if negative then "-inf" else "inf"
  | undefined => "NaN"

/-- The written form with a fixed number of decimal places, at least one. -/
def fixedText (places : Nat) : Exact → String
  | finite negative numerator denominator =>
    let units := roundDiv (numerator * Nat.pow 10 places) denominator
    let digits := toString (units / Nat.pow 10 places) ++ "." ++
      String.ofList (padded places (units % Nat.pow 10 places))
    if negative then "-" ++ digits else digits
  | infinite negative => if negative then "-inf" else "inf"
  | undefined => "NaN"

end Exact

end LayoutCompiler
