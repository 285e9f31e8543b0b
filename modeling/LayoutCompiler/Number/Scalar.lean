import LayoutCompiler.Number.Numeral
import LayoutCompiler.Number.Exact
/-!
# Scalars

What a number type needs to serve as the type of magnitudes: the arithmetic and the order that the
layout rules use, the reading of numerals and an exact view for writing. Everything that computes
with magnitudes is stated over an arbitrary scalar. Programs run with `Float`; laws of geometry
are read over a type whose arithmetic is exact.
-/

namespace LayoutCompiler

/-- A type of magnitudes. -/
class Scalar (α : Type) extends
    Zero α, One α, NatCast α, Add α, Sub α, Neg α, Mul α, Div α, LT α, LE α, BEq α where
  decLt : DecidableLT α
  decLe : DecidableLE α
  /-- The value of a numeral, when the type has one for it. -/
  ofNumeral : Numeral → Option α
  /-- The exact value. -/
  exact : α → Exact

namespace Scalar

variable {α : Type} [Scalar α]

instance : DecidableLT α := decLt

instance : DecidableLE α := decLe

/-- The written form of a magnitude. -/
def text (x : α) : String := (exact x).text

/-- Whether a magnitude is a number. -/
def isFinite (x : α) : Bool :=
  match exact x with
  | .finite .. => true
  | _ => false

/-- The magnitude `n`. -/
def nat (n : Nat) : α := (n : α)

/-- Half of a magnitude. -/
def half (x : α) : α := x / nat 2

/-- The larger of two magnitudes; of a number and no number, the number. -/
def max (x y : α) : α := if x < y then y else if x == x then x else y

/-- The smaller of two magnitudes; of a number and no number, the number. -/
def min (x y : α) : α := if y < x then y else if x == x then x else y

/-- A magnitude without its sign. -/
def abs (x : α) : α := if x < 0 then -x else x

/-- The magnitude that the whole of a text denotes. -/
def read? (s : String) : Option α := (Numeral.read? s).bind ofNumeral

end Scalar

/-! ## Floating point -/

/-- The double nearest to a numeral. Magnitudes far outside the range of the type are decided
without computing the power of ten. -/
def floatOfNumeral : Numeral → Float
  | .decimal negative digits exponent =>
    let size : Float :=
      if digits = 0 then 0.0
      else if 400 < exponent then 1.0 / 0.0
      else if exponent < -(digits.log2 + 401 : Int) then 0.0
      else match exponent with
        | .ofNat e => Float.ofScientific digits false e
        | .negSucc e => Float.ofScientific digits true (e + 1)
    if negative then -size else size
  | .infinite negative => if negative then -1.0 / 0.0 else 1.0 / 0.0
  | .undefined => 0.0 / 0.0

/-- The value of a double, read off its bits: a sign, eleven bits of exponent and fifty-two bits
of fraction. -/
def exactOfFloat (x : Float) : Exact :=
  let bits := x.toBits.toNat
  let negative := bits / Nat.pow 2 63 = 1
  let exponent := bits / Nat.pow 2 52 % Nat.pow 2 11
  let fraction := bits % Nat.pow 2 52
  if exponent = Nat.pow 2 11 - 1 then
    if fraction = 0 then .infinite negative else .undefined
  else
    -- An exponent of zero stands for the least scale without the hidden bit.
    let significand := if exponent = 0 then fraction else Nat.pow 2 52 + fraction
    let scale := Nat.max exponent 1
    .finite negative (significand * Nat.pow 2 (scale - 1075)) (Nat.pow 2 (1075 - scale))

instance : Scalar Float where
  zero := 0.0
  one := 1.0
  natCast := Float.ofNat
  decLt := inferInstance
  decLe := inferInstance
  ofNumeral n := some (floatOfNumeral n)
  exact := exactOfFloat

end LayoutCompiler
