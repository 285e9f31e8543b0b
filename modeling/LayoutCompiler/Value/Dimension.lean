import LayoutCompiler.Number.Scalar
import LayoutCompiler.Text.Blank
import LayoutCompiler.Text.Split
/-!
# Dimensions

Magnitudes with a unit, and the literals that denote them.
-/

namespace LayoutCompiler

/-- The units of lengths: independent of density, scaled with the font, device pixels. -/
inductive LengthUnit where
  | dp
  | sp
  | px
deriving Repr, DecidableEq

/-- The short name of a unit. -/
def LengthUnit.name : LengthUnit → String
  | dp => "dp"
  | sp => "sp"
  | px => "px"

/-- The spellings of units at the end of a literal. -/
def LengthUnit.spellings : List (String × LengthUnit) :=
  [("dip", dp), ("sip", sp), ("dp", dp), ("sp", sp), ("px", px)]

/-- A magnitude with a unit. -/
structure Dimension (α : Type) where
  magnitude : α
  unit : LengthUnit
deriving Repr, DecidableEq

namespace Dimension

variable {α : Type} [Scalar α]

/-- The magnitude of a literal: a sign and digits with at most one point, no power of ten. -/
def magnitude? (cs : List Char) : Option α :=
  let (negative, digits) := Numeral.sign cs
  if digits.all fun c => c.isDigit || c == '.' then
    (Numeral.unsigned? negative digits).bind Scalar.ofNumeral
  else none

/-- The dimension that a literal such as `16dp` denotes. Blanks may stand around the number and
at the end. -/
def read? (text : String) : Option (Dimension α) :=
  let body := Text.trim text
  LengthUnit.spellings.findSome? fun (spelling, unit) =>
    (Text.stripTail? spelling body).bind fun number =>
      (magnitude? (Text.trim number).toList).map fun magnitude => ⟨magnitude, unit⟩

/-- The number that a literal without a unit denotes. Words for values that are no numbers are
not literals. -/
def bare? (text : String) : Option α :=
  let cs := (Text.trim text).toList
  if cs.all (fun c => c.isDigit || c == '+' || c == '-' || c == '.' || c == 'e' || c == 'E') &&
      cs.any Char.isDigit then
    Scalar.read? (String.ofList cs)
  else none

/-- The dimension that a literal denotes; a bare number counts in units independent of density. -/
def literal? (text : String) : Option (Dimension α) :=
  (read? text).or ((bare? text).map fun x => ⟨x, .dp⟩)

/-- The facts about a dimension that templates may ask for. -/
def fact? (d : Dimension α) : String → Option String
  | "number" => some (Scalar.text d.magnitude)
  | "value" => some (Scalar.text d.magnitude)
  | "points" => some (Scalar.text d.magnitude)
  | "unit" => some d.unit.name
  | "css" => some (Scalar.text d.magnitude ++ "px")
  | _ => none

end Dimension

end LayoutCompiler
