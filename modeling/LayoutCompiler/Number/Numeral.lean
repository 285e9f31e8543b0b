/-!
# Numerals

The texts that stand for a floating-point number: an optional sign, decimal digits with at most
one point, an optional power of ten, or one of the words for the values that are no number.
-/

namespace LayoutCompiler

/-- What a numeral denotes: `digits · 10 ^ exponent`, an infinity, or no number. -/
inductive Numeral where
  | decimal (negative : Bool) (digits : Nat) (exponent : Int)
  | infinite (negative : Bool)
  | undefined
deriving Repr, DecidableEq

namespace Numeral

/-- The number that a row of decimal digits stands for. -/
def ofDigits (cs : List Char) : Nat := cs.foldl (fun n c => 10 * n + (c.toNat - '0'.toNat)) 0

/-- A leading sign, and what follows it. -/
def sign : List Char → Bool × List Char
  | '+' :: cs => (false, cs)
  | '-' :: cs => (true, cs)
  | cs => (false, cs)

/-- The power of ten at the end of a numeral; nothing stands for the power zero. -/
def power? : List Char → Option Int
  | [] => some 0
  | c :: cs =>
    if c = 'e' ∨ c = 'E' then
      let (negative, digits) := sign cs
      if !digits.isEmpty && digits.all Char.isDigit then
        some (if negative then -(ofDigits digits : Int) else (ofDigits digits : Int))
      else none
    else none

/-- An unsigned numeral. -/
def unsigned? (negative : Bool) (cs : List Char) : Option Numeral :=
  let whole := cs.takeWhile Char.isDigit
  let rest := cs.dropWhile Char.isDigit
  let (fraction, rest) := match rest with
    | '.' :: rest => (rest.takeWhile Char.isDigit, rest.dropWhile Char.isDigit)
    | rest => ([], rest)
  if whole.isEmpty && fraction.isEmpty then none
  else (power? rest).map fun power =>
    .decimal negative (ofDigits (whole ++ fraction)) (power - fraction.length)

/-- The least magnitude that rounds to an infinite double: it lies half a step above the largest
one. -/
def overflow : Nat := Nat.pow 2 1024 - Nat.pow 2 970

/-- Whether the nearest double is finite. Magnitudes far outside the range of doubles are decided
without computing the power of ten. -/
def isHeld : Numeral → Bool
  | decimal _ digits exponent =>
    if digits = 0 ∨ exponent < -(digits.log2 : Int) then true
    else if 400 < exponent then false
    else match exponent with
      | .ofNat e => digits * Nat.pow 10 e < overflow
      | .negSucc e => digits < overflow * Nat.pow 10 (e + 1)
  | _ => false

/-- The numeral that the whole of a text is, if it is one. -/
def read? (text : String) : Option Numeral :=
  let (negative, cs) := sign text.toList
  let word := String.ofList (cs.map Char.toLower)
  if word = "inf" ∨ word = "infinity" then some (.infinite negative)
  else if word = "nan" then some .undefined
  else unsigned? negative cs

end Numeral

end LayoutCompiler
