import LayoutCompiler.Number.Exact
import LayoutCompiler.Text.Hex
import LayoutCompiler.Text.Split
/-!
# Colors

Colors of four eight-bit channels: the notations that layouts use, with alpha in front, and the
notations that are written, with alpha at the end.
-/

namespace LayoutCompiler

/-- A color with four eight-bit channels. -/
structure Color where
  red : UInt8
  green : UInt8
  blue : UInt8
  alpha : UInt8
deriving Repr, DecidableEq, Inhabited

namespace Color

/-- The channel of one hexadecimal digit, which is doubled. -/
def nibble (n : Nat) : UInt8 := (n * 17).toUInt8

/-- The channel of two hexadecimal digits. -/
def byte (high low : Nat) : UInt8 := (high * 16 + low).toUInt8

/-- The color of the digits of `RGB`, `ARGB`, `RRGGBB` or `AARRGGBB`. -/
def ofDigits? : List Nat → Option Color
  | [r, g, b] => some ⟨nibble r, nibble g, nibble b, 255⟩
  | [a, r, g, b] => some ⟨nibble r, nibble g, nibble b, nibble a⟩
  | [r, r', g, g', b, b'] => some ⟨byte r r', byte g g', byte b b', 255⟩
  | [a, a', r, r', g, g', b, b'] => some ⟨byte r r', byte g g', byte b b', byte a a'⟩
  | _ => none

/-- The color that a literal such as `#FF0000` denotes. -/
def read? (text : String) : Option Color :=
  match text.toList with
  | '#' :: cs => (cs.mapM Text.hexValue?).bind ofDigits?
  | _ => none

/-- The two digits of a channel. -/
def channel (x : UInt8) : List Char :=
  [Text.upperHexDigit (x.toNat / 16), Text.upperHexDigit (x.toNat % 16)]

/-- `#RRGGBB`, with the two digits of alpha behind unless the color is opaque. -/
def hex (c : Color) : String :=
  let digits := channel c.red ++ channel c.green ++ channel c.blue
  String.ofList ('#' :: (digits ++ if c.alpha = 255 then [] else channel c.alpha))

/-- A channel as a share of the largest one. -/
def share (x : UInt8) : String := (Exact.finite false x.toNat 255).text

/-- The notation of style sheets. -/
def css (c : Color) : String :=
  if c.alpha = 255 then c.hex
  else
    let channels := Text.join ", "
      [toString c.red, toString c.green, toString c.blue, share c.alpha]
    "rgba(" ++ channels ++ ")"

/-- The facts about a color that templates may ask for. -/
def fact? (c : Color) : String → Option String
  | "red" => some (share c.red)
  | "green" => some (share c.green)
  | "blue" => some (share c.blue)
  | "alpha" => some (share c.alpha)
  | "hex" => some c.hex
  | "css" => some c.css
  | "web" => some c.css
  | _ => none

/-- The colors of the platform that layouts may name. -/
def platform? : String → Option Color
  | "black" => read? "#000000"
  | "white" => read? "#FFFFFF"
  | "transparent" => read? "#00000000"
  | "darker_gray" => read? "#AAAAAA"
  | "background_dark" => read? "#000000"
  | "background_light" => read? "#FFFFFF"
  | "holo_blue_light" => read? "#33B5E5"
  | "holo_blue_dark" => read? "#0099CC"
  | "holo_green_light" => read? "#99CC00"
  | "holo_red_light" => read? "#FF4444"
  | "holo_orange_light" => read? "#FFBB33"
  | _ => none

end Color

end LayoutCompiler
