import LayoutCompiler.Data.Datum
import LayoutCompiler.Number.Numeral
import LayoutCompiler.Text.Hex
/-!
# Tokens of TOML

Strings, keys, numbers and moments: what a TOML document is made of below its tables. Every reader
takes a list of characters and hands back what it read and what follows.
-/

namespace LayoutCompiler.Toml

/-- Blanks within a line. -/
def isBlank (c : Char) : Bool := c == ' ' || c == '\t'

/-- The text without the blanks in front of it. -/
def skip (cs : List Char) : List Char := cs.dropWhile isBlank

/-- Whether a character can stand in strings and comments by itself: anything but control
characters, of which only the tab is allowed. -/
def isPlain (c : Char) : Bool :=
  let n := c.toNat
  n == 9 || (0x20 ≤ n && n != 0x7F)

/-- What follows a line break, if there is one. -/
def newline? : List Char → Option (List Char)
  | '\n' :: cs => some cs
  | '\r' :: '\n' :: cs => some cs
  | _ => none

/-- What follows a comment, if there is one; it ends before the line break. -/
def comment (cs : List Char) : List Char :=
  match cs with
  | '#' :: cs => cs.dropWhile isPlain
  | cs => cs

/-! ## Strings -/

/-- The character with a code of so many digits, and what follows it. -/
def codePoint? (count : Nat) (cs : List Char) : Option (Char × List Char) := do
  if cs.length < count then none
  let code ← Text.hexNumber? (cs.take count)
  if h : code.isValidChar then some (Char.ofNatAux code h, cs.drop count) else none

/-- The character of an escape after the backslash, and what follows it. -/
def escape? : List Char → Option (Char × List Char)
  | 'b' :: cs => some ('\x08', cs)
  | 't' :: cs => some ('\t', cs)
  | 'n' :: cs => some ('\n', cs)
  | 'f' :: cs => some ('\x0c', cs)
  | 'r' :: cs => some ('\r', cs)
  | '"' :: cs => some ('"', cs)
  | '\\' :: cs => some ('\\', cs)
  | 'u' :: cs => codePoint? 4 cs
  | 'U' :: cs => codePoint? 8 cs
  | _ => none

/-- The rest of a quoted string on one line. Each step takes a character. -/
def basic? : Nat → List Char → List Char → Option (String × List Char)
  | 0, _, _ => none
  | steps + 1, begun, cs =>
    match cs with
    | [] => none
    | c :: cs =>
      if c = '"' then some (String.ofList begun.reverse, cs)
      else if c = '\\' then (escape? cs).bind fun (d, cs) => basic? steps (d :: begun) cs
      else if isPlain c then basic? steps (c :: begun) cs
      else none

/-- The rest of a literal string on one line. -/
def literal? (cs : List Char) : Option (String × List Char) :=
  let body := cs.takeWhile fun c => c != '\'' && isPlain c
  match cs.drop body.length with
  | '\'' :: rest => some (String.ofList body, rest)
  | _ => none

/-- What follows a line break and all white space after it. -/
def dropLines : Nat → List Char → List Char
  | 0, cs => cs
  | steps + 1, cs =>
    let cs := skip cs
    match newline? cs with
    | some cs => dropLines steps cs
    | none => cs

/-- The end of a string over several lines: up to two quotes before the three that close it belong
to it. -/
def closing (quote : Char) (begun cs : List Char) : Option (String × List Char) :=
  let extra := (cs.takeWhile (· == quote)).length
  if extra ≤ 2 then
    some (String.ofList (begun.reverse ++ List.replicate extra quote), cs.drop extra)
  else none

/-- The rest of a quoted string over several lines. A backslash at the end of a line drops the
break and the white space after it. -/
def basicLines? : Nat → List Char → List Char → Option (String × List Char)
  | 0, _, _ => none
  | steps + 1, begun, cs =>
    match cs with
    | '"' :: '"' :: '"' :: cs => closing '"' begun cs
    | '\\' :: cs =>
      match newline? (skip cs) with
      | some _ => basicLines? steps begun (dropLines cs.length cs)
      | none => (escape? cs).bind fun (d, cs) => basicLines? steps (d :: begun) cs
    | c :: cs' =>
      match newline? cs with
      | some cs => basicLines? steps ('\n' :: begun) cs
      | none => if isPlain c then basicLines? steps (c :: begun) cs' else none
    | [] => none

/-- The rest of a literal string over several lines. -/
def literalLines? : Nat → List Char → List Char → Option (String × List Char)
  | 0, _, _ => none
  | steps + 1, begun, cs =>
    match cs with
    | '\'' :: '\'' :: '\'' :: cs => closing '\'' begun cs
    | c :: cs' =>
      match newline? cs with
      | some cs => literalLines? steps ('\n' :: begun) cs
      | none => if isPlain c then literalLines? steps (c :: begun) cs' else none
    | [] => none

/-- The text after a line break that follows directly. -/
def afterBreak (cs : List Char) : List Char := (newline? cs).getD cs

/-- A string of any form, and what follows it. -/
def string? (cs : List Char) : Option (String × List Char) :=
  let steps := cs.length + 1
  match cs with
  | '"' :: '"' :: '"' :: cs => basicLines? steps [] (afterBreak cs)
  | '"' :: cs => basic? steps [] cs
  | '\'' :: '\'' :: '\'' :: cs => literalLines? steps [] (afterBreak cs)
  | '\'' :: cs => literal? cs
  | _ => none

/-! ## Keys -/

/-- Whether a character can stand in a key without quotes. -/
def isBare (c : Char) : Bool := c.isAlphanum || c == '_' || c == '-'

/-- One key, and what follows it. -/
def simpleKey? (cs : List Char) : Option (String × List Char) :=
  match cs with
  | '"' :: cs => basic? (cs.length + 1) [] cs
  | '\'' :: cs => literal? cs
  | cs =>
    match cs.takeWhile isBare with
    | [] => none
    | key => some (String.ofList key, cs.dropWhile isBare)

/-- How deeply values can be nested, and how many keys there can be with points between them. -/
def maxDepth : Nat := 79

/-- At most so many keys with points between them, and what follows them. -/
def keys? : Nat → List Char → Option (List String × List Char)
  | 0, _ => none
  | levels + 1, cs => do
    let (key, cs) ← simpleKey? (skip cs)
    match skip cs with
    | '.' :: rest => (keys? levels rest).map fun (keys, cs) => (key :: keys, cs)
    | cs => pure ([key], cs)

/-- A key with points, and what follows it. -/
def key? (cs : List Char) : Option (List String × List Char) := keys? maxDepth cs

/-! ## Numbers -/

/-- Whether a text is digits of a kind, with single underscores only between them. -/
def isDigits (isDigit : Char → Bool) : List Char → Bool
  | [] => false
  | [c] => isDigit c
  | '_' :: _ => false
  | c :: '_' :: d :: cs => isDigit c && isDigits isDigit (d :: cs)
  | c :: d :: cs => isDigit c && isDigits isDigit (d :: cs)

/-- The digits of a text without its underscores, when it is digits in a base. -/
def digitsIn? (isDigit : Char → Bool) (cs : List Char) : Option (List Char) :=
  if isDigits isDigit cs then some (cs.filter (· != '_')) else none

/-- Whether a number fits into sixty-four bits with a sign. -/
def fits (negative : Bool) (n : Nat) : Bool :=
  if negative then n ≤ Nat.pow 2 63 else n < Nat.pow 2 63

/-- The number of digits in a base up to sixteen. -/
def numberIn (base : Nat) (cs : List Char) : Nat :=
  cs.foldl (fun n c => n * base + ((Text.hexValue? c).getD 0)) 0

/-- Whether a text without sign is a whole number in decimal digits, not beginning with zero. -/
def isDecimal (cs : List Char) : Bool :=
  isDigits Char.isDigit cs && (cs.length == 1 || cs.head? != some '0')

/-- Whether a text is a whole number. -/
def isInteger (cs : List Char) : Bool :=
  match cs with
  | '0' :: 'x' :: ds =>
    ((digitsIn? (fun c => (Text.hexValue? c).isSome) ds).map fun ds =>
      fits false (numberIn 16 ds)).getD false
  | '0' :: 'o' :: ds =>
    ((digitsIn? (fun c => '0' ≤ c && c ≤ '7') ds).map fun ds =>
      fits false (numberIn 8 ds)).getD false
  | '0' :: 'b' :: ds =>
    ((digitsIn? (fun c => c == '0' || c == '1') ds).map fun ds =>
      fits false (numberIn 2 ds)).getD false
  | cs =>
    let (negative, ds) := Numeral.sign cs
    isDecimal ds && fits negative (numberIn 10 (ds.filter (· != '_')))

/-- Whether a text is a power of ten at the end of a number. -/
def isPower (cs : List Char) : Bool :=
  match cs with
  | c :: cs => (c == 'e' || c == 'E') && isDigits Char.isDigit (Numeral.sign cs).2
  | [] => false

/-- Whether a text without sign is a number with a fraction, a power or both. -/
def isFractional (cs : List Char) : Bool :=
  let isDigitOr (c : Char) : Bool := c.isDigit || c == '_'
  isDecimal (cs.takeWhile isDigitOr) &&
    match cs.dropWhile isDigitOr with
    | '.' :: rest =>
      isDigits Char.isDigit (rest.takeWhile isDigitOr) &&
        (let power := rest.dropWhile isDigitOr; power.isEmpty || isPower power)
    | power => isPower power

/-- Whether a text is a number with a fraction or a power, or one of the words for values that are
no numbers. A positive number must be one that a double can hold; a negative one beyond that is
taken for the infinite one. -/
def isFloat (cs : List Char) : Bool :=
  let (negative, ds) := Numeral.sign cs
  ds == ['i', 'n', 'f'] || ds == ['n', 'a', 'n'] ||
    isFractional ds &&
      (negative || (Numeral.unsigned? negative (ds.filter (· != '_'))).any Numeral.isHeld)

/-! ## Moments -/

/-- The number of exactly so many digits, and what follows them. -/
def fixed? (count : Nat) (cs : List Char) : Option (Nat × List Char) :=
  let ds := cs.take count
  if ds.length = count ∧ ds.all Char.isDigit then some (Numeral.ofDigits ds, cs.drop count)
  else none

/-- A day that exists, and what follows it. -/
def day? (cs : List Char) : Option (CalendarDay × List Char) := do
  let (year, cs) ← fixed? 4 cs
  let '-' :: cs := cs | none
  let (month, cs) ← fixed? 2 cs
  let '-' :: cs := cs | none
  let (day, cs) ← fixed? 2 cs
  let d : CalendarDay := { year, month, day }
  if d.Valid then some (d, cs) else none

/-- The billionths that the digits of a fraction stand for; digits after the ninth do not count. -/
def nanoseconds (ds : List Char) : Nat :=
  Numeral.ofDigits ((ds ++ List.replicate 9 '0').take 9)

/-- A time of day that exists, and what follows it. -/
def timeOfDay? (cs : List Char) : Option (TimeOfDay × List Char) := do
  let (hour, cs) ← fixed? 2 cs
  let ':' :: cs := cs | none
  let (minute, cs) ← fixed? 2 cs
  let ':' :: cs := cs | none
  let (second, cs) ← fixed? 2 cs
  let (fraction, cs) := match cs with
    | '.' :: rest =>
      match rest.takeWhile Char.isDigit with
      | [] => ([], cs)
      | ds => (ds, rest.drop ds.length)
    | cs => ([], cs)
  let t : TimeOfDay := { hour, minute, second, nanosecond := nanoseconds fraction }
  if t.Valid then some (t, cs) else none

/-- A zone as hours and minutes, and what follows it. -/
def offset? : List Char → Option (TimeZone × List Char)
  | [] => none
  | sign :: cs => do
    if sign ≠ '+' ∧ sign ≠ '-' then none
    let (hour, cs) ← fixed? 2 cs
    let ':' :: cs := cs | none
    let (minute, cs) ← fixed? 2 cs
    let size : Int := (60 * hour + minute : Nat)
    if hour ≤ 23 ∧ minute ≤ 59 then some (.offset (if sign = '-' then -size else size), cs)
    else none

/-- A zone, which may be missing, and what follows it. -/
def zone (cs : List Char) : Option TimeZone × List Char :=
  match cs with
  | 'Z' :: cs | 'z' :: cs => (some .universal, cs)
  | cs =>
    match offset? cs with
    | some (z, cs) => (some z, cs)
    | none => (none, cs)

/-- The time of day after a day, with its zone, and what follows them. -/
def timeAfterDay? (cs : List Char) : Option (TimeOfDay × Option TimeZone × List Char) :=
  match cs with
  | c :: cs =>
    if c = 'T' ∨ c = 't' ∨ c = ' ' then
      (timeOfDay? cs).map fun (t, cs) => (t, zone cs)
    else none
  | [] => none

/-- A day, a time or both, and what follows. -/
def moment? (cs : List Char) : Option (Moment × List Char) :=
  match day? cs with
  | some (d, cs) =>
    match timeAfterDay? cs with
    | some (t, z, cs) => some (.both d t z, cs)
    | none => some (.day d, cs)
  | none => (timeOfDay? cs).map fun (t, cs) => (.time t, cs)

/-- A number, a truth value or a moment, and what follows it. -/
def scalar? (cs : List Char) : Option (Datum × List Char) :=
  let isWord (c : Char) : Bool := c.isAlphanum || c == '_' || c == '+' || c == '-' || c == '.'
  let word := cs.takeWhile isWord
  let rest := cs.dropWhile isWord
  match moment? cs with
  | some (m, rest) => some (.moment m, rest)
  | none =>
    if word == ['t', 'r', 'u', 'e'] then some (.bool true, rest)
    else if word == ['f', 'a', 'l', 's', 'e'] then some (.bool false, rest)
    else if isInteger word || isFloat word then some (.number (String.ofList word), rest)
    else none

end LayoutCompiler.Toml
