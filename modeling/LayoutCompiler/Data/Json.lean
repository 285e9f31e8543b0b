import LayoutCompiler.Data.Datum
import LayoutCompiler.Text.Hex
/-!
# JSON

Reading JSON texts, and writing data as JSON with two blanks of indentation. Values that are read
may be nested up to a fixed depth; values that nobody asks for are passed over, however deep they
are and whatever their escapes stand for.
-/

namespace LayoutCompiler.Json

/-! ## Reading -/

/-- Blanks between tokens. -/
def isBlank (c : Char) : Bool := c == ' ' || c == '\n' || c == '\t' || c == '\r'

/-- The text without the blanks in front of it. -/
def skip (cs : List Char) : List Char := cs.dropWhile isBlank

/-- The character of a simple escape. -/
def simpleEscape? : Char → Option Char
  | '"' => some '"'
  | '\\' => some '\\'
  | '/' => some '/'
  | 'b' => some '\x08'
  | 'f' => some '\x0c'
  | 'n' => some '\n'
  | 'r' => some '\r'
  | 't' => some '\t'
  | _ => none

/-- The character of an escape after the backslash, and what follows it. A high surrogate needs a
low one behind it. -/
def escape? : List Char → Option (Char × List Char)
  | 'u' :: a :: b :: c :: d :: cs => do
    let high ← Text.hexNumber? [a, b, c, d]
    if 0xD800 ≤ high ∧ high < 0xDC00 then
      match cs with
      | '\\' :: 'u' :: a :: b :: c :: d :: cs => do
        let low ← Text.hexNumber? [a, b, c, d]
        if 0xDC00 ≤ low ∧ low < 0xE000 then
          pure (Char.ofNat (0x10000 + (high - 0xD800) * 0x400 + (low - 0xDC00)), cs)
        else none
      | _ => none
    else if 0xDC00 ≤ high ∧ high < 0xE000 then none
    else pure (Char.ofNat high, cs)
  | c :: cs => (simpleEscape? c).map fun d => (d, cs)
  | [] => none

/-- The rest of a string after its opening quote, and what follows it. Each step takes at least one
character. -/
def stringBody? : Nat → List Char → List Char → Option (String × List Char)
  | 0, _, _ => none
  | steps + 1, begun, cs =>
    match cs with
    | [] => none
    | c :: cs =>
      if c = '"' then some (String.ofList begun.reverse, cs)
      else if c = '\\' then (escape? cs).bind fun (d, cs) => stringBody? steps (d :: begun) cs
      else if c.toNat < 0x20 then none
      else stringBody? steps (c :: begun) cs

/-- Digits, at least one, and what follows them. -/
def digits? (cs : List Char) : Option (List Char × List Char) :=
  match cs.takeWhile Char.isDigit with
  | [] => none
  | ds => some (ds, cs.dropWhile Char.isDigit)

/-- A number, and what follows it. -/
def number? (cs : List Char) : Option (Datum × List Char) := do
  let (sign, cs) := match cs with
    | '-' :: cs => (['-'], cs)
    | cs => ([], cs)
  let (whole, cs) ← digits? cs
  if whole.length > 1 ∧ whole.head? = some '0' then none
  let (fraction, cs) ← match cs with
    | '.' :: cs => (digits? cs).map fun (ds, cs) => ('.' :: ds, cs)
    | cs => some ([], cs)
  let (power, cs) ← match cs with
    | e :: cs' =>
      if e = 'e' ∨ e = 'E' then
        let (s, cs') := match cs' with
          | '+' :: cs' => (['+'], cs')
          | '-' :: cs' => (['-'], cs')
          | cs' => ([], cs')
        (digits? cs').map fun (ds, cs') => (e :: s ++ ds, cs')
      else some ([], cs)
    | [] => some ([], cs)
  pure (.number (String.ofList (sign ++ whole ++ fraction ++ power)), cs)

mutual

/-- A value, and what follows it. Each step takes a character or enters a list or table. -/
def value? : Nat → Nat → List Char → Option (Datum × List Char)
  | 0, _, _ => none
  | steps + 1, depth, cs =>
    match skip cs with
    | '"' :: cs => (stringBody? (cs.length + 1) [] cs).map fun (s, cs) => (.string s, cs)
    | '[' :: cs =>
      if depth = 0 then none
      else match skip cs with
        | ']' :: cs => some (.list [], cs)
        | cs => (items? steps (depth - 1) cs).map fun (items, cs) => (.list items, cs)
    | '{' :: cs =>
      if depth = 0 then none
      else match skip cs with
        | '}' :: cs => some (.table [], cs)
        | cs => (entries? steps (depth - 1) cs).map fun (entries, cs) => (.table entries, cs)
    | 't' :: 'r' :: 'u' :: 'e' :: cs => some (.bool true, cs)
    | 'f' :: 'a' :: 'l' :: 's' :: 'e' :: cs => some (.bool false, cs)
    | 'n' :: 'u' :: 'l' :: 'l' :: cs => some (.null, cs)
    | cs => number? cs

/-- The items of a list up to its end. -/
def items? : Nat → Nat → List Char → Option (List Datum × List Char)
  | 0, _, _ => none
  | steps + 1, depth, cs => do
    let (item, cs) ← value? steps depth cs
    match skip cs with
    | ',' :: cs => (items? steps depth cs).map fun (items, cs) => (item :: items, cs)
    | ']' :: cs => pure ([item], cs)
    | _ => none

/-- The entries of a table up to its end. -/
def entries? : Nat → Nat → List Char → Option (List (String × Datum) × List Char)
  | 0, _, _ => none
  | steps + 1, depth, cs =>
    match skip cs with
    | '"' :: cs => do
      let (key, cs) ← stringBody? (cs.length + 1) [] cs
      match skip cs with
      | ':' :: cs => do
        let (value, cs) ← value? steps depth cs
        match skip cs with
        | ',' :: cs =>
          (entries? steps depth cs).map fun (entries, cs) => ((key, value) :: entries, cs)
        | '}' :: cs => pure ([(key, value)], cs)
        | _ => none
      | _ => none
    | _ => none

end

/-- How deeply lists and tables can be nested. -/
def maxDepth : Nat := 127

/-! ## Passing over values -/

/-- What follows the rest of a string that is passed over. Its escapes must have their form, but
surrogates may stand alone. -/
def passString? : List Char → Option (List Char)
  | [] => none
  | '"' :: cs => some cs
  | '\\' :: 'u' :: a :: b :: c :: d :: cs =>
    if (Text.hexNumber? [a, b, c, d]).isSome then passString? cs else none
  | '\\' :: c :: cs => if (simpleEscape? c).isSome then passString? cs else none
  | c :: cs => if c.toNat < 0x20 then none else passString? cs

/-- What is open around a value that is passed over. -/
inductive Enclosure where
  | list
  | table
deriving Repr, DecidableEq

/-- What is expected next where values are passed over. -/
inductive Expected where
  | value
  /-- The key of an entry. -/
  | key
  /-- A comma or the end of what is open. -/
  | ending
deriving Repr, DecidableEq

/-- What follows a value that is passed over, and the ends of all that is open around it, from the
inside out. Each step takes a character, but for the last one. -/
def pass? : Nat → Expected → List Enclosure → List Char → Option (List Char)
  | 0, _, _, _ => none
  | steps + 1, .value, around, cs =>
    match skip cs with
    | '[' :: cs =>
      match skip cs with
      | ']' :: cs => pass? steps .ending around cs
      | cs => pass? steps .value (.list :: around) cs
    | '{' :: cs =>
      match skip cs with
      | '}' :: cs => pass? steps .ending around cs
      | cs => pass? steps .key (.table :: around) cs
    | '"' :: cs =>
      match passString? cs with
      | some cs => pass? steps .ending around cs
      | none => none
    | 't' :: 'r' :: 'u' :: 'e' :: cs => pass? steps .ending around cs
    | 'f' :: 'a' :: 'l' :: 's' :: 'e' :: cs => pass? steps .ending around cs
    | 'n' :: 'u' :: 'l' :: 'l' :: cs => pass? steps .ending around cs
    | cs =>
      match number? cs with
      | some (_, cs) => pass? steps .ending around cs
      | none => none
  | steps + 1, .key, around, cs =>
    match skip cs with
    | '"' :: cs =>
      match (passString? cs).map skip with
      | some (':' :: cs) => pass? steps .value around cs
      | _ => none
    | _ => none
  | _ + 1, .ending, [], cs => some cs
  | steps + 1, .ending, .list :: around, cs =>
    match skip cs with
    | ',' :: cs => pass? steps .value (.list :: around) cs
    | ']' :: cs => pass? steps .ending around cs
    | _ => none
  | steps + 1, .ending, .table :: around, cs =>
    match skip cs with
    | ',' :: cs => pass? steps .key (.table :: around) cs
    | '}' :: cs => pass? steps .ending around cs
    | _ => none

/-- The entries of the outermost table up to its end, with only the values at these keys. Each step
takes an entry. -/
def chosenEntries? (keys : List String) :
    Nat → List Char → Option (List (String × Datum) × List Char)
  | 0, _ => none
  | steps + 1, cs =>
    match skip cs with
    | '"' :: cs => do
      let (key, cs) ← stringBody? (cs.length + 1) [] cs
      let ':' :: cs := skip cs | none
      let (entry, cs) ←
        if keys.contains key then
          (value? (2 * cs.length + 2) (maxDepth - 1) cs).map fun (value, cs) =>
            ([(key, value)], cs)
        else (pass? (cs.length + 1) .value [] cs).map fun cs => ([], cs)
      match skip cs with
      | ',' :: cs =>
        (chosenEntries? keys steps cs).map fun (entries, cs) => (entry ++ entries, cs)
      | '}' :: cs => pure (entry, cs)
      | _ => none
    | _ => none

/-! ## Whole texts -/

/-- The data that was read, when nothing but blanks follows it. -/
def complete? : Datum × List Char → Option Datum
  | (datum, rest) => if (skip rest).isEmpty then some datum else none

/-- The data that the whole of a text stands for. -/
def read? (text : String) : Option Datum :=
  let cs := text.toList
  (value? (2 * cs.length + 2) maxDepth cs).bind complete?

/-- The data that the whole of a text stands for, when it is a table, without the entries at other
keys, which are passed over. -/
def readOnly? (keys : List String) (text : String) : Option Datum :=
  match skip text.toList with
  | '{' :: cs =>
    match skip cs with
    | '}' :: cs => complete? (.table [], cs)
    | cs => (chosenEntries? keys (cs.length + 1) cs).bind fun (entries, cs) =>
      complete? (.table entries, cs)
  | _ => read? text

/-! ## Writing -/

/-- A character of a string as it is written. -/
def escapeChar (c : Char) : List Char :=
  if c = '"' then ['\\', '"']
  else if c = '\\' then ['\\', '\\']
  else if c = '\x08' then ['\\', 'b']
  else if c = '\x0c' then ['\\', 'f']
  else if c = '\n' then ['\\', 'n']
  else if c = '\r' then ['\\', 'r']
  else if c = '\t' then ['\\', 't']
  else if c.toNat < 0x20 then
    ['\\', 'u', '0', '0', Text.lowerHexDigit (c.toNat / 16), Text.lowerHexDigit (c.toNat % 16)]
  else [c]

/-- A string as it is written. -/
def quoted (s : String) : String := "\"" ++ String.ofList (s.toList.flatMap escapeChar) ++ "\""

/-- The beginning of a line at a depth. -/
def newLine (depth : Nat) : String := "\n" ++ String.ofList (List.replicate (2 * depth) ' ')

mutual

/-- Data as it is written, inside so many lists and tables. -/
def written (depth : Nat) : Datum → String
  | .null => "null"
  | .bool b => if b then "true" else "false"
  | .number text => text
  | .string s => quoted s
  | .moment m => quoted m.text
  | .list [] => "[]"
  | .list (item :: items) =>
    "[" ++ newLine (depth + 1) ++ written (depth + 1) item ++ writtenItems (depth + 1) items ++
      newLine depth ++ "]"
  | .table [] => "\x7b\x7d"
  | .table ((key, value) :: entries) =>
    "\x7b" ++ newLine (depth + 1) ++ quoted key ++ ": " ++ written (depth + 1) value ++
      writtenEntries (depth + 1) entries ++ newLine depth ++ "\x7d"

/-- The items of a list after the first one. -/
def writtenItems (depth : Nat) : List Datum → String
  | [] => ""
  | item :: items =>
    "," ++ newLine depth ++ written depth item ++ writtenItems depth items

/-- The entries of a table after the first one. -/
def writtenEntries (depth : Nat) : List (String × Datum) → String
  | [] => ""
  | (key, value) :: entries =>
    "," ++ newLine depth ++ quoted key ++ ": " ++ written depth value ++
      writtenEntries depth entries

end

/-- The text of data, over several lines. -/
def write (d : Datum) : String := written 0 d

end LayoutCompiler.Json
