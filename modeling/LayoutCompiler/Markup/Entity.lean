import LayoutCompiler.Text.Hex
import LayoutCompiler.Text.Split
/-!
# Character references

The five named entities and numeric references of markup, and the escaping of the characters that
have a name.

* `decode_escape`: decoding an escaped text gives the text back.
-/

namespace LayoutCompiler.Markup

/-- The characters with a name. -/
def named? : List Char → Option Char
  | ['a', 'm', 'p'] => some '&'
  | ['l', 't'] => some '<'
  | ['g', 't'] => some '>'
  | ['q', 'u', 'o', 't'] => some '"'
  | ['a', 'p', 'o', 's'] => some '\''
  | _ => none

/-- The number of a row of digits in a base; no digits are zero. -/
def number? (base : Nat) (cs : List Char) : Option Nat :=
  cs.foldlM (fun n c =>
    (Text.hexValue? c).bind fun d => if d < base then some (n * base + d) else none) 0

/-- The character with a code point; none for zero and for what is no scalar value. -/
def ofCode? (code : Nat) : Option Char :=
  if code = 0 then none
  else if h : code.isValidChar then some (Char.ofNatAux code h) else none

/-- The character of a reference, given what stands between `&` and `;`. A hexadecimal code has
at most six digits, a decimal one at most seven. -/
def reference? : List Char → Option Char
  | '#' :: 'x' :: digits =>
    if digits.length ≤ 6 then (number? 16 digits).bind ofCode? else none
  | '#' :: digits => if digits.length ≤ 7 then (number? 10 digits).bind ofCode? else none
  | name => named? name

mutual

/-- The text that a text with references denotes. -/
def decode : List Char → Option (List Char)
  | [] => some []
  | c :: cs => if c = '&' then decodeReference [] cs else (decode cs).map (c :: ·)

/-- The same after the beginning of a reference, of which the last character comes first. -/
def decodeReference (begun : List Char) : List Char → Option (List Char)
  | [] => none
  | c :: cs =>
    if c = ';' then
      match reference? begun.reverse with
      | some d => (decode cs).map (d :: ·)
      | none => none
    else if c = '&' then none
    else decodeReference (c :: begun) cs

end

/-- A character as it is written: by its name if it has one. -/
def escapeChar (c : Char) : List Char :=
  if c = '&' then "&amp;".toList
  else if c = '<' then "&lt;".toList
  else if c = '>' then "&gt;".toList
  else if c = '"' then "&quot;".toList
  else if c = '\'' then "&apos;".toList
  else [c]

/-- A text as it is written. -/
def escapeChars (cs : List Char) : List Char := cs.flatMap escapeChar

/-- `escapeChars` on strings. -/
def escape (s : String) : String := String.ofList (escapeChars s.toList)

theorem decode_escapeChar_append (c : Char) (cs : List Char) :
    decode (escapeChar c ++ cs) = (decode cs).map (c :: ·) := by
  unfold escapeChar
  split
  · subst_vars; simp [decode, decodeReference, reference?, named?]
  split
  · subst_vars; simp [decode, decodeReference, reference?, named?]
  split
  · subst_vars; simp [decode, decodeReference, reference?, named?]
  split
  · subst_vars; simp [decode, decodeReference, reference?, named?]
  split
  · subst_vars; simp [decode, decodeReference, reference?, named?]
  · simp [decode, *]

/-- Decoding undoes escaping. -/
theorem decode_escape (cs : List Char) : decode (escapeChars cs) = some cs := by
  induction cs with
  | nil => rfl
  | cons c cs ih =>
    show decode (escapeChar c ++ escapeChars cs) = some (c :: cs)
    rw [decode_escapeChar_append, ih]
    rfl

end LayoutCompiler.Markup
