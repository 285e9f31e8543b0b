/-!
# Cutting text

Leads, tails and separators, stated on lists of characters and lifted to strings.

* `joinWith_cut`: cutting at a separator and joining with it gives the text back.
-/

namespace LayoutCompiler.Text

/-- What follows the lead, when the text begins with it. -/
def stripLead? (lead text : String) : Option String :=
  (lead.toList.isPrefixOf? text.toList).map String.ofList

/-- What precedes the tail, when the text ends with it. -/
def stripTail? (tail text : String) : Option String :=
  (tail.toList.reverse.isPrefixOf? text.toList.reverse).map fun cs => String.ofList cs.reverse

/-- Whether the text begins with the lead. -/
def leads (lead text : String) : Bool := (stripLead? lead text).isSome

/-- Whether the text ends with the tail. -/
def ends (tail text : String) : Bool := (stripTail? tail text).isSome

/-- The text without any number of leading copies of a character. -/
def dropLeading (c : Char) (text : String) : String :=
  String.ofList (text.toList.dropWhile (· == c))

/-- The pieces between the characters that separate; one more piece than separators. -/
def cut (separates : Char → Bool) : List Char → List (List Char)
  | [] => [[]]
  | c :: cs =>
    if separates c then [] :: cut separates cs
    else match cut separates cs with
      | [] => [[c]]
      | piece :: pieces => (c :: piece) :: pieces

/-- The pieces of a text between the occurrences of a character. -/
def split (separator : Char) (text : String) : List String :=
  (cut (· == separator) text.toList).map String.ofList

/-- What stands before and after the first occurrence of a character. -/
def cutOnce (separator : Char) : List Char → Option (List Char × List Char)
  | [] => none
  | c :: cs =>
    if c = separator then some ([], cs)
    else (cutOnce separator cs).map fun (before, after) => (c :: before, after)

/-- `cutOnce` on strings. -/
def splitOnce (separator : Char) (text : String) : Option (String × String) :=
  (cutOnce separator text.toList).map fun (before, after) =>
    (String.ofList before, String.ofList after)

/-- What stands before and after the last occurrence of a character. -/
def cutLast (separator : Char) (cs : List Char) : Option (List Char × List Char) :=
  (cutOnce separator cs.reverse).map fun (after, before) => (before.reverse, after.reverse)

/-- `cutLast` on strings. -/
def splitLast (separator : Char) (text : String) : Option (String × String) :=
  (cutLast separator text.toList).map fun (before, after) =>
    (String.ofList before, String.ofList after)

/-- The text of several lines, each with a line feed behind it. -/
def lines (texts : List String) : String := String.join (texts.map fun text => text ++ "\n")

/-- The texts one after another with a separator between neighbours. -/
def join (separator : String) (texts : List String) : String := String.intercalate separator texts

/-- The text with every occurrence of a character replaced. -/
def replace (c : Char) (replacement : String) (text : String) : String :=
  String.ofList (text.toList.flatMap fun d => if d = c then replacement.toList else [d])

/-- Whether the character occurs in the text. -/
def holds (c : Char) (text : String) : Bool := text.toList.contains c

/-! ## Pieces -/

theorem cut_ne_nil (separates : Char → Bool) (cs : List Char) : cut separates cs ≠ [] := by
  cases cs with
  | nil => simp [cut]
  | cons c cs =>
    simp only [cut]
    split
    · simp
    · split <;> simp

/-- The pieces with one separator between neighbours. -/
def joinWith (separator : Char) : List (List Char) → List Char
  | [] => []
  | [piece] => piece
  | piece :: next :: pieces => piece ++ separator :: joinWith separator (next :: pieces)

theorem joinWith_cons_cons (separator c : Char) (piece : List Char) (pieces : List (List Char)) :
    joinWith separator ((c :: piece) :: pieces) = c :: joinWith separator (piece :: pieces) := by
  cases pieces <;> rfl

/-- Joining the pieces gives the text back. -/
theorem joinWith_cut (separator : Char) (cs : List Char) :
    joinWith separator (cut (· == separator) cs) = cs := by
  induction cs with
  | nil => rfl
  | cons c cs ih =>
    obtain ⟨piece, pieces, h⟩ := List.exists_cons_of_ne_nil (cut_ne_nil (· == separator) cs)
    rw [h] at ih
    by_cases hc : c = separator
    · subst hc
      simp only [cut, beq_self_eq_true, if_true, h]
      simp [joinWith, ih]
    · simp only [cut, beq_iff_eq, hc, if_false, h]
      rw [joinWith_cons_cons, ih]

end LayoutCompiler.Text
