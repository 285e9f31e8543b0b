import LayoutCompiler.Text.Split
/-!
# Templates

Text with holes: `~path~` stands for what the path leads to, `~~` for a single `~`. A hole that
is not closed is text. Every text is a template, and every template has a text (`display`) that
stands for it.
-/

namespace LayoutCompiler

/-- A stretch of a template. -/
inductive Part where
  | literal (text : String)
  | hole (path : String)
deriving Repr, DecidableEq

/-- Text with holes. -/
structure Template where
  parts : List Part
deriving Repr, DecidableEq, Inhabited

namespace Template

/-- The character that opens and closes a hole. -/
def delimiter : Char := '~'

/-- A stretch of text, unless it is empty. Its last character comes first. -/
def stretch (begun : List Char) : List Part :=
  if begun.isEmpty then [] else [.literal (String.ofList begun.reverse)]

mutual

/-- The parts of a text, after the characters of a stretch that has begun, the last one first. -/
def literalParts (begun : List Char) : List Char → List Part
  | [] => stretch begun
  | c :: cs =>
    if c = delimiter then
      match cs with
      | d :: ds =>
        if d = delimiter then literalParts (delimiter :: begun) ds
        else stretch begun ++ holeParts [d] ds
      | [] => stretch begun ++ stretch [delimiter]
    else literalParts (c :: begun) cs

/-- The parts of a text, after the characters of a hole that is open, the last one first. -/
def holeParts (begun : List Char) : List Char → List Part
  | [] => [.literal (String.ofList (delimiter :: begun.reverse))]
  | c :: cs =>
    if c = delimiter then .hole (String.ofList begun.reverse) :: literalParts [] cs
    else holeParts (c :: begun) cs

end

/-- The template that a text denotes. -/
def parse (raw : String) : Template := ⟨literalParts [] raw.toList⟩

/-- Where a template is expected, a text stands for the template that it denotes. -/
instance : Coe String Template := ⟨parse⟩

/-- A text with every `~` doubled. -/
def quoted (text : String) : String :=
  Text.replace delimiter (String.ofList [delimiter, delimiter]) text

/-- The template without holes that writes a text. -/
def ofText (text : String) : Template := parse (quoted text)

/-- A text that denotes the template. -/
def display (t : Template) : String :=
  String.join (t.parts.map fun
    | .literal text => quoted text
    | .hole path => delimiter.toString ++ path ++ delimiter.toString)

/-- The paths of the holes, in order. -/
def holes (t : Template) : List String :=
  t.parts.filterMap fun
    | .literal _ => none
    | .hole path => some path

/-- Whether there is no hole. -/
def isLiteral (t : Template) : Bool := t.holes.isEmpty

/-- The steps of a path. -/
def segments (path : String) : List String := Text.split '.' path

/-- Whether the path of any hole has one of the segments. -/
def refersTo (t : Template) (names : List String) : Bool :=
  t.holes.any fun path => (segments path).any names.contains

/-- The text of the template where a hole has the text that its path leads to; one that leads
nowhere is empty. -/
def write (t : Template) (resolve : String → Option String) : String :=
  String.join (t.parts.map fun
    | .literal text => text
    | .hole path => (resolve path).getD "")

end Template

end LayoutCompiler
