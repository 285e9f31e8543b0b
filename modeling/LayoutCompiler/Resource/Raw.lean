import LayoutCompiler.Style.Theme
import LayoutCompiler.Value.Basic
/-!
# Raw resources

The resources of a project as they are written down: every value is the text that defines it, and
texts may refer to each other in any order.
-/

namespace LayoutCompiler

/-- The items of a selector, in order: the state an item is for, and its text. -/
abbrev RawSelector := List (Interaction × String)

/-- A shape with texts for its paints and lengths. -/
structure RawShape (α : Type) where
  outline : Outline := .rectangle
  solid : Option String := none
  strokeWidth : Option String := none
  strokeColor : Option String := none
  cornerRadius : Option String := none
  gradient : Option (Gradient α String) := none

namespace RawShape

variable {α : Type}

/-- The texts of a shape that stand for paints. -/
def paints (form : RawShape α) : List String :=
  form.solid.toList ++ form.strokeColor.toList ++
    (match form.gradient with
      | some g => [g.start, g.finish]
      | none => [])

/-- The texts of a shape that stand for lengths. -/
def lengths (form : RawShape α) : List String :=
  form.strokeWidth.toList ++ form.cornerRadius.toList

end RawShape

/-- The definition of a drawable. -/
inductive RawDrawable (α : Type) where
  | image (file : String)
  | vector (file : String)
  | shape (form : RawShape α)
  | layers (texts : List String)
  | selector (items : RawSelector)
  | link (target : String)

/-- A member of a font family. -/
structure RawMember where
  font : String
  weight : Nat
  italic : Bool
deriving Repr, DecidableEq

namespace RawMember

/-- The name of the font that a member is. -/
def target (m : RawMember) : String := (Text.stripLead? "@font/" m.font).getD m.font

/-- The face of a member, in the file of the font that it is. -/
def face (m : RawMember) (f : Font) : Font :=
  { name := m.target, file := f.file, weight := m.weight, italic := m.italic }

end RawMember

/-- The definition of a font. -/
inductive RawFont where
  | file (file : String)
  | family (members : List RawMember)
deriving Repr, DecidableEq

/-- Everything that defines a resource, by name. -/
structure RawResources (α : Type) where
  colors : SortedMap String := SortedMap.empty
  colorStates : SortedMap RawSelector := SortedMap.empty
  dimens : SortedMap String := SortedMap.empty
  strings : SortedMap String := SortedMap.empty
  styles : StyleSheet := SortedMap.empty
  drawables : SortedMap (RawDrawable α) := SortedMap.empty
  fonts : SortedMap RawFont := SortedMap.empty
  layouts : TextSet := SortedMap.empty
  theme : Option String := none

namespace RawDrawable

variable {α : Type}

/-- The texts in the definition of a drawable that stand for colors and other drawables. -/
def paints : RawDrawable α → List String
  | image _ | vector _ => []
  | shape form => form.paints
  | layers texts => texts
  | selector items => items.map Prod.snd
  | link target => [target]

/-- The texts in the definition of a drawable that stand for lengths. -/
def lengths : RawDrawable α → List String
  | shape form => form.lengths
  | _ => []

/-- The texts in the definition of a drawable that may be references. -/
def texts (d : RawDrawable α) : List String := d.paints ++ d.lengths

end RawDrawable

namespace RawResources

variable {α : Type}

/-- The theme that references go through. -/
def themeName (raw : RawResources α) : String := raw.theme.getD Theme.default

/-- The texts that may be references through the theme: in definitions and in styles. -/
def texts (raw : RawResources α) : List String :=
  raw.colors.values ++ raw.colorStates.values.flatMap (·.map Prod.snd) ++ raw.dimens.values ++
    raw.drawables.values.flatMap (·.texts) ++ raw.styles.values.flatMap (·.items.values)

/-- How many keys can be under resolution at once: one for each definition, and one for each text
that may refer to the theme. -/
def keyCount (raw : RawResources α) : Nat :=
  raw.colors.size + raw.colorStates.size + raw.dimens.size + raw.strings.size +
    raw.drawables.size + raw.fonts.size + raw.texts.length

end RawResources

end LayoutCompiler
