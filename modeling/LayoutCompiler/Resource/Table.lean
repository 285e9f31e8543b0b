import LayoutCompiler.Style.Theme
import LayoutCompiler.Text.Escape
import LayoutCompiler.Value.Basic
/-!
# Resource tables

The resolved resources of a project, and the reading of attribute texts against them. A text is
tried as, in this order: a reference through the theme, a color literal, a reference to a style,
layout, font, drawable, platform color, color, string or dimension, a dimension literal, a
number. Any other text stands for itself.
-/

namespace LayoutCompiler

/-- Resolved resources by name. -/
structure ResourceTable (α : Type) where
  colors : SortedMap Color := SortedMap.empty
  colorStates : SortedMap (Selector Color) := SortedMap.empty
  dimens : SortedMap (Dimension α) := SortedMap.empty
  strings : SortedMap String := SortedMap.empty
  styles : StyleSheet := SortedMap.empty
  drawables : SortedMap (Drawable α) := SortedMap.empty
  fonts : SortedMap FontResource := SortedMap.empty
  layouts : TextSet := SortedMap.empty
  theme : String := ""

namespace ResourceTable

variable {α : Type}

/-- What a reference to nothing is refused with. -/
def missing (kind : ResourceKind) (name : String) : Failure :=
  .reference (kind.reference name) (.missing kind)

/-- The value of a named resource, or the failure that there is none. -/
def orMissing {β : Type} (kind : ResourceKind) (name : String) : Option β → Outcome β
  | some v => .ok v
  | none => .error (missing kind name)

/-- The leads of references, with what they refer to. -/
inductive Lead where
  | style
  | layout
  | font
  | drawable
  | platformColor
  | color
  | string
  | dimen
deriving Repr, DecidableEq

/-- The spellings of leads, in the order in which they are tried. -/
def Lead.spellings : List (String × Lead) :=
  [("@style/", style), ("@layout/", layout), ("@font/", font), ("@mipmap/", drawable),
   ("@drawable/", drawable), ("@android:color/", platformColor), ("@color/", color),
   ("@string/", string), ("@dimen/", dimen)]

/-- The lead of a reference and the name that follows it. -/
def Lead.split? (text : String) : Option (Lead × String) :=
  spellings.findSome? fun (spelling, lead) =>
    (Text.stripLead? spelling text).map fun name => (lead, name)

/-- The value that a reference stands for. -/
def lookUp (table : ResourceTable α) (text : String) (lead : Lead) (name : String) :
    Outcome (Value α) :=
  match lead with
  | .style => (StyleSheet.chain table.styles name).map fun chain => .style name chain.flatten
  | .layout =>
    orMissing .layout name (if table.layouts.contains name then some (.layout name) else none)
  | .font => orMissing .font name ((table.fonts.get? name).map .font)
  | .drawable => orMissing .drawable name ((table.drawables.get? name).map .drawable)
  | .platformColor =>
    match Color.platform? name with
    | some c => .ok (.drawable (.color c))
    | none => .error (.reference text .systemColor)
  | .color =>
    match table.colorStates.get? name with
    | some states => .ok (.drawable (.stateColor name states))
    | none =>
      orMissing .color name ((table.colors.get? name).map fun c => .drawable (.namedColor name c))
  | .string => orMissing .string name ((table.strings.get? name).map (.namedText name))
  | .dimen => orMissing .dimen name ((table.dimens.get? name).map (.namedDimension name))

variable [Scalar α]

/-- The value of a text that is no reference. -/
def literal (raw text : String) : Value α :=
  match Dimension.read? text with
  | some d => .dimension d
  | none =>
    match Dimension.bare? text with
    | some x => .number x
    | none => .text (Text.unescape raw)

/-- The value of a text that is no reference through the theme. -/
def readPlain (table : ResourceTable α) (raw text : String) : Outcome (Value α) :=
  match Color.read? text with
  | some c => .ok (.drawable (.color c))
  | none =>
    match Lead.split? text with
    | some (lead, name) => table.lookUp text lead name
    | none => .ok (literal raw text)

/-- How many references through the theme are followed in a row. -/
def maxThemeHops : Nat := 16

/-- The value of a text, when at most so many references through the theme lead to it. -/
def readWithin (table : ResourceTable α) : Nat → String → Outcome (Value α)
  | hops, raw =>
    let text := Text.trim raw
    if Text.leads "?" text then
      match hops with
      | 0 => .error (.reference text .themeLoop)
      | hops + 1 =>
        match Theme.attribute? table.styles table.theme text with
        | .error e => .error e
        | .ok target => table.readWithin hops target
    else table.readPlain raw text

theorem readWithin_zero (table : ResourceTable α) (raw : String) :
    table.readWithin 0 raw =
      if Text.leads "?" (Text.trim raw) then .error (.reference (Text.trim raw) .themeLoop)
      else table.readPlain raw (Text.trim raw) := rfl

theorem readWithin_succ (table : ResourceTable α) (hops : Nat) (raw : String) :
    table.readWithin (hops + 1) raw =
      if Text.leads "?" (Text.trim raw) then
        match Theme.attribute? table.styles table.theme (Text.trim raw) with
        | .error e => .error e
        | .ok target => table.readWithin hops target
      else table.readPlain raw (Text.trim raw) := rfl

/-- The value of a text. -/
def read (table : ResourceTable α) (raw : String) : Outcome (Value α) :=
  table.readWithin maxThemeHops raw

/-- The length that a text stands for, if it stands for one; a bare number counts in units
independent of density. -/
def dimension? (table : ResourceTable α) (raw : String) : Outcome (Option (Dimension α)) :=
  (table.read raw).map fun
    | .dimension d | .namedDimension _ d => some d
    | .number x => some ⟨x, .dp⟩
    | _ => none

end ResourceTable

end LayoutCompiler
