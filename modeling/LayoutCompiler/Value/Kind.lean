/-!
# Kinds of values

Every value has one kind. Kinds form a lattice under "is a": attribute rules accept a kind and all
kinds below it, and a rule for a narrow kind outranks one for a broad kind. The rank of a kind is
the number of kinds strictly above it (`depth`).

* `isA_refl`, `isA_trans`: "is a" is a preorder.
* `depth_lt_of_isA`: a kind strictly below another ranks above it.
-/

namespace LayoutCompiler

/-- The kinds of values, in the order in which they are listed. -/
inductive ValueKind where
  | value
  | number
  | dimension
  | dimensionLiteral
  | dimensionResource
  | text
  | stringLiteral
  | stringResource
  | drawable
  | color
  | colorLiteral
  | colorResource
  | colorStateResource
  | stateList
  | bitmapDrawable
  | vectorDrawable
  | shapeDrawable
  | layerListDrawable
  | stateListDrawable
  | drawableReference
  | font
  | fontLiteral
  | fontSet
  | style
  | layout
deriving Repr, DecidableEq, Inhabited

namespace ValueKind

/-- All kinds, in order. -/
def all : List ValueKind :=
  [value, number, dimension, dimensionLiteral, dimensionResource, text, stringLiteral,
   stringResource, drawable, color, colorLiteral, colorResource, colorStateResource, stateList,
   bitmapDrawable, vectorDrawable, shapeDrawable, layerListDrawable, stateListDrawable,
   drawableReference, font, fontLiteral, fontSet, style, layout]

/-- The name of a kind in rule documents. -/
def name : ValueKind → String
  | value => "value"
  | number => "number"
  | dimension => "dimension"
  | dimensionLiteral => "dimension-literal"
  | dimensionResource => "dimension-resource"
  | text => "text"
  | stringLiteral => "string-literal"
  | stringResource => "string-resource"
  | drawable => "drawable"
  | color => "color"
  | colorLiteral => "color-literal"
  | colorResource => "color-resource"
  | colorStateResource => "color-state-resource"
  | stateList => "state-list"
  | bitmapDrawable => "bitmap-drawable"
  | vectorDrawable => "vector-drawable"
  | shapeDrawable => "shape-drawable"
  | layerListDrawable => "layer-list-drawable"
  | stateListDrawable => "state-list-drawable"
  | drawableReference => "drawable-reference"
  | font => "font"
  | fontLiteral => "font-literal"
  | fontSet => "font-set"
  | style => "style"
  | layout => "layout"

/-- The kind with a name. -/
def ofName? (s : String) : Option ValueKind := all.find? (·.name == s)

/-- The kinds directly above a kind. Only `value` has none. -/
def supertypes : ValueKind → List ValueKind
  | value => []
  | number | text | drawable | stateList | font | style | layout => [value]
  | dimension => [number]
  | dimensionLiteral | dimensionResource => [dimension]
  | stringLiteral | stringResource => [text]
  | color => [drawable]
  | colorLiteral | colorResource => [color]
  | colorStateResource => [color, stateList]
  | bitmapDrawable | vectorDrawable | shapeDrawable | layerListDrawable | drawableReference =>
    [drawable]
  | stateListDrawable => [drawable, stateList]
  | fontLiteral | fontSet => [font]

/-- The kinds met on climbing at most so many steps. -/
def climb : Nat → ValueKind → List ValueKind
  | 0, _ => []
  | steps + 1, kind => kind.supertypes.flatMap fun above => above :: climb steps above

/-- The kinds strictly above a kind, in order. -/
def ancestors (kind : ValueKind) : List ValueKind :=
  let above := climb all.length kind
  all.filter above.contains

/-- How many kinds are strictly above a kind. -/
def depth (kind : ValueKind) : Nat := kind.ancestors.length

/-- Whether a value of the first kind serves as one of the second. -/
def isA (kind other : ValueKind) : Bool := kind == other || kind.ancestors.contains other

theorem mem_all (kind : ValueKind) : kind ∈ all := by cases kind <;> decide

theorem isA_refl (kind : ValueKind) : kind.isA kind = true := by simp [isA]

theorem isA_trans : ∀ {a b c : ValueKind}, a.isA b = true → b.isA c = true → a.isA c = true := by
  have table : ∀ a ∈ all, ∀ b ∈ all, a.isA b = true → ∀ c ∈ all, b.isA c = true →
      a.isA c = true := by decide +kernel
  exact fun {a b c} hab hbc => table a (mem_all a) b (mem_all b) hab c (mem_all c) hbc

theorem depth_lt_of_isA : ∀ {a b : ValueKind}, a.isA b = true → a ≠ b → b.depth < a.depth := by
  have table : ∀ a ∈ all, ∀ b ∈ all, a.isA b = true → a ≠ b → b.depth < a.depth := by
    decide +kernel
  exact fun {a b} hab hne => table a (mem_all a) b (mem_all b) hab hne

end ValueKind

end LayoutCompiler
