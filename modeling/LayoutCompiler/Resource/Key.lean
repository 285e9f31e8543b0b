/-!
# Resource keys

The kinds of resources that have names, and the two ways of writing a named resource.
-/

namespace LayoutCompiler

/-- The kinds of named resources. -/
inductive ResourceKind where
  | color
  | dimen
  | string
  | drawable
  | font
  | layout
  | style
deriving Repr, DecidableEq

/-- The word for a kind in references such as `@color/accent`. -/
def ResourceKind.word : ResourceKind → String
  | color => "color"
  | dimen => "dimen"
  | string => "string"
  | drawable => "drawable"
  | font => "font"
  | layout => "layout"
  | style => "style"

/-- The key of a named resource, `color/accent`. -/
def ResourceKind.key (kind : ResourceKind) (name : String) : String := kind.word ++ "/" ++ name

/-- The reference to a named resource, `@color/accent`. -/
def ResourceKind.reference (kind : ResourceKind) (name : String) : String := "@" ++ kind.key name

end LayoutCompiler
