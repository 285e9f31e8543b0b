/-!
# Targets

The platforms that layouts are compiled for.
-/

namespace LayoutCompiler

/-- A platform. -/
inductive Target where
  /-- Interface documents with constraints, and bindings in Swift. -/
  | ios
  /-- Fragments of HTML with a style sheet, and bindings in TypeScript. -/
  | web
deriving Repr, DecidableEq, Inhabited

namespace Target

/-- The name of a platform. -/
def name : Target → String
  | ios => "ios"
  | web => "web"

/-- All platforms with their names. -/
def names : List (String × Target) := [("ios", ios), ("web", web)]

/-- Whether layout is expressed by constraints. -/
def usesConstraints : Target → Bool
  | ios => true
  | web => false

end Target

end LayoutCompiler
