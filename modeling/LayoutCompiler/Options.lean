import LayoutCompiler.SortedMap
import LayoutCompiler.Target
/-!
# Options

What can be chosen for a compilation.
-/

namespace LayoutCompiler

/-- The tag whose rule makes wrappers and spacers, unless another one is chosen. -/
def Options.defaultBaseKind : String := "View"

/-- What is chosen for a compilation. -/
structure Options where
  target : Target := .ios
  /-- The tag whose rule makes wrappers and spacers. -/
  baseKind : String := Options.defaultBaseKind
  /-- Texts for whole paths, which win over what the paths lead to. -/
  overrides : SortedMap String := SortedMap.empty
  theme : Option String := none
  /-- Rule documents, or directories of them, to be loaded after the built-in rules. -/
  rulePaths : List String := []
  /-- Whether the first layout file that fails ends the project. -/
  failFast : Bool := false
deriving Repr, DecidableEq

end LayoutCompiler
