import LayoutCompiler.SortedMap
import LayoutCompiler.Template
/-!
# Blueprints

What a rule says about the node it makes: a name, attributes, style declarations and text with
holes, fixed children, and the child that holds what is added later.
-/

namespace LayoutCompiler

/-- A node to be made. -/
structure Blueprint where
  name : String
  attributes : SortedMap Template := SortedMap.empty
  style : SortedMap Template := SortedMap.empty
  text : Option Template := none
  children : List Blueprint := []
  /-- The name of the child that later children are put into. -/
  holder : Option String := none

namespace Blueprint

mutual

/-- Whether a node without a name is to be made. -/
def isNameless : Blueprint → Bool
  | ⟨name, _, _, _, children, _⟩ => name.isEmpty || anyNameless children

/-- Whether one of the blueprints makes a node without a name. -/
def anyNameless : List Blueprint → Bool
  | [] => false
  | b :: bs => b.isNameless || anyNameless bs

end

end Blueprint

end LayoutCompiler
