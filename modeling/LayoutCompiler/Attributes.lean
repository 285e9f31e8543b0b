import LayoutCompiler.SortedMap
import LayoutCompiler.Text.Split
/-!
# Attributes

The raw attributes of an element or a style, by name. Names keep their namespace lead
(`android:layout_width`), because rules address them that way.
-/

namespace LayoutCompiler

/-- Raw attribute texts by name. -/
abbrev Attributes := SortedMap String

namespace Attributes

/-- The attribute that names an element. -/
def idName : String := "android:id"

/-- The attribute that refers an element to a style. -/
def styleName : String := "style"

/-- The attribute of the platform's namespace with a bare name. -/
def platform (name : String) : String := "android:" ++ name

/-- An id without its `@+id/`, `@id/` or `@android:id/`. -/
def bareId (raw : String) : String :=
  ((Text.stripLead? "@+id/" raw).or
    ((Text.stripLead? "@id/" raw).or (Text.stripLead? "@android:id/" raw))).getD raw

end Attributes

end LayoutCompiler
