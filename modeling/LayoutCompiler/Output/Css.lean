import LayoutCompiler.Rendering
import LayoutCompiler.Rule.Book
/-!
# Style sheets

One class for each style of a project. A class carries what the rules make of the attributes of its
style, as far as that does not depend on the element that has the style.
-/

namespace LayoutCompiler.Css

/-- The name of the class of a style. -/
def className (style : String) : String := "style-" ++ Text.replace '.' "-" style

variable {α : Type} [Scalar α]

/-- A rendering for a value of no particular element of a kind. -/
def rendering (resources : ResourceTable α) (overrides : SortedMap String) (kind : String)
    (v : Value α) : Rendering α :=
  { resources, overrides
    origin := .value v (Scope.enter none ⟨{ tag := kind }, SortedMap.empty⟩) SortedMap.empty }

/-- The declaration that an emission makes, if it makes one. -/
def declaration? (r : Rendering α) (e : Emission) : Option (String × String) :=
  if e.kind = .style then
    match AttributePath.read (r.render e.path) with
    | .ok path => path.name.map fun property => (property, r.render e.template)
    | .error _ => none
  else none

/-- The declarations that an attribute makes: by the rules for the first kind of elements on which
they depend on nothing else. -/
def declarations (book : RuleBook) (resources : ResourceTable α) (overrides : SortedMap String)
    (name raw : String) : List (String × String) :=
  match book.tags.find? fun kind => book.isStyleOnly kind name, resources.read raw with
  | some kind, .ok v =>
    match book.matchAttribute? kind name v.kind raw with
    | none => []
    | some rule => rule.emit.filterMap (declaration? (rendering resources overrides kind v))
  | _, _ => []

/-- The lines of the class of a style; none when it has no declarations or its chain is cyclic. -/
def classLines (book : RuleBook) (resources : ResourceTable α) (overrides : SortedMap String)
    (style : String) : List String :=
  match resources.styles.chain style with
  | .error _ => []
  | .ok chain =>
    match chain.flatten.entries.flatMap fun (name, raw) =>
        declarations book resources overrides name raw with
    | [] => []
    | ds =>
      ["." ++ className style ++ " \x7b"] ++
        (ds.map fun (property, value) => "  " ++ property ++ ": " ++ value ++ ";") ++ ["\x7d", ""]

/-- The style sheet of a project. -/
def write (book : RuleBook) (resources : ResourceTable α) (overrides : SortedMap String) :
    String :=
  Text.lines (resources.styles.keys.flatMap (classLines book resources overrides))

end LayoutCompiler.Css
