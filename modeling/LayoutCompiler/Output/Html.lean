import LayoutCompiler.Markup.Writer
import LayoutCompiler.Output.Basic
/-!
# Fragments of HTML

The tree of a compilation as HTML. Style declarations become the `style` attribute of their node,
and nodes with outlets carry the name of the outlet, by which bindings find them.
-/

namespace LayoutCompiler.Html

open Markup (Fragment)

/-- The attribute that names an outlet. -/
def outletKey : String := "data-outlet"

/-- The attribute for style declarations. -/
def styleKey : String := "style"

/-- The elements that never have content. -/
def voidNames : List String :=
  ["area", "br", "col", "embed", "hr", "img", "input", "source", "wbr"]

/-- How many blanks a level of the fragment takes. -/
def width : Nat := 2

/-- Style declarations in one text. -/
def styleText (declarations : List (String × String)) : String :=
  Text.join "; " (declarations.map fun (property, value) => property ++ ": " ++ value)

/-- The name of the last outlet of a node. -/
def outletOf? (outlets : List Outlet) (id : Nat) : Option String :=
  ((outlets.filter fun o => o.node == some id).getLast?).map (·.name)

/-- The attributes of a node: its own, its style declarations and the name of its outlet. -/
def attributes (n : Node) (outlet : Option String) : List (String × String) :=
  n.attributes ++
    (if n.style.isEmpty then [] else [(styleKey, styleText n.style)]) ++
    (outlet.map fun name => (outletKey, name)).toList

/-- The markup of a node that has its content as markup already. What a void element holds is
dropped. -/
def nodeFragment (n : Node) (outlet : Option String) (children : List Fragment) : Fragment :=
  if voidNames.contains n.name then .void n.name (attributes n outlet)
  else .element n.name (attributes n outlet) ((n.text.map Fragment.text).toList ++ children)

variable {α : Type}

/-- The markup of a node and what is below it, to a depth. -/
def fragments (tree : Tree α) (outlets : List Outlet) : Nat → Nat → List Fragment
  | 0, _ => []
  | levels + 1, id =>
    let n := tree.node id
    [nodeFragment n (outletOf? outlets id) (n.children.flatMap (fragments tree outlets levels))]

/-- The markup of a compilation. -/
def document (t : Compilation α) : List Fragment :=
  match t.tree.root with
  | none => []
  | some root => fragments t.tree t.outlets t.tree.size root

/-- The text of a compilation. -/
def write (t : Compilation α) : String :=
  Markup.write width (Markup.piecesOf (document t)) ++ "\n"

end LayoutCompiler.Html
