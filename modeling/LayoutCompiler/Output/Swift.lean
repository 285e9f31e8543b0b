import LayoutCompiler.Output.Basic
import LayoutCompiler.Value.Basic
/-!
# Bindings in Swift

The class that owns an interface document. It has one property for each outlet; those that some
variant of the layout lacks may be nil.
-/

namespace LayoutCompiler.Swift

variable {α : Type}

/-- A line at a depth. -/
def line (depth : Nat) (code : String) : String := Output.indented 4 depth code

/-- The declaration of the property for an outlet. -/
def property (o : Outlet) : String :=
  "@IBOutlet var " ++ o.name ++ ": " ++ o.typeName ++ (if o.isOptional then "?" else "!")

/-- The function that loads the document of a class. -/
def loader (className : String) : List String :=
  [line 1 "@discardableResult",
   line 1 ("static func load(into owner: " ++ className ++ " = " ++ className ++
     "(), bundle: Bundle? = nil) -> " ++ className ++ " \x7b"),
   line 2 "UINib(nibName: nibName, bundle: bundle).instantiate(withOwner: owner, options: nil)",
   line 2 "return owner",
   line 1 "\x7d"]

/-- The lines of the binding of a layout. -/
def code (t : Compilation α) : List String :=
  let className := bindingName t.name
  [Output.banner t.file, "", "import UIKit", "", "final class " ++ className ++ ": NSObject \x7b",
   line 1 ("static let nibName = \"" ++ Text.pascalCase t.name ++ "\"")] ++
    (if t.outlets.isEmpty then [] else "" :: t.outlets.map fun o => line 1 (property o)) ++
    [""] ++ loader className ++ ["\x7d"]

/-- The text of the binding of a layout. -/
def write (t : Compilation α) : String := Text.lines (code t)

end LayoutCompiler.Swift
