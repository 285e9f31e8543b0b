import LayoutCompiler.Output.Html
import LayoutCompiler.Value.Basic
/-!
# Bindings in TypeScript

The interface of a fragment of HTML, with one member for each outlet, and the function that finds
the elements of the outlets below a root. Members that some variant of the layout lacks may be
undefined.
-/

namespace LayoutCompiler.TypeScript

variable {α : Type}

/-- A line at a depth. -/
def line (depth : Nat) (code : String) : String := Output.indented 2 depth code

/-- The declaration of the member for an outlet. -/
def member (o : Outlet) : String :=
  o.name ++ (if o.isOptional then "?" else "") ++ ": " ++ o.typeName ++ ";"

/-- The expression that finds the element of an outlet. -/
def query (name : String) : String :=
  "root.querySelector('[" ++ Html.outletKey ++ "=\"" ++ name ++ "\"]')"

/-- The initial value of the member for an outlet. -/
def initial (o : Outlet) : String :=
  let found := query o.name ++ " as " ++ o.typeName
  o.name ++ ": " ++ (if o.isOptional then "(" ++ found ++ " | null) ?? undefined" else found) ++ ","

/-- The lines of the binding of a layout. -/
def code (t : Compilation α) : List String :=
  let interface := bindingName t.name
  [Output.banner t.file, "", "export interface " ++ interface ++ " \x7b",
   line 1 "_root: HTMLElement;"] ++
    (t.outlets.map fun o => line 1 (member o)) ++
    ["\x7d", "",
     "export function bind" ++ Text.pascalCase t.name ++ "(root: HTMLElement): " ++ interface ++
       " \x7b",
     line 1 "return \x7b", line 2 "_root: root,"] ++
    (t.outlets.map fun o => line 2 (initial o)) ++
    [line 1 "\x7d;", "\x7d"]

/-- The text of the binding of a layout. -/
def write (t : Compilation α) : String := Text.lines (code t)

end LayoutCompiler.TypeScript
