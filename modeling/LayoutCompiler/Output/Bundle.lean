import LayoutCompiler.Output.InterfaceDocument
import LayoutCompiler.Output.Swift
import LayoutCompiler.Output.TypeScript
/-!
# The files of a layout

What is written for one layout: a document and the binding for it.
-/

namespace LayoutCompiler.Compilation

variable {α : Type}

/-- The path of the document of a layout. -/
def documentPath (target : Target) (layout : String) : String :=
  match target with
  | .ios => Text.pascalCase layout ++ ".xib"
  | .web => layout ++ ".html"

/-- The path of the binding of a layout. -/
def bindingPath (target : Target) (layout : String) : String :=
  match target with
  | .ios => bindingName layout ++ ".swift"
  | .web => bindingName layout ++ ".ts"

variable [Scalar α]

/-- The files of a compilation. -/
def files (t : Compilation α) (target : Target) (resources : ResourceTable α) :
    Outcome (List OutputFile) := do
  let (document, binding) ← match target with
    | .ios => (InterfaceDocument.write t resources).map fun text => (text, Swift.write t)
    | .web => pure (Html.write t, TypeScript.write t)
  pure
    [{ path := documentPath target t.name, contents := document },
     { path := bindingPath target t.name, contents := binding }]

end LayoutCompiler.Compilation
