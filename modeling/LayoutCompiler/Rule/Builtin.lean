import LayoutCompiler.Rule.Book
import LayoutCompiler.Rule.Builtin.Ios
import LayoutCompiler.Rule.Builtin.Web
import LayoutCompiler.Target
/-!
# Built-in rules

The rule book that each platform starts from. Its rules come from two documents, one for elements
and one for attributes, and name them as where they come from.
-/

namespace LayoutCompiler.RuleBook

/-- The rules of a platform, with the documents that they come from. -/
def builtinDocuments (target : Target) : List (String × RuleDocument) :=
  let origin (part : String) : String := "builtin:" ++ target.name ++ "/" ++ part ++ ".toml"
  match target with
  | .ios =>
    [(origin "views", { elements := Rule.Ios.elements }),
     (origin "attributes", { attributes := Rule.Ios.attributes })]
  | .web =>
    [(origin "views", { elements := Rule.Web.elements }),
     (origin "attributes", { attributes := Rule.Web.attributes })]

/-- The rule book that a platform starts from. -/
def builtin (target : Target) : RuleBook :=
  (builtinDocuments target).foldl (fun book (origin, document) =>
    book.add (document.withOrigin origin)) {}

end LayoutCompiler.RuleBook
