import LayoutCompiler.Text.CaseTable
import LayoutCompiler.Text.Split
/-!
# Case

Full case mapping of single characters, and the two spellings that generated code gives to a
name: `ActivityMain` and `activityMain` for `activity_main`.
-/

namespace LayoutCompiler.Text

/-- One character under a mapping given by its expansions and its runs. -/
def mapCase (expansions : List (Nat × List Nat)) (runs : List CaseRun) (c : Char) : List Char :=
  match expansions.lookup c.toNat with
  | some codes => codes.map Char.ofNat
  | none =>
    match runs.find? (·.holds c.toNat) with
    | some run => [Char.ofNat ((c.toNat : Int) + run.offset).toNat]
    | none => [c]

/-- The full upper case of a character. -/
def upper (c : Char) : List Char := mapCase upperExpansions upperRuns c

/-- The full lower case of a character. -/
def lower (c : Char) : List Char := mapCase lowerExpansions lowerRuns c

/-- The characters with the first one in upper case. -/
def capitalised : List Char → List Char
  | [] => []
  | c :: cs => upper c ++ cs

/-- The words between `_`, `-` and `.`, each capitalised, with nothing between them. -/
def pascalCase (name : String) : String :=
  String.ofList ((cut (fun c => c == '_' || c == '-' || c == '.') name.toList).flatMap capitalised)

/-- As `pascalCase`, but with the first character in lower case. -/
def camelCase (name : String) : String :=
  match (pascalCase name).toList with
  | [] => ""
  | c :: cs => String.ofList (lower c ++ cs)

end LayoutCompiler.Text
