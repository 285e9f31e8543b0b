import LayoutCompiler.Number.Scalar
import LayoutCompiler.Compilation.Basic
/-!
# Output

What the writers of documents and bindings share: the files that they produce, and the comment at
the head of generated code.
-/

namespace LayoutCompiler

/-- A file to be written, with its path in the output directory. -/
structure OutputFile where
  path : String
  contents : String
deriving Repr, DecidableEq

namespace Output

/-- What generated code names as its generator. -/
def generator : String := "droidc 0.1.0"

/-- The comment at the head of generated code. -/
def banner (file : String) : String :=
  "// Generated by " ++ generator ++ " from " ++ file ++ ". Do not edit."

/-- A line of code at a depth, each level of which takes so many blanks. -/
def indented (width depth : Nat) (line : String) : String :=
  String.ofList (List.replicate (width * depth) ' ') ++ line

end Output

end LayoutCompiler
