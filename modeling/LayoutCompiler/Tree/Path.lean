import LayoutCompiler.Failure
import LayoutCompiler.Text.Split
/-!
# Paths into the tree

A path such as `a/b[key=c]/attr` leads from a node through named children, found by name and
perhaps by the value of an attribute, to an attribute. Steps that lead nowhere yet are created on
the way.
-/

namespace LayoutCompiler

/-- One step to a child: its name, and perhaps an attribute with its value. -/
structure PathStep where
  name : String
  key : Option (String × String) := none
deriving Repr, DecidableEq

namespace PathStep

/-- The step that a segment denotes. -/
def read? (segment : String) : Option PathStep :=
  match Text.splitOnce '[' segment with
  | none => if Text.holds ']' segment || segment.isEmpty then none else some ⟨segment, none⟩
  | some (name, rest) =>
    (Text.stripTail? "]" rest).bind fun selector =>
      (Text.splitOnce '=' selector).bind fun (key, value) =>
        if name.isEmpty || key.isEmpty then none else some ⟨name, some (key, value)⟩

/-- The segment of a step. -/
def text (step : PathStep) : String :=
  match step.key with
  | none => step.name
  | some (key, value) => step.name ++ "[" ++ key ++ "=" ++ value ++ "]"

end PathStep

/-- The steps to a node, and the attribute of it that is meant, if any. -/
structure AttributePath where
  steps : List PathStep
  name : Option String
deriving Repr, DecidableEq

namespace AttributePath

/-- What the path is refused with when one of its segments is no step. -/
def malformed (path : String) : Failure := .rule RuleFault.pathOrigin (.malformedPath path)

/-- The path that a text denotes: its last segment, unless empty, is an attribute. -/
def read (path : String) : Outcome AttributePath :=
  let segments := Text.split '/' path
  match segments.dropLast.mapM PathStep.read? with
  | none => .error (malformed path)
  | some steps => .ok ⟨steps, segments.getLast?.filter fun name => !name.isEmpty⟩

/-- The steps that a text denotes in which every segment leads to a node. -/
def readNode (path : String) : Outcome (List PathStep) :=
  match ((Text.split '/' path).filter fun s => !s.isEmpty).mapM PathStep.read? with
  | none => .error (malformed path)
  | some steps => .ok steps

end AttributePath

end LayoutCompiler
