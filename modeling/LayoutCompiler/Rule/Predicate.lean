import LayoutCompiler.Text.Blank
import LayoutCompiler.Text.Split
/-!
# Predicates

The conditions that element rules put on single attributes. A condition is written as a
conjunction, `any&not:gone`.
-/

namespace LayoutCompiler

/-- A condition on one attribute, which may be absent. -/
inductive Predicate where
  | any
  | unset
  | equals (expected : String)
  | contains (flag : String)
  | differs (unexpected : String)
  | lacks (flag : String)
  /-- A condition that no attribute meets. -/
  | malformed (raw : String)
deriving Repr, DecidableEq

namespace Predicate

/-- The condition with an operand that a text denotes, when the text begins with its name. -/
def named? (name raw : String) (make : String → Predicate) : Option Predicate :=
  (Text.stripLead? name raw).map fun operand =>
    if operand.isEmpty then malformed raw else make operand

/-- The condition that a text denotes. -/
def parse (raw : String) : Predicate :=
  if raw = "" then malformed ""
  else if raw = "any" then any
  else if raw = "unset" then unset
  else
    ((named? "contains:" raw contains).or
      ((named? "not:" raw differs).or (named? "doesNotContain:" raw lacks))).getD (equals raw)

/-- The conditions of a conjunction. -/
def parseAll (raw : String) : List Predicate :=
  (Text.split '&' raw).map fun part => parse (Text.trim part)

/-- Whether a flag is one of those in a value such as `top|start`. -/
def hasFlag (flag value : String) : Bool :=
  (Text.split '|' value).any fun f => Text.trim f == flag

/-- Whether an attribute meets the condition. -/
def holds : Predicate → Option String → Bool
  | any, value => value.isSome
  | unset, value => value.isNone
  | equals expected, value => value == some expected
  | contains flag, value => value.any (hasFlag flag)
  | differs unexpected, value => value != some unexpected
  | lacks flag, value => !value.any (hasFlag flag)
  | malformed _, _ => false

end Predicate

end LayoutCompiler
