import LayoutCompiler.Attributes
import LayoutCompiler.Layout.Container
import LayoutCompiler.Rule.Predicate
import LayoutCompiler.Tree.Blueprint
import LayoutCompiler.Value.Kind
/-!
# Rules

What elements and attributes become. An element rule says which node an element makes; an attribute
rule says what the value of an attribute writes into the tree. Rules have a rank: the more
conditions an element rule has, and the narrower the kind that an attribute rule accepts, the
higher it is.
-/

namespace LayoutCompiler

/-! ## Element rules -/

/-- What elements with a tag become, under conditions on their attributes. -/
structure ElementRule where
  /-- The tag. -/
  id : String
  /-- Conditions by attribute, each a conjunction. -/
  attributes : SortedMap String := SortedMap.empty
  /-- The tag of the rule that fills in what this one leaves open. -/
  parent : Option String := none
  template : Option Blueprint := none
  container : Option Container := none
  /-- The attributes that need a node of their own around the element. -/
  autoWrapFor : List String := []
  /-- The type of references to the node in generated code. -/
  outletType : Option String := none
  /-- Where the rule comes from. -/
  origin : String := ""

namespace ElementRule

/-- The single conditions of a rule, each with its attribute. -/
def conditions (r : ElementRule) : List (String × Predicate) :=
  r.attributes.entries.flatMap fun (name, raw) =>
    (Predicate.parseAll raw).map fun predicate => (name, predicate)

/-- The rank of a rule. -/
def priority (r : ElementRule) : Nat := r.conditions.length

/-- Whether all conditions of a rule are met. -/
def accepts (r : ElementRule) (attributes : Attributes) : Bool :=
  r.conditions.all fun (name, predicate) => predicate.holds (attributes.get? name)

end ElementRule

/-! ## Attribute rules -/

/-- Where an emission writes its text. -/
inductive EmissionKind where
  /-- To an attribute, named by the last segment of the path. -/
  | attribute
  /-- To the text of the node at the path. -/
  | text
  /-- To a style declaration, named by the last segment of the path. -/
  | style
  /-- To a typed attribute that is set at run time, named by the last segment of the path. -/
  | runtime
  /-- To an attribute, once for each state that the value declares. -/
  | state
deriving Repr, DecidableEq

namespace EmissionKind

/-- All kinds with their names in rule documents. -/
def names : List (String × EmissionKind) :=
  [("attribute", .attribute), ("text", .text), ("style", .style), ("runtime", .runtime),
   ("state", .state)]

/-- The name of a kind. -/
def name : EmissionKind → String
  | .attribute => "attribute"
  | .text => "text"
  | .style => "style"
  | .runtime => "runtime"
  | .state => "state"

end EmissionKind

/-- One text that a value writes, and where to. -/
structure Emission where
  path : Template := ⟨[]⟩
  kind : EmissionKind := .attribute
  template : Template
  runtimeType : Option String := none
deriving Repr, DecidableEq

/-- The segments of paths that depend on the element. -/
def elementSegments : List String := ["element", "parent", "halfSize"]

/-- Whether the path of an emission can stand in a style sheet: without holes, and of letters,
digits, `/` and `-` only. -/
def Emission.hasSimplePath (e : Emission) : Bool :=
  e.path.isLiteral && e.path.display.toList.all fun c => c.isAlphanum || c == '/' || c == '-'

/-- What the values of an attribute write, on elements of a kind. -/
structure AttributeRule where
  /-- The attribute. -/
  id : String
  /-- The tag of the element rule that it belongs to. -/
  element : String
  /-- The kind of values that it accepts. -/
  kind : ValueKind := .value
  /-- The only raw text that it accepts, if it accepts no other. -/
  equals : Option String := none
  emit : List Emission := []
  /-- Where the rule comes from. -/
  origin : String := ""
deriving Repr, DecidableEq

namespace AttributeRule

/-- What a rule for one raw text ranks above all rules for any text. -/
def exactBonus : Nat := 32

/-- The rank of a rule. -/
def priority (r : AttributeRule) : Nat :=
  r.kind.depth + if r.equals.isSome then exactBonus else 0

/-- Whether a rule accepts a value of a kind with a raw text on elements of a tag. -/
def accepts (r : AttributeRule) (element : String) (kind : ValueKind) (raw : String) : Bool :=
  r.element == element && kind.isA r.kind &&
    match r.equals with
    | some expected => expected == raw
    | none => true

/-- Whether a rule writes nothing but style declarations that do not depend on the element. -/
def isPlainStyle (r : AttributeRule) : Bool :=
  r.emit.all fun e =>
    e.kind == .style && e.hasSimplePath && !e.template.refersTo elementSegments

end AttributeRule

/-- The rules of one document, in order. -/
structure RuleDocument where
  elements : List ElementRule := []
  attributes : List AttributeRule := []

end LayoutCompiler
