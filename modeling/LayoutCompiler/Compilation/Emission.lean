import LayoutCompiler.Rendering
import LayoutCompiler.Compilation.Basic
/-!
# Applying attribute rules

What the value of an attribute writes into the tree. Each attribute of an element is read, and the
best rule for it writes its emissions below the node of the element.
-/

namespace LayoutCompiler

/-- What a compilation depends on besides the layout. -/
structure Setting (α : Type) where
  book : RuleBook
  resources : ResourceTable α
  options : Options

/-- How far the compilation of a file has come. -/
structure Pass (α : Type) where
  tree : Tree α
  outlets : List Outlet := []
  used : TextSet := SortedMap.empty
  elements : Nat := 0
  wrappers : Nat := 0
  synthetic : Nat := 0

/-- A step of compilation. -/
abbrev Compile (α β : Type) := StateT (Pass α) (Except Failure) β

namespace Compile

variable {α β : Type}

/-- A step that only changes the tree. -/
def edit (step : Edit α β) : Compile α β := fun s =>
  let (result, tree) := step.run s.tree
  .ok (result, { s with tree })

/-- A change of the tree. -/
def change (f : Tree α → Tree α) : Compile α Unit := edit (modify f)

/-- A result whose failure is placed at an element. -/
def atElement (file tag : String) (subject : Option String) (result : Outcome β) : Compile α β :=
  match result with
  | .ok v => pure v
  | .error e => throw (e.within file tag subject)

/-! ## Emissions -/

/-- The child that holds attributes set at run time. -/
def runtimeStep : PathStep := { name := "userDefinedRuntimeAttributes" }

/-- The child for one attribute set at run time. -/
def runtimeEntryStep (name : String) : PathStep :=
  { name := "userDefinedRuntimeAttribute", key := some ("keyPath", name) }

/-- The type of attributes set at run time when a rule does not say. -/
def defaultRuntimeType : String := "string"

/-- Writes an attribute that is set at run time. -/
def writeRuntime (node : Nat) (name type text : String) : Edit α Unit := do
  let holder ← Tree.findOrCreate node runtimeStep
  let entry ← Tree.findOrCreate holder (runtimeEntryStep name)
  modify (·.setAttribute entry "type" type)
  modify (·.setAttribute entry "value" text)

/-- Writes a text below a node, to what the last segment of a path names. Nothing is written when
no segment does. -/
def writeAt (kind : EmissionKind) (runtimeType : Option String) (node : Nat)
    (path : AttributePath) (text : String) : Edit α Unit :=
  match path.name with
  | none => pure ()
  | some name => do
    let target ← Tree.walkPath node path.steps
    match kind with
    | .style => modify (·.setStyle target name text)
    | .runtime => writeRuntime target name (runtimeType.getD defaultRuntimeType) text
    | _ => modify (·.setAttribute target name text)

/-- Writes a text below a node, as the text of the node that a path leads to. -/
def writeText (node : Nat) (steps : List PathStep) (text : String) : Edit α Unit := do
  let target ← Tree.walkPath node steps
  modify (·.setText target text)

/-- What one emission writes below a node, when its path is one. -/
def emission (e : Emission) (path text : String) (node : Nat) : Outcome (Edit α Unit) :=
  match e.kind with
  | .text => (AttributePath.readNode path).map fun steps => writeText node steps text
  | kind => (AttributePath.read path).map fun p => writeAt kind e.runtimeType node p text

variable [Scalar α]

/-- The rendering of an emission for a value of an element. -/
def valueRendering (setting : Setting α) (v : Value α) (scope : Scope)
    (extras : SortedMap String) : Rendering α :=
  { resources := setting.resources, overrides := setting.options.overrides
    origin := .value v scope extras }

/-- Writes one emission for one value. -/
def emitOne (setting : Setting α) (node : Nat) (scope : Scope) (extras : SortedMap String)
    (v : Value α) (e : Emission) : Compile α Unit := do
  let rendering := valueRendering setting v scope extras
  edit (← emission e (rendering.render e.path) (rendering.render e.template) node)

/-- Writes one emission, for each state of the value if it is for states. -/
def emit (setting : Setting α) (node : Nat) (scope : Scope) (v : Value α) (e : Emission) :
    Compile α Unit :=
  match e.kind with
  | .state =>
    v.stateValues.forM fun (state, own) =>
      emitOne setting node scope (SortedMap.singleton "state" state.name) own e
  | _ => emitOne setting node scope SortedMap.empty v e

/-! ## Attributes -/

/-- The best rule for an attribute, on the first element rule of a chain for which there is one. -/
def ruleFor? (book : RuleBook) (chain : List ElementRule) (name : String) (kind : ValueKind)
    (raw : String) : Option AttributeRule :=
  chain.findSome? fun r => book.matchAttribute? r.id name kind raw

/-- Applies the best rule for one attribute. Attributes without any rule are not even read. -/
def applyAttribute (setting : Setting α) (file : String) (chain : List ElementRule) (node : Nat)
    (scope : Scope) (name raw : String) : Compile α Unit := do
  if name ≠ Attributes.styleName ∧ setting.book.knows name then
    let tag := scope.here.element.tag
    let v ← atElement file tag (some name) (setting.resources.read raw)
    match ruleFor? setting.book chain name v.kind raw with
    | none => pure ()
    | some rule =>
      -- A value counts as used once a rule applies, even if no emission shows it.
      modify fun s => { s with used := v.keys.foldl TextSet.add s.used }
      let written := rule.emit.forM (emit setting node scope v)
      fun s => (written s).mapError (Failure.within file tag (some name))

/-- Applies the best rules for several attributes, in order. -/
def applyAttributes (setting : Setting α) (file : String) (chain : List ElementRule) (node : Nat)
    (scope : Scope) (attributes : Attributes) : Compile α Unit :=
  attributes.entries.forM fun (name, raw) =>
    applyAttribute setting file chain node scope name raw

end Compile

end LayoutCompiler
