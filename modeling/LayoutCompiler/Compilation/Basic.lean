import LayoutCompiler.Layout.Container
import LayoutCompiler.Options
import LayoutCompiler.Rule.Book
import LayoutCompiler.Tree.Basic
/-!
# Compilations

What becomes of one layout file: its tree, and the outlets by which generated code reaches into it.
Variants of one layout are merged into the first one.
-/

namespace LayoutCompiler

/-- A name by which generated code reaches a node. -/
structure Outlet where
  name : String
  typeName : String
  /-- The node; none when only other variants have one. -/
  node : Option Nat
  /-- Whether some variant is without it. -/
  isOptional : Bool := false
deriving Repr, DecidableEq

/-- What has become of a layout file. -/
structure Compilation (α : Type) where
  /-- The name of the layout. -/
  name : String
  file : String
  tree : Tree α
  outlets : List Outlet := []
  /-- The keys of the named resources that the output uses. -/
  used : TextSet := SortedMap.empty
  elementCount : Nat := 0
  /-- How many nodes were put around elements for their attributes. -/
  wrapperCount : Nat := 0
  /-- How many nodes were added by layout. -/
  syntheticCount : Nat := 0

namespace Compilation

variable {α : Type}

/-- How many constraints there are. -/
def constraintCount (t : Compilation α) : Nat := t.tree.constraints.length

/-- The outlet with a name. -/
def outlet? (t : Compilation α) (name : String) : Option Outlet :=
  t.outlets.find? fun o => o.name == name

/-- The name of the layout in a file: what stands between the last slash and the first point after
it. -/
def nameOf (file : String) : String :=
  let last := (Text.cut (fun c => c == '/' || c == '\\') file.toList).getLast?.getD []
  String.ofList (last.takeWhile (· != '.'))

/-! ## Variants -/

/-- The outlets of several compilations that are not among some names, one for each name. -/
def newOutlets (known : List String) : List Outlet → List Outlet
  | [] => []
  | o :: os =>
    if known.contains o.name then newOutlets known os
    else { o with node := none, isOptional := true } :: newOutlets (o.name :: known) os

/-- A compilation with other variants of its layout: outlets that some variant lacks are optional,
and those that only other variants have are added without a node. -/
def merge (primary : Compilation α) (others : List (Compilation α)) : Compilation α :=
  if others.isEmpty then primary
  else
    let declaredByAll (name : String) : Bool := others.all fun v => (v.outlet? name).isSome
    let own := primary.outlets.map fun o =>
      if declaredByAll o.name then o else { o with isOptional := true }
    { primary with
      outlets := own ++ newOutlets (own.map (·.name)) (others.flatMap (·.outlets))
      used := others.foldl (fun used v => used.union v.used) primary.used }

end Compilation

end LayoutCompiler
