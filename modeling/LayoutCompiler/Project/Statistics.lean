import LayoutCompiler.Data.Datum
import LayoutCompiler.Compilation.Basic
/-!
# Statistics

What is counted while a project is compiled.
-/

namespace LayoutCompiler

/-- The counts of a project. -/
structure Statistics where
  /-- Layouts with output. -/
  layouts : Nat := 0
  /-- Layout files that were compiled, all variants included. -/
  variants : Nat := 0
  elements : Nat := 0
  /-- Nodes that were put around elements for their attributes. -/
  wrappers : Nat := 0
  /-- Nodes that were added by layout. -/
  synthetic : Nat := 0
  constraints : Nat := 0
  /-- Outlets of all bindings. -/
  outlets : Nat := 0
  /-- Distinct resources that the output uses. -/
  resources : Nat := 0
  /-- Files that were written. -/
  files : Nat := 0
  /-- One message for each layout file that failed. -/
  failures : List String := []
  /-- How long it took. -/
  milliseconds : Nat := 0
deriving Repr, DecidableEq

namespace Statistics

/-- How many layout files failed. -/
def failureCount (s : Statistics) : Nat := s.failures.length

/-- How many layout files there are. -/
def fileTotal (s : Statistics) : Nat := s.variants + s.failureCount

/-- The counts with those of a compiled file. -/
def addVariant {α : Type} (s : Statistics) (t : Compilation α) : Statistics :=
  { s with
    variants := s.variants + 1
    elements := s.elements + t.elementCount
    wrappers := s.wrappers + t.wrapperCount
    synthetic := s.synthetic + t.syntheticCount
    constraints := s.constraints + t.constraintCount }

/-- The counts with those of a layout whose variants are merged. -/
def addLayout {α : Type} (s : Statistics) (t : Compilation α) : Statistics :=
  { s with layouts := s.layouts + 1, outlets := s.outlets + t.outlets.length }

/-- The counts by name. -/
def counts (s : Statistics) : List (String × Nat) :=
  [("layout_count", s.layouts), ("variant_count", s.variants), ("element_count", s.elements),
   ("wrapper_count", s.wrappers), ("synthetic_count", s.synthetic),
   ("constraint_count", s.constraints), ("outlet_count", s.outlets),
   ("resource_count", s.resources), ("file_count", s.files), ("failure_count", s.failureCount)]

/-- The statistics as data. -/
def toDatum (s : Statistics) : Datum :=
  .table <|
    (s.counts.map fun (name, n) => (name, .nat n)) ++
      [("failures", .list (s.failures.map .string)), ("translate_time_ms", .nat s.milliseconds)]

end Statistics

end LayoutCompiler
