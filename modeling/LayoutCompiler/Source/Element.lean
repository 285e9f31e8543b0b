import LayoutCompiler.Attributes
/-!
# Source elements

The tree that a document is read into, and the places of its elements during compilation.
-/

namespace LayoutCompiler

/-- An element of a document: its tag, its attributes, its children and the character data that
stands directly inside it. -/
structure Element where
  tag : String
  attributes : Attributes := SortedMap.empty
  children : List Element := []
  text : String := ""

namespace Element

/-- The id an element declares. -/
def id? (e : Element) : Option String :=
  (e.attributes.get? Attributes.idName).map Attributes.bareId

mutual

/-- How many elements a tree has, its root included. -/
def count : Element → Nat
  | ⟨_, _, children, _⟩ => 1 + countAll children

/-- How many elements the trees of a list have. -/
def countAll : List Element → Nat
  | [] => 0
  | e :: es => e.count + countAll es

end

mutual

/-- The character data of an element followed by that of its descendants. -/
def textContent : Element → String
  | ⟨_, _, children, text⟩ => text ++ textContentAll children

/-- The character data of the trees of a list. -/
def textContentAll : List Element → String
  | [] => ""
  | e :: es => e.textContent ++ textContentAll es

end

end Element

/-- An element as compilation sees it: with the attributes it has together with its styles. -/
structure Frame where
  element : Element
  attributes : Attributes

/-- An element and those around it, nearest first. -/
structure Scope where
  here : Frame
  around : List Frame

namespace Scope

/-- The scope of the element around this one. -/
def parent? (s : Scope) : Option Scope :=
  match s.around with
  | [] => none
  | f :: fs => some ⟨f, fs⟩

/-- The scope of an element inside another one, or of a root. -/
def enter (outer : Option Scope) (f : Frame) : Scope :=
  match outer with
  | none => ⟨f, []⟩
  | some s => ⟨f, s.here :: s.around⟩

/-- The element and those around it. -/
def frames (s : Scope) : List Frame := s.here :: s.around

end Scope

end LayoutCompiler
