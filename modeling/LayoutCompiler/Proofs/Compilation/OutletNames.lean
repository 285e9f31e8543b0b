import LayoutCompiler.Proofs.Compilation.Outlets
/-!
# Names of outlets

An outlet is named for the id of its element, whatever outlets there are already. So the ids that a
layout declares determine the names of its outlets, one for each and in the same order.

* `names_element`: what an element and those inside it add to the names.
* `names_of_ofElement`: the names of the outlets of a compilation.
-/

namespace LayoutCompiler

namespace Element

mutual

/-- The ids that an element and those inside it declare, in the order of the document. -/
def ids : Element → List String
  | ⟨tag, attributes, children, text⟩ =>
    (id? ⟨tag, attributes, children, text⟩).toList ++ idsAll children

/-- The ids that are declared by the elements of a list and those inside them. -/
def idsAll : List Element → List String
  | [] => []
  | e :: es => e.ids ++ idsAll es

end

end Element

variable {α : Type} [Scalar α] {setting : Setting α} {file : String}

namespace Compile

variable {e : Element} {around : Option Scope} {parent : Option Nat} {depth : WrapDepth}
  {p : Prepared α} {placed : Placed} {s s₁ : Pass α}

theorem element_of_prepare (h : prepare setting file e around = .ok p) :
    p.scope.here.element = e := by
  obtain ⟨merged, -, -, -, hscope⟩ := run_prepare h
  rw [hscope]
  cases around <;> rfl

theorem names_opening
    (h : opening setting file e around parent depth s = .ok ((p, placed), s₁)) :
    s₁.outlets.map (·.name) = s.outlets.map (·.name) ++ e.id?.toList.map Text.camelCase := by
  obtain ⟨hprepare, s₂, s₃, hmade, hdeclare, hheld⟩ := keeps_opening h
  obtain ⟨-, declared, houtlets, hnames, -⟩ := run_declareOutlet hdeclare
  rw [hheld.outlets, houtlets, List.map_append, hnames, hmade.outlets,
    element_of_prepare hprepare]

mutual

/-- An element adds the names for the ids that are declared in it. -/
theorem names_element : ∀ (e : Element) (around : Option Scope) (parent : Option Nat)
    (depth : WrapDepth) (s s' : Pass α) (child : Child α),
    element setting file e around parent depth s = .ok (child, s') →
    s'.outlets.map (·.name) = s.outlets.map (·.name) ++ e.ids.map Text.camelCase
  | ⟨tag, attributes, es, text⟩, around, parent, depth, s, s', child, hrun => by
    obtain ⟨p, placed, s₁, inside, s₂, hopening, helements, harrange, -⟩ := run_element hrun
    have hown := names_opening hopening
    have hinside := names_elements es p.scope placed.inner _ s₁ s₂ inside helements
    have harranged := keeping_arrangeChildren setting p placed inside s₂ _ s' harrange
    rw [harranged.outlets, hinside, hown, Element.ids, List.map_append, List.append_assoc]

/-- The elements of a list add theirs one after another. -/
theorem names_elements : ∀ (es : List Element) (around : Scope) (x : Nat) (depth : WrapDepth)
    (s s' : Pass α) (children : List (Child α)),
    elements setting file es around x depth s = .ok (children, s') →
    s'.outlets.map (·.name) = s.outlets.map (·.name) ++ (Element.idsAll es).map Text.camelCase
  | [], around, x, depth, s, s', children, hrun => by
    unfold elements at hrun
    cases hrun
    rw [Element.idsAll, List.map_nil, List.append_nil]
  | e :: es, around, x, depth, s, s', children, hrun => by
    obtain ⟨child, s₁, rest, helement, helements, -⟩ := run_elements_cons hrun
    have hfirst := names_element e (some around) (some x) depth s s₁ child helement
    have hrest := names_elements es around x depth s₁ s' rest helements
    rw [hrest, hfirst, Element.idsAll, List.map_append, List.append_assoc]

end

end Compile

namespace Compilation

variable {root : Element} {c : Compilation α}

/-- The outlets of a compilation are named for the ids that its layout declares. -/
theorem names_of_ofElement (h : ofElement setting file root = .ok c) :
    c.outlets.map (·.name) = root.ids.map Text.camelCase := by
  rcases ofElement_cases setting file root with ⟨child, s, hrun, -, hok⟩ | ⟨e, herror, -⟩
  · rw [hok] at h
    obtain rfl := Except.ok.inj h
    exact Compile.names_element root none none {} (start file) s child hrun
  · rw [herror] at h
    cases h

end Compilation

end LayoutCompiler
