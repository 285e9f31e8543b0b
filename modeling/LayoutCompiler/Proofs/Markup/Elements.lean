import LayoutCompiler.Proofs.Markup.Rows
import LayoutCompiler.Proofs.Markup.WrittenTags
/-!
# Tags and elements

Each tag that opens an element in a document is one element, and the elements of a tree have the
order of their tags (`Element.inOrder`). Of several elements at the top of a document only the last
one is kept, with everything inside of it; the others are lost.

* `openings_row`, `openings_document`: by induction over markup, the tags of a row are those of its
  elements.
* `elements_of_parse`: the tags of a document and the elements of its tree.
-/

namespace LayoutCompiler

namespace Element

mutual

/-- The elements of a tree, in the order in which they begin. -/
def inOrder : Element → List Element
  | ⟨tag, attributes, children, text⟩ => ⟨tag, attributes, children, text⟩ :: inOrderAll children

/-- The elements of the trees of a list. -/
def inOrderAll : List Element → List Element
  | [] => []
  | e :: es => e.inOrder ++ inOrderAll es

end

mutual

theorem length_inOrder : ∀ e : Element, e.inOrder.length = e.count
  | ⟨_, _, children, _⟩ => by
    rw [inOrder, List.length_cons, length_inOrderAll children, count, Nat.add_comm]

theorem length_inOrderAll : ∀ es : List Element, (inOrderAll es).length = countAll es
  | [] => rfl
  | e :: es => by
    rw [inOrderAll, List.length_append, length_inOrder e, length_inOrderAll es, countAll]

end

theorem inOrderAll_append (es es' : List Element) :
    inOrderAll (es ++ es') = inOrderAll es ++ inOrderAll es' := by
  induction es with
  | nil => rfl
  | cons e es ih => rw [List.cons_append, inOrderAll, ih, inOrderAll, List.append_assoc]

theorem inOrderAll_single (e : Element) : inOrderAll [e] = e.inOrder := by
  rw [inOrderAll, inOrderAll, List.append_nil]

/-- Every tree has an element. -/
theorem count_pos (e : Element) : 0 < e.count := by
  cases e
  rw [count]
  omega

/-- The tag of an element with its attributes. -/
def opening (e : Element) : String × Attributes := (e.tag, e.attributes)

end Element

namespace Markup

variable {fs : List Fragment} {rows : List Event}

mutual

/-- The tags of a row are those of the elements that it is read as. -/
theorem openings_row : ∀ {f : Fragment} {row : List Event}, f.Row row →
    openings row = (Element.inOrderAll f.elements).map Element.opening
  | _, _, @Fragment.Row.element tag attributes content row h => by
    have hcontent := openings_rowOf h
    rw [Fragment.elements, Element.inOrderAll_single, Element.inOrder, List.map_cons, ← hcontent,
      SortedMap.ofList, SortedMap.foldl_entries, List.cons_append]
    show (tag, attributes) :: openings (row ++ [.finish tag]) = _
    rw [openings_append]
    exact congrArg (_ :: ·) (List.append_nil _)
  | _, _, .void tag attributes => by
    rw [Fragment.elements, Element.inOrderAll_single, SortedMap.ofList, SortedMap.foldl_entries]
    rfl
  | _, _, .text _ => rfl
  | _, _, .verbatim _ => rfl

theorem openings_rowOf : ∀ {fs : List Fragment} {rows : List Event}, RowOf fs rows →
    openings rows = (Element.inOrderAll (elementsIn fs)).map Element.opening
  | _, _, .nil => rfl
  | _, _, .cons h hrest => by
    rw [openings_append, openings_row h, openings_rowOf hrest, elementsIn,
      Element.inOrderAll_append, List.map_append]

end

/-- The tags of a document are those of the elements at its top. -/
theorem openings_document (h : Document fs rows) :
    openings rows = (Element.inOrderAll (elementsIn fs)).map Element.opening := by
  induction h with
  | nil => rfl
  | text raw _ ih => exact ih
  | verbatim s _ ih => exact ih
  | element hrow _ _ ih =>
    rw [openings_append, openings_row hrow, ih, elementsIn, Element.inOrderAll_append,
      List.map_append]

/-- Each tag that opens an element in a document that makes a tree is one element of the tree, or
of an element in front of it at the top, in the order in which the tags stand in the text, and with
the attributes that are written in it. No tag is lost if and only if the root is the only element
at the top; then there are as many elements as tags. -/
theorem elements_of_parse {document file : String} {root : Element}
    (h : parse document file = .ok root) :
    ∃ es fs lost, events document = .ok es ∧ Document fs es ∧ elementsIn fs = lost ++ [root] ∧
      openings es = (Element.inOrderAll lost ++ root.inOrder).map Element.opening ∧
      ((openings es).length = root.count ↔ lost = []) ∧ Located document.toList es := by
  obtain ⟨es, hevents, fs, hdocument, hroot⟩ := parse_eq_ok_iff.1 h
  obtain ⟨lost, hlost⟩ := List.getLast?_eq_some_iff.1 hroot
  have hopenings := openings_document hdocument
  rw [hlost, Element.inOrderAll_append, Element.inOrderAll_single] at hopenings
  refine ⟨es, fs, lost, hevents, hdocument, hlost, hopenings, ?_, located_events hevents⟩
  rw [hopenings, List.length_map, List.length_append, Element.length_inOrder,
    Element.length_inOrderAll]
  -- every element that is lost has a tag of its own
  cases lost with
  | nil => simp [Element.countAll]
  | cons e lost =>
    have hpos := e.count_pos
    simp only [Element.countAll, reduceCtorEq, iff_false]
    omega

/-- Two elements at the top, the second one with a declaration, an attribute and a child. -/
def crowded : String := "<u/>\n<v xmlns:n=\"x\" n:k='&lt;'><w/></v>"

/-- Its tree has two of the three elements that its tags open. -/
theorem elements_of_parse_crowded : ∃ root, parse crowded "v.xml" = .ok root ∧ root.count = 2 ∧
    ∃ es fs lost, events crowded = .ok es ∧ (openings es).length = 3 ∧ Document fs es ∧
      elementsIn fs = lost ++ [root] ∧ lost ≠ [] ∧
      openings es = (Element.inOrderAll lost ++ root.inOrder).map Element.opening ∧
      Located crowded.toList es := by
  have hcount : (parse crowded "v.xml").toOption.any (fun root => root.count == 2) = true := by
    decide +kernel
  have htags : (events crowded).toOption.any (fun es => (openings es).length == 3) = true := by
    decide +kernel
  obtain ⟨root, hparse, hroot⟩ := exists_ok hcount
  have hroot : root.count = 2 := beq_iff_eq.1 hroot
  obtain ⟨es, fs, lost, hevents, hdocument, hlost, hopenings, hcounts, hlocated⟩ :=
    elements_of_parse hparse
  rw [hevents] at htags
  have hlength : (openings es).length = 3 := beq_iff_eq.1 htags
  refine ⟨root, hparse, hroot, es, fs, lost, hevents, hlength, hdocument, hlost, ?_, hopenings,
    hlocated⟩
  intro hnil
  have hcounts := hcounts.2 hnil
  omega

end Markup

end LayoutCompiler
