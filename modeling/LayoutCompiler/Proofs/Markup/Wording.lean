import LayoutCompiler.Proofs.Markup.Elements
import LayoutCompiler.Resource.Definition
/-!
# The order of text

The character data of an element is that which stands directly in it, and then that of its children,
one after the other. Every text inside of the element is part of it once (`ownFirst_perm`), but in
the order in which the texts stand only as long as no text of an element stands behind a child in
which there is text (`Fragment.Flows`).

* `textContent_elements`: the character data of the elements that markup is read as.
* `join_ownFirst`: by induction over markup, when its texts keep their order.
* `exists_rowAt`: by induction over rows, the row of every element inside of one.
* `keepsText`: the character data of every element of a tree.
* `strings_addValues`: the strings that a tree defines.
* `textContent_of_parse`: a document as a whole.
-/

namespace LayoutCompiler.Markup

/-- The character data of an event, with its references decoded. -/
def Event.said? : Event → Option String
  | .text raw => (decode raw.toList).map String.ofList
  | .verbatim s => some s
  | .start .. | .void .. | .finish _ => none

/-- The character data of events, in the order in which it stands. -/
def saidOf (events : List Event) : List String := events.filterMap Event.said?

theorem saidOf_append (events events' : List Event) :
    saidOf (events ++ events') = saidOf events ++ saidOf events' := List.filterMap_append

/-- The text that markup is. -/
def Fragment.text? : Fragment → Option String
  | .text s => some s
  | .element .. | .void .. => none

/-- The texts that stand directly in an element with this content. -/
def ownTexts (content : List Fragment) : List String := content.filterMap Fragment.text?

mutual

/-- The texts inside of markup, in the order in which they stand. -/
def Fragment.texts : Fragment → List String
  | .element _ _ content => textsIn content
  | .void .. => []
  | .text s => [s]

/-- The texts inside of an element with this content. -/
def textsIn : List Fragment → List String
  | [] => []
  | f :: fs => f.texts ++ textsIn fs

end

mutual

/-- The texts inside of an element, those directly in it before those in its children. -/
def Fragment.ownFirst : Fragment → List String
  | .element _ _ content => ownTexts content ++ childTexts content
  | .void .. | .text _ => []

/-- The texts in the children among this content, one child after the other. -/
def childTexts : List Fragment → List String
  | [] => []
  | f :: fs => f.ownFirst ++ childTexts fs

end

mutual

/-- No text stands behind a child of the same element in which there is text. -/
def Fragment.Flows : Fragment → Prop
  | .element _ _ content => ContentFlows content
  | .void .. | .text _ => True

/-- The same of the content of an element. -/
def ContentFlows : List Fragment → Prop
  | [] => True
  | f :: fs =>
    f.Flows ∧ (f.isText = true ∨ String.join f.texts = "" ∨ String.join (ownTexts fs) = "") ∧
      ContentFlows fs

end

variable {f : Fragment} {fs : List Fragment} {row rows events events' : List Event}
  {e root : Element} {front front' back : List Element}

/-! ## Character data -/

theorem saidIn_eq (fs : List Fragment) : saidIn fs = String.join (ownTexts fs) := by
  induction fs with
  | nil => rfl
  | cons f fs ih =>
    rw [saidIn, ih]
    cases f with
    | text s => exact String.join_cons.symm
    | element | void => exact String.empty_append

theorem textContentAll_append (es es' : List Element) : Element.textContentAll (es ++ es') =
    Element.textContentAll es ++ Element.textContentAll es' := by
  induction es with
  | nil => exact String.empty_append.symm
  | cons e es ih =>
    rw [List.cons_append, Element.textContentAll, ih, Element.textContentAll, String.append_assoc]

mutual

/-- The character data of the elements that markup is read as. -/
theorem textContent_elements : ∀ f : Fragment,
    Element.textContentAll f.elements = String.join f.ownFirst
  | .element name attributes content => by
    rw [Fragment.elements, Element.textContentAll, Element.textContent, saidIn_eq,
      textContent_elementsIn content, Fragment.ownFirst, String.join_append]
    exact String.append_empty
  | .void name attributes => rfl
  | .text s => rfl

theorem textContent_elementsIn : ∀ fs : List Fragment,
    Element.textContentAll (elementsIn fs) = String.join (childTexts fs)
  | [] => rfl
  | f :: fs => by
    rw [elementsIn, textContentAll_append, textContent_elements f, textContent_elementsIn fs,
      childTexts, String.join_append]

end

theorem textContent_of_elements (h : f.elements = [e]) :
    e.textContent = String.join f.ownFirst := by
  rw [← textContent_elements, h, Element.textContentAll]
  exact String.append_empty.symm

/-! ## The order of texts -/

theorem ownTexts_cons (htag : f.isText = false) (fs : List Fragment) :
    ownTexts (f :: fs) = ownTexts fs := by
  cases f with
  | text s => cases htag
  | element | void => rfl

mutual

/-- Every text inside of an element is part of its character data once. -/
theorem ownFirst_perm : ∀ f : Fragment, f.isText = false → f.ownFirst.Perm f.texts
  | .element _ _ content, _ => ownTexts_perm content
  | .void .., _ => .refl _

theorem ownTexts_perm : ∀ fs : List Fragment, (ownTexts fs ++ childTexts fs).Perm (textsIn fs)
  | [] => .refl _
  | .text s :: fs => (ownTexts_perm fs).cons s
  | .element _ _ content :: fs =>
    -- the texts of the child go in front of those that stand behind it
    (List.perm_append_comm_assoc _ _ _).trans
      ((ownTexts_perm content).append (ownTexts_perm fs))
  | .void .. :: fs => ownTexts_perm fs

end

mutual

/-- The texts of an element keep their order where none stands behind a child with text. -/
theorem join_ownFirst : ∀ f : Fragment, f.isText = false → f.Flows →
    String.join f.ownFirst = String.join f.texts
  | .element _ _ content, _, hflows => by
    rw [Fragment.ownFirst, String.join_append, Fragment.texts]
    exact join_ownTexts content hflows
  | .void .., _, _ => rfl

theorem join_ownTexts : ∀ fs : List Fragment, ContentFlows fs →
    String.join (ownTexts fs) ++ String.join (childTexts fs) = String.join (textsIn fs)
  | [], _ => rfl
  | f :: fs, ⟨hf, hbehind, hflows⟩ => by
    have hrest := join_ownTexts fs hflows
    rw [childTexts, String.join_append, textsIn, String.join_append, ← hrest]
    cases htext : f.isText with
    | true =>
      cases f with
      | text s =>
        show String.join (s :: ownTexts fs) ++ ("" ++ _) = String.join [s] ++ _
        rw [String.join_cons, String.empty_append, String.append_assoc]
        simp
      | element | void => cases htext
    | false =>
      rw [join_ownFirst f htext hf, ownTexts_cons htext]
      -- the texts behind the child go in front of its own, and one of both says nothing
      rcases hbehind with htext' | hempty | hempty
      · rw [htext] at htext'
        cases htext'
      · rw [hempty, String.empty_append, String.empty_append]
      · rw [hempty, String.empty_append, String.empty_append]

end

mutual

/-- The character data of the events of a row is the text of the markup. -/
theorem saidOf_row : ∀ {f : Fragment} {row : List Event}, f.Row row → saidOf row = f.texts
  | _, _, .element h => by
    rw [Fragment.texts, ← saidOf_rowOf h, List.cons_append]
    show saidOf (_ ++ [Event.finish _]) = _
    rw [saidOf_append]
    exact List.append_nil _
  | _, _, .void tag attributes => rfl
  | _, _, @Fragment.Row.text raw cs h => by simp [saidOf, Event.said?, Fragment.texts, h]
  | _, _, .verbatim s => rfl

theorem saidOf_rowOf : ∀ {fs : List Fragment} {rows : List Event}, RowOf fs rows →
    saidOf rows = textsIn fs
  | _, _, .nil => rfl
  | _, _, .cons h hrest => by rw [saidOf_append, saidOf_row h, saidOf_rowOf hrest, textsIn]

end

/-! ## The row of an element -/

/-- The row of an element among events: in front of it stand the tags of the elements that begin
before the element, and no others. -/
structure RowAt (events : List Event) (front : List Element) (e : Element) (f : Fragment)
    (row : List Event) : Prop where
  reads : f.Row row
  elements : f.elements = [e]
  place : ∃ before after, events = before ++ row ++ after ∧
    openings before = front.map Element.opening

theorem RowAt.behind (h : RowAt events front e f row)
    (hfront : openings events' = front'.map Element.opening) :
    RowAt (events' ++ events) (front' ++ front) e f row := by
  obtain ⟨before, after, hevents, hbefore⟩ := h.place
  refine ⟨h.reads, h.elements, events' ++ before, after, ?_, ?_⟩
  · rw [hevents]
    simp only [List.append_assoc]
  · rw [openings_append, hfront, hbefore, List.map_append]

theorem RowAt.inFrontOf (h : RowAt events front e f row) (events' : List Event) :
    RowAt (events ++ events') front e f row := by
  obtain ⟨before, after, hevents, hbefore⟩ := h.place
  refine ⟨h.reads, h.elements, before, after ++ events', ?_, hbefore⟩
  rw [hevents]
  simp only [List.append_assoc]

/-- An element of two lists is one of the first, or one of the second. -/
theorem split_append {es es' : List Element} (h : es ++ es' = front ++ e :: back) :
    (∃ back', es = front ++ e :: back') ∨
      ∃ front', front = es ++ front' ∧ es' = front' ++ e :: back := by
  rcases List.append_eq_append_iff.1 h with ⟨mid, hfront, hes'⟩ | ⟨mid, hes, hback⟩
  · exact .inr ⟨mid, hfront, hes'⟩
  · cases mid with
    | nil =>
      rw [List.append_nil] at hes
      exact .inr ⟨[], by rw [hes, List.append_nil], hback.symm⟩
    | cons e' mid =>
      rw [List.cons_append, List.cons.injEq] at hback
      obtain ⟨rfl, -⟩ := hback
      exact .inl ⟨mid, hes⟩

mutual

/-- Every element that markup is read as has a row of its own in that of the markup. -/
theorem exists_rowAt : ∀ {f : Fragment} {row : List Event}, f.Row row →
    ∀ {front : List Element} {e : Element} {back : List Element},
      Element.inOrderAll f.elements = front ++ e :: back → ∃ g sub, RowAt row front e g sub
  | _, _, @Fragment.Row.element tag attributes content row h, front, e, back, hplace => by
    rw [Fragment.elements, Element.inOrderAll_single, Element.inOrder] at hplace
    cases front with
    | nil =>
      obtain ⟨rfl, -⟩ := List.cons.inj hplace
      exact ⟨_, _, .element h, rfl, [], [], (List.append_nil _).symm, rfl⟩
    | cons e' front =>
      obtain ⟨rfl, hinside⟩ := List.cons.inj hplace
      -- the element is further inside, and its row between the two tags of this one
      obtain ⟨g, sub, hsub⟩ := exists_rowAt_content h hinside
      have hstart : openings [Event.start tag attributes] =
          [(⟨tag, attributes, elementsIn content, saidIn content⟩ : Element)].map
            Element.opening := rfl
      have hbehind := (hsub.behind hstart).inFrontOf [.finish tag]
      rw [SortedMap.ofList, SortedMap.foldl_entries]
      exact ⟨g, sub, hbehind⟩
  | _, _, .void tag attributes, front, e, back, hplace => by
    cases front with
    | nil =>
      obtain ⟨rfl, -⟩ := List.cons.inj hplace
      exact ⟨_, _, .void tag attributes, rfl, [], [], rfl, rfl⟩
    | cons e' front =>
      obtain ⟨-, hinside⟩ := List.cons.inj hplace
      cases front <;> cases hinside
  | _, _, .text _, front, e, back, hplace => by cases front <;> cases hplace
  | _, _, .verbatim s, front, e, back, hplace => by cases front <;> cases hplace

theorem exists_rowAt_content : ∀ {fs : List Fragment} {rows : List Event}, RowOf fs rows →
    ∀ {front : List Element} {e : Element} {back : List Element},
      Element.inOrderAll (elementsIn fs) = front ++ e :: back → ∃ g sub, RowAt rows front e g sub
  | _, _, .nil, front, e, back, hplace => by cases front <;> cases hplace
  | _, _, .cons h hrest, front, e, back, hplace => by
    rw [elementsIn, Element.inOrderAll_append] at hplace
    rcases split_append hplace with ⟨back', hfirst⟩ | ⟨front', rfl, hsecond⟩
    · obtain ⟨g, sub, hsub⟩ := exists_rowAt h hfirst
      exact ⟨g, sub, hsub.inFrontOf _⟩
    · obtain ⟨g, sub, hsub⟩ := exists_rowAt_content hrest hsecond
      exact ⟨g, sub, hsub.behind (openings_row h)⟩

end

/-- The same at the top of a document. -/
theorem exists_rowAt_document (h : Document fs rows)
    (hplace : Element.inOrderAll (elementsIn fs) = front ++ e :: back) :
    ∃ g sub, RowAt rows front e g sub := by
  induction h generalizing front with
  | nil => cases front <;> cases hplace
  | text raw _ ih =>
    obtain ⟨g, sub, hsub⟩ := ih hplace
    have htext : openings [.text raw] = ([] : List Element).map Element.opening := rfl
    exact ⟨g, sub, hsub.behind htext⟩
  | verbatim s _ ih =>
    obtain ⟨g, sub, hsub⟩ := ih hplace
    have htext : openings [.verbatim s] = ([] : List Element).map Element.opening := rfl
    exact ⟨g, sub, hsub.behind htext⟩
  | element h htag hrest ih =>
    rw [elementsIn, Element.inOrderAll_append] at hplace
    -- in the first of the fragments or in one behind it
    rcases split_append hplace with ⟨back', hfirst⟩ | ⟨front', rfl, hsecond⟩
    · obtain ⟨g, sub, hsub⟩ := exists_rowAt h hfirst
      exact ⟨g, sub, hsub.inFrontOf _⟩
    · obtain ⟨g, sub, hsub⟩ := ih hsecond
      exact ⟨g, sub, hsub.behind (openings_row h)⟩

/-! ## Strings -/

/-- Whether an element defines a string under a name. -/
def definesString (name : String) (e : Element) : Bool :=
  e.attribute? "name" == some name && RawResources.kindOf e == "string"

variable {α : Type}

theorem strings_define (raw : RawResources α) (name : String) (e : Element) :
    (raw.define name e).strings =
      if RawResources.kindOf e = "string" then raw.strings.insert name e.textContent
      else raw.strings := by
  unfold RawResources.define
  split <;> simp_all

/-- A string is the character data of the last element that defines it. -/
theorem strings_addValues (raw : RawResources α) (document : Element) (name : String) :
    (raw.addValues document).strings.get? name =
      ((document.children.filter (definesString name)).getLast?.map Element.textContent).or
        (raw.strings.get? name) := by
  unfold RawResources.addValues
  induction document.children generalizing raw with
  | nil => rfl
  | cons e es ih =>
    rw [List.foldl_cons, ih, List.filter_cons]
    cases hname : e.attribute? "name" with
    | none => simp [definesString, hname]
    | some name' =>
      simp only [strings_define, definesString, hname]
      by_cases hkind : RawResources.kindOf e = "string" <;> by_cases heq : name' = name <;>
        simp [hkind, heq, List.getLast?_cons]

/-! ## Documents -/

/-- What the character data of every element of a tree is that events are read as, where some
elements stand in front of the tree: each text between the tags of the element once, first those
that stand directly in it, in their order, and then those of its children, one child after the
other. It is the text as it is written if no text stands behind a child with text. -/
def KeepsText (events : List Event) (lost : List Element) (root : Element) : Prop :=
  ∀ front e back, root.inOrder = front ++ e :: back →
    ∃ f row, RowAt events (Element.inOrderAll lost ++ front) e f row ∧
      e.textContent = String.join f.ownFirst ∧ f.ownFirst.Perm (saidOf row) ∧
      (f.Flows → e.textContent = String.join (saidOf row))

theorem keepsText {lost : List Element} (h : Document fs events)
    (hlost : elementsIn fs = lost ++ [root]) : KeepsText events lost root := by
  intro front e back hplace
  have hall : Element.inOrderAll (elementsIn fs) =
      (Element.inOrderAll lost ++ front) ++ e :: back := by
    rw [hlost, Element.inOrderAll_append, Element.inOrderAll_single, hplace, List.append_assoc]
  obtain ⟨f, row, hrow⟩ := exists_rowAt_document h hall
  have htag : f.isText = false := by
    cases f with
    | text s => cases hrow.elements
    | element | void => rfl
  have hcontent := textContent_of_elements hrow.elements
  refine ⟨f, row, hrow, hcontent, ?_, fun hflows => ?_⟩
  · rw [saidOf_row hrow.reads]
    exact ownFirst_perm f htag
  · rw [hcontent, saidOf_row hrow.reads]
    exact join_ownFirst f htag hflows

/-- The character data of every element of a document is made of the texts inside of it, and a
string that the document defines is the character data of the last element that defines it. -/
theorem textContent_of_parse {document file : String} {root : Element}
    (h : parse document file = .ok root) :
    ∃ es fs lost, Markup.events document = .ok es ∧ Document fs es ∧
      elementsIn fs = lost ++ [root] ∧ KeepsText es lost root ∧
      ∀ (raw : RawResources α) (name : String),
        (raw.addValues root).strings.get? name =
          ((root.children.filter (definesString name)).getLast?.map Element.textContent).or
            (raw.strings.get? name) := by
  obtain ⟨es, hevents, fs, hdocument, hroot⟩ := parse_eq_ok_iff.1 h
  obtain ⟨lost, hlost⟩ := List.getLast?_eq_some_iff.1 hroot
  exact ⟨es, fs, lost, hevents, hdocument, hlost, keepsText hdocument hlost,
    fun raw name => strings_addValues raw root name⟩

/-- A string with markup in the middle. -/
def interrupted : String :=
  "<resources><string name=\"s\">one <b>two</b> three</string></resources>"

/-- What stands between the tags of its root. -/
def interruptedContent : List Event :=
  [.start "string" (SortedMap.empty.insert "name" "s"), .text "one", .start "b" SortedMap.empty,
    .text "two", .finish "b", .text "three", .finish "string"]

/-- Its root has three elements inside of it, itself included, and three texts. -/
theorem textContent_of_parse_interrupted : ∃ root, parse interrupted "strings.xml" = .ok root ∧
    root.inOrder.map Element.textContent = ["onethreetwo", "onethreetwo", "two"] ∧
    ∃ es fs lost, Markup.events interrupted = .ok es ∧ Document fs es ∧
      elementsIn fs = lost ++ [root] ∧ KeepsText es lost root ∧
      ∀ (raw : RawResources Rat) (name : String),
        (raw.addValues root).strings.get? name =
          ((root.children.filter (definesString name)).getLast?.map Element.textContent).or
            (raw.strings.get? name) := by
  have htexts : (parse interrupted "strings.xml").toOption.any (fun root =>
      root.inOrder.map Element.textContent == ["onethreetwo", "onethreetwo", "two"]) = true := by
    decide +kernel
  obtain ⟨root, hparse, htexts⟩ := exists_ok htexts
  exact ⟨root, hparse, beq_iff_eq.1 htexts, textContent_of_parse hparse⟩

/-- The texts inside of the root are not put together in the order in which they stand, and the
string that is read does not have them in that order. -/
theorem not_textContent_as_written : ∃ root,
    Markup.events interrupted =
      .ok (.start "resources" SortedMap.empty :: interruptedContent ++ [.finish "resources"]) ∧
    parse interrupted "strings.xml" = .ok root ∧
    saidOf interruptedContent = ["one", "two", "three"] ∧
    root.textContent = "onethreetwo" ∧ root.textContent ≠ String.join (saidOf interruptedContent) ∧
    (RawResources.addValues ({} : RawResources Rat) root).strings.get? "s" =
      some "onethreetwo" := by
  have hread : (parse interrupted "strings.xml").toOption.any (fun root =>
      root.textContent == "onethreetwo" &&
        (RawResources.addValues ({} : RawResources Rat) root).strings.get? "s" ==
          some "onethreetwo") = true := by
    decide +kernel
  obtain ⟨root, hparse, hread⟩ := exists_ok hread
  obtain ⟨htext, hstring⟩ := Bool.and_eq_true_iff.1 hread
  have htext : root.textContent = "onethreetwo" := beq_iff_eq.1 htext
  have hwritten : root.textContent ≠ String.join (saidOf interruptedContent) := by
    rw [htext]
    decide +kernel
  exact ⟨root, rfl, hparse, by decide +kernel, htext, hwritten, beq_iff_eq.1 hstring⟩

end LayoutCompiler.Markup
