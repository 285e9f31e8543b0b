import LayoutCompiler.Proofs.Data.Records
import LayoutCompiler.Proofs.Markup.Nesting
/-!
# Rows of events

A document is read as a row of events, and the row as markup: from a start tag to its end tag it is
one element with its content, whatever the depth, and at the top of the document text is passed
over. The reader keeps the elements that are open; what it has read is told by them, the innermost
one with the content that it has so far (`Opened`).

* `Opened.step`, `Opened.run`: one event, and by induction all events, for every row.
* `run_row`: markup adds what it is to what is open.
* `ofEvents_eq_ok_iff`: which rows make a tree, and which one.
-/

namespace LayoutCompiler.Markup

mutual

/-- Markup is read as a row of events: from a tag to its end tag, or one text. -/
inductive Fragment.Row : Fragment → List Event → Prop
  | element {tag : String} {attributes : Attributes} {content : List Fragment} {row : List Event}
      (h : RowOf content row) :
      Fragment.Row (.element tag attributes.entries content)
        (.start tag attributes :: row ++ [.finish tag])
  | void (tag : String) (attributes : Attributes) :
      Fragment.Row (.void tag attributes.entries) [.void tag attributes]
  | text {raw : String} {cs : List Char} (h : decode raw.toList = some cs) :
      Fragment.Row (.text (String.ofList cs)) [.text raw]
  | verbatim (s : String) : Fragment.Row (.text s) [.verbatim s]

/-- The content of an element is read as one row after the other. -/
inductive RowOf : List Fragment → List Event → Prop
  | nil : RowOf [] []
  | cons {f : Fragment} {fs : List Fragment} {row rows : List Event} (h : f.Row row)
      (hrest : RowOf fs rows) : RowOf (f :: fs) (row ++ rows)

end

/-- A document is read as the rows of the elements at its top. Text between them is passed over,
even if its references are malformed. -/
inductive Document : List Fragment → List Event → Prop
  | nil : Document [] []
  | text {fs : List Fragment} {rows : List Event} (raw : String) (h : Document fs rows) :
      Document fs (.text raw :: rows)
  | verbatim {fs : List Fragment} {rows : List Event} (s : String) (h : Document fs rows) :
      Document fs (.verbatim s :: rows)
  | element {f : Fragment} {fs : List Fragment} {row rows : List Event} (h : f.Row row)
      (htag : f.isText = false) (hrest : Document fs rows) : Document (f :: fs) (row ++ rows)

variable {f : Fragment} {fs gs : List Fragment} {row rows rows' events : List Event}
  {n n' : Nesting}

/-! ## Putting rows together -/

theorem RowOf.append (h : RowOf fs rows) (h' : RowOf gs rows') :
    RowOf (fs ++ gs) (rows ++ rows') := by
  induction fs generalizing rows with
  | nil =>
    cases h
    exact h'
  | cons f fs ih =>
    cases h with
    | cons hrow hrest =>
      rw [List.append_assoc]
      exact .cons hrow (ih hrest)

theorem RowOf.snoc (h : RowOf fs rows) (hrow : f.Row row) : RowOf (fs ++ [f]) (rows ++ row) := by
  have hsingle : RowOf [f] (row ++ []) := .cons hrow .nil
  rw [List.append_nil] at hsingle
  exact h.append hsingle

theorem Document.append (h : Document fs rows) (h' : Document gs rows') :
    Document (fs ++ gs) (rows ++ rows') := by
  induction h with
  | nil => exact h'
  | text raw _ ih => exact .text raw ih
  | verbatim s _ ih => exact .verbatim s ih
  | element hrow htag _ ih =>
    rw [List.append_assoc]
    exact .element hrow htag ih

theorem Document.snoc (h : Document fs rows) (hrow : f.Row row) (htag : f.isText = false) :
    Document (fs ++ [f]) (rows ++ row) := by
  have hsingle : Document [f] (row ++ []) := .element hrow htag .nil
  rw [List.append_nil] at hsingle
  exact h.append hsingle

/-- Markup that is no text adds one element and no text. -/
theorem exists_element (htag : f.isText = false) : ∃ e, f.elements = [e] ∧ f.said = "" := by
  cases f with
  | element name attributes content => exact ⟨_, rfl, rfl⟩
  | void name attributes => exact ⟨_, rfl, rfl⟩
  | text s => cases htag

/-! ## What is open -/

/-- What the reader keeps tells what it has read: the elements at the top, of which the last one is
the root, and the open elements with their content so far. -/
inductive Opened : List Event → Nesting → Prop
  | top {fs : List Fragment} {events : List Event} (h : Document fs events) :
      Opened events ⟨[], (elementsIn fs).getLast?⟩
  | element {events row : List Event} {n : Nesting} {content : List Fragment} (tag : String)
      (attributes : Attributes) (h : Opened events n) (hcontent : RowOf content row) :
      Opened (events ++ .start tag attributes :: row)
        ⟨{ tag, attributes, children := elementsIn content, text := saidIn content } :: n.pending,
          n.root⟩

theorem saidIn_append (fs gs : List Fragment) : saidIn (fs ++ gs) = saidIn fs ++ saidIn gs := by
  induction fs with
  | nil => simp [saidIn]
  | cons f fs ih => rw [List.cons_append, saidIn, saidIn, ih, String.append_assoc]

theorem elementsIn_single (f : Fragment) : elementsIn [f] = f.elements := by
  rw [elementsIn, elementsIn, List.append_nil]

theorem saidIn_single (f : Fragment) : saidIn [f] = f.said := by
  rw [saidIn, saidIn, String.append_empty]

theorem Nesting.receive_element (n : Nesting) (tag : String) (attributes : Attributes)
    (content : List Fragment) : n.receive (.element tag attributes.entries content) =
      n.attach { tag, attributes, children := elementsIn content, text := saidIn content } := by
  rw [receive, Fragment.elements, SortedMap.ofList, SortedMap.foldl_entries]
  exact addText_empty _

theorem Nesting.receive_void (n : Nesting) (tag : String) (attributes : Attributes) :
    n.receive (.void tag attributes.entries) = n.attach { tag, attributes } := by
  rw [receive, Fragment.elements, SortedMap.ofList, SortedMap.foldl_entries]
  exact addText_empty _

/-- An end tag ends the innermost open element, which has its name. -/
theorem finish_cases {e : Element} {rest : List Element} {root : Option Element} {tag : String}
    (h : Nesting.step ⟨e :: rest, root⟩ (.finish tag) = .ok n') :
    e.tag = tag ∧ n' = Nesting.attach ⟨rest, root⟩ e := by
  by_cases htag : e.tag = tag
  · subst htag
    exact ⟨rfl, (Except.ok.inj ((step_finish e rest root).symm.trans h)).symm⟩
  · simp only [Nesting.step, if_neg htag] at h
    cases h

namespace Opened

/-- Markup that is complete belongs to the innermost open element, or stands at the top. -/
theorem receive (h : Opened events n) (hrow : f.Row row)
    (hopen : f.isText = true → n.pending ≠ []) : Opened (events ++ row) (n.receive f) := by
  cases h with
  | @top fs _ h =>
    -- no text is kept outside the root, where nothing is pending
    have htag : f.isText = false := Bool.eq_false_iff.2 fun htext => hopen htext rfl
    obtain ⟨e, he, hsaid⟩ := exists_element htag
    have hreceive : Nesting.receive ⟨[], (elementsIn fs).getLast?⟩ f =
        ⟨[], (elementsIn (fs ++ [f])).getLast?⟩ := by
      rw [elementsIn_append, elementsIn_single, he, List.getLast?_concat, Nesting.receive, he,
        hsaid]
      exact Nesting.addText_empty _
    rw [hreceive]
    exact .top (h.snoc hrow htag)
  | @element events row' n content tag attributes h hcontent =>
    rw [Nesting.receive_cons, List.append_assoc, List.cons_append]
    have hopened := Opened.element tag attributes h (hcontent.snoc hrow)
    rw [elementsIn_append, elementsIn_single, saidIn_append, saidIn_single] at hopened
    exact hopened

/-- Text at the top is passed over. -/
theorem skip (h : Opened events n) (hnil : n.pending = []) {event : Event}
    (hevent : Document [] [event]) : Opened (events ++ [event]) n := by
  cases h with
  | @top fs _ h =>
    have hdocument := h.append hevent
    rw [List.append_nil] at hdocument
    exact .top hdocument
  | element => cases hnil

/-- One event. -/
theorem step {event : Event} (h : Opened events n) (hstep : n.step event = .ok n') :
    Opened (events ++ [event]) n' := by
  cases event with
  | start tag attributes =>
    cases hstep
    exact .element tag attributes h .nil
  | void tag attributes =>
    cases hstep
    rw [← Nesting.receive_void n tag attributes]
    exact h.receive (.void tag attributes) fun htext => nomatch htext
  | finish tag =>
    cases h with
    | top => cases hstep
    | @element events row n content tag' attributes h hcontent =>
      obtain ⟨rfl, rfl⟩ := finish_cases hstep
      -- the open element is complete: its row goes on to its end tag
      have hreceive := Nesting.receive_element n tag' attributes content
      rw [← hreceive, List.append_assoc]
      exact h.receive (.element hcontent) fun htext => nomatch htext
  | text raw =>
    by_cases hnil : n.pending = []
    · simp only [Nesting.step, hnil, List.isEmpty_nil, if_true] at hstep
      cases hstep
      exact h.skip hnil (.text raw .nil)
    · cases hdecode : decode raw.toList with
      | none =>
        simp only [Nesting.step, List.isEmpty_iff, hnil, hdecode, if_false] at hstep
        cases hstep
      | some cs =>
        simp only [Nesting.step, List.isEmpty_iff, hnil, hdecode, if_false] at hstep
        cases hstep
        exact h.receive (.text hdecode) fun _ => hnil
  | verbatim s =>
    cases hstep
    by_cases hnil : n.pending = []
    · rw [Nesting.addText, hnil]
      exact h.skip hnil (.verbatim s .nil)
    · exact h.receive (.verbatim s) fun _ => hnil

/-- All events. -/
theorem run (h : Opened events n) (hrun : row.foldlM Nesting.step n = .ok n') :
    Opened (events ++ row) n' := by
  induction row generalizing events n with
  | nil =>
    cases hrun
    rwa [List.append_nil]
  | cons event row ih =>
    rw [List.foldlM_cons] at hrun
    obtain ⟨n₁, hstep, hrun⟩ := bind_eq_ok_iff.1 hrun
    rw [List.append_cons]
    exact ih (h.step hstep) hrun

end Opened

/-! ## Reading rows -/

theorem foldlM_single (n : Nesting) (event : Event) :
    [event].foldlM Nesting.step n = n.step event := bind_pure _

mutual

/-- Markup adds its elements and its text to what is open. -/
theorem run_row : ∀ {f : Fragment} {row : List Event}, f.Row row → ∀ n : Nesting,
    (f.isText = true → n.pending ≠ []) → row.foldlM Nesting.step n = .ok (n.receive f)
  | _, _, @Fragment.Row.element tag attributes content row h, n, _ => by
    have hcontent := run_rowOf h { tag, attributes } n.pending n.root
    -- the start tag opens the element, its content is received by it, and the end tag attaches it
    rw [List.cons_append, List.foldlM_cons]
    show (row ++ [Event.finish tag]).foldlM Nesting.step
      ⟨{ tag, attributes } :: n.pending, n.root⟩ = _
    rw [List.foldlM_append, hcontent, Nesting.receive_element]
    show [Event.finish tag].foldlM Nesting.step _ = _
    rw [foldlM_single]
    exact step_finish _ n.pending n.root
  | _, _, .void tag attributes, n, _ => by
    rw [foldlM_single, Nesting.receive_void]
    rfl
  | _, _, @Fragment.Row.text raw cs h, n, hopen => by
    rw [foldlM_single]
    simp only [Nesting.step, List.isEmpty_iff, hopen rfl, h, if_false]
    rfl
  | _, _, .verbatim s, n, _ => foldlM_single n (.verbatim s)

theorem run_rowOf : ∀ {fs : List Fragment} {rows : List Event}, RowOf fs rows →
    ∀ (e : Element) (rest : List Element) (root : Option Element),
      rows.foldlM Nesting.step ⟨e :: rest, root⟩ =
        .ok ⟨e.holding (elementsIn fs) (saidIn fs) :: rest, root⟩
  | _, _, .nil, e, rest, root => by
    rw [elementsIn, saidIn, Element.holding_nil]
    rfl
  | _, _, @RowOf.cons f fs row rows h hrest, e, rest, root => by
    have hfirst := run_row h ⟨e :: rest, root⟩ fun _ => List.cons_ne_nil e rest
    rw [List.foldlM_append, hfirst, Nesting.receive_cons]
    show rows.foldlM Nesting.step _ = _
    rw [run_rowOf hrest, Element.holding_holding]
    rfl

end

/-- At the top each element takes the place of the one before it. -/
theorem Document.run (h : Document fs events) (root : Option Element) :
    events.foldlM Nesting.step ⟨[], root⟩ = .ok ⟨[], (elementsIn fs).getLast?.or root⟩ := by
  induction h generalizing root with
  | nil => rfl
  | text raw _ ih => exact ih root
  | verbatim s _ ih => exact ih root
  | @element f fs row rows hrow htag _ ih =>
    obtain ⟨e, he, hsaid⟩ := exists_element htag
    have hfirst := run_row hrow ⟨[], root⟩ fun htext => absurd htext (by simp [htag])
    have hreceive : Nesting.receive ⟨[], root⟩ f = ⟨[], some e⟩ := by
      rw [Nesting.receive, he, hsaid]
      exact Nesting.addText_empty _
    rw [List.foldlM_append, hfirst, hreceive]
    show rows.foldlM Nesting.step _ = _
    rw [ih, elementsIn, he, List.singleton_append, List.getLast?_cons]
    cases (elementsIn fs).getLast? <;> rfl

/-- The rows that make a tree are those of elements one behind the other, with text between them
that is passed over; the tree is that of the last one. -/
theorem ofEvents_eq_ok_iff {root : Element} : ofEvents events = .ok root ↔
    ∃ fs, Document fs events ∧ (elementsIn fs).getLast? = some root := by
  unfold ofEvents
  constructor
  · intro h
    cases hrun : events.foldlM Nesting.step {} with
    | error detail =>
      rw [hrun] at h
      cases h
    | ok n =>
      -- the state after the run tells which document has been read
      have hopened := Opened.run (.top .nil) hrun
      rw [hrun] at h
      cases hopened with
      | @top fs _ hdocument =>
        refine ⟨fs, hdocument, ?_⟩
        cases hroot : (elementsIn fs).getLast? with
        | none => simp [hroot] at h
        | some e =>
          rw [hroot] at h
          exact congrArg some (Except.ok.inj h)
      | element => simp at h
  · rintro ⟨fs, hdocument, hroot⟩
    have hrun := hdocument.run none
    rw [hroot] at hrun
    rw [show events.foldlM Nesting.step {} = _ from hrun]
    rfl

/-- The documents that make a tree. -/
theorem parse_eq_ok_iff {document file : String} {root : Element} :
    parse document file = .ok root ↔ ∃ es, Markup.events document = .ok es ∧
      ∃ fs, Document fs es ∧ (elementsIn fs).getLast? = some root := by
  have hplaced : ∀ r : Except MarkupFault Element,
      r.mapError (Failure.markup file) = .ok root ↔ r = .ok root := by
    intro r
    cases r <;> simp [Except.mapError]
  unfold parse
  cases Markup.events document with
  | error detail => simp
  | ok es => simp only [hplaced, ofEvents_eq_ok_iff, Except.ok.injEq, exists_eq_left']

end LayoutCompiler.Markup
