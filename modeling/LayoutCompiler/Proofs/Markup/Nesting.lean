import LayoutCompiler.Markup.Document
import LayoutCompiler.Proofs.Markup.Reading
/-!
# Trees read back

Markup is read back as the elements that it is made of, with the text that stands in each of them
put together. Where one text stands next to another one they could not be told apart, and the
blanks between them would be lost; markup without such neighbours is `Legible`.

* `run_pieces`: reading the pieces of markup adds its elements and its text to what is open.
* `parse_write`: a written element is read back.
-/

namespace LayoutCompiler

/-- An element with more children and more text behind those that it has. -/
def Element.holding (e : Element) (children : List Element) (text : String) : Element :=
  { e with children := e.children ++ children, text := e.text ++ text }

theorem Element.holding_nil (e : Element) : e.holding [] "" = e := by
  cases e
  simp [holding]

theorem Element.holding_holding (e : Element) (es es' : List Element) (s s' : String) :
    (e.holding es s).holding es' s' = e.holding (es ++ es') (s ++ s') := by
  simp [holding, String.append_assoc]

namespace Markup

/-- Whether markup is text. -/
def Fragment.isText : Fragment → Bool
  | .text _ => true
  | _ => false

/-- The text that markup adds to the element around it. -/
def Fragment.said : Fragment → String
  | .text s => s
  | _ => ""

/-- The text that stands directly in an element with this content. -/
def saidIn : List Fragment → String
  | [] => ""
  | f :: fs => f.said ++ saidIn fs

mutual

/-- The elements that markup adds to the element around it. -/
def Fragment.elements : Fragment → List Element
  | .element name attributes content =>
    [{ tag := name, attributes := SortedMap.ofList attributes, children := elementsIn content,
       text := saidIn content }]
  | .void name attributes => [{ tag := name, attributes := SortedMap.ofList attributes }]
  | .text _ => []

/-- The elements that stand directly in an element with this content. -/
def elementsIn : List Fragment → List Element
  | [] => []
  | f :: fs => f.elements ++ elementsIn fs

end

mutual

/-- What markup must be so that it is read back. -/
def Fragment.Legible : Fragment → Prop
  | .element name attributes content => LegibleTag name attributes ∧ LegibleContent content
  | .void name attributes => LegibleTag name attributes
  | .text s => Text.trimBy Text.isMarkupBlank s.toList = s.toList

/-- What content must be so that it is read back: no text stands next to another one. -/
def LegibleContent : List Fragment → Prop
  | [] => True
  | f :: fs =>
    f.Legible ∧ (f.isText = true → ∀ g ∈ fs.head?, g.isText = false) ∧ LegibleContent fs

end

variable {f : Fragment} {fs : List Fragment}

theorem elementsIn_append (fs gs : List Fragment) :
    elementsIn (fs ++ gs) = elementsIn fs ++ elementsIn gs := by
  induction fs with
  | nil => rfl
  | cons f fs ih => rw [List.cons_append, elementsIn, ih, elementsIn, List.append_assoc]

/-- Content without text. -/
theorem legibleContent_of_tags (h : ∀ f ∈ fs, f.Legible ∧ f.isText = false) :
    LegibleContent fs ∧ saidIn fs = "" := by
  induction fs with
  | nil => exact ⟨trivial, rfl⟩
  | cons f fs ih =>
    obtain ⟨⟨hf, htag⟩, hfs⟩ := List.forall_mem_cons.1 h
    obtain ⟨hcontent, hsaid⟩ := ih hfs
    refine ⟨⟨hf, fun htext => absurd htext (by simp [htag]), hcontent⟩, ?_⟩
    rw [saidIn, hsaid, String.append_empty]
    cases f with
    | text s => cases htag
    | element | void => rfl

/-! ## The pieces of legible markup -/

/-- Markup that is no text begins with a tag. -/
theorem exists_pieces (h : f.isText = false) : ∃ q qs, f.pieces = q :: qs ∧ q.isText = false := by
  cases f with
  | element name attributes content => exact ⟨_, _, rfl, rfl⟩
  | void name attributes => exact ⟨_, _, rfl, rfl⟩
  | text s => cases h

/-- What follows a text in legible content is a tag. -/
theorem exists_behind (hnext : ∀ g ∈ fs.head?, g.isText = false) {q : Piece}
    (hq : q.isText = false) (ps : List Piece) :
    ∃ q' qs, piecesOf fs ++ q :: ps = q' :: qs ∧ q'.isText = false := by
  cases fs with
  | nil => exact ⟨q, ps, rfl, hq⟩
  | cons g fs =>
    obtain ⟨q', qs, hpieces, hq'⟩ := exists_pieces (hnext g rfl)
    rw [piecesOf, hpieces]
    exact ⟨q', _, rfl, hq'⟩

mutual

theorem legible_pieces : ∀ f : Fragment, f.Legible → ∀ p ∈ f.pieces, p.Legible
  | .element name attributes content, ⟨htag, hcontent⟩, p, hp => by
    rw [Fragment.pieces, List.mem_append, List.mem_cons, List.mem_singleton] at hp
    rcases hp with (rfl | hp) | rfl
    · exact htag
    · exact legible_piecesOf content hcontent p hp
    · exact htag.name
  | .void name attributes, htag, p, hp => by
    rw [Fragment.pieces, List.mem_singleton] at hp
    exact hp ▸ htag
  | .text s, htrim, p, hp => by
    rw [Fragment.pieces, List.mem_singleton] at hp
    exact hp ▸ htrim

theorem legible_piecesOf : ∀ fs : List Fragment, LegibleContent fs → ∀ p ∈ piecesOf fs, p.Legible
  | [], _, p, hp => nomatch hp
  | f :: fs, ⟨hf, _, hfs⟩, p, hp => by
    rw [piecesOf, List.mem_append] at hp
    rcases hp with hp | hp
    · exact legible_pieces f hf p hp
    · exact legible_piecesOf fs hfs p hp

end

mutual

theorem parted_pieces : ∀ f : Fragment, f.Legible → ∀ ps : List Piece, Piece.Parted ps →
    (f.isText = true → ∃ q qs, ps = q :: qs ∧ q.isText = false) → Piece.Parted (f.pieces ++ ps)
  | .element name attributes content, ⟨_, hcontent⟩, ps, hps, _ => by
    rw [Fragment.pieces, List.append_assoc, List.cons_append]
    exact ⟨fun htext => (nomatch htext), parted_piecesOf content hcontent (.finish name) rfl ps hps⟩
  | .void name attributes, _, ps, hps, _ => ⟨fun htext => (nomatch htext), hps⟩
  | .text s, _, ps, hps, hbehind => ⟨fun _ => hbehind rfl, hps⟩

theorem parted_piecesOf : ∀ fs : List Fragment, LegibleContent fs → ∀ q : Piece,
    q.isText = false → ∀ ps : List Piece, Piece.Parted ps → Piece.Parted (piecesOf fs ++ q :: ps)
  | [], _, q, hq, ps, hps => ⟨fun htext => absurd htext (by simp [hq]), hps⟩
  | f :: fs, ⟨hf, hnext, hfs⟩, q, hq, ps, hps => by
    rw [piecesOf, List.append_assoc]
    exact parted_pieces f hf _ (parted_piecesOf fs hfs q hq ps hps)
      fun htext => exists_behind (hnext htext) hq ps

end

/-! ## Nesting -/

namespace Nesting

/-- What is open after markup has been read. -/
def receive (n : Nesting) (f : Fragment) : Nesting := (f.elements.foldl attach n).addText f.said

theorem addText_empty (n : Nesting) : n.addText "" = n := by
  obtain ⟨pending, root⟩ := n
  cases pending with
  | nil => rfl
  | cons e rest =>
    cases e
    simp [addText]

/-- Inside of an element it receives what is read. -/
theorem receive_cons (e : Element) (rest : List Element) (root : Option Element) (f : Fragment) :
    receive ⟨e :: rest, root⟩ f = ⟨e.holding f.elements f.said :: rest, root⟩ := by
  cases f with
  | element name attributes content => rfl
  | void name attributes => rfl
  | text s => simp [receive, addText, Element.holding, Fragment.elements, Fragment.said]

end Nesting

/-- What is open after pieces have been read. -/
def run (n : Nesting) (ps : List Piece) : Reading Nesting :=
  (ps.filterMap Piece.event?).foldlM Nesting.step n

theorem run_append (n : Nesting) (ps qs : List Piece) :
    run n (ps ++ qs) = (run n ps).bind fun n' => run n' qs := by
  unfold run
  rw [List.filterMap_append, List.foldlM_append]
  rfl

theorem run_single (n : Nesting) {p : Piece} {event : Event} (h : p.event? = some event) :
    run n [p] = n.step event := by
  unfold run
  rw [List.filterMap_cons_some h, List.filterMap_nil, List.foldlM_cons]
  exact bind_pure _

theorem step_finish (e : Element) (rest : List Element) (root : Option Element) :
    Nesting.step ⟨e :: rest, root⟩ (.finish e.tag) = .ok (Nesting.attach ⟨rest, root⟩ e) :=
  if_pos rfl

theorem step_text {n : Nesting} (h : n.pending ≠ []) (s : String) :
    n.step (.text (escape s)) = .ok (n.addText s) := by
  have hopen : n.pending.isEmpty = false := by simpa using h
  unfold Nesting.step
  simp only [hopen, escape, String.toList_ofList, decode_escape, String.ofList_toList,
    Bool.false_eq_true, if_false]

mutual

/-- Reading markup adds its elements and its text to what is open. -/
theorem run_pieces : ∀ (f : Fragment) (n : Nesting), (f.isText = true → n.pending ≠ []) →
    run n f.pieces = .ok (n.receive f)
  | .element name attributes content, n, _ => by
    have hcontent := run_piecesOf content { tag := name, attributes := SortedMap.ofList attributes }
      n.pending n.root
    have hpieces : (Fragment.element name attributes content).pieces =
        [.start name attributes] ++ piecesOf content ++ [.finish name] := by
      rw [Fragment.pieces, List.singleton_append]
    -- the start tag opens the element, its content is received by it, and the end tag attaches it
    rw [hpieces, run_append, run_append, run_single n rfl]
    show (run _ (piecesOf content)).bind _ = _
    rw [hcontent]
    show run _ [Piece.finish name] = _
    rw [run_single _ rfl]
    exact (step_finish _ n.pending n.root).trans (congrArg Except.ok (Nesting.addText_empty _).symm)
  | .void name attributes, n, _ => by
    rw [Fragment.pieces, run_single n rfl]
    exact congrArg Except.ok (Nesting.addText_empty _).symm
  | .text s, n, hopen => by
    rw [Fragment.pieces]
    by_cases hs : s = ""
    · subst hs
      exact congrArg Except.ok (Nesting.addText_empty n).symm
    · have hevent : (Piece.text s).event? = some (.text (escape s)) := if_neg hs
      rw [run_single n hevent]
      exact step_text (hopen rfl) s

theorem run_piecesOf : ∀ (fs : List Fragment) (e : Element) (rest : List Element)
    (root : Option Element), run ⟨e :: rest, root⟩ (piecesOf fs) =
      .ok ⟨e.holding (elementsIn fs) (saidIn fs) :: rest, root⟩
  | [], e, rest, root => by
    rw [piecesOf, elementsIn, saidIn, Element.holding_nil]
    rfl
  | f :: fs, e, rest, root => by
    have hf := run_pieces f ⟨e :: rest, root⟩ fun _ => List.cons_ne_nil e rest
    rw [piecesOf, run_append, hf, Nesting.receive_cons]
    show run _ (piecesOf fs) = _
    rw [run_piecesOf fs, Element.holding_holding]
    rfl

end

/-- A written element is read back, with the line feed behind it. -/
theorem parse_write (width : Nat) {e : Element} (hlegible : f.Legible) (helement : f.elements = [e])
    (file : String) : parse (write width f.pieces ++ "\n") file = .ok e := by
  have htag : f.isText = false := by
    cases f with
    | element name attributes content => rfl
    | void name attributes => rfl
    | text s => cases helement
  have hpieces := legible_pieces f hlegible
  have hparted : Piece.Parted f.pieces := by
    have h := parted_pieces f hlegible [] trivial fun htext => absurd htext (by simp [htag])
    rwa [List.append_nil] at h
  have hchars : (write width f.pieces ++ "\n").toList =
      (writePieces width {} f.pieces).flatMap String.toList ++ ['\n'] := by
    rw [String.toList_append, write, String.toList_join]
    rfl
  have hreads : Reads (write width f.pieces ++ "\n").toList (f.pieces.filterMap Piece.event?) := by
    rw [hchars]
    exact reads_writePieces width hpieces hparted (List.forall_mem_singleton.2 rfl) {}
  -- what is written begins with a tag, so that there is no byte order mark
  have hmark : ((write width f.pieces ++ "\n").toList.head? == some '\uFEFF') = false := by
    obtain ⟨q, qs, hqs, hq⟩ := exists_pieces htag
    rw [hqs] at hpieces
    obtain ⟨xs, hxs⟩ := exists_open width (hpieces q List.mem_cons_self) hq qs (m := {}) rfl
    rw [hchars, hqs, hxs]
    show (some '<' == some '\uFEFF') = false
    decide
  have hrun : (f.pieces.filterMap Piece.event?).foldlM Nesting.step {} =
      .ok { pending := [], root := some e } := by
    have h := run_pieces f {} fun htext => absurd htext (by simp [htag])
    unfold Nesting.receive at h
    rw [helement] at h
    exact h
  unfold parse events
  simp only [hmark, Bool.false_eq_true, if_false]
  rw [hreads _ (Nat.lt_succ_self _)]
  simp only [ofEvents, hrun]
  rfl

end Markup

end LayoutCompiler
