import LayoutCompiler.Markup.Writer
/-!
# Tags

The tags that open the elements of written markup, with their attributes, in the order in which
they stand. An element without content has one tag, which closes it, too.

* `tags_element`, `mem_tagsOf`: the tags of markup are those of its parts.
-/

namespace LayoutCompiler.Markup

/-- A tag that opens an element: the name, and the attributes as they are written. -/
abbrev Tag := String × List (String × String)

/-- No attribute is written twice in a tag. -/
def Tag.Distinct (tag : Tag) : Prop := (tag.2.map Prod.fst).Nodup

instance (tag : Tag) : Decidable tag.Distinct := inferInstanceAs (Decidable (List.Nodup _))

/-- The tag that a piece opens an element with. -/
def Piece.tag? : Piece → Option Tag
  | .start name attributes | .void name attributes => some (name, attributes)
  | .declaration | .finish _ | .text _ => none

/-- The tags of pieces. -/
def tagsIn (ps : List Piece) : List Tag := ps.filterMap Piece.tag?

/-- The tags of markup. -/
def Fragment.tags (f : Fragment) : List Tag := tagsIn f.pieces

/-- The tags of the markup of a list. -/
def tagsOf (fs : List Fragment) : List Tag := tagsIn (piecesOf fs)

variable {f : Fragment} {fs : List Fragment} {tag : Tag}

theorem tagsIn_append (ps qs : List Piece) : tagsIn (ps ++ qs) = tagsIn ps ++ tagsIn qs :=
  List.filterMap_append

@[simp] theorem tagsOf_nil : tagsOf [] = [] := rfl

@[simp] theorem tagsOf_cons (f : Fragment) (fs : List Fragment) :
    tagsOf (f :: fs) = f.tags ++ tagsOf fs := by
  rw [tagsOf, piecesOf, tagsIn_append, Fragment.tags, tagsOf]

@[simp] theorem tagsOf_append (fs gs : List Fragment) :
    tagsOf (fs ++ gs) = tagsOf fs ++ tagsOf gs := by
  induction fs with
  | nil => rfl
  | cons f fs ih => rw [List.cons_append, tagsOf_cons, ih, tagsOf_cons, List.append_assoc]

@[simp] theorem tags_element (name : String) (attributes : List (String × String))
    (content : List Fragment) :
    (Fragment.element name attributes content).tags = (name, attributes) :: tagsOf content := by
  rw [Fragment.tags, Fragment.pieces, List.cons_append, ← List.singleton_append, tagsIn_append,
    tagsIn_append]
  exact congrArg (_ :: ·) (List.append_nil _)

@[simp] theorem tags_void (name : String) (attributes : List (String × String)) :
    (Fragment.void name attributes).tags = [(name, attributes)] := rfl

theorem mem_tagsOf : tag ∈ tagsOf fs ↔ ∃ f ∈ fs, tag ∈ f.tags := by
  induction fs with
  | nil => simp
  | cons f fs ih => simp [ih]

/-- The tags of markup that is written for the items of a list. -/
theorem mem_tagsOf_flatMap {β : Type} {xs : List β} {write : β → List Fragment} :
    tag ∈ tagsOf (xs.flatMap write) ↔ ∃ x ∈ xs, tag ∈ tagsOf (write x) := by
  induction xs with
  | nil => simp
  | cons x xs ih => simp [ih]

/-- A text that may stand in front of content opens no element. -/
@[simp] theorem tagsOf_text (text : Option String) :
    tagsOf (text.map Fragment.text).toList = [] := by
  cases text <;> rfl

end LayoutCompiler.Markup
