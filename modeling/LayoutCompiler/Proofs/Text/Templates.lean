import LayoutCompiler.Template
import Mathlib.Data.List.Chain
/-!
# Templates and the texts that denote them

A template is read from a text and displayed as one. The displayed text denotes the template again,
up to one thing: stretches of text that stand next to each other become one stretch. They come about
where a hole is not closed, since what is left of the hole is a stretch of its own.

* `proper_of_parse`: what the parts of a template that has been read are like.
* `parse_display`: a displayed template denotes the template with its stretches joined.
* `flatMap_joined`: joining stretches changes nothing that is made of them character by character.
* `parse_display_parse`: reading, displaying and reading again.
-/

namespace LayoutCompiler

/-! ## Parts -/

namespace Part

/-- Whether the part is a stretch of text. -/
def isText : Part → Bool
  | .literal _ => true
  | .hole _ => false

/-- A stretch is not empty, and neither is the path of a hole, which has no delimiter in it. -/
def Proper : Part → Prop
  | .literal text => text ≠ ""
  | .hole path => path ≠ "" ∧ Template.delimiter ∉ path.toList

/-- The characters that a character of a stretch is displayed as. -/
def quotedChar (c : Char) : List Char :=
  if c = Template.delimiter then [Template.delimiter, Template.delimiter] else [c]

/-- The characters that a part is displayed as. -/
def shown : Part → List Char
  | .literal text => text.toList.flatMap quotedChar
  | .hole path => Template.delimiter :: (path.toList ++ [Template.delimiter])

/-- The characters that a part is written as. -/
def written (resolve : String → Option String) : Part → List Char
  | .literal text => text.toList
  | .hole path => ((resolve path).getD "").toList

/-- The path of a hole. -/
def paths : Part → List String
  | .literal _ => []
  | .hole path => [path]

end Part

namespace Template

/-- No two stretches of text are next to each other. -/
def Spaced (t : Template) : Prop := t.parts.IsChain fun p q => (p.isText && q.isText) = false

instance (t : Template) : Decidable t.Spaced :=
  inferInstanceAs (Decidable (t.parts.IsChain fun p q => (p.isText && q.isText) = false))

/-- The parts with neighbouring stretches joined, after the characters of a stretch that has begun,
the last one first. -/
def joinedParts (begun : List Char) : List Part → List Part
  | [] => stretch begun
  | .literal text :: parts => joinedParts (text.toList.reverse ++ begun) parts
  | .hole path :: parts => stretch begun ++ .hole path :: joinedParts [] parts

/-- The template with neighbouring stretches joined. -/
def joined (t : Template) : Template := ⟨joinedParts [] t.parts⟩

/-! ## A template as a list of characters or of paths -/

theorem toList_quoted (text : String) : (quoted text).toList = (Part.literal text).shown := by
  unfold quoted Text.replace
  rw [String.toList_ofList, String.toList_ofList]
  rfl

theorem toList_display (t : Template) : t.display.toList = t.parts.flatMap Part.shown := by
  unfold display
  rw [String.toList_join, List.flatMap_map]
  congr 1
  funext p
  cases p with
  | literal text => exact toList_quoted text
  | hole path => simp [Part.shown]

theorem toList_write (t : Template) (resolve : String → Option String) :
    (t.write resolve).toList = t.parts.flatMap (Part.written resolve) := by
  unfold write
  rw [String.toList_join, List.flatMap_map]
  congr 1
  funext p
  cases p <;> rfl

theorem holes_eq (t : Template) : t.holes = t.parts.flatMap Part.paths := by
  unfold holes
  induction t.parts with
  | nil => rfl
  | cons p parts ih =>
    cases p with
    | literal text => exact ih
    | hole path => exact congrArg (path :: ·) ih

/-! ## Stretches -/

theorem stretch_reverse {text : String} (h : text ≠ "") :
    stretch text.toList.reverse = [.literal text] := by
  unfold stretch
  rw [if_neg (by simpa using h), List.reverse_reverse, String.ofList_toList]

theorem flatMap_stretch {β : Type} {f : Part → List β} {g : Char → List β}
    (hf : ∀ text, f (.literal text) = text.toList.flatMap g) (begun : List Char) :
    (stretch begun).flatMap f = begun.reverse.flatMap g := by
  cases begun with
  | nil => rfl
  | cons c cs =>
    have hstretch : stretch (c :: cs) = [.literal (String.ofList (c :: cs).reverse)] := rfl
    rw [hstretch, List.flatMap_singleton, hf, String.toList_ofList]

/-- Joining stretches changes nothing that is made of them character by character. -/
theorem flatMap_joined {β : Type} {f : Part → List β} {g : Char → List β}
    (hf : ∀ text, f (.literal text) = text.toList.flatMap g) (begun : List Char)
    (parts : List Part) :
    (joinedParts begun parts).flatMap f = begun.reverse.flatMap g ++ parts.flatMap f := by
  induction parts generalizing begun with
  | nil => simpa [joinedParts] using flatMap_stretch hf begun
  | cons p parts ih =>
    cases p with
    | literal text =>
      rw [joinedParts, ih, List.flatMap_cons, hf]
      simp
    | hole path =>
      rw [joinedParts, List.flatMap_append, flatMap_stretch hf, List.flatMap_cons, ih,
        List.flatMap_cons]
      rfl

theorem display_joined (t : Template) : t.joined.display = t.display := by
  apply String.toList_inj.1
  rw [toList_display, toList_display]
  exact flatMap_joined (fun _ => rfl) [] t.parts

theorem write_joined (t : Template) (resolve : String → Option String) :
    t.joined.write resolve = t.write resolve := by
  apply String.toList_inj.1
  rw [toList_write, toList_write]
  refine flatMap_joined (g := fun c => [c]) (fun text => ?_) [] t.parts
  simp [Part.written]

theorem holes_joined (t : Template) : t.joined.holes = t.holes := by
  rw [holes_eq, holes_eq]
  refine flatMap_joined (g := fun _ => []) (fun text => ?_) [] t.parts
  simp [Part.paths]

/-- Stretches that have been joined are not next to each other. -/
theorem spaced_joined (t : Template) : t.joined.Spaced := by
  -- generalised over the stretch that has been begun, which a hole ends
  have hall : ∀ (parts : List Part) (begun : List Char),
      (joinedParts begun parts).IsChain fun p q => (p.isText && q.isText) = false := by
    intro parts
    induction parts with
    | nil =>
      intro begun
      cases begun <;> simp [joinedParts, stretch]
    | cons p parts ih =>
      intro begun
      cases p with
      | literal text => exact ih (text.toList.reverse ++ begun)
      | hole path =>
        have hrest : (Part.hole path :: joinedParts [] parts).IsChain
            fun p q => (p.isText && q.isText) = false := by
          refine List.isChain_cons.2 ⟨?_, ih []⟩
          intro q _
          rfl
        cases begun with
        | nil => exact hrest
        | cons c cs =>
          refine List.isChain_cons_cons.2 ⟨?_, hrest⟩
          simp [Part.isText]
  exact hall t.parts []

/-- Where no stretches are next to each other, there is nothing to join. -/
theorem joined_eq_self {t : Template} (hproper : ∀ p ∈ t.parts, p.Proper) (h : t.Spaced) :
    t.joined = t := by
  -- no two texts stand side by side, so each stretch is one literal
  have hall : ∀ parts : List Part, (∀ p ∈ parts, p.Proper) →
      (parts.IsChain fun p q => (p.isText && q.isText) = false) →
      joinedParts [] parts = parts := by
    intro parts
    induction parts with
    | nil =>
      intro _ _
      rfl
    | cons p parts ih =>
      intro hproper hspaced
      have hrest := ih (fun q hq => hproper q (List.mem_cons_of_mem p hq)) hspaced.tail
      cases p with
      | hole path => exact congrArg (Part.hole path :: ·) hrest
      | literal text =>
        have htext : stretch text.toList.reverse = [.literal text] :=
          stretch_reverse (hproper _ List.mem_cons_self)
        cases parts with
        | nil => simpa [joinedParts] using htext
        | cons q parts =>
          cases q with
          | literal other => exact absurd hspaced.rel (by simp [Part.isText])
          | hole path =>
            have hbehind : joinedParts [] parts = parts := by
              simpa [joinedParts, stretch] using hrest
            simp [joinedParts, htext, hbehind]
  obtain ⟨parts⟩ := t
  exact congrArg Template.mk (hall parts hproper h)

/-! ## Reading -/

theorem literalParts_doubled (begun cs : List Char) :
    literalParts begun (delimiter :: delimiter :: cs) = literalParts (delimiter :: begun) cs := by
  simp [literalParts]

theorem literalParts_opening {c : Char} (hc : c ≠ delimiter) (begun cs : List Char) :
    literalParts begun (delimiter :: c :: cs) = stretch begun ++ holeParts [c] cs := by
  simp [literalParts, hc]

theorem literalParts_cons {c : Char} (hc : c ≠ delimiter) (begun cs : List Char) :
    literalParts begun (c :: cs) = literalParts (c :: begun) cs := by
  conv_lhs => unfold literalParts
  exact if_neg hc

theorem proper_stretch {begun : List Char} : ∀ p ∈ stretch begun, p.Proper := by
  intro p hp
  cases begun with
  | nil => cases hp
  | cons c cs =>
    rw [List.mem_singleton.1 hp]
    simp [Part.Proper]

/-- The parts that are read are proper, also after a stretch or a hole that has begun. -/
theorem proper_parts :
    (∀ begun cs, ∀ p ∈ literalParts begun cs, p.Proper) ∧
    ∀ begun cs, begun ≠ [] → delimiter ∉ begun → ∀ p ∈ holeParts begun cs, p.Proper := by
  refine literalParts.mutual_induct (fun begun cs => ∀ p ∈ literalParts begun cs, p.Proper)
    (fun begun cs => begun ≠ [] → delimiter ∉ begun → ∀ p ∈ holeParts begun cs, p.Proper)
    ?_ ?_ ?_ ?_ ?_ ?_ ?_ ?_
  · -- the text ends
    intro begun
    exact proper_stretch
  · -- a doubled delimiter belongs to the stretch
    intro begun ds ih
    rw [literalParts_doubled]
    exact ih
  · -- a delimiter opens a hole, whose path is not empty since another character follows
    intro begun d ds hd ih p hp
    rw [literalParts_opening hd] at hp
    rcases List.mem_append.1 hp with hp | hp
    · exact proper_stretch p hp
    · exact ih (by simp) (by simpa using Ne.symm hd) p hp
  · -- a delimiter at the very end is a stretch of its own
    intro begun p hp
    have hsplit : literalParts begun [delimiter] = stretch begun ++ stretch [delimiter] := rfl
    rw [hsplit] at hp
    exact (List.mem_append.1 hp).elim (proper_stretch p) (proper_stretch p)
  · -- any other character goes on with the stretch
    intro begun c cs hc ih
    rw [literalParts_cons hc]
    exact ih
  · -- a hole that is not closed is a stretch, with its delimiter
    intro begun _ _ p hp
    rw [List.mem_singleton.1 hp]
    simp [Part.Proper]
  · -- a delimiter closes the hole
    intro begun cs ih hne hmem p hp
    simp only [holeParts, if_true, List.mem_cons] at hp
    rcases hp with rfl | hp
    · exact ⟨by simpa using hne, by simpa using hmem⟩
    · exact ih p hp
  · -- any other character goes on with the path
    intro begun c cs hc ih _ hmem p hp
    simp only [holeParts, hc, if_false] at hp
    exact ih (by simp) (by simp [Ne.symm hc, hmem]) p hp

theorem proper_of_parse (raw : String) : ∀ p ∈ (parse raw).parts, p.Proper :=
  proper_parts.1 [] raw.toList

/-- A text with every delimiter doubled is read as a stretch. -/
theorem literalParts_quoted (text begun rest : List Char) :
    literalParts begun (text.flatMap Part.quotedChar ++ rest) =
      literalParts (text.reverse ++ begun) rest := by
  induction text generalizing begun with
  | nil => rfl
  | cons c cs ih =>
    have hstep : literalParts begun (Part.quotedChar c ++ (cs.flatMap Part.quotedChar ++ rest)) =
        literalParts (c :: begun) (cs.flatMap Part.quotedChar ++ rest) := by
      unfold Part.quotedChar
      by_cases hc : c = delimiter
      · subst hc
        exact literalParts_doubled begun _
      · rw [if_neg hc]
        exact literalParts_cons hc begun _
    rw [List.flatMap_cons, List.append_assoc, hstep, ih]
    simp

/-- What is left of a path up to its delimiter is read as a hole. -/
theorem holeParts_path {path : List Char} (h : delimiter ∉ path) (begun rest : List Char) :
    holeParts begun (path ++ delimiter :: rest) =
      .hole (String.ofList (begun.reverse ++ path)) :: literalParts [] rest := by
  induction path generalizing begun with
  | nil => simp [holeParts]
  | cons c cs ih =>
    obtain ⟨hc, hcs⟩ := not_or.1 (mt List.mem_cons.2 h)
    rw [List.cons_append, holeParts, if_neg (Ne.symm hc), ih hcs]
    simp

/-- What is displayed of proper parts is read as these parts, with stretches joined. -/
theorem literalParts_shown {parts : List Part} (h : ∀ p ∈ parts, p.Proper) (begun : List Char) :
    literalParts begun (parts.flatMap Part.shown) = joinedParts begun parts := by
  induction parts generalizing begun with
  | nil => simp [literalParts, joinedParts]
  | cons p parts ih =>
    have hrest : ∀ q ∈ parts, q.Proper := fun q hq => h q (List.mem_cons_of_mem p hq)
    rw [List.flatMap_cons]
    cases p with
    | literal text =>
      rw [Part.shown, literalParts_quoted, ih hrest]
      rfl
    | hole path =>
      obtain ⟨hne, hmem⟩ : path ≠ "" ∧ delimiter ∉ path.toList := h _ List.mem_cons_self
      obtain ⟨c, cs, hpath⟩ := List.exists_cons_of_ne_nil (mt String.toList_eq_nil_iff.1 hne)
      rw [hpath] at hmem
      obtain ⟨hc, hcs⟩ := not_or.1 (mt List.mem_cons.2 hmem)
      -- the delimiter in front opens the hole, since its path does not begin with another one
      have hopen : literalParts begun ((Part.hole path).shown ++ parts.flatMap Part.shown) =
          stretch begun ++ holeParts [c] (cs ++ delimiter :: parts.flatMap Part.shown) := by
        rw [Part.shown, hpath, List.cons_append, List.append_assoc]
        exact literalParts_opening (Ne.symm hc) begun _
      have hclosed : String.ofList ([c].reverse ++ cs) = path := by
        rw [List.reverse_singleton, List.singleton_append, ← hpath, String.ofList_toList]
      rw [hopen, holeParts_path hcs, hclosed, ih hrest]
      rfl

/-- A displayed template denotes the template with its stretches joined. -/
theorem parse_display {t : Template} (h : ∀ p ∈ t.parts, p.Proper) :
    parse t.display = t.joined := by
  unfold parse
  rw [toList_display, literalParts_shown h]
  rfl

/-- The template of a quoted text is a stretch of it. -/
theorem parts_ofText (text : String) : (ofText text).parts = stretch text.toList.reverse := by
  have hread := literalParts_quoted text.toList [] []
  rw [List.append_nil, List.append_nil] at hread
  unfold ofText parse
  rw [toList_quoted]
  exact hread

theorem holes_ofText (text : String) : (ofText text).holes = [] := by
  rw [holes_eq, parts_ofText, flatMap_stretch (g := fun _ => [])]
  · simp
  · intro text
    simp [Part.paths]

theorem write_ofText (text : String) (resolve : String → Option String) :
    (ofText text).write resolve = text := by
  apply String.toList_inj.1
  rw [toList_write, parts_ofText, flatMap_stretch (g := fun c => [c])]
  · simp
  · intro text
    simp [Part.written]

/-- A text that has been read is displayed as one that is displayed as itself, has the same holes
and is written as the same text; it denotes the very same template just if no two stretches of that
are next to each other. And a text can be made a template that has no hole and is written as it. -/
theorem parse_display_parse (raw : String) :
    (parse (parse raw).display).display = (parse raw).display ∧
    (parse (parse raw).display).holes = (parse raw).holes ∧
    (∀ resolve, (parse (parse raw).display).write resolve = (parse raw).write resolve) ∧
    (parse (parse raw).display = parse raw ↔ (parse raw).Spaced) ∧
    ∀ text, (ofText text).holes = [] ∧ ∀ resolve, (ofText text).write resolve = text := by
  have hproper := proper_of_parse raw
  rw [parse_display hproper]
  refine ⟨display_joined _, holes_joined _, write_joined _, ?_, ?_⟩
  · constructor
    · intro heq
      rw [← heq]
      exact spaced_joined (parse raw)
    · intro hspaced
      exact joined_eq_self hproper hspaced
  · intro text
    exact ⟨holes_ofText text, write_ofText text⟩

example : ¬ (parse "a~b").Spaced ∧ (parse "a~b").display = "a~~b" := by decide

end Template

end LayoutCompiler
