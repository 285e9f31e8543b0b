import LayoutCompiler.Markup.Event
import LayoutCompiler.Markup.Writer
import LayoutCompiler.Proofs.Text.Leads
/-!
# Reading what is written

Pieces of markup are read back from their text as the events that they stand for, whatever the
indentation is: tags with the attributes that they were written with, and texts as long as a tag
follows each of them and they have no blanks at their ends. The steps of the reader are as many as
there are characters, so that what is read does not depend on them (`Reads`).

* `nextAttribute_written`, `readAttributes_written`: the attributes of a tag.
* `tagEvent_start`, `tagEvent_void`: a whole tag.
* `reads_writePieces`: all pieces.
-/

namespace LayoutCompiler.Markup

variable {α : Type}

/-! ## Names -/

/-- The characters that a name may begin with. -/
def isNameStart (c : Char) : Bool :=
  let n := c.toNat
  c == ':' || c == '_' || (0x41 ≤ n && n ≤ 0x5A) || (0x61 ≤ n && n ≤ 0x7A) ||
    (0xC0 ≤ n && n ≤ 0xD6) || (0xD8 ≤ n && n ≤ 0xF6) || (0xF8 ≤ n && n ≤ 0x2FF) ||
    (0x370 ≤ n && n ≤ 0x37D) || (0x37F ≤ n && n ≤ 0x1FFF) || (0x200C ≤ n && n ≤ 0x200D) ||
    (0x2070 ≤ n && n ≤ 0x218F) || (0x2C00 ≤ n && n ≤ 0x2FEF) || (0x3001 ≤ n && n ≤ 0xD7FF) ||
    (0xF900 ≤ n && n ≤ 0xFDCF) || (0xFDF0 ≤ n && n ≤ 0xFFFD) || (0x10000 ≤ n && n ≤ 0xEFFFF)

/-- The characters that a name may go on with. -/
def isNamePart (c : Char) : Bool :=
  let n := c.toNat
  isNameStart c || c == '-' || c == '.' || (0x30 ≤ n && n ≤ 0x39) || n == 0xB7 ||
    (0x300 ≤ n && n ≤ 0x36F) || (0x203F ≤ n && n ≤ 0x2040)

/-- Whether a text is a name, as the standard of markup has it. -/
def isName (s : String) : Bool :=
  match s.toList with
  | [] => false
  | c :: cs => isNameStart c && cs.all isNamePart

/-- The characters that no name has. -/
def delimiters : List Char := [' ', '\t', '\r', '\n', '=', '>', '<', '/', '"', '\'', '!', '?']

theorem notMem_delimiters {c : Char} (h : isNamePart c = true) : c ∉ delimiters := by
  intro hmem
  have hnone : delimiters.all fun d => !isNamePart d := by decide
  have hc := List.all_eq_true.1 hnone c hmem
  rw [h] at hc
  cases hc

/-- The characters of a name: there is one, and all are such as names have. -/
theorem exists_of_isName {s : String} (h : isName s = true) :
    ∃ c cs, s.toList = c :: cs ∧ ∀ d ∈ c :: cs, d ∉ delimiters := by
  unfold isName at h
  cases hs : s.toList with
  | nil =>
    rw [hs] at h
    cases h
  | cons c cs =>
    rw [hs, Bool.and_eq_true] at h
    refine ⟨c, cs, rfl, fun d hd => notMem_delimiters ?_⟩
    rcases List.mem_cons.1 hd with rfl | hd
    · unfold isNamePart
      simp only [h.1, Bool.true_or]
    · exact List.all_eq_true.1 h.2 d hd

theorem subset_delimiters : ['<', '>', '"', '\''] ⊆ delimiters := by simp [delimiters]

theorem isMarkupBlank_iff {c : Char} : Text.isMarkupBlank c = true ↔ c ∈ delimiters.take 4 := by
  simp [Text.isMarkupBlank, delimiters, or_assoc]

theorem not_isMarkupBlank {c : Char} (h : c ∉ delimiters) : Text.isMarkupBlank c = false := by
  rw [Bool.eq_false_iff]
  intro hblank
  exact h (List.mem_of_mem_take (isMarkupBlank_iff.1 hblank))

/-! ## Stretches of text -/

theorem takeWhile_append_cons {p : α → Bool} {xs ys : List α} {y : α} (h : ∀ x ∈ xs, p x = true)
    (hy : p y = false) : (xs ++ y :: ys).takeWhile p = xs := by
  have hstop : ¬ p y = true := Bool.eq_false_iff.1 hy
  rw [List.takeWhile_append_of_pos h, List.takeWhile_cons_of_neg hstop, List.append_nil]

theorem dropWhile_append_cons {p : α → Bool} {xs ys : List α} {y : α} (h : ∀ x ∈ xs, p x = true)
    (hy : p y = false) : (xs ++ y :: ys).dropWhile p = y :: ys := by
  have hstop : ¬ p y = true := Bool.eq_false_iff.1 hy
  rw [List.dropWhile_append_of_pos h, List.dropWhile_cons_of_neg hstop]

/-! ## Escaped text -/

/-- An escaped character is the character itself, or a reference. -/
theorem escapeChar_cases (c : Char) :
    escapeChar c = [c] ∧ c ∉ ['<', '>', '"', '\''] ∨
      ∃ name, escapeChar c = '&' :: name ++ [';'] ∧ ∀ d ∈ name, d ∉ delimiters := by
  unfold escapeChar
  split
  · exact Or.inr ⟨['a', 'm', 'p'], by decide, by simp [delimiters]⟩
  split
  · exact Or.inr ⟨['l', 't'], by decide, by simp [delimiters]⟩
  split
  · exact Or.inr ⟨['g', 't'], by decide, by simp [delimiters]⟩
  split
  · exact Or.inr ⟨['q', 'u', 'o', 't'], by decide, by simp [delimiters]⟩
  split
  · exact Or.inr ⟨['a', 'p', 'o', 's'], by decide, by simp [delimiters]⟩
  · exact Or.inl ⟨rfl, by simp [*]⟩

/-- Escaped text has nothing in it that begins or ends a tag or a value. -/
theorem notMem_of_mem_escapeChars {cs : List Char} {d : Char} (h : d ∈ escapeChars cs) :
    d ∉ ['<', '>', '"', '\''] := by
  obtain ⟨c, -, hd⟩ := List.mem_flatMap.1 h
  rcases escapeChar_cases c with ⟨heq, hc⟩ | ⟨name, heq, hname⟩
  · rw [heq, List.mem_singleton] at hd
    exact hd ▸ hc
  · rw [heq] at hd
    rcases List.mem_append.1 hd with hd | hd
    · rcases List.mem_cons.1 hd with rfl | hd
      · decide
      · exact fun hmem => hname d hd (subset_delimiters hmem)
    · rw [List.mem_singleton] at hd
      subst hd
      decide

theorem mem_head?_escapeChars {cs : List Char} {d : Char} (h : d ∈ (escapeChars cs).head?) :
    d = '&' ∨ d ∈ cs.head? := by
  cases cs with
  | nil => cases h
  | cons c cs =>
    have h : d ∈ (escapeChar c ++ escapeChars cs).head? := h
    rcases escapeChar_cases c with ⟨heq, -⟩ | ⟨name, heq, -⟩ <;> rw [heq] at h
    · exact Or.inr h
    · exact Or.inl (Option.some.inj h).symm

theorem mem_getLast?_escapeChars {cs : List Char} {d : Char}
    (h : d ∈ (escapeChars cs).getLast?) : d = ';' ∨ d ∈ cs.getLast? := by
  rcases List.eq_nil_or_concat cs with rfl | ⟨cs, c, rfl⟩
  · cases h
  · rw [List.concat_eq_append] at h ⊢
    have hlast : escapeChars (cs ++ [c]) = escapeChars cs ++ escapeChar c := by
      simp [escapeChars]
    rw [List.getLast?_concat]
    rw [hlast] at h
    rcases escapeChar_cases c with ⟨heq, -⟩ | ⟨name, heq, -⟩ <;> rw [heq] at h
    · rw [List.getLast?_concat] at h
      exact Or.inr h
    · rw [← List.append_assoc, List.getLast?_concat] at h
      exact Or.inl (Option.some.inj h).symm

/-- A text without blanks at its ends has none there when it is escaped. -/
theorem trimBy_escapeChars {cs : List Char} (h : Text.trimBy Text.isMarkupBlank cs = cs) :
    Text.trimBy Text.isMarkupBlank (escapeChars cs) = escapeChars cs := by
  obtain ⟨hhead, hlast⟩ := Text.trimBy_eq_self_iff.1 h
  refine Text.trimBy_eq_self_iff.2 ⟨fun d hd => ?_, fun d hd => ?_⟩
  · rcases mem_head?_escapeChars hd with rfl | hd
    · decide
    · exact hhead d hd
  · rcases mem_getLast?_escapeChars hd with rfl | hd
    · decide
    · exact hlast d hd

/-! ## Attributes -/

/-- An attribute as it is written, with the blank in front of it. -/
def attributeChars (a : String × String) : List Char :=
  ' ' :: a.1.toList ++ ('=' :: '"' :: escapeChars a.2.toList ++ ['"'])

theorem toList_attributesText (attributes : List (String × String)) :
    (Piece.attributesText attributes).toList = attributes.flatMap attributeChars := by
  unfold Piece.attributesText
  rw [String.toList_join, List.flatMap_map]
  refine congrArg (attributes.flatMap ·) (funext fun a => ?_)
  simp [attributeChars, escape]

theorem length_le_length_attributes (attributes : List (String × String)) :
    attributes.length ≤ (attributes.flatMap attributeChars).length := by
  induction attributes with
  | nil => exact Nat.le_refl 0
  | cons a attributes ih =>
    rw [List.flatMap_cons, List.length_append, List.length_cons]
    simp only [attributeChars, List.length_append, List.length_cons]
    omega

/-- What a tag must be so that it is read back as it was written. -/
structure LegibleTag (name : String) (attributes : List (String × String)) : Prop where
  name : isName name = true
  keys : ∀ a ∈ attributes, isName a.1 = true ∧ declaresNamespace a.1 = false
  distinct : (attributes.map Prod.fst).Nodup

theorem nextAttribute_written {a : String × String} (h : isName a.1 = true) (cs : List Char) :
    nextAttribute (attributeChars a ++ cs) =
      .ok (some ⟨a.1, escapeChars a.2.toList, cs⟩) := by
  obtain ⟨c, name, hchars, hname⟩ := exists_of_isName h
  have hc : Text.isMarkupBlank c = false := not_isMarkupBlank (hname c List.mem_cons_self)
  have hstop : ∀ d ∈ name, (!(d == '=' || Text.isMarkupBlank d)) = true := by
    intro d hd
    have hmem := hname d (List.mem_cons_of_mem c hd)
    have hne : d ≠ '=' := by
      rintro rfl
      exact hmem (by decide)
    simp [hne, not_isMarkupBlank hmem]
  have hquote : ∀ d ∈ escapeChars a.2.toList, (d != '"') = true := by
    intro d hd
    have hmem := notMem_of_mem_escapeChars hd
    rw [bne_iff_ne]
    rintro rfl
    exact hmem (by decide)
  have hsplit : attributeChars a ++ cs =
      ' ' :: c :: (name ++ '=' :: '"' :: (escapeChars a.2.toList ++ '"' :: cs)) := by
    simp [attributeChars, hchars]
  have hstart : (attributeChars a ++ cs).dropWhile Text.isMarkupBlank =
      c :: (name ++ '=' :: '"' :: (escapeChars a.2.toList ++ '"' :: cs)) := by
    rw [hsplit, List.dropWhile_cons_of_pos (by decide),
      List.dropWhile_cons_of_neg (by simp [hc])]
  unfold nextAttribute
  rw [hstart]
  simp only
  -- the name ends at the equals sign, which the quote of the value follows
  rw [takeWhile_append_cons hstop (by decide), dropWhile_append_cons hstop (by decide),
    List.dropWhile_cons_of_neg (by decide)]
  simp only
  rw [List.dropWhile_cons_of_neg (by decide)]
  simp only [true_or, if_true]
  -- the value ends at the next quote, since an escaped text has none
  rw [takeWhile_append_cons hquote (by decide), dropWhile_append_cons hquote (by decide)]
  simp only [← hchars, String.ofList_toList]

/-- Attributes are read in the order in which they stand, each one over those before it. -/
theorem readAttributes_written {attributes : List (String × String)}
    (hkeys : ∀ a ∈ attributes, isName a.1 = true ∧ declaresNamespace a.1 = false)
    (hdistinct : (attributes.map Prod.fst).Nodup) {seen : List String}
    (hseen : ∀ a ∈ attributes, a.1 ∉ seen) {steps : Nat} (hsteps : attributes.length < steps)
    (read : Attributes) :
    readAttributes steps seen read (attributes.flatMap attributeChars) =
      .ok (attributes.foldl (fun m a => m.insert a.1 a.2) read) := by
  induction attributes generalizing seen steps read with
  | nil =>
    obtain ⟨steps, rfl⟩ := Nat.exists_eq_succ_of_ne_zero (Nat.ne_of_gt hsteps)
    rfl
  | cons a attributes ih =>
    obtain ⟨steps, rfl⟩ := Nat.exists_eq_succ_of_ne_zero (Nat.ne_of_gt (Nat.zero_lt_of_lt hsteps))
    obtain ⟨hname, hplain⟩ := hkeys a List.mem_cons_self
    obtain ⟨hfresh, hrest⟩ := List.nodup_cons.1 hdistinct
    -- the keys read so far and those to come have none in common
    have hunseen : seen.contains a.1 = false := by
      simpa using hseen a List.mem_cons_self
    have hseen' : ∀ b ∈ attributes, b.1 ∉ a.1 :: seen := by
      intro b hb hmem
      rcases List.mem_cons.1 hmem with heq | hmem
      · exact hfresh (heq ▸ List.mem_map_of_mem hb)
      · exact hseen b (List.mem_cons_of_mem a hb) hmem
    rw [List.flatMap_cons, readAttributes, nextAttribute_written hname]
    simp only [hunseen, hplain, decode_escape, String.ofList_toList, Bool.false_eq_true, if_false]
    exact ih (fun b hb => hkeys b (List.mem_cons_of_mem a hb)) hrest hseen'
      (Nat.lt_of_succ_lt_succ hsteps) (read.insert a.1 a.2)

/-! ## Tags -/

/-- What stands in a tag before a slash at its end. -/
def tagChars (name : String) (attributes : List (String × String)) : List Char :=
  name.toList ++ attributes.flatMap attributeChars

/-- Characters that leave the search for the end of a tag where it was, outside of quotes. -/
def Calm (xs : List Char) : Prop :=
  ∀ begun ys, tagContent none begun (xs ++ ys) = tagContent none (xs.reverse ++ begun) ys

theorem Calm.append {xs ys : List Char} (h : Calm xs) (h' : Calm ys) : Calm (xs ++ ys) := by
  intro begun zs
  rw [List.append_assoc, h, h', List.reverse_append, List.append_assoc]

theorem calm_flatMap {β : Type} {f : β → List Char} {bs : List β} (h : ∀ b ∈ bs, Calm (f b)) :
    Calm (bs.flatMap f) := by
  induction bs with
  | nil => exact fun _ _ => rfl
  | cons b bs ih =>
    exact (h b List.mem_cons_self).append (ih fun b' hb' => h b' (List.mem_cons_of_mem b hb'))

theorem calm_of_plain {xs : List Char} (h : ∀ c ∈ xs, c ∉ ['>', '"', '\'']) : Calm xs := by
  induction xs with
  | nil => exact fun _ _ => rfl
  | cons c xs ih =>
    intro begun ys
    have hc := h c List.mem_cons_self
    simp only [List.mem_cons, List.not_mem_nil, or_false, not_or] at hc
    rw [List.cons_append, tagContent, if_neg hc.1, if_neg (not_or.2 hc.2),
      ih (fun d hd => h d (List.mem_cons_of_mem c hd)), List.reverse_cons, List.append_assoc]
    rfl

theorem calm_name {s : String} (h : isName s = true) : Calm s.toList := by
  obtain ⟨c, cs, hchars, hname⟩ := exists_of_isName h
  rw [hchars]
  exact calm_of_plain fun d hd hmem =>
    hname d hd (subset_delimiters (List.mem_cons_of_mem _ hmem))

/-- A value ends at the quote that it began with. -/
theorem tagContent_quoted {xs : List Char} (h : '"' ∉ xs) (begun ys : List Char) :
    tagContent (some '"') begun (xs ++ '"' :: ys) =
      tagContent none ('"' :: xs.reverse ++ begun) ys := by
  induction xs generalizing begun with
  | nil => rw [List.nil_append, tagContent, if_pos rfl]; rfl
  | cons c xs ih =>
    obtain ⟨hc, hxs⟩ := not_or.1 (fun hmem => h (List.mem_cons.2 hmem))
    rw [List.cons_append, tagContent, if_neg (Ne.symm hc), ih hxs, List.reverse_cons]
    simp

theorem calm_attribute {a : String × String} (h : isName a.1 = true) : Calm (attributeChars a) := by
  have hquoted : '"' ∉ escapeChars a.2.toList := fun hmem =>
    notMem_of_mem_escapeChars hmem (by decide)
  have hlead : Calm [' '] := calm_of_plain (by simp)
  -- whatever stands in a value is passed over between its quotes
  have hvalue : Calm ('=' :: '"' :: escapeChars a.2.toList ++ ['"']) := by
    intro begun ys
    have hsplit : ('=' :: '"' :: escapeChars a.2.toList ++ ['"']) ++ ys =
        '=' :: '"' :: (escapeChars a.2.toList ++ '"' :: ys) := by simp
    rw [hsplit, tagContent, if_neg (by decide), if_neg (by decide), tagContent, if_neg (by decide),
      if_pos (Or.inl rfl), tagContent_quoted hquoted]
    simp
  exact (hlead.append (calm_name h)).append hvalue

variable {name : String} {attributes : List (String × String)}

theorem LegibleTag.calm (h : LegibleTag name attributes) : Calm (tagChars name attributes) :=
  (calm_name h.name).append (calm_flatMap fun a ha => calm_attribute (h.keys a ha).1)

/-- The content of a tag ends at the `>` that was written to end it. -/
theorem tagContent_written {xs : List Char} (h : Calm xs) (rest : List Char) :
    tagContent none [] (xs ++ '>' :: rest) = .ok (xs, rest) := by
  rw [h, tagContent, if_pos rfl, List.append_nil, List.reverse_reverse]

/-- The last character of a tag is one of a name or a quote. -/
theorem LegibleTag.getLast?_ne (h : LegibleTag name attributes) :
    (tagChars name attributes).getLast? ≠ some '/' := by
  unfold tagChars
  rcases List.eq_nil_or_concat attributes with rfl | ⟨front, a, rfl⟩
  · obtain ⟨c, cs, hchars, hname⟩ := exists_of_isName h.name
    rw [List.flatMap_nil, List.append_nil, hchars]
    intro hlast
    exact hname '/' (List.mem_of_getLast? hlast) (by decide)
  · have hend : attributeChars a =
        (' ' :: a.1.toList ++ '=' :: '"' :: escapeChars a.2.toList) ++ ['"'] := by
      simp [attributeChars]
    rw [List.concat_eq_append, List.flatMap_append, List.flatMap_singleton, hend,
      ← List.append_assoc, ← List.append_assoc, List.getLast?_concat]
    decide

/-- The name and the attributes of a tag, whatever its slash says. -/
theorem LegibleTag.parts (h : LegibleTag name attributes) :
    String.ofList ((tagChars name attributes).takeWhile fun c => !Text.isMarkupBlank c) = name ∧
      readAttributes ((tagChars name attributes).length + 1) [] SortedMap.empty
        ((tagChars name attributes).dropWhile fun c => !Text.isMarkupBlank c) =
        .ok (SortedMap.ofList attributes) := by
  obtain ⟨c, cs, hchars, hname⟩ := exists_of_isName h.name
  -- the first blank of a tag is the one in front of its first attribute
  have hplain : ∀ d ∈ name.toList, (!Text.isMarkupBlank d) = true := by
    intro d hd
    rw [not_isMarkupBlank (hname d (hchars ▸ hd))]
    rfl
  have hrest : (attributes.flatMap attributeChars).takeWhile (fun c => !Text.isMarkupBlank c) = [] ∧
      (attributes.flatMap attributeChars).dropWhile (fun c => !Text.isMarkupBlank c) =
        attributes.flatMap attributeChars := by
    cases attributes with
    | nil => exact ⟨rfl, rfl⟩
    | cons a attributes => exact ⟨rfl, rfl⟩
  have hlength : attributes.length < (tagChars name attributes).length + 1 := by
    have hle := length_le_length_attributes attributes
    rw [tagChars, List.length_append]
    omega
  rw [tagChars, List.takeWhile_append_of_pos hplain, List.dropWhile_append_of_pos hplain, hrest.1,
    hrest.2, List.append_nil, String.ofList_toList]
  exact ⟨rfl, readAttributes_written h.keys h.distinct (fun _ _ => List.not_mem_nil) hlength _⟩

theorem tagEvent_start (h : LegibleTag name attributes) :
    tagEvent (tagChars name attributes) = .ok (.start name (SortedMap.ofList attributes)) := by
  have hslash : ((tagChars name attributes).getLast? == some '/') = false :=
    beq_false_of_ne h.getLast?_ne
  obtain ⟨htag, hread⟩ := h.parts
  unfold tagEvent
  simp only [hslash, Bool.false_eq_true, if_false, htag, hread]
  rfl

theorem tagEvent_void (h : LegibleTag name attributes) :
    tagEvent (tagChars name attributes ++ ['/']) =
      .ok (.void name (SortedMap.ofList attributes)) := by
  obtain ⟨htag, hread⟩ := h.parts
  unfold tagEvent
  simp only [List.getLast?_concat, beq_self_eq_true, if_true, List.dropLast_concat, htag, hread]
  rfl

/-- What begins with a character of a name is a tag with attributes. -/
theorem markup_of_tagContent {cs xs rest : List Char} {c : Char} (hc : c ∉ delimiters)
    (hcontent : tagContent none [] (c :: cs) = .ok (xs, rest)) {event : Event}
    (hevent : tagEvent xs = .ok event) : markup (c :: cs) = .ok (some event, rest) := by
  unfold markup
  -- the other kinds of markup begin with characters that no name has
  split
  · rename_i h
    cases h
  · rename_i h
    exact absurd (List.cons.inj h).1 fun heq => hc (heq ▸ by decide)
  · rename_i h
    exact absurd (List.cons.inj h).1 fun heq => hc (heq ▸ by decide)
  · rename_i h
    exact absurd (List.cons.inj h).1 fun heq => hc (heq ▸ by decide)
  · rw [hcontent]
    show (tagEvent xs).bind (fun e => .ok (some e, rest)) = _
    rw [hevent]
    rfl

theorem markup_start (h : LegibleTag name attributes) (rest : List Char) :
    markup (tagChars name attributes ++ '>' :: rest) =
      .ok (some (.start name (SortedMap.ofList attributes)), rest) := by
  obtain ⟨c, cs, hchars, hname⟩ := exists_of_isName h.name
  have hcontent := tagContent_written h.calm rest
  have hevent := tagEvent_start h
  unfold tagChars at hcontent hevent ⊢
  rw [hchars] at hcontent hevent ⊢
  exact markup_of_tagContent (hname c List.mem_cons_self) hcontent hevent

theorem markup_void (h : LegibleTag name attributes) (rest : List Char) :
    markup (tagChars name attributes ++ '/' :: '>' :: rest) =
      .ok (some (.void name (SortedMap.ofList attributes)), rest) := by
  obtain ⟨c, cs, hchars, hname⟩ := exists_of_isName h.name
  have hcalm : Calm (tagChars name attributes ++ ['/']) := h.calm.append (calm_of_plain (by simp))
  have hcontent := tagContent_written hcalm rest
  have hevent := tagEvent_void h
  rw [List.append_assoc] at hcontent
  unfold tagChars at hcontent hevent ⊢
  rw [hchars] at hcontent hevent ⊢
  exact markup_of_tagContent (hname c List.mem_cons_self) hcontent hevent

theorem markup_finish (h : isName name = true) (rest : List Char) :
    markup ('/' :: name.toList ++ '>' :: rest) = .ok (some (.finish name), rest) := by
  obtain ⟨c, cs, hchars, hname⟩ := exists_of_isName h
  -- a name has no bracket, so the tag ends where it was ended
  have hclose : ∀ d ∈ name.toList, (d != '>') = true := by
    intro d hd
    rw [bne_iff_ne]
    rintro rfl
    exact hname '>' (hchars ▸ hd) (by decide)
  have hend : endName name.toList = name := by
    have hlast : name.toList.reverse.dropWhile Text.isMarkupBlank = name.toList.reverse := by
      refine Text.dropWhile_eq_self_iff.2 fun d hd => not_isMarkupBlank (hname d ?_)
      rw [← hchars]
      exact List.mem_reverse.1 (List.mem_of_mem_head? hd)
    unfold endName
    simp only [hlast, List.reverse_reverse, ite_self, String.ofList_toList]
  show Except.ok (some (Event.finish (endName (beforeClose (name.toList ++ '>' :: rest)).1)),
    (beforeClose (name.toList ++ '>' :: rest)).2) = _
  unfold beforeClose
  rw [takeWhile_append_cons hclose (by decide), dropWhile_append_cons hclose (by decide), hend]
  rfl

/-! ## Rows of pieces -/

/-- A text is read as a row of events, in any number of steps that is enough for its length. -/
def Reads (cs : List Char) (events : List Event) : Prop :=
  ∀ steps, cs.length < steps → eventsFrom steps cs = .ok events

theorem reads_blank {cs : List Char} (h : ∀ c ∈ cs, Text.isMarkupBlank c = true) : Reads cs [] := by
  intro steps hsteps
  obtain ⟨steps, rfl⟩ := Nat.exists_eq_succ_of_ne_zero (Nat.ne_of_gt (Nat.zero_lt_of_lt hsteps))
  rw [eventsFrom, List.dropWhile_eq_nil_iff.2 h]

/-- Blanks in front do not count. -/
theorem Reads.indented {bs cs : List Char} {events : List Event}
    (hbs : ∀ c ∈ bs, Text.isMarkupBlank c = true) (h : Reads cs events) :
    Reads (bs ++ cs) events := by
  intro steps hsteps
  have hcs : cs.length < steps := by
    rw [List.length_append] at hsteps
    omega
  obtain ⟨steps, rfl⟩ := Nat.exists_eq_succ_of_ne_zero (Nat.ne_of_gt (Nat.zero_lt_of_lt hsteps))
  rw [← h _ hcs, eventsFrom, eventsFrom, List.dropWhile_append_of_pos hbs]

/-- Markup gives its event in front of what follows it. -/
theorem Reads.markup {xs rest : List Char} {event : Option Event} {events : List Event}
    (hmarkup : Markup.markup (xs ++ rest) = .ok (event, rest)) (h : Reads rest events) :
    Reads ('<' :: xs ++ rest) (event.toList ++ events) := by
  intro steps hsteps
  obtain ⟨steps, rfl⟩ := Nat.exists_eq_succ_of_ne_zero (Nat.ne_of_gt (Nat.zero_lt_of_lt hsteps))
  have hrest : rest.length < steps := by
    simp only [List.cons_append, List.length_cons, List.length_append] at hsteps
    omega
  rw [List.cons_append, eventsFrom, List.dropWhile_cons_of_neg (by decide)]
  simp only [hmarkup, h steps hrest, bind, Except.bind, pure, Except.pure]

/-- Text gives its event when markup follows it. -/
theorem Reads.text {xs rest : List Char} {events : List Event} (hne : xs ≠ [])
    (hopen : ∀ c ∈ xs, c ≠ '<') (htrim : Text.trimBy Text.isMarkupBlank xs = xs)
    (h : Reads ('<' :: rest) events) :
    Reads (xs ++ '<' :: rest) (.text (String.ofList xs) :: events) := by
  intro steps hsteps
  obtain ⟨c, cs, rfl⟩ := List.exists_cons_of_ne_nil hne
  obtain ⟨steps, rfl⟩ := Nat.exists_eq_succ_of_ne_zero (Nat.ne_of_gt (Nat.zero_lt_of_lt hsteps))
  have hrest : ('<' :: rest).length < steps := by
    simp only [List.cons_append, List.length_cons, List.length_append] at hsteps ⊢
    omega
  have hc : ¬ Text.isMarkupBlank c = true := by
    rw [(Text.trimBy_eq_self_iff.1 htrim).1 c rfl]
    exact Bool.false_ne_true
  have hstop : ∀ d ∈ c :: cs, (d != '<') = true := fun d hd => bne_iff_ne.2 (hopen d hd)
  have hstart : (c :: cs ++ '<' :: rest).dropWhile Text.isMarkupBlank =
      c :: cs ++ '<' :: rest := by
    rw [List.cons_append, List.dropWhile_cons_of_neg hc]
  -- no blank is dropped from it, and it begins with no tag: it is taken as text
  rw [eventsFrom, hstart]
  split
  · rename_i heq
    cases heq
  · rename_i heq
    exact absurd (List.cons.inj heq).1 (hopen c List.mem_cons_self)
  · rw [takeWhile_append_cons hstop (by decide), dropWhile_append_cons hstop (by decide), htrim]
    simp only [h steps hrest, bind, Except.bind, pure, Except.pure]

namespace Piece

/-- What a piece is read back as, if it leaves an event. -/
def event? : Piece → Option Event
  | declaration => none
  | start name attributes => some (.start name (SortedMap.ofList attributes))
  | void name attributes => some (.void name (SortedMap.ofList attributes))
  | finish name => some (.finish name)
  | text s => if s = "" then none else some (.text (escape s))

/-- What a piece inside of a document must be so that it is read back. -/
def Legible : Piece → Prop
  | declaration => False
  | start name attributes | void name attributes => LegibleTag name attributes
  | finish name => isName name = true
  | text s => Text.trimBy Text.isMarkupBlank s.toList = s.toList

/-- A tag follows every text of a row. -/
def Parted : List Piece → Prop
  | [] => True
  | p :: ps => (p.isText = true → ∃ q qs, ps = q :: qs ∧ q.isText = false) ∧ Parted ps

/-- What a tag is written as, and what is read of it. -/
theorem exists_markup {p : Piece} (h : p.Legible) (htag : p.isText = false) :
    ∃ xs, p.written.toList = '<' :: xs ∧
      ∀ rest, markup (xs ++ rest) = .ok (p.event?, rest) := by
  cases p with
  | declaration => exact h.elim
  | start name attributes =>
    refine ⟨tagChars name attributes ++ ['>'], ?_, fun rest => ?_⟩
    · simp [written, tagChars, toList_attributesText]
    · rw [List.append_assoc]
      exact markup_start h rest
  | void name attributes =>
    refine ⟨tagChars name attributes ++ ['/', '>'], ?_, fun rest => ?_⟩
    · simp [written, tagChars, toList_attributesText]
    · rw [List.append_assoc]
      exact markup_void h rest
  | finish name =>
    refine ⟨'/' :: name.toList ++ ['>'], ?_, fun rest => ?_⟩
    · simp [written]
    · rw [List.append_assoc]
      exact markup_finish h rest
  | text s => cases htag

end Piece

/-- Blanks in front of a tag, none in front of text. -/
theorem exists_indented (width depth : Nat) (afterTag : Bool) (p : Piece) :
    ∃ bs, (∀ c ∈ bs, Text.isMarkupBlank c = true) ∧
      (indented width depth afterTag p).toList = bs ++ p.written.toList ∧
      (p.isText = true ∨ afterTag = false → bs = []) := by
  unfold indented
  split
  · exact ⟨[], fun c hc => (nomatch hc), rfl, fun _ => rfl⟩
  · rename_i hmargin
    refine ⟨'\n' :: List.replicate (width * depth) ' ', ?_, by simp, ?_⟩
    · intro c hc
      rcases List.mem_cons.1 hc with rfl | hc
      · decide
      · rw [List.eq_of_mem_replicate hc]
        decide
    · rintro (htext | hafter)
      · simp [htext] at hmargin
      · simp [hafter] at hmargin

theorem exists_writePieces_cons (width : Nat) (m : Margin) (p : Piece) (ps : List Piece) :
    ∃ depth m', writePieces width m (p :: ps) =
      indented width depth m.afterTag p :: writePieces width m' ps ∧ m'.afterTag = !p.isText :=
  ⟨_, _, rfl, rfl⟩

/-- What is written after text begins with the tag that follows it. -/
theorem exists_open (width : Nat) {q : Piece} (hq : q.Legible) (htag : q.isText = false)
    (ps : List Piece) {m : Margin} (hm : m.afterTag = false) :
    ∃ xs, (writePieces width m (q :: ps)).flatMap String.toList = '<' :: xs := by
  obtain ⟨depth, m', hwritten, -⟩ := exists_writePieces_cons width m q ps
  obtain ⟨bs, -, hindented, hbs⟩ := exists_indented width depth m.afterTag q
  obtain ⟨xs, hxs, -⟩ := Piece.exists_markup hq htag
  rw [hwritten, List.flatMap_cons, hindented, hbs (Or.inr hm), hxs]
  exact ⟨_, rfl⟩

/-- Text is read back when it is not empty; empty text leaves nothing to be read. -/
theorem Reads.written {s : String} (hs : (Piece.text s).Legible) {rest : List Char}
    {events : List Event} (h : Reads ('<' :: rest) events) :
    Reads ((Piece.text s).written.toList ++ '<' :: rest)
      ((Piece.text s).event?.toList ++ events) := by
  by_cases hempty : s = ""
  · subst hempty
    exact h
  -- what is said is escaped, so that its first bracket is that of the next tag
  · have hne : escapeChars s.toList ≠ [] := by
      intro hnil
      have hdecode := decode_escape s.toList
      rw [hnil] at hdecode
      exact hempty (String.toList_eq_nil_iff.1 (Option.some.inj hdecode).symm)
    have hopen : ∀ c ∈ escapeChars s.toList, c ≠ '<' := by
      rintro c hc rfl
      exact notMem_of_mem_escapeChars hc (by decide)
    have hchars : (Piece.text s).written.toList = escapeChars s.toList := by
      simp [Piece.written, escape]
    have hevent : (Piece.text s).event? = some (.text (String.ofList (escapeChars s.toList))) :=
      if_neg hempty
    rw [hchars, hevent]
    exact Reads.text hne hopen (trimBy_escapeChars hs) h

/-- Pieces are read back as their events, with blanks behind them or without. -/
theorem reads_writePieces (width : Nat) {ps : List Piece} (hlegible : ∀ p ∈ ps, p.Legible)
    (hparted : Piece.Parted ps) {behind : List Char}
    (hbehind : ∀ c ∈ behind, Text.isMarkupBlank c = true) (m : Margin) :
    Reads ((writePieces width m ps).flatMap String.toList ++ behind)
      (ps.filterMap Piece.event?) := by
  induction ps generalizing m with
  | nil => exact reads_blank hbehind
  | cons p ps ih =>
    obtain ⟨hfollowed, hparted⟩ := hparted
    obtain ⟨hp, hps⟩ := List.forall_mem_cons.1 hlegible
    obtain ⟨depth, m', hwritten, hm'⟩ := exists_writePieces_cons width m p ps
    obtain ⟨bs, hblank, hindented, hbs⟩ := exists_indented width depth m.afterTag p
    have hrest := ih hps hparted m'
    have hevents : (p :: ps).filterMap Piece.event? =
        p.event?.toList ++ ps.filterMap Piece.event? := by
      cases hevent : p.event? <;> simp [hevent]
    rw [hevents, hwritten, List.flatMap_cons, hindented, List.append_assoc, List.append_assoc]
    cases htext : p.isText with
    | false =>
      obtain ⟨xs, hxs, hmarkup⟩ := Piece.exists_markup hp htext
      rw [hxs]
      exact Reads.indented hblank (Reads.markup (hmarkup _) hrest)
    | true =>
      -- the tag that follows stands directly behind the text
      obtain ⟨q, qs, rfl, hq⟩ := hfollowed htext
      have hafter : m'.afterTag = false := by rw [hm', htext]; rfl
      obtain ⟨xs, hxs⟩ := exists_open width (hps q List.mem_cons_self) hq qs hafter
      rw [hbs (Or.inl htext), List.nil_append]
      rw [hxs] at hrest ⊢
      cases p with
      | text s => exact Reads.written hp hrest
      | declaration | start | void | finish => cases htext

end LayoutCompiler.Markup
