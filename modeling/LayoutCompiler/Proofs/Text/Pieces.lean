import LayoutCompiler.Proofs.Text.Leads
/-!
# Pieces of texts

What cutting a text comes to, and what can be put together so that cutting takes it apart again.

* `cutOnce_eq_some_iff`: the first occurrence of a character is where a text is cut in two.
* `cut_joinWith`: pieces without the separator are those of the text that they make.
* `closed_split`, `split_closed`: a text has a separator behind every piece but the last one.
-/

namespace LayoutCompiler.Text

variable {separator : Char}

/-! ## Cutting in two -/

theorem cutOnce_append {before : List Char} (h : separator ∉ before) (after : List Char) :
    cutOnce separator (before ++ separator :: after) = some (before, after) := by
  induction before with
  | nil => simp [cutOnce]
  | cons c before ih =>
    rw [List.mem_cons, not_or] at h
    rw [List.cons_append, cutOnce, if_neg (Ne.symm h.1), ih h.2]
    rfl

theorem cutOnce_eq_some_iff {cs before after : List Char} :
    cutOnce separator cs = some (before, after) ↔
      separator ∉ before ∧ cs = before ++ separator :: after := by
  constructor
  · intro h
    induction cs generalizing before with
    | nil => cases h
    | cons c cs ih =>
      unfold cutOnce at h
      split at h
      -- the first separator
      · rename_i hc
        cases h
        exact ⟨List.not_mem_nil, by rw [hc, List.nil_append]⟩
      -- any other character goes in front of what is cut from the rest
      · rename_i hc
        obtain ⟨⟨front, rest⟩, hcut, heq⟩ := Option.map_eq_some_iff.1 h
        cases heq
        obtain ⟨hfront, rfl⟩ := ih hcut
        exact ⟨mt List.mem_cons.1 (not_or.2 ⟨Ne.symm hc, hfront⟩), rfl⟩
  · rintro ⟨hbefore, rfl⟩
    exact cutOnce_append hbefore after

theorem cutOnce_eq_none_iff {cs : List Char} : cutOnce separator cs = none ↔ separator ∉ cs := by
  rw [Option.eq_none_iff_forall_ne_some]
  constructor
  · intro h hmem
    obtain ⟨before, after, rfl, hbefore⟩ := List.eq_append_cons_of_mem hmem
    exact h _ (cutOnce_append hbefore after)
  · rintro h ⟨before, after⟩ hcut
    obtain ⟨-, rfl⟩ := cutOnce_eq_some_iff.1 hcut
    exact h (List.mem_append_right before List.mem_cons_self)

theorem splitOnce_eq_some_iff {text before after : String} :
    splitOnce separator text = some (before, after) ↔
      separator ∉ before.toList ∧ text = before ++ String.singleton separator ++ after := by
  have htext : text = before ++ String.singleton separator ++ after ↔
      text.toList = before.toList ++ separator :: after.toList := by
    rw [← String.toList_inj]
    simp
  rw [htext, ← cutOnce_eq_some_iff]
  unfold splitOnce
  rw [Option.map_eq_some_iff]
  constructor
  · rintro ⟨⟨front, rest⟩, hcut, heq⟩
    cases heq
    simpa using hcut
  · intro hcut
    exact ⟨_, hcut, by simp⟩

theorem splitOnce_eq_none_iff {text : String} :
    splitOnce separator text = none ↔ separator ∉ text.toList := by
  unfold splitOnce
  rw [Option.map_eq_none_iff, cutOnce_eq_none_iff]

theorem stripTail?_eq_some_iff {tail text rest : String} :
    stripTail? tail text = some rest ↔ text = rest ++ tail := by
  unfold stripTail?
  rw [Option.map_eq_some_iff, ← String.toList_inj, String.toList_append]
  constructor
  · rintro ⟨cs, hcs, rfl⟩
    rw [List.isPrefixOf?_eq_some_iff_append_eq] at hcs
    rw [String.toList_ofList, ← List.reverse_inj, List.reverse_append, List.reverse_reverse, hcs]
  · intro h
    refine ⟨rest.toList.reverse, ?_, by simp⟩
    rw [List.isPrefixOf?_eq_some_iff_append_eq, h, List.reverse_append]

/-! ## Cutting everywhere -/

theorem cut_congr {p q : Char → Bool} {cs : List Char} (h : ∀ c ∈ cs, p c = q c) :
    cut p cs = cut q cs := by
  induction cs with
  | nil => rfl
  | cons c cs ih =>
    rw [cut, cut, h c List.mem_cons_self, ih fun d hd => h d (List.mem_cons_of_mem c hd)]

theorem mem_cut {p : Char → Bool} {cs : List Char} {c : Char} (hc : c ∈ cs) :
    p c ∨ ∃ piece ∈ cut p cs, c ∈ piece := by
  induction cs with
  | nil => cases hc
  | cons d cs ih =>
    obtain ⟨piece, pieces, hcut⟩ := List.exists_cons_of_ne_nil (cut_ne_nil p cs)
    -- a character that does not separate goes to the front of the first piece
    rw [cut, hcut]
    rw [hcut] at ih
    rcases List.mem_cons.1 hc with rfl | hc
    · by_cases hp : p c
      · exact Or.inl hp
      · exact Or.inr ⟨c :: piece, by simp [hp], List.mem_cons_self⟩
    · rcases ih hc with hp | ⟨found, hfound, hmem⟩
      · exact Or.inl hp
      · right
        split
        · exact ⟨found, List.mem_cons_of_mem [] hfound, hmem⟩
        · rcases List.mem_cons.1 hfound with rfl | hfound
          · exact ⟨d :: found, List.mem_cons_self, List.mem_cons_of_mem d hmem⟩
          · exact ⟨found, List.mem_cons_of_mem _ hfound, hmem⟩

theorem not_separates_of_mem_cut {p : Char → Bool} {cs piece : List Char} {c : Char}
    (hpiece : piece ∈ cut p cs) (hc : c ∈ piece) : p c = false := by
  induction cs generalizing piece with
  | nil =>
    rw [List.mem_singleton.1 hpiece] at hc
    cases hc
  | cons d cs ih =>
    obtain ⟨first, pieces, hcut⟩ := List.exists_cons_of_ne_nil (cut_ne_nil p cs)
    rw [cut, hcut] at hpiece
    rw [hcut] at ih
    -- a separator begins a new piece, and any other character joins the first one
    by_cases hd : p d = true
    · rw [if_pos hd] at hpiece
      rcases List.mem_cons.1 hpiece with rfl | hpiece
      · cases hc
      · exact ih hpiece hc
    · rw [if_neg hd] at hpiece
      rcases List.mem_cons.1 hpiece with rfl | hpiece
      · rcases List.mem_cons.1 hc with rfl | hc
        · exact Bool.eq_false_iff.2 hd
        · exact ih List.mem_cons_self hc
      · exact ih (List.mem_cons_of_mem first hpiece) hc

/-- There is one piece more than separators. -/
theorem length_split (separator : Char) (text : String) :
    (split separator text).length = text.toList.count separator + 1 := by
  unfold split
  rw [List.length_map]
  generalize text.toList = cs
  induction cs with
  | nil => rfl
  | cons c cs ih =>
    obtain ⟨piece, pieces, hcut⟩ := List.exists_cons_of_ne_nil (cut_ne_nil (· == separator) cs)
    rw [hcut] at ih
    by_cases hc : c = separator
    · subst hc
      rw [cut, if_pos (beq_self_eq_true c), List.length_cons, hcut, ih, List.count_cons_self]
    · rw [cut, if_neg (mt beq_iff_eq.1 hc), hcut, List.count_cons_of_ne hc]
      exact ih

/-! ## Putting together -/

theorem cut_of_notMem {piece : List Char} (h : separator ∉ piece) :
    cut (· == separator) piece = [piece] := by
  induction piece with
  | nil => rfl
  | cons c cs ih =>
    have hc : c ≠ separator := (List.ne_of_not_mem_cons h).symm
    have hcs := ih (List.not_mem_of_not_mem_cons h)
    simp only [cut, beq_iff_eq, hc, if_false, hcs]

theorem cut_append_cons {piece : List Char} (h : separator ∉ piece) (rest : List Char) :
    cut (· == separator) (piece ++ separator :: rest) = piece :: cut (· == separator) rest := by
  induction piece with
  | nil => simp only [List.nil_append, cut, beq_self_eq_true, if_true]
  | cons c cs ih =>
    have hc : c ≠ separator := (List.ne_of_not_mem_cons h).symm
    have hcs := ih (List.not_mem_of_not_mem_cons h)
    simp only [List.cons_append, cut, beq_iff_eq, hc, if_false, hcs]

/-- Pieces without the separator are those of the text that they make. -/
theorem cut_joinWith {pieces : List (List Char)} (hne : pieces ≠ [])
    (h : ∀ piece ∈ pieces, separator ∉ piece) :
    cut (· == separator) (joinWith separator pieces) = pieces := by
  induction pieces with
  | nil => exact absurd rfl hne
  | cons piece pieces ih =>
    obtain ⟨hpiece, hpieces⟩ := List.forall_mem_cons.1 h
    cases pieces with
    | nil => exact cut_of_notMem hpiece
    | cons next pieces =>
      rw [joinWith, cut_append_cons hpiece, ih (List.cons_ne_nil _ _) hpieces]

theorem joinWith_append_singleton (pieces : List (List Char)) (last : List Char) :
    joinWith separator (pieces ++ [last]) = pieces.flatMap (· ++ [separator]) ++ last := by
  induction pieces with
  | nil => rfl
  | cons piece pieces ih =>
    obtain ⟨next, rest, hrest⟩ := List.exists_cons_of_ne_nil
      (List.append_ne_nil_of_right_ne_nil pieces (List.cons_ne_nil last []))
    rw [List.cons_append, hrest, joinWith, ← hrest, ih]
    simp

/-- The texts, each with the separator behind it. -/
def closed (separator : Char) (pieces : List String) : String :=
  String.join (pieces.map fun piece => piece ++ String.singleton separator)

theorem toList_closed (pieces : List String) : (closed separator pieces).toList =
    (pieces.map String.toList).flatMap (· ++ [separator]) := by
  unfold closed
  rw [String.toList_join, List.flatMap_map, List.flatMap_map]
  refine congrArg (List.flatMap · pieces) (funext fun piece => ?_)
  rw [String.toList_append, String.toList_singleton]

theorem notMem_of_mem_split {text piece : String} (h : piece ∈ split separator text) :
    separator ∉ piece.toList := by
  obtain ⟨cs, hcs, rfl⟩ := List.mem_map.1 h
  rw [String.toList_ofList]
  intro hmem
  have hnot := not_separates_of_mem_cut hcs hmem
  rw [beq_self_eq_true] at hnot
  cases hnot

theorem split_ne_nil (separator : Char) (text : String) : split separator text ≠ [] := by
  unfold split
  rw [Ne, List.map_eq_nil_iff]
  exact cut_ne_nil _ _

/-- A text is all of its pieces but the last, each with the separator behind it, and the last. -/
theorem closed_split (separator : Char) (text : String) :
    closed separator (split separator text).dropLast ++
      (split separator text).getLast (split_ne_nil separator text) = text := by
  have hcut := cut_ne_nil (· == separator) text.toList
  have hback : joinWith separator (cut (· == separator) text.toList) = text.toList :=
    joinWith_cut separator text.toList
  rw [← List.dropLast_append_getLast hcut, joinWith_append_singleton] at hback
  rw [← String.toList_inj, String.toList_append, toList_closed]
  simp only [split]
  rw [← List.map_dropLast, List.map_map, List.getLast_map, String.toList_ofList]
  simpa [Function.comp_def] using hback

/-- Texts without the separator, one of them at the end, are the pieces. -/
theorem split_closed {pieces : List String} {last : String}
    (h : ∀ piece ∈ pieces, separator ∉ piece.toList) (hlast : separator ∉ last.toList) :
    split separator (closed separator pieces ++ last) = pieces ++ [last] := by
  unfold split
  rw [String.toList_append, toList_closed, ← joinWith_append_singleton,
    cut_joinWith (List.append_ne_nil_of_right_ne_nil _ (List.cons_ne_nil _ _))]
  · simp [Function.comp_def]
  · intro piece hpiece
    rcases List.mem_append.1 hpiece with hmem | hmem
    · obtain ⟨text, htext, rfl⟩ := List.mem_map.1 hmem
      exact h text htext
    · rw [List.mem_singleton.1 hmem]
      exact hlast

end LayoutCompiler.Text
