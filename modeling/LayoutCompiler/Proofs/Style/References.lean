import LayoutCompiler.Proofs.Number.Rational
import LayoutCompiler.Proofs.Resource.Literals
import LayoutCompiler.Proofs.Style.Inheritance
/-!
# References to styles

An attribute can refer to a style in two ways. Where it is read, blanks around it are dropped and
references through the theme are followed until a text names the style. Where it is the attribute by
which an element has its style, its text is taken as it stands. The two ways meet just where the
text itself names the style.

* `read_eq_style`: what it means that a text is read as a style.
* `exists_spelling`: the texts that stand for a name where they are taken as they stand.
* `merge_of_read`: an element has the attributes that its style is read as just if the text names
  the style; a style that is reached through the theme is missing.
-/

namespace LayoutCompiler

open ResourceTable.Lead (Names)

variable {α : Type}

namespace ResourceTable

variable {table : ResourceTable α} {name : String} {attributes : Attributes}

/-! ## Reading -/

theorem orMissing_ne_style {β : Type} {kind : ResourceKind} {word : String} {found : Option β}
    {f : β → Value α} (hf : ∀ v, f v ≠ .style name attributes) :
    orMissing kind word (found.map f) ≠ .ok (.style name attributes) := by
  cases found with
  | none =>
    intro h
    cases h
  | some v =>
    intro h
    exact hf v (Except.ok.inj h)

/-- A reference is looked up as a style only if it refers to one. -/
theorem lookUp_eq_style {text word : String} {lead : Lead}
    (h : table.lookUp text lead word = .ok (.style name attributes)) :
    lead = .style ∧ word = name ∧
      ∃ chain, table.styles.chain name = .ok chain ∧ chain.flatten = attributes := by
  cases lead with
  | style =>
    -- the only lead that gives a style
    unfold lookUp at h
    cases hchain : StyleSheet.chain table.styles word with
    | error e =>
      simp only [hchain] at h
      cases h
    | ok chain =>
      simp only [hchain] at h
      cases h
      exact ⟨rfl, rfl, chain, hchain, rfl⟩
  | layout =>
    unfold lookUp at h
    dsimp only at h
    split at h <;> cases h
  | platformColor =>
    unfold lookUp at h
    dsimp only at h
    split at h <;> cases h
  | color =>
    unfold lookUp at h
    dsimp only at h
    split at h
    · cases h
    · exact absurd h (orMissing_ne_style (by simp))
  | font => exact absurd h (orMissing_ne_style (by simp))
  | drawable => exact absurd h (orMissing_ne_style (by simp))
  | string => exact absurd h (orMissing_ne_style (by simp))
  | dimen => exact absurd h (orMissing_ne_style (by simp))

variable [Scalar α]

omit [Scalar α] in
theorem names_style {text : String} : Names text .style name ↔ text = "@style/" ++ name := by
  simp [Names, Lead.spellings]

/-- A text that is no reference through the theme is read as a style if it names one. -/
theorem readPlain_eq_style {raw text : String}
    (h : table.readPlain raw text = .ok (.style name attributes)) :
    text = "@style/" ++ name ∧
      ∃ chain, table.styles.chain name = .ok chain ∧ chain.flatten = attributes := by
  unfold readPlain at h
  split at h
  · cases h
  · split at h
    · rename_i lead word hsplit
      obtain ⟨rfl, rfl, hchain⟩ := lookUp_eq_style h
      exact ⟨names_style.1 (Lead.split?_eq_some_iff.1 hsplit), hchain⟩
    · unfold literal at h
      split at h
      · cases h
      · split at h <;> cases h

/-- A text that is read as a style names it, or leads to it through the theme. -/
theorem read_eq_style {raw : String} (h : table.read raw = .ok (.style name attributes)) :
    (Text.leads "?" (Text.trim raw) = true ∨ Text.trim raw = "@style/" ++ name) ∧
      ∃ chain, table.styles.chain name = .ok chain ∧ chain.flatten = attributes := by
  -- each hop through the theme reads another text, and the last one names the style
  have hchain : ∀ hops raw, table.readWithin hops raw = .ok (.style name attributes) →
      ∃ chain, table.styles.chain name = .ok chain ∧ chain.flatten = attributes := by
    intro hops
    induction hops with
    | zero =>
      intro raw h
      rw [readWithin_zero] at h
      split at h
      · cases h
      · exact (readPlain_eq_style h).2
    | succ hops ih =>
      intro raw h
      rw [readWithin_succ] at h
      split at h
      · split at h
        · cases h
        · exact ih _ h
      · exact (readPlain_eq_style h).2
  refine ⟨?_, hchain maxThemeHops raw h⟩
  by_cases htheme : Text.leads "?" (Text.trim raw) = true
  · exact Or.inl htheme
  · unfold read maxThemeHops at h
    rw [readWithin_succ, if_neg htheme] at h
    exact Or.inr (readPlain_eq_style h).1

end ResourceTable

namespace StyleSheet

/-! ## Names of styles -/

/-- A name as styles have it: without blanks at its ends, and without what references begin with. -/
structure PlainName (name : String) : Prop where
  trimmed : Text.trim name = name
  unmarked : Text.leads "?" name = false
  bare : bareName name = name

/-- The spellings in front of the name of a style, also of none. -/
def leadSpellings : List String := ["@style/", "@android:style/", "android:", ""]

theorem leadSpellings_unmarked : ∀ spelling ∈ leadSpellings,
    Text.trim spelling = spelling ∧ (spelling = "" ∨ Text.clash spelling "?" = true) := by
  decide

/-- A text stands for a name that follows one of the spellings in it. -/
theorem exists_spelling (reference : String) :
    ∃ spelling ∈ leadSpellings, reference = spelling ++ bareName reference := by
  unfold bareName
  cases hstyle : Text.stripLead? "@style/" reference with
  | some rest => exact ⟨"@style/", by decide, Text.stripLead?_eq_some_iff.1 hstyle⟩
  | none =>
    cases hplatform : Text.stripLead? "@android:style/" reference with
    | some rest => exact ⟨"@android:style/", by decide, Text.stripLead?_eq_some_iff.1 hplatform⟩
    | none =>
      cases hbare : Text.stripLead? "android:" reference with
      | some rest => exact ⟨"android:", by decide, Text.stripLead?_eq_some_iff.1 hbare⟩
      | none => exact ⟨"", by decide, (String.empty_append ..).symm⟩

theorem bareName_style (name : String) : bareName ("@style/" ++ name) = name := by
  have hlead : Text.stripLead? "@style/" ("@style/" ++ name) = some name :=
    Text.stripLead?_eq_some_iff.2 rfl
  unfold bareName
  rw [hlead]
  rfl

/-- Only the name counts for the chain of a style. -/
theorem chain_congr {sheet : StyleSheet} {reference other : String}
    (h : bareName reference = bareName other) : sheet.chain reference = sheet.chain other := by
  unfold StyleSheet.chain
  rw [h]

/-- A text with a plain name is not blank at its ends, and is no reference through the theme. -/
theorem PlainName.of_bareName {reference : String} (h : PlainName (bareName reference)) :
    Text.trim reference = reference ∧ Text.leads "?" reference = false := by
  obtain ⟨spelling, hmem, heq⟩ := exists_spelling reference
  obtain ⟨htrim, hmark⟩ := leadSpellings_unmarked spelling hmem
  constructor
  · rw [heq]
    exact Text.trim_append htrim h.trimmed
  · rcases hmark with rfl | hclash
    · rw [heq, String.empty_append]
      exact h.unmarked
    · exact Text.not_leads_of_clash hclash (Text.leads_iff.2 ⟨bareName reference, heq⟩)

end StyleSheet

open StyleSheet (bareName PlainName)

variable [Scalar α]

/-- When the style of an element is read as some attributes, they go below those of the element if
its text names the style. If styles have plain names, every other text is that of a missing style:
one that leads to the style through the theme, one with blanks around it, and one whose name begins
as a reference does. -/
theorem StyleSheet.merge_of_read {table : ResourceTable α} {own : Attributes}
    {reference name : String} {attributes : Attributes}
    (hstyle : own.get? Attributes.styleName = some reference)
    (hread : table.read reference = .ok (.style name attributes)) :
    (reference = "@style/" ++ name ∧ bareName name = name →
      StyleSheet.merge table.styles own = .ok (own.layered attributes)) ∧
    ((∀ key ∈ SortedMap.keys table.styles, PlainName key) →
      ¬ (reference = "@style/" ++ name ∧ bareName name = name) →
      StyleSheet.merge table.styles own =
        .error (.reference (ResourceKind.style.reference (bareName reference))
          (.missing .style))) := by
  obtain ⟨htext, chain, hchain, rfl⟩ := ResourceTable.read_eq_style hread
  constructor
  · rintro ⟨rfl, hbare⟩
    have hsame : bareName ("@style/" ++ name) = bareName name := by
      rw [StyleSheet.bareName_style, hbare]
    exact StyleSheet.merge_of_chain hstyle ((StyleSheet.chain_congr hsame).trans hchain)
  · intro hplain hnot
    have hmissing : SortedMap.get? table.styles (bareName reference) = none := by
      rw [Option.eq_none_iff_forall_ne_some]
      intro style hstored
      -- a stored name is plain, so that reading takes the text as it stands, too
      have hname := hplain (bareName reference)
        (SortedMap.mem_keys_iff.2 (SortedMap.contains_iff.2 ⟨style, hstored⟩))
      obtain ⟨htrim, htheme⟩ := hname.of_bareName
      rw [htrim, htheme] at htext
      rcases htext with hfalse | heq
      · cases hfalse
      · refine hnot ⟨heq, ?_⟩
        have hbare := hname.bare
        rwa [heq, StyleSheet.bareName_style] at hbare
    unfold StyleSheet.merge
    rw [hstyle]
    unfold StyleSheet.chain
    dsimp only
    rw [hmissing]
    rfl

namespace Sample

/-- A theme that leads to a style. -/
def dressed : ResourceTable ℚ :=
  { styles := .ofList [("AppTheme", { items := .ofList [("cardStyle", "@style/Card")] }),
      ("Card", { items := .ofList [("android:textColor", "#FF0000")] })]
    theme := "AppTheme" }

theorem merge_of_read_dressed : ∃ attributes : Attributes,
    dressed.read "@style/Card" = .ok (.style "Card" attributes) ∧
    dressed.read "?cardStyle" = .ok (.style "Card" attributes) ∧
    StyleSheet.merge dressed.styles (.singleton "style" "@style/Card") =
      .ok ((SortedMap.singleton "style" "@style/Card").layered attributes) ∧
    StyleSheet.merge dressed.styles (.singleton "style" "?cardStyle") =
      .error (.reference "@style/?cardStyle" (.missing .style)) := by
  have hdirect : dressed.read "@style/Card" =
      .ok (.style "Card" (.singleton "android:textColor" "#FF0000")) := rfl
  have htheme : dressed.read "?cardStyle" =
      .ok (.style "Card" (.singleton "android:textColor" "#FF0000")) := rfl
  have hplain : ∀ key ∈ SortedMap.keys dressed.styles, PlainName key := by
    intro key hkey
    have hkeys : SortedMap.keys dressed.styles = ["AppTheme", "Card"] := by decide
    rw [hkeys] at hkey
    rcases List.mem_cons.1 hkey with rfl | hkey
    · exact ⟨by decide, by decide, by decide⟩
    · rw [List.mem_singleton.1 hkey]
      exact ⟨by decide, by decide, by decide⟩
  refine ⟨_, hdirect, htheme, ?_, ?_⟩
  · exact (StyleSheet.merge_of_read (by decide) hdirect).1 ⟨by decide, by decide⟩
  · exact (StyleSheet.merge_of_read (by decide) htheme).2 hplain (by decide)

end Sample

end LayoutCompiler
