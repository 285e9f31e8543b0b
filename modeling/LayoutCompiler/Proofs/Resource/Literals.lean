import LayoutCompiler.Proofs.Text.Leads
import LayoutCompiler.Resource.Table
/-!
# References and literals

What a text refers to is read off its first characters. No two spellings of leads begin alike, so a
text is a reference of one kind at most, and no literal is a reference.

* `Names`: a text is the reference with a lead to a name; `Names.unique`: it is no other one.
* `split?_eq_some_iff`: the lead and the name of a reference are found.
* `not_leads_of_literal?`: literals for lengths do not begin as references and colors do.
-/

namespace LayoutCompiler

namespace ResourceTable.Lead

/-! ## References -/

/-- A text is the reference with a lead to a name. -/
def Names (text : String) (lead : Lead) (name : String) : Prop :=
  ∃ spelling, (spelling, lead) ∈ spellings ∧ text = spelling ++ name

theorem names_platformColor {text name : String} :
    Names text .platformColor name ↔ text = "@android:color/" ++ name := by
  simp [Names, spellings]

theorem names_color {text name : String} : Names text .color name ↔ text = "@color/" ++ name := by
  simp [Names, spellings]

theorem names_string {text name : String} :
    Names text .string name ↔ text = "@string/" ++ name := by
  simp [Names, spellings]

theorem names_dimen {text name : String} : Names text .dimen name ↔ text = "@dimen/" ++ name := by
  simp [Names, spellings]

theorem names_drawable {text name : String} :
    Names text .drawable name ↔ text = "@drawable/" ++ name ∨ text = "@mipmap/" ++ name := by
  simp [Names, spellings, or_comm]

/-- All spellings of leads begin with the same mark, and no two of them begin alike. -/
theorem clash_spellings : (∀ p ∈ spellings, ∀ q ∈ spellings, p = q ∨ Text.clash p.1 q.1 = true) ∧
    ∀ p ∈ spellings, Text.leads "@" p.1 = true := by
  decide

/-- A text is one reference at most. -/
@[grind →] theorem Names.unique {text name name' : String} {lead lead' : Lead}
    (h : Names text lead name) (h' : Names text lead' name') : lead = lead' ∧ name = name' := by
  obtain ⟨spelling, hmem, rfl⟩ := h
  obtain ⟨spelling', hmem', heq⟩ := h'
  rcases clash_spellings.1 _ hmem _ hmem' with hsame | hclash
  · cases hsame
    exact ⟨rfl, by simpa using heq⟩
  · exact absurd heq (Text.append_ne_of_clash hclash _ _)

theorem Names.leads {text name : String} {lead : Lead} (h : Names text lead name) :
    Text.leads "@" text = true := by
  obtain ⟨spelling, hmem, rfl⟩ := h
  obtain ⟨rest, hrest⟩ := Text.leads_iff.1 (clash_spellings.2 _ hmem)
  have hspelling : spelling = "@" ++ rest := hrest
  exact Text.leads_iff.2 ⟨rest ++ name, by rw [hspelling, String.append_assoc]⟩

/-- A reference to a name is none through the theme. -/
@[grind →] theorem Names.not_theme {text name : String} {lead : Lead} (h : Names text lead name) :
    Text.leads "?" text = false :=
  Text.not_leads_of_clash (by decide) h.leads

theorem split?_eq_some_iff {text name : String} {lead : Lead} :
    split? text = some (lead, name) ↔ Names text lead name := by
  have hfound : ∀ {lead name}, split? text = some (lead, name) → Names text lead name := by
    intro lead name h
    obtain ⟨⟨spelling, _⟩, hmem, hlead⟩ := List.exists_of_findSome?_eq_some h
    obtain ⟨name, hname, heq⟩ := Option.map_eq_some_iff.1 hlead
    cases heq
    exact ⟨spelling, hmem, Text.stripLead?_eq_some_iff.1 hname⟩
  refine ⟨hfound, fun h => ?_⟩
  -- the first spelling that leads the text is the only one that does
  cases hsplit : split? text with
  | some found =>
    obtain ⟨rfl, rfl⟩ := (hfound hsplit).unique h
    rfl
  | none =>
    obtain ⟨spelling, hmem, heq⟩ := h
    have hnone := List.findSome?_eq_none_iff.1 hsplit _ hmem
    rw [Option.map_eq_none_iff] at hnone
    exact absurd heq (Text.stripLead?_eq_none_iff.1 hnone name)

end ResourceTable.Lead

/-! ## Literals -/

open ResourceTable.Lead (Names)

theorem Color.leads_of_read? {text : String} {c : Color} (h : Color.read? text = some c) :
    Text.leads "#" text = true := by
  unfold Color.read? at h
  split at h
  · rename_i cs hcs
    exact Text.leads_iff.2 ⟨String.ofList cs, String.ext (by simp [hcs])⟩
  · cases h

/-- The literal of a color is no reference to a name. -/
theorem Color.not_names_of_read? {text name : String} {lead : ResourceTable.Lead} {c : Color}
    (h : Color.read? text = some c) : ¬ Names text lead name := by
  intro hnames
  have hnot : Text.leads "@" text = false :=
    Text.not_leads_of_clash (by decide) (leads_of_read? h)
  rw [hnames.leads] at hnot
  cases hnot

/-- A text is the literal of a color, or the reference to a color of the platform. -/
def Color.Constant (text : String) (c : Color) : Prop :=
  Color.read? text = some c ∨
    ∃ name, Names text .platformColor name ∧ Color.platform? name = some c

namespace Color

@[grind →] theorem Constant.not_theme {text : String} {c : Color} (h : Constant text c) :
    Text.leads "?" text = false := by
  rcases h with hread | ⟨name, hname, -⟩
  · exact Text.not_leads_of_clash (by decide) (leads_of_read? hread)
  · exact hname.not_theme

/-- A color that stands for itself is no reference to a name of the project. -/
theorem Constant.lead_eq {text name : String} {lead : ResourceTable.Lead} {c : Color}
    (h : Constant text c) (hnames : Names text lead name) : lead = .platformColor := by
  rcases h with hread | ⟨name', hname', -⟩
  · exact absurd hnames (not_names_of_read? hread)
  · exact (hnames.unique hname').1

@[grind .] theorem Constant.not_names {text name : String} {c : Color} (h : Constant text c) :
    ¬ Names text .color name := by
  intro hnames
  cases h.lead_eq hnames

theorem Constant.unique {text : String} {c c' : Color} (h : Constant text c)
    (h' : Constant text c') : c = c' := by
  rcases h with hread | ⟨name, hname, hplatform⟩
  · rcases h' with hread' | ⟨name', hname', -⟩
    · exact Option.some.inj (hread.symm.trans hread')
    · exact absurd hname' (not_names_of_read? hread)
  · rcases h' with hread' | ⟨name', hname', hplatform'⟩
    · exact absurd hname (not_names_of_read? hread')
    · obtain ⟨-, rfl⟩ := hname.unique hname'
      exact Option.some.inj (hplatform.symm.trans hplatform')

end Color

namespace Dimension

/-- The characters that literals for lengths are made of, and the blanks around them. -/
def isPart (c : Char) : Bool :=
  Text.isBlank c || c.isDigit || "+-.eEdipsx".toList.contains c

theorem isPart_of_digit {c : Char} (h : c.isDigit = true) : isPart c = true := by
  simp [isPart, h]

variable {α : Type} [Scalar α]

theorem mem_of_sign {cs : List Char} {c : Char} (h : c ∈ cs) :
    c ∈ (Numeral.sign cs).2 ∨ c = '+' ∨ c = '-' := by
  unfold Numeral.sign
  split
  · rcases List.mem_cons.1 h with rfl | h
    · exact Or.inr (Or.inl rfl)
    · exact Or.inl h
  · rcases List.mem_cons.1 h with rfl | h
    · exact Or.inr (Or.inr rfl)
    · exact Or.inl h
  · exact Or.inl h

theorem isPart_of_magnitude? {cs : List Char} {x : α} (h : magnitude? cs = some x) :
    ∀ c ∈ cs, isPart c = true := by
  intro c hc
  unfold magnitude? at h
  dsimp only at h
  split at h
  · rename_i hall
    rcases mem_of_sign hc with hmem | rfl | rfl
    · have hdigit := List.all_eq_true.1 hall c hmem
      rcases Bool.or_eq_true_iff.1 hdigit with hdigit | hpoint
      · exact isPart_of_digit hdigit
      · rw [eq_of_beq hpoint]
        decide
    · decide
    · decide
  · cases h

/-- The characters of a text are blanks, or those of the text without the blanks around it. -/
theorem isPart_of_trim {text : String} (h : ∀ c ∈ (Text.trim text).toList, isPart c = true) :
    ∀ c ∈ text.toList, isPart c = true := by
  intro c hc
  by_cases hblank : Text.isBlank c = true
  · simp [isPart, hblank]
  · refine h c ?_
    unfold Text.trim
    rw [String.toList_ofList]
    exact Text.mem_trimBy hc (by simpa using hblank)

theorem all_isPart_spellings : ∀ p ∈ LengthUnit.spellings, p.1.toList.all isPart = true := by
  decide

theorem isPart_of_read? {text : String} {d : Dimension α} (h : read? text = some d) :
    ∀ c ∈ text.toList, isPart c = true := by
  refine isPart_of_trim fun c hc => ?_
  obtain ⟨⟨spelling, unit⟩, hmem, hread⟩ := List.exists_of_findSome?_eq_some h
  obtain ⟨number, hnumber, hread⟩ := Option.bind_eq_some_iff.1 hread
  obtain ⟨x, hx, -⟩ := Option.map_eq_some_iff.1 hread
  have hparts := isPart_of_trim (isPart_of_magnitude? hx)
  obtain ⟨front, hfront, rfl⟩ := Option.map_eq_some_iff.1 hnumber
  rw [List.isPrefixOf?_eq_some_iff_append_eq] at hfront
  have hbody := congrArg List.reverse hfront
  rw [List.reverse_append, List.reverse_reverse, List.reverse_reverse] at hbody
  rw [← hbody] at hc
  rcases List.mem_append.1 hc with hc | hc
  · exact hparts c (by rwa [String.toList_ofList])
  · exact List.all_eq_true.1 (all_isPart_spellings _ hmem) c hc

theorem isPart_of_bare? {text : String} {x : α} (h : bare? text = some x) :
    ∀ c ∈ text.toList, isPart c = true := by
  refine isPart_of_trim fun c hc => ?_
  unfold bare? at h
  dsimp only at h
  split at h
  · rename_i hall
    have hpart := List.all_eq_true.1 (Bool.and_eq_true_iff.1 hall).1 c hc
    simp only [Bool.or_eq_true, beq_iff_eq] at hpart
    rcases hpart with ((((hdigit | rfl) | rfl) | rfl) | rfl) | rfl
    · exact isPart_of_digit hdigit
    all_goals decide
  · cases h

/-- A literal for a length does not begin as references and colors do. -/
theorem not_leads_of_literal? {text lead : String} {d : Dimension α} {c : Char}
    (h : literal? text = some d) (hc : isPart c = false) (hmem : c ∈ lead.toList) :
    Text.leads lead text = false := by
  have hparts : ∀ c ∈ text.toList, isPart c = true := by
    rcases Option.or_eq_some_iff.1 h with hread | ⟨-, hbare⟩
    · exact isPart_of_read? hread
    · obtain ⟨x, hx, -⟩ := Option.map_eq_some_iff.1 hbare
      exact isPart_of_bare? hx
  rw [Bool.eq_false_iff]
  intro hleads
  obtain ⟨rest, rfl⟩ := Text.leads_iff.1 hleads
  rw [hparts c (by simp [hmem])] at hc
  cases hc

@[grind →] theorem literal?_not_theme {text : String} {d : Dimension α}
    (h : literal? text = some d) : Text.leads "?" text = false :=
  not_leads_of_literal? (c := '?') h (by decide) (by decide)

@[grind .] theorem literal?_not_names {text name : String} {lead : ResourceTable.Lead}
    {d : Dimension α} (h : literal? text = some d) : ¬ Names text lead name := by
  intro hnames
  have hnot : Text.leads "@" text = false :=
    not_leads_of_literal? (c := '@') h (by decide) (by decide)
  rw [hnames.leads] at hnot
  cases hnot

end Dimension

end LayoutCompiler
