import LayoutCompiler.Proofs.Resource.Keys
/-!
# Keys that come again

A look-up that is made on account of another one may have the same key. Where both denote values,
neither depends on itself, and so the two are not for one thing: one is for a name, and the other
for a text that goes through the theme and is spelled like the key of that name.

* `Denotes.not_length`, `Denotes.not_around`: no text comes back to itself for another need.
* `Denotes.eq_of_named`, `Denotes.not_reaches_text`: neither do two names of one key, nor two texts.
* `Denotes.isNamed_ne`: a key that comes again is that of a name and of a text.
-/

open Relation (ReflTransGen TransGen)

namespace LayoutCompiler

open ResourceTable.Lead (Names)

namespace Theme

/-- The mark in front does not matter to the entry that a reference stands for. -/
theorem attribute?_of_dropLeading {sheet : StyleSheet} {theme text text' target : String}
    (heq : Text.dropLeading '?' text = Text.dropLeading '?' text')
    (h : attribute? sheet theme text = .ok target) : attribute? sheet theme text' = .ok target := by
  -- the text enters through its key alone
  have hkey : key text' = key text := by
    unfold key
    rw [heq]
  unfold attribute? at h ⊢
  cases hchain : sheet.chain theme with
  | error e =>
    rw [hchain] at h
    cases h
  | ok chain =>
    rw [hchain] at h
    dsimp only at h ⊢
    rw [hkey]
    cases hfound : (chain.get? (key text)).or (chain.get? (otherSpelling (key text))) with
    | none =>
      rw [hfound] at h
      cases h
    | some raw =>
      rw [hfound] at h
      exact h

end Theme

namespace RawResources

variable {α : Type} {raw : RawResources α} {l l' : Lookup} {need need' : Need}
  {text target key : String}

/-! ## Texts through the theme -/

theorem Follows.not_names {lead : ResourceTable.Lead} {name : String}
    (h : raw.Follows text target) : ¬ Names (Text.trim text) lead name := by
  intro hname
  have htheme := h.1
  rw [hname.not_theme] at htheme
  cases htheme

/-- A text through the theme refers to one text, for the same need. -/
theorem Refers.eq_of_follows (h : raw.Refers (.text need text) l')
    (hfollows : raw.Follows text target) : l' = .text need target := by
  cases h with
  | theme h => rw [h.unique hfollows]
  | paintPlain h =>
    have htheme := hfollows.1
    rw [h.1] at htheme
    cases htheme
  | toColor h | toDimen h | toDrawable h | paintState h | paintColor h =>
    exact absurd h hfollows.not_names

theorem reaches_of_follows (h : TransGen raw.Refers (.text need text) l')
    (hfollows : raw.Follows text target) : ReflTransGen raw.Refers (.text need target) l' := by
  obtain ⟨first, hfirst, hrest⟩ := TransGen.head'_iff.1 h
  rwa [hfirst.eq_of_follows hfollows] at hrest

/-- What a look-up is for: a color, a length or any paint. -/
def need? : Lookup → Option Need
  | .color _ | .colorState _ => some .color
  | .dimen _ => some .length
  | .drawable _ => some .paint
  | .text need _ => some need
  | .string _ | .font _ => none

/-- Only what is needed as a paint refers to something that is needed for another end. -/
theorem Refers.need?_eq (h : raw.Refers l l') (hpaint : need? l ≠ some .paint) :
    need? l' = need? l := by
  cases h with
  | paint | length | toDrawable | paintState | paintColor | paintPlain => exact absurd rfl hpaint
  | _ => rfl

theorem need?_of_reaches (h : ReflTransGen raw.Refers l l') (hpaint : need? l ≠ some .paint) :
    need? l' = need? l := by
  induction h with
  | refl => rfl
  | tail _ hstep ih => rw [hstep.need?_eq (by rwa [ih]), ih]

/-! ## Spelling and keys -/

/-- A text is spelled as a color, or as the reference to a name that is none of a length. -/
def SpellsPaint (text : String) : Prop :=
  (∃ c, Color.read? text = some c) ∨ ∃ lead name, lead ≠ .dimen ∧ Names text lead name

theorem spellsPaint_of_constant {c : Color} (h : Color.Constant text c) : SpellsPaint text := by
  rcases h with hread | ⟨name, hname, -⟩
  · exact Or.inl ⟨c, hread⟩
  · exact Or.inr ⟨.platformColor, name, by simp, hname⟩

theorem not_refers_of_constant {c : Color} (h : Color.Constant (Text.trim text) c) :
    ¬ raw.Refers (.text .color text) l' := by
  intro hrefers
  cases hrefers with
  | theme hfollows =>
    have htheme := hfollows.1
    rw [h.not_theme] at htheme
    cases htheme
  | toColor hname => exact h.not_names hname

/-- The definition that a look-up for a name is for, with the kind that is in its key. -/
def definition? : Lookup → Option (ResourceKind × String)
  | .color name | .colorState name => some (.color, name)
  | .dimen name => some (.dimen, name)
  | .string name => some (.string, name)
  | .drawable name => some (.drawable, name)
  | .font name => some (.font, name)
  | .text .. => none

/-- Only a color and a state list are looked up by one kind and name. -/
theorem eq_or_color_of_definition? {found : ResourceKind × String}
    (h : definition? l = some found) (h' : definition? l' = some found) :
    l = l' ∨ ∃ name, l = .color name ∧ l' = .colorState name ∨
      l = .colorState name ∧ l' = .color name := by
  cases l <;> cases l' <;> grind [definition?]

theorem definition?_of_mem_pushed (hnamed : l.isNamed = true) (hkey : key ∈ raw.pushed l) :
    ∃ kind name, definition? l = some (kind, name) ∧ key = kind.key name := by
  cases l with
  | text => cases hnamed
  | color name =>
    simp only [pushed] at hkey
    split at hkey
    · cases hkey
    · exact ⟨.color, name, rfl, List.mem_singleton.1 hkey⟩
  | _ => exact ⟨_, _, rfl, List.mem_singleton.1 hkey⟩

theorem plain_of_mem_pushed {name : String} (hkey : key ∈ raw.pushed (.color name)) :
    raw.colorStates.contains name = false := by
  simp only [pushed] at hkey
  split at hkey
  · cases hkey
  · rename_i hplain
    rwa [Bool.not_eq_true] at hplain

theorem theme_of_mem_pushed_text (hkey : key ∈ raw.pushed (.text need text)) :
    Text.leads "?" (Text.trim text) = true ∧ key = Text.dropLeading '?' (Text.trim text) := by
  simp only [pushed] at hkey
  split at hkey
  · rename_i htheme
    exact ⟨htheme, List.mem_singleton.1 hkey⟩
  · cases hkey

variable [Scalar α]

/-! ## One text for two needs -/

theorem Denotes.exists_follows {v : need.Answer α} (h : raw.Denotes (.text need text) v)
    (htheme : Text.leads "?" (Text.trim text) = true) :
    ∃ target, raw.Follows text target ∧ raw.Denotes (.text need target) v := by
  cases h.unfolds with
  | theme hfollows h => exact ⟨_, hfollows, h⟩
  | _ => grind [IsPlainPaint]

theorem Denotes.spellsPaint_of_color {c : Color} (h : raw.Denotes (.text .color text) c)
    (hno : Text.leads "?" (Text.trim text) = false) : SpellsPaint (Text.trim text) := by
  cases h.unfolds with
  | theme hfollows _ =>
    rw [hfollows.1] at hno
    cases hno
  | constant hconstant => exact spellsPaint_of_constant hconstant
  | toColor hname _ => exact Or.inr ⟨.color, _, by simp, hname⟩

/-- What denotes something other than a length, and not through the theme, is spelled as such. -/
theorem Denotes.spellsPaint {v : need.Answer α} (h : raw.Denotes (.text need text) v)
    (hneed : need ≠ .length) (hno : Text.leads "?" (Text.trim text) = false) :
    SpellsPaint (Text.trim text) := by
  cases need with
  | length => exact absurd rfl hneed
  | color => exact h.spellsPaint_of_color hno
  | paint =>
    cases h.unfolds with
    | theme hfollows _ =>
      rw [hfollows.1] at hno
      cases hno
    | toDrawable hname _ => exact Or.inr ⟨.drawable, _, by simp, hname⟩
    | paintState hname _ _ => exact Or.inr ⟨.color, _, by simp, hname⟩
    | paintColor hname _ _ => exact Or.inr ⟨.color, _, by simp, hname⟩
    | paintPlain _ hcolor =>
      rw [← Text.trim_trim] at hno ⊢
      exact hcolor.spellsPaint_of_color hno

/-- What denotes a length is spelled otherwise. -/
theorem Denotes.not_spellsPaint {x : Dimension α} (h : raw.Denotes (.text .length text) x)
    (hno : Text.leads "?" (Text.trim text) = false) : ¬ SpellsPaint (Text.trim text) := by
  -- a paint is spelled as a colour or as a reference, and a length by neither but a dimension's
  -- name
  rintro (⟨c, hread⟩ | ⟨lead, name, hlead, hname⟩)
  · cases h.unfolds with
    | theme hfollows _ =>
      rw [hfollows.1] at hno
      cases hno
    | toDimen hname _ => exact Color.not_names_of_read? hread hname
    | literal hliteral =>
      have hleads := Color.leads_of_read? hread
      rw [Dimension.not_leads_of_literal? (c := '#') hliteral (by decide) (by decide)] at hleads
      cases hleads
  · cases h.unfolds with
    | theme hfollows _ =>
      rw [hfollows.1] at hno
      cases hno
    | toDimen hname' _ => exact hlead (hname.unique hname').1
    | literal hliteral => exact Dimension.literal?_not_names hliteral hname

/-- No text denotes both a length and something else. -/
theorem Denotes.not_length {v : need.Answer α} {x : Dimension α}
    (h : raw.Denotes (.text need text) v) (hneed : need ≠ .length) :
    ¬ raw.Denotes (.text .length text) x := by
  have hall : ∀ {l : Lookup} {v : l.Answer α}, raw.Denotes l v → ∀ text, l = .text need text →
      ∀ x : Dimension α, ¬ raw.Denotes (.text .length text) x := by
    intro l v h
    induction h with
    | @unfold R l v hbelow h ih =>
      rintro text rfl x hx
      by_cases htheme : Text.leads "?" (Text.trim text) = true
      · -- both go through the theme to one text
        obtain ⟨target, hfollows, hx⟩ := hx.exists_follows htheme
        obtain ⟨w, hw⟩ := h.answers (.theme hfollows)
        exact ih _ _ hw _ rfl x hx
      · rw [Bool.not_eq_true] at htheme
        have hv : raw.Denotes (.text need text) v := .unfold hbelow h
        exact hx.not_spellsPaint htheme (hv.spellsPaint hneed htheme)
  exact hall h text rfl x

/-- From a text that denotes a color one does not get back to that color by way of the paint that
the text is, and of another text that goes through the theme. -/
theorem Denotes.not_around {c : Color} {middle : String} (h : raw.Denotes (.text .color text) c)
    (htheme : Text.leads "?" (Text.trim middle) = true)
    (hto : ReflTransGen raw.Refers (.text .paint text) (.text .color middle))
    (hfrom : ReflTransGen raw.Refers (.text .color middle) (.text .color text)) : False := by
  have hall : ∀ {l : Lookup} {v : l.Answer α}, raw.Denotes l v → ∀ text, l = .text .color text →
      ReflTransGen raw.Refers (.text .paint text) (.text .color middle) →
      ReflTransGen raw.Refers (.text .color middle) (.text .color text) → False := by
    intro l v h
    induction h with
    | @unfold R l v hbelow h ih =>
      rintro text rfl hto hfrom
      -- the first step from the paint is that from the color, or one to the color itself
      obtain ⟨first, hfirst, hrest⟩ : ∃ first, raw.Refers (.text .paint text) first ∧
          ReflTransGen raw.Refers first (.text .color middle) := by
        rcases hto.cases_head with heq | ⟨first, hfirst, hrest⟩
        · cases heq
        · exact ⟨first, hfirst, hrest⟩
      cases h with
      | theme hfollows h =>
        rw [hfirst.eq_of_follows hfollows] at hrest
        exact ih _ _ h _ rfl hrest (hfrom.tail (.theme hfollows))
      | constant hconstant =>
        cases hfirst with
        | theme hfollows => grind [Follows]
        | toDrawable hname | paintState hname _ | paintColor hname _ =>
          cases hconstant.lead_eq hname
        | paintPlain _ =>
          rw [← Text.trim_trim] at hconstant
          rcases hrest.cases_head with heq | ⟨next, hnext, -⟩
          · cases heq
            rw [hconstant.not_theme] at htheme
            cases htheme
          · exact not_refers_of_constant hconstant hnext
      | toColor hname h =>
        -- the name comes back to itself, by way of its state list if it has one
        have hback : raw.Refers (.text .color text) (.color _) := .toColor hname
        have hnone := (hbelow _ _ h).not_cyclic
        cases hfirst with
        | theme hfollows => exact hfollows.not_names hname
        | toDrawable hname' => cases (hname.unique hname').1
        | paintState hname' hstates =>
          obtain ⟨-, rfl⟩ := hname.unique hname'
          exact hnone (.head (.hidden hstates) (.tail' (hrest.trans hfrom) hback))
        | paintColor hname' _ =>
          obtain ⟨-, rfl⟩ := hname.unique hname'
          exact hnone (.tail' (hrest.trans hfrom) hback)
        | paintPlain hplain => exact hplain.2.2 _ hname
  exact hall h text rfl hto hfrom

/-! ## Keys that come again -/

theorem Denotes.contains_colorStates {name : String} {states : Selector Color}
    (h : raw.Denotes (.colorState name) states) : raw.colorStates.contains name = true := by
  cases h.unfolds with
  | colorState hitems _ _ => exact SortedMap.contains_iff.2 ⟨_, hitems⟩

/-- Names that have values, and one key, are one name. -/
theorem Denotes.eq_of_named {v : l.Answer α} {v' : l'.Answer α} (h : raw.Denotes l v)
    (h' : raw.Denotes l' v') (hnamed : l.isNamed = true) (hnamed' : l'.isNamed = true)
    (hkey : key ∈ raw.pushed l) (hkey' : key ∈ raw.pushed l') : l = l' := by
  obtain ⟨kind, name, hdef, rfl⟩ := definition?_of_mem_pushed hnamed hkey
  obtain ⟨kind', name', hdef', heq⟩ := definition?_of_mem_pushed hnamed' hkey'
  obtain ⟨rfl, rfl⟩ := ResourceKind.key_inj heq
  rcases eq_or_color_of_definition? hdef hdef' with heq | ⟨other, ⟨rfl, rfl⟩ | ⟨rfl, rfl⟩⟩
  · exact heq
  · -- a color has no key of its own where a state list hides it
    have hplain := plain_of_mem_pushed hkey
    rw [h'.contains_colorStates] at hplain
    cases hplain
  · have hplain := plain_of_mem_pushed hkey'
    rw [h.contains_colorStates] at hplain
    cases hplain

/-- Texts through the theme that have values, and one key, do not lead from one to the other. -/
theorem Denotes.not_reaches_text {other : String} {v : need.Answer α} {v' : need'.Answer α}
    (h : raw.Denotes (.text need text) v) (h' : raw.Denotes (.text need' other) v')
    (hkey : key ∈ raw.pushed (.text need text)) (hkey' : key ∈ raw.pushed (.text need' other)) :
    ¬ TransGen raw.Refers (.text need text) (.text need' other) := by
  intro hway
  obtain ⟨htheme, rfl⟩ := theme_of_mem_pushed_text hkey
  obtain ⟨htheme', heq⟩ := theme_of_mem_pushed_text hkey'
  -- both stand for the same entry of the theme
  obtain ⟨target, hfollows, hv⟩ := h.exists_follows htheme
  have hfollows' : raw.Follows other target :=
    ⟨htheme', Theme.attribute?_of_dropLeading heq hfollows.2⟩
  obtain ⟨v', hv'⟩ := h'.unfolds.answers (.theme hfollows')
  have hrest := reaches_of_follows hway hfollows
  have hlast : raw.Refers (.text need' other) (.text need' target) := .theme hfollows'
  by_cases hneed : need = need'
  · subst hneed
    exact hv.not_cyclic (.tail' hrest hlast)
  · have hpaint : need = .paint := by
      by_contra hne
      have hsame := need?_of_reaches hrest (by simpa [need?] using hne)
      exact hneed (Option.some.inj hsame).symm
    subst hpaint
    cases need' with
    | paint => exact hneed rfl
    | length => exact hv.not_length (by simp) hv'
    | color => exact hv'.not_around htheme' hrest (.single hlast)

/-- Of two look-ups of one key that denote values, one of which is made on account of the other, one
is for a name, and the other for a text that goes through the theme. -/
theorem Denotes.isNamed_ne {v : l.Answer α} {v' : l'.Answer α} (h : raw.Denotes l v)
    (h' : raw.Denotes l' v') (hway : TransGen raw.Refers l l') (hkey : key ∈ raw.pushed l)
    (hkey' : key ∈ raw.pushed l') : l.isNamed ≠ l'.isNamed := by
  intro hsame
  cases hnamed : l.isNamed with
  | true =>
    obtain rfl := h.eq_of_named h' hnamed (hsame ▸ hnamed) hkey hkey'
    exact h.not_cyclic hway
  | false =>
    have hnamed' : l'.isNamed = false := hsame ▸ hnamed
    cases l with
    | text need text =>
      cases l' with
      | text need' other => exact h.not_reaches_text h' hkey hkey' hway
      | _ => cases hnamed'
    | _ => cases hnamed

end RawResources

end LayoutCompiler
