import LayoutCompiler.Proofs.Data.Relation
import LayoutCompiler.Proofs.Resource.Literals
import LayoutCompiler.Resource.Lookup
import LayoutCompiler.Resource.Raw
import Mathlib.Logic.Relation
/-!
# Denotation

What definitions stand for, whatever the way in which they are resolved: a name stands for what its
definition is put together from, a reference for what its target stands for. `Unfolds` replaces the
references in one definition by values that are given; `Denotes` does so again and again.

* `Unfolds.drawable_inv` and its like: the definition of a name, or the lead of a text, says by which
  rule it unfolds.
* `Denotes.unique`: a definition denotes one value at most.
* `Denotes.not_cyclic`: nothing that depends on itself denotes anything.
-/

namespace LayoutCompiler

open ResourceTable.Lead (Names)

/-! ## Shapes -/

namespace RawShape

variable {α : Type} {paint paint' : String → Drawable α → Prop}
  {length length' : String → Dimension α → Prop} {form : RawShape α}
  {shape shape' : Shape α (Drawable α)}

/-- A shape has the values of the texts of a definition. -/
structure Fills (paint : String → Drawable α → Prop) (length : String → Dimension α → Prop)
    (form : RawShape α) (shape : Shape α (Drawable α)) : Prop where
  outline : shape.outline = form.outline
  solid : Option.Rel paint form.solid shape.solid
  strokeColor : Option.Rel paint form.strokeColor shape.strokeColor
  strokeWidth : Option.Rel (fun text x => ∃ d, length text d ∧ x = d.magnitude)
    form.strokeWidth shape.strokeWidth
  cornerRadius : Option.Rel (fun text x => ∃ d, length text d ∧ x = d.magnitude)
    form.cornerRadius shape.cornerRadius
  gradient : Option.Rel (fun g g' => paint g.start g'.start ∧ paint g.finish g'.finish ∧
    g'.angle = g.angle) form.gradient shape.gradient

theorem Fills.mono (hpaint : ∀ text d, paint text d → paint' text d)
    (hlength : ∀ text d, length text d → length' text d) (h : form.Fills paint length shape) :
    form.Fills paint' length' shape where
  outline := h.outline
  solid := rel_mono hpaint h.solid
  strokeColor := rel_mono hpaint h.strokeColor
  strokeWidth := rel_mono (fun _ _ ⟨d, hd, hx⟩ => ⟨d, hlength _ _ hd, hx⟩) h.strokeWidth
  cornerRadius := rel_mono (fun _ _ ⟨d, hd, hx⟩ => ⟨d, hlength _ _ hd, hx⟩) h.cornerRadius
  gradient := rel_mono (fun _ _ ⟨hstart, hfinish, hangle⟩ =>
    ⟨hpaint _ _ hstart, hpaint _ _ hfinish, hangle⟩) h.gradient

theorem Fills.unique (hpaint : ∀ text d d', paint text d → paint' text d' → d = d')
    (hlength : ∀ text d d', length text d → length' text d' → d = d')
    (h : form.Fills paint length shape) (h' : form.Fills paint' length' shape') :
    shape = shape' := by
  -- a field that holds a length keeps its magnitude only
  have hmagnitude : ∀ text x x', (∃ d, length text d ∧ x = d.magnitude) →
      (∃ d, length' text d ∧ x' = d.magnitude) → x = x' := by
    rintro text x x' ⟨d, hd, rfl⟩ ⟨d', hd', rfl⟩
    rw [hlength _ _ _ hd hd']
  obtain ⟨outline, solid, strokeWidth, strokeColor, cornerRadius, gradient⟩ := shape
  obtain ⟨outline', solid', strokeWidth', strokeColor', cornerRadius', gradient'⟩ := shape'
  have houtline : outline = outline' := h.outline.trans h'.outline.symm
  have hsolid : solid = solid' := rel_unique hpaint h.solid h'.solid
  have hstrokeColor : strokeColor = strokeColor' := rel_unique hpaint h.strokeColor h'.strokeColor
  have hstrokeWidth : strokeWidth = strokeWidth' :=
    rel_unique hmagnitude h.strokeWidth h'.strokeWidth
  have hcornerRadius : cornerRadius = cornerRadius' :=
    rel_unique hmagnitude h.cornerRadius h'.cornerRadius
  have hgradient : gradient = gradient' := by
    refine rel_unique ?_ h.gradient h'.gradient
    rintro g ⟨start, finish, angle⟩ ⟨start', finish', angle'⟩ ⟨hs, hf, rfl⟩ ⟨hs', hf', rfl⟩
    obtain rfl := hpaint _ _ _ hs hs'
    obtain rfl := hpaint _ _ _ hf hf'
    rfl
  rw [houtline, hsolid, hstrokeColor, hstrokeWidth, hcornerRadius, hgradient]

/-- Every text for a paint has a value. -/
theorem Fills.exists_paint (h : form.Fills paint length shape) {text : String}
    (hmem : text ∈ form.paints) : ∃ d, paint text d := by
  rcases List.mem_append.1 hmem with hmem | hmem
  · rcases List.mem_append.1 hmem with hmem | hmem
    · exact exists_of_rel h.solid (Option.mem_toList.1 hmem)
    · exact exists_of_rel h.strokeColor (Option.mem_toList.1 hmem)
  · cases hgradient : form.gradient with
    | none =>
      rw [hgradient] at hmem
      cases hmem
    | some g =>
      obtain ⟨g', hstart, hfinish, -⟩ := exists_of_rel h.gradient hgradient
      rw [hgradient] at hmem
      rcases List.mem_cons.1 hmem with rfl | hmem
      · exact ⟨_, hstart⟩
      · obtain rfl := List.mem_singleton.1 hmem
        exact ⟨_, hfinish⟩

/-- Every text for a length has a value. -/
theorem Fills.exists_length (h : form.Fills paint length shape) {text : String}
    (hmem : text ∈ form.lengths) : ∃ d, length text d := by
  rcases List.mem_append.1 hmem with hmem | hmem
  · obtain ⟨x, d, hd, -⟩ := exists_of_rel h.strokeWidth (Option.mem_toList.1 hmem)
    exact ⟨d, hd⟩
  · obtain ⟨x, d, hd, -⟩ := exists_of_rel h.cornerRadius (Option.mem_toList.1 hmem)
    exact ⟨d, hd⟩

end RawShape

/-! ## Drawables -/

theorem RawSelector.items_unique {β : Type} {r r' : String → β → Prop}
    (hsame : ∀ text v v', r text v → r' text v' → v = v') {items : RawSelector}
    {values values' : List (Interaction × β)}
    (h : List.Forall₂ (fun item value => value.1 = item.1 ∧ r item.2 value.2) items values)
    (h' : List.Forall₂ (fun item value => value.1 = item.1 ∧ r' item.2 value.2) items values') :
    values = values' := by
  refine forall₂_unique ?_ h h'
  rintro item ⟨state, v⟩ ⟨state', v'⟩ ⟨rfl, hv⟩ ⟨rfl, hv'⟩
  obtain rfl := hsame _ v v' hv hv'
  rfl

namespace RawDrawable

variable {α : Type}

/-- A drawable is what a definition stands for when its texts have given values. -/
def Draws (paint : String → Drawable α → Prop) (length : String → Dimension α → Prop)
    (name : String) : RawDrawable α → Drawable α → Prop
  | .image file, d => d = .bitmap name file
  | .vector file, d => d = .vector name file
  | .shape form, d => ∃ shape, form.Fills paint length shape ∧ d = .shape name shape
  | .layers texts, d => ∃ ds, List.Forall₂ paint texts ds ∧ d = .layers name ds
  | .selector items, d => ∃ values states,
    List.Forall₂ (fun item value => value.1 = item.1 ∧ paint item.2 value.2) items values ∧
      Selector.ofItems? values = some states ∧ d = .states name states
  | .link target, d => ∃ inner, paint target inner ∧ d = .link name inner

namespace Draws

variable {paint paint' : String → Drawable α → Prop} {length length' : String → Dimension α → Prop}
  {name text : String} {raw : RawDrawable α} {d d' : Drawable α}

theorem unique (hpaint : ∀ text d d', paint text d → paint' text d' → d = d')
    (hlength : ∀ text d d', length text d → length' text d' → d = d')
    (h : raw.Draws paint length name d) (h' : raw.Draws paint' length' name d') : d = d' := by
  cases raw with
  | image file => exact h.trans h'.symm
  | vector file => exact h.trans h'.symm
  | shape form =>
    obtain ⟨shape, h, rfl⟩ := h
    obtain ⟨shape', h', rfl⟩ := h'
    rw [h.unique hpaint hlength h']
  | layers texts =>
    obtain ⟨ds, h, rfl⟩ := h
    obtain ⟨ds', h', rfl⟩ := h'
    rw [forall₂_unique hpaint h h']
  | selector items =>
    obtain ⟨values, states, h, hstates, rfl⟩ := h
    obtain ⟨values', states', h', hstates', rfl⟩ := h'
    obtain rfl := RawSelector.items_unique hpaint h h'
    rw [Option.some.inj (hstates.symm.trans hstates')]
  | link target =>
    obtain ⟨inner, h, rfl⟩ := h
    obtain ⟨inner', h', rfl⟩ := h'
    rw [hpaint target inner inner' h h']

theorem exists_paint (h : raw.Draws paint length name d) (hmem : text ∈ raw.paints) :
    ∃ inner, paint text inner := by
  cases raw with
  | image file => cases hmem
  | vector file => cases hmem
  | shape form =>
    obtain ⟨shape, h, -⟩ := h
    exact h.exists_paint hmem
  | layers texts =>
    obtain ⟨ds, h, -⟩ := h
    obtain ⟨inner, -, h⟩ := exists_of_forall₂ h hmem
    exact ⟨inner, h⟩
  | selector items =>
    obtain ⟨values, states, h, -⟩ := h
    obtain ⟨item, hitem, rfl⟩ := List.mem_map.1 hmem
    obtain ⟨value, -, -, h⟩ := exists_of_forall₂ h hitem
    exact ⟨value.2, h⟩
  | link target =>
    obtain ⟨inner, h, -⟩ := h
    obtain rfl := List.mem_singleton.1 hmem
    exact ⟨inner, h⟩

theorem exists_length (h : raw.Draws paint length name d) (hmem : text ∈ raw.lengths) :
    ∃ x, length text x := by
  cases raw with
  | shape form =>
    obtain ⟨shape, h, -⟩ := h
    exact h.exists_length hmem
  | _ => cases hmem

end Draws

end RawDrawable

namespace RawResources

variable {α : Type} (raw : RawResources α)

/-- The definitions that a table has entries for: plain colors that a state list hides have none. -/
def Declares : Lookup → Prop
  | .color name => raw.colors.contains name = true ∧ raw.colorStates.contains name = false
  | .colorState name => raw.colorStates.contains name = true
  | .dimen name => raw.dimens.contains name = true
  | .string name => raw.strings.contains name = true
  | .drawable name => raw.drawables.contains name = true
  | .font name => raw.fonts.contains name = true
  | .text .. => False

/-- The entry of the theme that a text refers to has a text as its value. -/
def Follows (text target : String) : Prop :=
  Text.leads "?" (Text.trim text) = true ∧
    Theme.attribute? raw.styles raw.themeName (Text.trim text) = .ok target

theorem Follows.unique {raw : RawResources α} {text target target' : String}
    (h : raw.Follows text target) (h' : raw.Follows text target') : target = target' :=
  Except.ok.inj (h.2.symm.trans h'.2)

/-- A text is read as that of a color where a paint is needed: it refers neither to the theme, nor
to a drawable, nor to a color with a name. -/
def IsPlainPaint (text : String) : Prop :=
  Text.leads "?" text = false ∧ (∀ name, ¬ Names text .drawable name) ∧
    ∀ name, ¬ Names text .color name

/-! ## Dependence -/

/-- What the definition of a name, or a text, refers to. -/
inductive Refers : Lookup → Lookup → Prop
  | hidden {name : String} (h : raw.colorStates.contains name = true) :
    Refers (.color name) (.colorState name)
  | color {name text : String} (hplain : raw.colorStates.contains name = false)
    (htext : raw.colors.get? name = some text) : Refers (.color name) (.text .color text)
  | item {name : String} {items : RawSelector} {item : Interaction × String}
    (hitems : raw.colorStates.get? name = some items) (hmem : item ∈ items) :
    Refers (.colorState name) (.text .color item.2)
  | dimen {name text : String} (htext : raw.dimens.get? name = some text) :
    Refers (.dimen name) (.text .length text)
  | string {name text target : String} (htext : raw.strings.get? name = some text)
    (htarget : Names text .string target) : Refers (.string name) (.string target)
  | paint {name text : String} {d : RawDrawable α} (hdef : raw.drawables.get? name = some d)
    (hmem : text ∈ d.paints) : Refers (.drawable name) (.text .paint text)
  | length {name text : String} {d : RawDrawable α} (hdef : raw.drawables.get? name = some d)
    (hmem : text ∈ d.lengths) : Refers (.drawable name) (.text .length text)
  | member {name : String} {members : List RawMember} {m : RawMember}
    (hdef : raw.fonts.get? name = some (.family members)) (hmem : m ∈ members) :
    Refers (.font name) (.font m.target)
  | theme {need : Need} {text target : String} (h : raw.Follows text target) :
    Refers (.text need text) (.text need target)
  | toColor {text name : String} (h : Names (Text.trim text) .color name) :
    Refers (.text .color text) (.color name)
  | toDimen {text name : String} (h : Names (Text.trim text) .dimen name) :
    Refers (.text .length text) (.dimen name)
  | toDrawable {text name : String} (h : Names (Text.trim text) .drawable name) :
    Refers (.text .paint text) (.drawable name)
  | paintState {text name : String} (h : Names (Text.trim text) .color name)
    (hstates : raw.colorStates.contains name = true) :
    Refers (.text .paint text) (.colorState name)
  | paintColor {text name : String} (h : Names (Text.trim text) .color name)
    (hplain : raw.colorStates.contains name = false) : Refers (.text .paint text) (.color name)
  | paintPlain {text : String} (h : IsPlainPaint (Text.trim text)) :
    Refers (.text .paint text) (.text .color (Text.trim text))

/-! ## One unfolding -/

variable [Scalar α]

/-- A value is what a definition, or a text, stands for when what it refers to has given values. -/
inductive Unfolds (R : (l : Lookup) → l.Answer α → Prop) : (l : Lookup) → l.Answer α → Prop
  | hidden {name : String} {states : Selector Color}
    (hhidden : raw.colorStates.contains name = true) (h : R (.colorState name) states) :
    Unfolds R (.color name) states.normal
  | color {name text : String} {c : Color} (hplain : raw.colorStates.contains name = false)
    (htext : raw.colors.get? name = some text) (h : R (.text .color text) c) :
    Unfolds R (.color name) c
  | colorState {name : String} {items : RawSelector} {values : List (Interaction × Color)}
    {states : Selector Color} (hitems : raw.colorStates.get? name = some items)
    (h : List.Forall₂ (fun item value => value.1 = item.1 ∧ R (.text .color item.2) value.2)
      items values)
    (hstates : Selector.ofItems? values = some states) : Unfolds R (.colorState name) states
  | dimen {name text : String} {d : Dimension α} (htext : raw.dimens.get? name = some text)
    (h : R (.text .length text) d) : Unfolds R (.dimen name) d
  | toString {name text target s : String} (htext : raw.strings.get? name = some text)
    (htarget : Names text .string target) (h : R (.string target) s) : Unfolds R (.string name) s
  | string {name text : String} (htext : raw.strings.get? name = some text)
    (hno : ∀ target, ¬ Names text .string target) :
    Unfolds R (.string name) (Text.unescape text)
  | image {name file : String} (hdef : raw.drawables.get? name = some (.image file)) :
    Unfolds R (.drawable name) (.bitmap name file)
  | vector {name file : String} (hdef : raw.drawables.get? name = some (.vector file)) :
    Unfolds R (.drawable name) (.vector name file)
  | shape {name : String} {form : RawShape α} {shape : Shape α (Drawable α)}
    (hdef : raw.drawables.get? name = some (.shape form))
    (h : form.Fills (fun text d => R (.text .paint text) d) (fun text d => R (.text .length text) d)
      shape) : Unfolds R (.drawable name) (.shape name shape)
  | layers {name : String} {texts : List String} {ds : List (Drawable α)}
    (hdef : raw.drawables.get? name = some (.layers texts))
    (h : List.Forall₂ (fun text d => R (.text .paint text) d) texts ds) :
    Unfolds R (.drawable name) (.layers name ds)
  | selector {name : String} {items : RawSelector} {values : List (Interaction × Drawable α)}
    {states : Selector (Drawable α)} (hdef : raw.drawables.get? name = some (.selector items))
    (h : List.Forall₂ (fun item value => value.1 = item.1 ∧ R (.text .paint item.2) value.2)
      items values)
    (hstates : Selector.ofItems? values = some states) :
    Unfolds R (.drawable name) (.states name states)
  | link {name target : String} {d : Drawable α}
    (hdef : raw.drawables.get? name = some (.link target)) (h : R (.text .paint target) d) :
    Unfolds R (.drawable name) (.link name d)
  | file {name file : String} (hdef : raw.fonts.get? name = some (.file file)) :
    Unfolds R (.font name) (.face { name, file := some file, weight := 400, italic := false })
  | family {name : String} {members : List RawMember} {faces : List Font}
    (hdef : raw.fonts.get? name = some (.family members))
    (h : List.Forall₂ (fun m face => ∃ f, R (.font m.target) (.face f) ∧ face = m.face f)
      members faces) : Unfolds R (.font name) (.family name faces)
  | theme {need : Need} {text target : String} {v : need.Answer α}
    (hfollows : raw.Follows text target) (h : R (.text need target) v) :
    Unfolds R (.text need text) v
  | constant {text : String} {c : Color} (h : Color.Constant (Text.trim text) c) :
    Unfolds R (.text .color text) c
  | toColor {text name : String} {c : Color} (hname : Names (Text.trim text) .color name)
    (h : R (.color name) c) : Unfolds R (.text .color text) c
  | toDimen {text name : String} {d : Dimension α} (hname : Names (Text.trim text) .dimen name)
    (h : R (.dimen name) d) : Unfolds R (.text .length text) d
  | literal {text : String} {d : Dimension α}
    (h : Dimension.literal? (Text.trim text) = some d) : Unfolds R (.text .length text) d
  | toDrawable {text name : String} {d : Drawable α}
    (hname : Names (Text.trim text) .drawable name) (h : R (.drawable name) d) :
    Unfolds R (.text .paint text) d
  | paintState {text name : String} {states : Selector Color}
    (hname : Names (Text.trim text) .color name)
    (hstates : raw.colorStates.contains name = true) (h : R (.colorState name) states) :
    Unfolds R (.text .paint text) (.stateColor name states)
  | paintColor {text name : String} {c : Color} (hname : Names (Text.trim text) .color name)
    (hplain : raw.colorStates.contains name = false) (h : R (.color name) c) :
    Unfolds R (.text .paint text) (.namedColor name c)
  | paintPlain {text : String} {c : Color} (hplain : IsPlainPaint (Text.trim text))
    (h : R (.text .color (Text.trim text)) c) : Unfolds R (.text .paint text) (.color c)

variable {raw} {R R' : (l : Lookup) → l.Answer α → Prop} {l l' : Lookup}

theorem Unfolds.mono (hle : ∀ l v, R l v → R' l v) {v : l.Answer α} (h : raw.Unfolds R l v) :
    raw.Unfolds R' l v := by
  cases h with
  | hidden hhidden h => exact .hidden hhidden (hle _ _ h)
  | color hplain htext h => exact .color hplain htext (hle _ _ h)
  | colorState hitems h hstates =>
    exact .colorState hitems (h.imp fun _ _ h => ⟨h.1, hle _ _ h.2⟩) hstates
  | dimen htext h => exact .dimen htext (hle _ _ h)
  | toString htext htarget h => exact .toString htext htarget (hle _ _ h)
  | string htext hno => exact .string htext hno
  | image hdef => exact .image hdef
  | vector hdef => exact .vector hdef
  | shape hdef h => exact .shape hdef (h.mono (fun _ _ => hle _ _) fun _ _ => hle _ _)
  | layers hdef h => exact .layers hdef (h.imp fun _ _ h => hle _ _ h)
  | selector hdef h hstates =>
    exact .selector hdef (h.imp fun _ _ h => ⟨h.1, hle _ _ h.2⟩) hstates
  | link hdef h => exact .link hdef (hle _ _ h)
  | file hdef => exact .file hdef
  | family hdef h =>
    exact .family hdef (h.imp fun _ _ ⟨f, h, hface⟩ => ⟨f, hle _ _ h, hface⟩)
  | theme hfollows h => exact .theme hfollows (hle _ _ h)
  | constant h => exact .constant h
  | toColor hname h => exact .toColor hname (hle _ _ h)
  | toDimen hname h => exact .toDimen hname (hle _ _ h)
  | literal h => exact .literal h
  | toDrawable hname h => exact .toDrawable hname (hle _ _ h)
  | paintState hname hstates h => exact .paintState hname hstates (hle _ _ h)
  | paintColor hname hplain h => exact .paintColor hname hplain (hle _ _ h)
  | paintPlain hplain h => exact .paintPlain hplain (hle _ _ h)

/-! ## What an unfolding has to be

A name has one definition, and a text has one lead at most. So the definition, or the lead, says by
which rule something unfolds. -/

namespace Unfolds

variable {name text target : String}

/-- A name has one definition. -/
theorem one_definition {β : Type} {m : SortedMap β} {x y : β} (h : m.get? name = some x)
    (h' : m.get? name = some y) : x = y :=
  Option.some.inj (h.symm.trans h')

theorem hidden_inv {c : Color} (h : raw.Unfolds R (.color name) c)
    (hhidden : raw.colorStates.contains name = true) :
    ∃ states : Selector Color, R (.colorState name) states ∧ c = states.normal := by
  cases h with
  | hidden _ h => exact ⟨_, h, rfl⟩
  | color hplain => grind

theorem color_inv {c : Color} (h : raw.Unfolds R (.color name) c)
    (hplain : raw.colorStates.contains name = false) (htext : raw.colors.get? name = some text) :
    R (.text .color text) c := by
  cases h with
  | hidden hhidden => grind
  | color _ htext' h => exact one_definition htext htext' ▸ h

theorem colorState_inv {states : Selector Color} {items : RawSelector}
    (h : raw.Unfolds R (.colorState name) states)
    (hitems : raw.colorStates.get? name = some items) : ∃ values,
      List.Forall₂ (fun item value => value.1 = item.1 ∧ R (.text .color item.2) value.2) items
        values ∧ Selector.ofItems? values = some states := by
  cases h with
  | colorState hitems' h hstates => exact one_definition hitems' hitems ▸ ⟨_, h, hstates⟩

theorem dimen_inv {d : Dimension α} (h : raw.Unfolds R (.dimen name) d)
    (htext : raw.dimens.get? name = some text) : R (.text .length text) d := by
  cases h with
  | dimen htext' h => exact one_definition htext htext' ▸ h

theorem toString_inv {s : String} (h : raw.Unfolds R (.string name) s)
    (htext : raw.strings.get? name = some text) (htarget : Names text .string target) :
    R (.string target) s := by
  cases h with
  | toString htext' htarget' h =>
    obtain rfl := one_definition htext htext'
    obtain ⟨-, rfl⟩ := htarget.unique htarget'
    exact h
  | string htext' hno => exact absurd (one_definition htext htext' ▸ htarget) (hno target)

theorem string_inv {s : String} (h : raw.Unfolds R (.string name) s)
    (htext : raw.strings.get? name = some text) (hno : ∀ target, ¬ Names text .string target) :
    s = Text.unescape text := by
  cases h with
  | toString htext' htarget' => exact absurd (one_definition htext' htext ▸ htarget') (hno _)
  | string htext' => rw [one_definition htext htext']

theorem drawable_inv {d : Drawable α} {form : RawDrawable α}
    (h : raw.Unfolds R (.drawable name) d)
    (hdef : raw.drawables.get? name = some form) :
    form.Draws (fun text d => R (.text .paint text) d) (fun text d => R (.text .length text) d) name
      d := by
  cases h with
  | image hdef' => exact one_definition hdef' hdef ▸ rfl
  | vector hdef' => exact one_definition hdef' hdef ▸ rfl
  | shape hdef' h => exact one_definition hdef' hdef ▸ ⟨_, h, rfl⟩
  | layers hdef' h => exact one_definition hdef' hdef ▸ ⟨_, h, rfl⟩
  | selector hdef' h hstates => exact one_definition hdef' hdef ▸ ⟨_, _, h, hstates, rfl⟩
  | link hdef' h => exact one_definition hdef' hdef ▸ ⟨_, h, rfl⟩

theorem file_inv {f : FontResource} {file : String} (h : raw.Unfolds R (.font name) f)
    (hdef : raw.fonts.get? name = some (.file file)) :
    f = .face { name, file := some file, weight := 400, italic := false } := by
  cases h with
  | file hdef' =>
    cases one_definition hdef hdef'
    rfl
  | family hdef' => cases one_definition hdef hdef'

theorem family_inv {f : FontResource} {members : List RawMember}
    (h : raw.Unfolds R (.font name) f) (hdef : raw.fonts.get? name = some (.family members)) :
    ∃ faces, List.Forall₂ (fun m face => ∃ f, R (.font m.target) (.face f) ∧ face = m.face f)
      members faces ∧ f = .family name faces := by
  cases h with
  | file hdef' => cases one_definition hdef hdef'
  | family hdef' h =>
    cases one_definition hdef hdef'
    exact ⟨_, h, rfl⟩

theorem theme_inv {need : Need} {v : need.Answer α} (h : raw.Unfolds R (.text need text) v)
    (hfollows : raw.Follows text target) : R (.text need target) v := by
  cases h with
  | theme hfollows' h => exact hfollows.unique hfollows' ▸ h
  | _ => grind [Follows, IsPlainPaint]

theorem constant_inv {c c' : Color} (h : raw.Unfolds R (.text .color text) c)
    (hconstant : Color.Constant (Text.trim text) c') : c = c' := by
  cases h with
  | constant h => exact h.unique hconstant
  | _ => grind [Follows]

theorem toColor_inv {c : Color} (h : raw.Unfolds R (.text .color text) c)
    (hname : Names (Text.trim text) .color name) : R (.color name) c := by
  cases h with
  | toColor hname' h => exact (hname.unique hname').2 ▸ h
  | _ => grind [Follows]

theorem toDimen_inv {d : Dimension α} (h : raw.Unfolds R (.text .length text) d)
    (hname : Names (Text.trim text) .dimen name) : R (.dimen name) d := by
  cases h with
  | toDimen hname' h => exact (hname.unique hname').2 ▸ h
  | _ => grind [Follows]

theorem literal_inv {d d' : Dimension α} (h : raw.Unfolds R (.text .length text) d)
    (hliteral : Dimension.literal? (Text.trim text) = some d') : d = d' := by
  cases h with
  | literal h => exact Option.some.inj (h.symm.trans hliteral)
  | _ => grind [Follows]

theorem toDrawable_inv {d : Drawable α} (h : raw.Unfolds R (.text .paint text) d)
    (hname : Names (Text.trim text) .drawable name) : R (.drawable name) d := by
  cases h with
  | toDrawable hname' h => exact (hname.unique hname').2 ▸ h
  | _ => grind [Follows, IsPlainPaint]

theorem paintState_inv {d : Drawable α} (h : raw.Unfolds R (.text .paint text) d)
    (hname : Names (Text.trim text) .color name)
    (hstates : raw.colorStates.contains name = true) :
    ∃ states : Selector Color, R (.colorState name) states ∧ d = .stateColor name states := by
  cases h with
  | paintState hname' _ h =>
    obtain ⟨-, rfl⟩ := hname.unique hname'
    exact ⟨_, h, rfl⟩
  | _ => grind [Follows, IsPlainPaint]

theorem paintColor_inv {d : Drawable α} (h : raw.Unfolds R (.text .paint text) d)
    (hname : Names (Text.trim text) .color name)
    (hplain : raw.colorStates.contains name = false) :
    ∃ c : Color, R (.color name) c ∧ d = .namedColor name c := by
  cases h with
  | paintColor hname' _ h =>
    obtain ⟨-, rfl⟩ := hname.unique hname'
    exact ⟨_, h, rfl⟩
  | _ => grind [Follows, IsPlainPaint]

theorem paintPlain_inv {d : Drawable α} (h : raw.Unfolds R (.text .paint text) d)
    (hplain : IsPlainPaint (Text.trim text)) :
    ∃ c : Color, R (.text .color (Text.trim text)) c ∧ d = .color c := by
  cases h with
  | paintPlain _ h => exact ⟨_, h, rfl⟩
  | _ => grind [Follows, IsPlainPaint]

/-- A definition, or a text, stands for one value at most when what it refers to does. -/
theorem unique (hsame : ∀ l v v', R l v → R' l v' → v = v') {v v' : l.Answer α}
    (h : raw.Unfolds R l v) (h' : raw.Unfolds R' l v') : v = v' := by
  have hpaint := fun text => hsame (.text .paint text)
  have hlength := fun text => hsame (.text .length text)
  have hfirst := h
  -- the rule by which the first one unfolds is that of the second one, too
  cases h with
  | hidden hhidden h =>
    obtain ⟨states, hbelow, rfl⟩ := h'.hidden_inv hhidden
    rw [hsame _ _ _ h hbelow]
  | color hplain htext h => exact hsame _ _ _ h (h'.color_inv hplain htext)
  | colorState hitems h hstates =>
    obtain ⟨values, hbelow, hstates'⟩ := h'.colorState_inv hitems
    obtain rfl := RawSelector.items_unique (fun text => hsame (.text .color text)) h hbelow
    exact Option.some.inj (hstates.symm.trans hstates')
  | dimen htext h => exact hsame _ _ _ h (h'.dimen_inv htext)
  | toString htext htarget h => exact hsame _ _ _ h (h'.toString_inv htext htarget)
  | string htext hno => exact (h'.string_inv htext hno).symm
  | image hdef | vector hdef | shape hdef | layers hdef | selector hdef | link hdef =>
    exact (hfirst.drawable_inv hdef).unique hpaint hlength (h'.drawable_inv hdef)
  | file hdef => exact (h'.file_inv hdef).symm
  | family hdef h =>
    obtain ⟨faces, hbelow, rfl⟩ := h'.family_inv hdef
    refine congrArg _ (forall₂_unique ?_ h hbelow)
    rintro m _ _ ⟨f, hf, rfl⟩ ⟨f', hf', rfl⟩
    obtain rfl := FontResource.face.inj (hsame _ _ _ hf hf')
    rfl
  | theme hfollows h => exact hsame _ _ _ h (h'.theme_inv hfollows)
  | constant h => exact (h'.constant_inv h).symm
  | toColor hname h => exact hsame _ _ _ h (h'.toColor_inv hname)
  | toDimen hname h => exact hsame _ _ _ h (h'.toDimen_inv hname)
  | literal h => exact (h'.literal_inv h).symm
  | toDrawable hname h => exact hsame _ _ _ h (h'.toDrawable_inv hname)
  | paintState hname hstates h =>
    obtain ⟨states, hbelow, rfl⟩ := h'.paintState_inv hname hstates
    rw [hsame _ _ _ h hbelow]
  | paintColor hname hplain h =>
    obtain ⟨c, hbelow, rfl⟩ := h'.paintColor_inv hname hplain
    rw [hsame _ _ _ h hbelow]
  | paintPlain hplain h =>
    obtain ⟨c, hbelow, rfl⟩ := h'.paintPlain_inv hplain
    rw [hsame _ _ _ h hbelow]

/-- With a value for a definition or a text go values for all that it refers to. -/
theorem answers {v : l.Answer α} (h : raw.Unfolds R l v) (hrefers : raw.Refers l l') :
    ∃ v', R l' v' := by
  cases hrefers with
  | hidden hhidden =>
    obtain ⟨states, h, -⟩ := h.hidden_inv hhidden
    exact ⟨states, h⟩
  | color hplain htext => exact ⟨_, h.color_inv hplain htext⟩
  | item hitems hmem =>
    obtain ⟨values, h, -⟩ := h.colorState_inv hitems
    obtain ⟨value, -, -, h⟩ := exists_of_forall₂ h hmem
    exact ⟨value.2, h⟩
  | dimen htext => exact ⟨_, h.dimen_inv htext⟩
  | string htext htarget => exact ⟨_, h.toString_inv htext htarget⟩
  | paint hdef hmem => exact (h.drawable_inv hdef).exists_paint hmem
  | length hdef hmem => exact (h.drawable_inv hdef).exists_length hmem
  | member hdef hmem =>
    obtain ⟨faces, h, -⟩ := h.family_inv hdef
    obtain ⟨face, -, f, h, -⟩ := exists_of_forall₂ h hmem
    exact ⟨.face f, h⟩
  | theme hfollows => exact ⟨_, h.theme_inv hfollows⟩
  | toColor hname => exact ⟨_, h.toColor_inv hname⟩
  | toDimen hname => exact ⟨_, h.toDimen_inv hname⟩
  | toDrawable hname => exact ⟨_, h.toDrawable_inv hname⟩
  | paintState hname hstates =>
    obtain ⟨states, h, -⟩ := h.paintState_inv hname hstates
    exact ⟨states, h⟩
  | paintColor hname hplain =>
    obtain ⟨c, h, -⟩ := h.paintColor_inv hname hplain
    exact ⟨c, h⟩
  | paintPlain hplain =>
    obtain ⟨c, h, -⟩ := h.paintPlain_inv hplain
    exact ⟨c, h⟩

end Unfolds

/-! ## Denotation -/

variable (raw) in
/-- A value is what a definition, or a text, denotes: what it unfolds to when all that it refers to
has the value that it denotes. -/
inductive Denotes : (l : Lookup) → l.Answer α → Prop
  | unfold {R : (l : Lookup) → l.Answer α → Prop} {l : Lookup} {v : l.Answer α}
    (hbelow : ∀ l v, R l v → Denotes l v) (h : raw.Unfolds R l v) : Denotes l v

theorem Denotes.unfolds {v : l.Answer α} (h : raw.Denotes l v) : raw.Unfolds raw.Denotes l v := by
  cases h with
  | unfold hbelow h => exact h.mono hbelow

theorem Unfolds.denotes {v : l.Answer α} (h : raw.Unfolds raw.Denotes l v) : raw.Denotes l v :=
  .unfold (fun _ _ h => h) h

/-- Nothing denotes two values. -/
theorem Denotes.unique {v v' : l.Answer α} (h : raw.Denotes l v) (h' : raw.Denotes l v') :
    v = v' := by
  -- by induction on the first derivation, against any second one
  induction h with
  | unfold hbelow h ih => exact h.unique (fun l v v' hR h' => ih l v hR h') h'.unfolds

/-- What denotes something and has a name has a definition, unless a state list hides it. -/
theorem Denotes.declares {l : Lookup} {v : l.Answer α} (h : raw.Denotes l v)
    (hnamed : l.isNamed = true)
    (hplain : ∀ name, l = .color name → raw.colorStates.contains name = false) :
    raw.Declares l := by
  cases h.unfolds with
  | hidden hhidden => grind
  | color _ htext => exact ⟨SortedMap.contains_iff.2 ⟨_, htext⟩, hplain _ rfl⟩
  | theme | constant | toColor | toDimen | literal | toDrawable => cases hnamed
  | paintState | paintColor | paintPlain => cases hnamed
  | _ => exact SortedMap.contains_iff.2 ⟨_, by assumption⟩

/-- What denotes a value does not depend on itself. -/
theorem Denotes.not_cyclic {v : l.Answer α} (h : raw.Denotes l v) :
    ¬ Relation.TransGen raw.Refers l l := by
  induction h with
  | unfold hbelow h ih =>
    intro hcycle
    obtain ⟨l', hfirst, hrest⟩ := Relation.TransGen.head'_iff.1 hcycle
    obtain ⟨v', hv'⟩ := h.answers hfirst
    -- the way round can be started one reference later
    exact ih l' v' hv' (Relation.TransGen.tail' hrest hfirst)

end RawResources

end LayoutCompiler
