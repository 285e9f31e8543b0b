import LayoutCompiler.Proofs.Resource.Runs
/-!
# Reading and resolving

Texts in definitions are resolved before there is a table, and texts of attributes are read against
it. Both ways tell references and literals apart, in different orders, and both follow references
through the theme: resolution for as long as they are no cycle, reading only so often in a row.

* `readWithin_of_through`: reading goes through the theme when it is allowed as many hops.
* `agrees_of_denotes`: what a text denotes is what reading it gives, within the allowed hops.
* `read_of_resolve`: entries of a table are put together from what reading their texts gives.
-/

namespace LayoutCompiler

open RawResources ResourceTable ResourceTable.Lead

variable {α : Type} {raw : RawResources α}

/-! ## Hops -/

namespace RawResources

variable (raw) in
/-- So many references through the theme, one after the other, lead from a text to one that is no
such reference. -/
inductive Through : Nat → String → String → Prop
  | here {text : String} (h : Text.leads "?" (Text.trim text) = false) : Through 0 text text
  | hop {hops : Nat} {text target base : String} (h : raw.Follows text target)
    (hrest : Through hops target base) : Through (hops + 1) text base

theorem Through.not_theme {hops : Nat} {text base : String} (h : raw.Through hops text base) :
    Text.leads "?" (Text.trim base) = false := by
  induction h with
  | here h => exact h
  | hop _ _ ih => exact ih

variable [Scalar α]

theorem Unfolds.of_theme {R : (l : Lookup) → l.Answer α → Prop} {need : Need} {text : String}
    {v : need.Answer α} (h : raw.Unfolds R (.text need text) v)
    (htheme : Text.leads "?" (Text.trim text) = true) :
    ∃ target, raw.Follows text target ∧ R (.text need target) v := by
  cases h with
  | theme hfollows h => exact ⟨_, hfollows, h⟩
  | _ => grind [IsPlainPaint]

/-- The text of a color that refers to nothing can only be a constant. -/
theorem Unfolds.constant_of_plain {R : (l : Lookup) → l.Answer α → Prop} {text : String}
    {c : Color} (h : raw.Unfolds R (.text .color text) c) (hplain : IsPlainPaint (Text.trim text)) :
    Color.Constant (Text.trim text) c := by
  cases h with
  | theme hfollows => grind [Follows, IsPlainPaint]
  | constant hc => exact hc
  | toColor hname => exact absurd hname (hplain.2.2 _)

/-- A text denotes what the text denotes that it leads to. -/
theorem Through.denotes {hops : Nat} {text base : String} {need : Need} {v : need.Answer α}
    (h : raw.Through hops text base) (hv : raw.Denotes (.text need text) v) :
    raw.Denotes (.text need base) v := by
  induction h with
  | here => exact hv
  | hop hfollows _ ih =>
    obtain ⟨target, hfollows', hv'⟩ := hv.unfolds.of_theme hfollows.1
    obtain rfl := hfollows.unique hfollows'
    exact ih hv'

/-- A text that denotes something leads to one that is no reference through the theme. -/
theorem Denotes.exists_through {l : Lookup} {v : l.Answer α} (h : raw.Denotes l v) {need : Need}
    {text : String} (hl : l = .text need text) : ∃ hops base, raw.Through hops text base := by
  induction h generalizing text with
  | unfold hbelow h ih =>
    subst hl
    by_cases htheme : Text.leads "?" (Text.trim text) = true
    · obtain ⟨target, hfollows, hv⟩ := h.of_theme htheme
      obtain ⟨hops, base, hrest⟩ := ih _ _ hv rfl
      exact ⟨hops + 1, base, .hop hfollows hrest⟩
    · exact ⟨0, text, .here (by simpa using htheme)⟩

end RawResources

/-! ## Reading -/

namespace ResourceTable

variable [Scalar α] {table : ResourceTable α}

/-- A text is read as what it has to stand for. -/
def Gives (table : ResourceTable α) : (need : Need) → String → need.Answer α → Prop
  | .color, text, c => ∃ v, table.read text = .ok v ∧ v.color? = some c
  | .length, text, d => table.dimension? text = .ok (some d)
  | .paint, text, d => table.read text = .ok (.drawable d)

theorem readPlain_of_names {text name : String} {lead : Lead} (raw : String)
    (h : Names text lead name) : table.readPlain raw text = table.lookUp text lead name := by
  unfold readPlain
  cases hread : Color.read? text with
  | some c => exact absurd h (Color.not_names_of_read? hread)
  | none => simp only [split?_eq_some_iff.2 h]

theorem readPlain_of_constant {text : String} {c : Color} (raw : String)
    (h : Color.Constant text c) : table.readPlain raw text = .ok (.drawable (.color c)) := by
  rcases h with hread | ⟨name, hname, hplatform⟩
  · simp only [readPlain, hread]
  · rw [readPlain_of_names raw hname]
    simp only [lookUp, hplatform]

variable (table) in
theorem readPlain_of_literal? {text : String} {d : Dimension α} (raw : String)
    (h : Dimension.literal? text = some d) :
    table.readPlain raw text = .ok (.dimension d) ∨
      table.readPlain raw text = .ok (.number d.magnitude) ∧ d.unit = .dp := by
  -- a literal is spelled neither like a reference nor like a colour
  have hsplit : split? text = none := by
    cases hsplit : split? text with
    | none => rfl
    | some found => exact absurd (split?_eq_some_iff.1 hsplit) (Dimension.literal?_not_names h)
  have hcolor : Color.read? text = none := by
    cases hread : Color.read? text with
    | none => rfl
    | some c =>
      have hnot : Text.leads "#" text = false :=
        Dimension.not_leads_of_literal? (c := '#') h (by decide) (by decide)
      rw [Color.leads_of_read? hread] at hnot
      cases hnot
  simp only [readPlain, hcolor, hsplit]
  unfold literal
  rcases Option.or_eq_some_iff.1 h with hread | ⟨hread, hbare⟩
  · simp [hread]
  · obtain ⟨x, hx, rfl⟩ := Option.map_eq_some_iff.1 hbare
    simp [hread, hx]

/-- Reading goes through the theme when it is allowed as many hops. -/
theorem readWithin_of_through (allowed : Nat) {hops : Nat} {text base : String}
    (htheme : table.theme = raw.themeName) (hstyles : table.styles = raw.styles)
    (h : raw.Through hops text base) :
    (hops ≤ allowed → table.readWithin allowed text = table.readPlain base (Text.trim base)) ∧
      (allowed < hops → ∃ last, table.readWithin allowed text =
        .error (.reference last .themeLoop)) := by
  -- by induction on the hops that lead from the text, whatever number is allowed
  induction h generalizing allowed with
  | @here text hplain =>
    refine ⟨fun _ => ?_, nofun⟩
    cases allowed with
    | zero => rw [readWithin_zero, hplain, if_neg Bool.false_ne_true]
    | succ allowed => rw [readWithin_succ, hplain, if_neg Bool.false_ne_true]
  | @hop _ text _ _ hfollows _ ih =>
    cases allowed with
    | zero =>
      refine ⟨nofun, fun _ => ⟨Text.trim text, ?_⟩⟩
      rw [readWithin_zero, if_pos hfollows.1]
    | succ allowed =>
      rw [readWithin_succ, if_pos hfollows.1, htheme, hstyles, hfollows.2]
      obtain ⟨hwithin, hbeyond⟩ := ih allowed
      constructor
      · intro hle
        exact hwithin (Nat.le_of_succ_le_succ hle)
      · intro hlt
        exact hbeyond (Nat.lt_of_succ_lt_succ hlt)

end ResourceTable

namespace RawResources

variable [Scalar α] {table : ResourceTable α}

theorem colorStates_get?_eq_none (h : raw.resolve = .ok table) {name : String}
    (hplain : raw.colorStates.contains name = false) : table.colorStates.get? name = none := by
  cases hget : table.colorStates.get? name with
  | none => rfl
  | some states =>
    have hanswer : table.answer? (.colorState name) = some states := hget
    have hdeclares : raw.colorStates.contains name = true := ((answer?_eq_some_iff h).1 hanswer).1
    rw [hdeclares] at hplain
    cases hplain

theorem lookUp_stateColor (h : raw.resolve = .ok table) {text name : String}
    {states : Selector Color} (hhidden : raw.colorStates.contains name = true)
    (hstates : raw.Denotes (.colorState name) states) :
    table.lookUp text .color name = .ok (.drawable (.stateColor name states)) := by
  have hget : table.colorStates.get? name = some states :=
    (answer?_eq_some_iff (l := .colorState name) h).2 ⟨hhidden, hstates⟩
  simp only [lookUp, hget]

theorem lookUp_plainColor (h : raw.resolve = .ok table) {text name : String} {c : Color}
    (hplain : raw.colorStates.contains name = false) (hc : raw.Denotes (.color name) c) :
    table.lookUp text .color name = .ok (.drawable (.namedColor name c)) := by
  have hdeclares := hc.declares rfl fun _ heq => Lookup.color.inj heq ▸ hplain
  have hget : table.colors.get? name = some c := (answer?_eq_some_iff h).2 ⟨hdeclares, hc⟩
  simp only [lookUp, colorStates_get?_eq_none h hplain, hget]
  rfl

theorem lookUp_dimen (h : raw.resolve = .ok table) {text name : String} {d : Dimension α}
    (hd : raw.Denotes (.dimen name) d) :
    table.lookUp text .dimen name = .ok (.namedDimension name d) := by
  have hget : table.dimens.get? name = some d :=
    (answer?_eq_some_iff h).2 ⟨hd.declares rfl nofun, hd⟩
  simp only [lookUp, hget]
  rfl

theorem lookUp_drawable (h : raw.resolve = .ok table) {text name : String} {d : Drawable α}
    (hd : raw.Denotes (.drawable name) d) :
    table.lookUp text .drawable name = .ok (.drawable d) := by
  have hget : table.drawables.get? name = some d :=
    (answer?_eq_some_iff h).2 ⟨hd.declares rfl nofun, hd⟩
  simp only [lookUp, hget]
  rfl

/-- What a text denotes that is no reference through the theme is what reading it gives. -/
theorem gives_of_denotes (h : raw.resolve = .ok table) {need : Need} {text base : String}
    {v : need.Answer α} (hread : table.read text = table.readPlain base (Text.trim base))
    (htheme : Text.leads "?" (Text.trim base) = false) (hv : raw.Denotes (.text need base) v) :
    table.Gives need text v := by
  cases hv.unfolds with
  | theme hfollows =>
    -- the text that is left is no reference through the theme
    rw [hfollows.1] at htheme
    cases htheme
  | constant hc => exact ⟨_, hread.trans (readPlain_of_constant _ hc), rfl⟩
  | toColor hname hc =>
    rw [readPlain_of_names _ hname] at hread
    cases hc.unfolds with
    | hidden hhidden hstates => exact ⟨_, hread.trans (lookUp_stateColor h hhidden hstates), rfl⟩
    | color hplain => exact ⟨_, hread.trans (lookUp_plainColor h hplain hc), rfl⟩
  | toDimen hname hd =>
    rw [readPlain_of_names _ hname, lookUp_dimen h hd] at hread
    simp [Gives, dimension?, hread, Except.map]
  | literal hd =>
    rcases readPlain_of_literal? table base hd with hplain | ⟨hplain, hunit⟩
    · simp [Gives, dimension?, hread, hplain, Except.map]
    · simp [Gives, dimension?, hread, hplain, Except.map, ← hunit]
  | toDrawable hname hd =>
    rw [readPlain_of_names _ hname] at hread
    exact hread.trans (lookUp_drawable h hd)
  | paintState hname hhidden hstates =>
    rw [readPlain_of_names _ hname] at hread
    exact hread.trans (lookUp_stateColor h hhidden hstates)
  | paintColor hname hplain hc =>
    rw [readPlain_of_names _ hname] at hread
    exact hread.trans (lookUp_plainColor h hplain hc)
  | paintPlain hplain hc =>
    have hconstant := hc.unfolds.constant_of_plain (by rwa [Text.trim_trim])
    rw [Text.trim_trim] at hconstant
    exact hread.trans (readPlain_of_constant _ hconstant)

/-! ## Main statement -/

variable (raw table) in
/-- A value is also what reading gives, for a text that few enough references through the theme
lead from; with more of them, reading gives up. -/
def Agrees : (l : Lookup) → l.Answer α → Prop
  | .text need text, v => ∃ hops base, raw.Through hops text base ∧
      (hops ≤ maxThemeHops → table.Gives need text v) ∧
      (maxThemeHops < hops → ∃ last, table.read text = .error (.reference last .themeLoop))
  | l, v => raw.Denotes l v

/-- What a text denotes is what reading it gives, within the hops that are allowed. -/
theorem agrees_of_denotes (h : raw.resolve = .ok table) {l : Lookup} {v : l.Answer α}
    (hv : raw.Denotes l v) : Agrees raw table l v := by
  cases l with
  | text need text =>
    obtain ⟨hops, base, hthrough⟩ := hv.exists_through rfl
    obtain ⟨hwithin, hbeyond⟩ :=
      readWithin_of_through maxThemeHops (theme_of_resolve h) (styles_of_resolve h) hthrough
    refine ⟨hops, base, hthrough, ?_, hbeyond⟩
    intro hle
    exact gives_of_denotes h (hwithin hle) hthrough.not_theme (hthrough.denotes hv)
  | _ => exact hv

/-- Every text that has been resolved is read as what it was resolved to, and the entries of the
table are put together from what reading their texts gives. -/
theorem read_of_resolve (h : raw.resolve = .ok table) :
    (∀ need text s v, Resolve.Arises raw (.text need text) s →
      (Resolve.lookUp raw (.text need text) s).1 = .ok v → Agrees raw table (.text need text) v) ∧
    ∀ l v, table.answer? l = some v → raw.Unfolds (Agrees raw table) l v := by
  constructor
  · intro need text s v harises hv
    have hsettled := Resolve.lookUp_settled harises.valid.1 harises.valid.2
    exact agrees_of_denotes h (hsettled.answer v hv)
  · intro l v hv
    have hdenotes := ((answer?_eq_some_iff h).1 hv).2
    exact hdenotes.unfolds.mono fun l v hv => agrees_of_denotes h hv

end RawResources

namespace Sample

theorem read_of_resolve_palette : ∃ table c, palette.resolve = .ok table ∧
    table.colors.get? "surface" = some c ∧
      ∃ v, table.read "?colorAccent" = .ok v ∧ v.color? = some c := by
  have hrun : palette.resolve.toOption.map (fun table => (table.colors.get? "surface").isSome) =
      some true := by
    decide +kernel
  cases hresolve : palette.resolve with
  | error e =>
    rw [hresolve] at hrun
    cases hrun
  | ok table =>
    rw [hresolve] at hrun
    obtain ⟨c, hc⟩ := Option.isSome_iff_exists.1 (Option.some.inj hrun)
    refine ⟨table, c, rfl, hc, ?_⟩
    cases (read_of_resolve hresolve).2 (.color "surface") c hc with
    | hidden hhidden => cases hhidden
    | color _ htext hagrees =>
      cases htext
      obtain ⟨hops, base, hthrough, hgives, -⟩ := hagrees
      have hfollows : palette.Follows "?colorAccent" "@color/base" := ⟨rfl, rfl⟩
      cases hthrough with
      | here h => exact absurd h (by decide)
      | hop hfollows' hrest =>
        obtain rfl := hfollows.unique hfollows'
        cases hrest with
        | here => exact hgives (by decide)
        | hop h => exact absurd h.1 (by decide)

/-- A color that seventeen references through the theme lead to. -/
def corridor : RawResources ℚ where
  colors := .ofList [("far", "?a0")]
  styles := .singleton "AppTheme"
    { items := .ofList [("a0", "?a1"), ("a1", "?a2"), ("a2", "?a3"), ("a3", "?a4"), ("a4", "?a5"),
        ("a5", "?a6"), ("a6", "?a7"), ("a7", "?a8"), ("a8", "?a9"), ("a9", "?a10"),
        ("a10", "?a11"), ("a11", "?a12"), ("a12", "?a13"), ("a13", "?a14"), ("a14", "?a15"),
        ("a15", "?a16"), ("a16", "#ffffff")] }

/-- The color is resolved, but its text is not read. -/
theorem not_read_corridor : ∃ table, corridor.resolve = .ok table ∧
    corridor.colors.get? "far" = some "?a0" ∧
    table.colors.get? "far" = some ⟨0xff, 0xff, 0xff, 0xff⟩ ∧ ∀ v, table.read "?a0" ≠ .ok v := by
  have hrun : corridor.resolve.toOption.map (fun table => (table.colors.get? "far",
      (table.read "?a0").toOption.isSome)) = some (some ⟨0xff, 0xff, 0xff, 0xff⟩, false) := by
    decide +kernel
  cases hresolve : corridor.resolve with
  | error e =>
    rw [hresolve] at hrun
    cases hrun
  | ok table =>
    rw [hresolve] at hrun
    obtain ⟨hfar, hread⟩ := Prod.mk.inj (Option.some.inj hrun)
    refine ⟨table, rfl, rfl, hfar, fun v hv => ?_⟩
    rw [hv] at hread
    cases hread

end Sample

end LayoutCompiler
