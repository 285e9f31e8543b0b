import LayoutCompiler.Proofs.Resource.Repeats
import LayoutCompiler.Proofs.Resource.Steps
/-!
# Progress of steps

What denotes a value is found. A step comes to that value, unless a key that is on the stack
already makes it raise an alarm. `Yields` says so of a step, for any notion of an alarm, and has a
rule for each way of putting steps together.

* `step_yields`: a step comes to what a look-up denotes, if all look-ups that it makes do.
-/

namespace LayoutCompiler

open RawResources ResourceTable.Lead

namespace RawResources

variable {α : Type} {raw : RawResources α} {l : Lookup} {key : String}

theorem mem_stackKeys_of_declares (h : raw.Declares l) (hkey : key ∈ raw.pushed l) :
    key ∈ raw.stackKeys := by
  cases l with
  | text => cases h
  | color name =>
    obtain ⟨text, htext⟩ := SortedMap.contains_iff.1 h.1
    simp only [pushed, h.2, Bool.false_eq_true, if_false, List.mem_singleton] at hkey
    exact hkey ▸ key_mem_stackKeys .color htext (by simp [keyLists])
  | _ =>
    obtain ⟨definition, hdef⟩ := SortedMap.contains_iff.1 h
    rw [List.mem_singleton.1 hkey]
    exact key_mem_stackKeys _ hdef (by simp [keyLists])

/-- What has a key and denotes a value is declared. -/
theorem Denotes.declares_of_mem_pushed [Scalar α] {v : l.Answer α} (h : raw.Denotes l v)
    (hnamed : l.isNamed = true) (hkey : key ∈ raw.pushed l) : raw.Declares l := by
  apply h.declares hnamed
  rintro name rfl
  exact plain_of_mem_pushed hkey

end RawResources

namespace Resolve

variable {α β γ δ : Type} [Scalar α] {raw : RawResources α} {alarm : Failure → Prop}
  {stack : List String} {x : Resolve α β} {f : β → Resolve α γ} {v : β} {w : γ}

/-! ## The rules -/

variable (raw alarm stack) in
/-- A step comes to a value, from every valid state with the given stack, unless it raises an
alarm. -/
structure Yields (v : β) (x : Resolve α β) : Prop where
  alike : Alike raw stack (· = v) x x
  alarms : ∀ s e, Valid raw s → s.visiting = stack → (x s).1 = .error e → alarm e

theorem Yields.pure (v : β) : Yields raw alarm stack v (pure v) where
  alike := .pure rfl
  alarms s e _ _ he := by cases he

theorem Yields.bind (hx : Yields raw alarm stack v x) (hf : Yields raw alarm stack w (f v)) :
    Yields raw alarm stack w (x >>= f) where
  alike := by
    refine hx.alike.bind ?_
    rintro _ rfl
    exact hf.alike
  alarms s e hvalid hstack he := by
    obtain ⟨-, hsettled⟩ := hx.alike s hvalid hstack
    rw [bind_apply] at he
    rcases hout : x s with ⟨e' | v', s'⟩ <;> rw [hout] at he hsettled
    · cases he
      exact hx.alarms s e hvalid hstack (by rw [hout])
    · obtain rfl := hsettled.answer v' rfl
      exact hf.alarms s' e hsettled.valid (hsettled.visiting.trans hstack) he

/-- A key that is on the stack already raises the alarm. -/
theorem Yields.under {key : String} (hkey : key ∈ raw.stackKeys)
    (hagain : key ∈ stack → alarm (.reference ("@" ++ key) (.circular (stack ++ [key]))))
    (h : key ∉ stack → Yields raw alarm (stack ++ [key]) v x) :
    Yields raw alarm stack v (under key x) where
  alike := .under hkey fun hfresh => (h hfresh).alike
  alarms s e hvalid hstack he := by
    subst hstack
    rw [under_apply] at he
    split at he
    · rename_i hmem
      cases he
      exact hagain (by simpa using hmem)
    · rename_i hfresh
      have hfresh : key ∉ s.visiting := by simpa using hfresh
      exact (h hfresh).alarms (entered key s) e (hvalid.entered hkey hfresh) rfl he

theorem Yields.throughTheme {text target : String} {follow : String → Resolve α β}
    (htarget : Theme.attribute? raw.styles raw.themeName text = .ok target)
    (hkey : Text.dropLeading '?' text ∈ raw.stackKeys)
    (hagain : Text.dropLeading '?' text ∈ stack →
      alarm (.reference ("@" ++ Text.dropLeading '?' text)
        (.circular (stack ++ [Text.dropLeading '?' text]))))
    (h : Text.dropLeading '?' text ∉ stack →
      Yields raw alarm (stack ++ [Text.dropLeading '?' text]) v (follow target)) :
    Yields raw alarm stack v (throughTheme raw text follow) where
  alike := by
    refine .throughTheme hkey fun other hother hfresh => ?_
    obtain rfl := Except.ok.inj (htarget.symm.trans hother)
    exact (h hfresh).alike
  alarms s e hvalid hstack he := by
    rw [throughTheme_apply, hvalid.theme, htarget] at he
    exact (Yields.under hkey hagain h).alarms s e hvalid hstack he

variable {l : Lookup} {answer : l.Answer α} {y : Resolve α (l.Answer α)}

theorem Yields.recalled (hdenotes : raw.Denotes l answer) (h : Yields raw alarm stack answer y) :
    Yields raw alarm stack answer (recalled l y) where
  alike := by
    have hy : Alike raw stack (raw.Denotes l) y y := by
      refine h.alike.mono ?_
      rintro _ rfl
      exact hdenotes
    exact (Alike.recalled hy).mono fun _ hother => hother.unique hdenotes
  alarms s e hvalid hstack he := by
    rw [recalled_apply] at he
    cases hanswer : s.table.answer? l with
    | none =>
      rw [hanswer] at he
      exact h.alarms s e hvalid hstack he
    | some v =>
      rw [hanswer] at he
      cases he

theorem Yields.keep (hnamed : l.isNamed = true) (hdeclares : raw.Declares l)
    (hdenotes : raw.Denotes l answer) : Yields raw alarm stack () (keep l answer) where
  alike := (Alike.keep hnamed hdeclares hdenotes).mono fun _ _ => rfl
  alarms s e _ _ he := by cases he

theorem Yields.mapM {r : δ → β → Prop} {f : δ → Resolve α β} {ds : List δ} {vs : List β}
    (hvs : List.Forall₂ r ds vs) (h : ∀ d ∈ ds, ∀ v, r d v → Yields raw alarm stack v (f d)) :
    Yields raw alarm stack vs (ds.mapM f) := by
  induction hvs with
  | nil => exact .pure []
  | cons hr _ ih =>
    obtain ⟨hd, hds⟩ := List.forall_mem_cons.1 h
    rw [List.mapM_cons]
    exact .bind (hd _ hr) (.bind (ih hds) (.pure _))

theorem Yields.mapM? {r : δ → β → Prop} {f : δ → Resolve α β} {d : Option δ} {v : Option β}
    (hv : Option.Rel r d v)
    (h : ∀ d', d = some d' → ∀ v', r d' v' → Yields raw alarm stack v' (f d')) :
    Yields raw alarm stack v (d.mapM f) := by
  cases hv with
  | none => exact .pure none
  | some hr => exact .bind (h _ rfl _ hr) (.pure _)

/-! ## Steps for names -/

variable (raw alarm) in
/-- Every look-up that another one makes, and that denotes a value, comes to it. -/
def YieldsBelow (l : Lookup) (stack : List String) (ask : Answers α) : Prop :=
  ∀ l' stack', raw.Calls l stack l' stack' → ∀ answer : l'.Answer α, raw.Denotes l' answer →
    Yields raw alarm stack' answer (ask l')

variable (raw alarm) in
/-- The alarm is raised when the key of a look-up is on the stack. -/
def Guards (l : Lookup) (stack : List String) : Prop :=
  ∀ key ∈ raw.pushed l, key ∈ stack →
    alarm (.reference ("@" ++ key) (.circular (stack ++ [key])))

/-- What has a key and denotes a value is found by its definition. -/
theorem Yields.definition {kind : ResourceKind} {name : String} {definition : Option δ} {d : δ}
    {resolve : δ → Resolve α (l.Answer α)} (hdenotes : raw.Denotes l answer)
    (hguards : Guards raw alarm l stack) (hnamed : l.isNamed = true)
    (hpushed : raw.pushed l = [kind.key name]) (hdef : definition = some d)
    (h : kind.key name ∉ stack →
      Yields raw alarm (stack ++ [kind.key name]) answer (resolve d)) :
    Yields raw alarm stack answer
      (Resolve.recalled l (defined l kind name definition resolve)) := by
  subst hdef
  have hmem : kind.key name ∈ raw.pushed l := by simp [hpushed]
  have hdeclares := hdenotes.declares_of_mem_pushed hnamed hmem
  refine .recalled hdenotes (.bind (.under ?_ (hguards _ hmem) h) ?_)
  · exact mem_stackKeys_of_declares hdeclares hmem
  · exact .bind (.keep hnamed hdeclares hdenotes) (.pure answer)

variable {ask : Answers α}

theorem color_yields {name : String} {c : Color} (hdenotes : raw.Denotes (.color name) c)
    (hguards : Guards raw alarm (.color name) stack)
    (h : YieldsBelow raw alarm (.color name) stack ask) :
    Yields raw alarm stack c (color raw ask name) := by
  unfold color
  cases hdenotes.unfolds with
  | hidden hhidden hstates =>
    have hcall : raw.Calls (.color name) stack (.colorState name) stack :=
      (Refers.hidden hhidden).calls (by simp [pushed, hhidden])
    rw [if_pos hhidden]
    exact .recalled hdenotes (.bind (h _ _ hcall _ hstates) (.pure _))
  | color hplain htext hc =>
    have hpushed : raw.pushed (.color name) = [ResourceKind.color.key name] := by
      simp [pushed, hplain]
    rw [if_neg (by simp [hplain])]
    exact .definition hdenotes hguards rfl hpushed htext fun hfresh =>
      h _ _ ((Refers.color hplain htext).calls_under hpushed hfresh) _ hc

/-- The selector of items that denote the values of another one. -/
theorem selector_yields (need : Need) {kind : ResourceKind} {name : String} {items : RawSelector}
    {values : List (Interaction × need.Answer α)} {states : Selector (need.Answer α)}
    (hvalues : List.Forall₂ (fun item value =>
      value.1 = item.1 ∧ raw.Denotes (.text need item.2) value.2) items values)
    (hstates : Selector.ofItems? values = some states)
    (h : ∀ item ∈ items, ∀ answer, raw.Denotes (.text need item.2) answer →
      Yields raw alarm stack answer (ask (.text need item.2))) :
    Yields raw alarm stack states (selector ask need kind name items) := by
  refine .bind (.mapM hvalues ?_) ?_
  · rintro item hitem ⟨state, answer⟩ ⟨rfl, hanswer⟩
    exact .bind (h item hitem answer hanswer) (.pure _)
  · rw [hstates]
    exact .pure states

theorem colorState_yields {name : String} {states : Selector Color}
    (hdenotes : raw.Denotes (.colorState name) states)
    (hguards : Guards raw alarm (.colorState name) stack)
    (h : YieldsBelow raw alarm (.colorState name) stack ask) :
    Yields raw alarm stack states (colorState raw ask name) := by
  cases hdenotes.unfolds with
  | @colorState _ items values _ hitems hvalues hstates =>
    have hselector : ResourceKind.color.key name ∉ stack →
        Yields raw alarm (stack ++ [ResourceKind.color.key name]) states
          (selector ask .color .color name items) := by
      intro hfresh
      refine selector_yields .color hvalues hstates fun item hitem => ?_
      exact h _ _ ((Refers.item hitems hitem).calls_under rfl hfresh)
    exact .definition hdenotes hguards rfl rfl hitems hselector

theorem dimen_yields {name : String} {d : Dimension α} (hdenotes : raw.Denotes (.dimen name) d)
    (hguards : Guards raw alarm (.dimen name) stack)
    (h : YieldsBelow raw alarm (.dimen name) stack ask) :
    Yields raw alarm stack d (dimen raw ask name) := by
  cases hdenotes.unfolds with
  | dimen htext hd =>
    exact .definition hdenotes hguards rfl rfl htext fun hfresh =>
      h _ _ ((Refers.dimen htext).calls_under rfl hfresh) _ hd

theorem string_yields {name s : String} (hdenotes : raw.Denotes (.string name) s)
    (hguards : Guards raw alarm (.string name) stack)
    (h : YieldsBelow raw alarm (.string name) stack ask) :
    Yields raw alarm stack s (string raw ask name) := by
  cases hdenotes.unfolds with
  | toString htext htarget hs =>
    refine .definition hdenotes hguards rfl rfl htext fun hfresh => ?_
    rw [Text.stripLead?_eq_some_iff.2 (names_string.1 htarget)]
    exact h _ _ ((Refers.string htext htarget).calls_under rfl hfresh) _ hs
  | string htext hno =>
    refine .definition hdenotes hguards rfl rfl htext fun hfresh => ?_
    rw [Text.stripLead?_eq_none_iff.2 fun target htarget => hno target (names_string.2 htarget)]
    exact .pure _

theorem font_yields {name : String} {r : FontResource} (hdenotes : raw.Denotes (.font name) r)
    (hguards : Guards raw alarm (.font name) stack)
    (h : YieldsBelow raw alarm (.font name) stack ask) :
    Yields raw alarm stack r (font raw ask name) := by
  cases hdenotes.unfolds with
  | file hdef => exact .definition hdenotes hguards rfl rfl hdef fun _ => .pure _
  | family hdef hfaces =>
    refine .definition hdenotes hguards rfl rfl hdef fun hfresh => .bind (.mapM hfaces ?_) (.pure _)
    rintro m hm face ⟨f, hf, rfl⟩
    have hcall := (Refers.member hdef hm).calls_under rfl hfresh
    exact .bind (h _ _ hcall _ hf) (.pure _)

/-- The shape of texts that denote the values of another one. -/
theorem shape_yields {name : String} {form : RawShape α} {shape : Shape α (Drawable α)}
    (hfills : form.Fills (fun text d => raw.Denotes (.text .paint text) d)
      (fun text d => raw.Denotes (.text .length text) d) shape)
    (hpaint : ∀ text ∈ form.paints, ∀ d, raw.Denotes (.text .paint text) d →
      Yields raw alarm stack d (ask (.text .paint text)))
    (hlength : ∀ text ∈ form.lengths, ∀ d, raw.Denotes (.text .length text) d →
      Yields raw alarm stack d (ask (.text .length text))) :
    Yields raw alarm stack (.shape name shape) (build ask name (.shape form)) := by
  obtain ⟨strokeWidth, hwidth, hwidths⟩ := exists_rel_of_rel_map hfills.strokeWidth
  obtain ⟨cornerRadius, hradius, hradii⟩ := exists_rel_of_rel_map hfills.cornerRadius
  -- the parts in the order in which they are resolved
  refine .bind (.mapM? hfills.solid fun text htext => hpaint text ?_) ?_
  · simp [RawShape.paints, htext]
  refine .bind (.mapM? hfills.strokeColor fun text htext => hpaint text ?_) ?_
  · simp [RawShape.paints, htext]
  refine .bind (.mapM? hwidth fun text htext => hlength text ?_) ?_
  · simp [RawShape.lengths, htext]
  refine .bind (.mapM? hradius fun text htext => hlength text ?_) ?_
  · simp [RawShape.lengths, htext]
  refine .bind (.mapM? hfills.gradient ?_) ?_
  · rintro g hg ⟨start, finish, angle⟩ ⟨hstart, hfinish, rfl⟩
    refine .bind (hpaint g.start ?_ _ hstart) (.bind (hpaint g.finish ?_ _ hfinish) (.pure _))
    · simp [RawShape.paints, hg]
    · simp [RawShape.paints, hg]
  · have hwidths : strokeWidth.map (·.magnitude) = shape.strokeWidth := hwidths.symm
    have hradii : cornerRadius.map (·.magnitude) = shape.cornerRadius := hradii.symm
    rw [hwidths, hradii, ← hfills.outline]
    exact .pure _

theorem build_yields {name : String} {definition : RawDrawable α} {d : Drawable α}
    (hdenotes : raw.Denotes (.drawable name) d)
    (hdef : raw.drawables.get? name = some definition)
    (hpaint : ∀ text ∈ definition.paints, ∀ d, raw.Denotes (.text .paint text) d →
      Yields raw alarm stack d (ask (.text .paint text)))
    (hlength : ∀ text ∈ definition.lengths, ∀ d, raw.Denotes (.text .length text) d →
      Yields raw alarm stack d (ask (.text .length text))) :
    Yields raw alarm stack d (build ask name definition) := by
  -- what the definition denotes is unfolded by the constructor that the routine branches on
  cases hdenotes.unfolds with
  | image hdef' =>
    obtain rfl := Option.some.inj (hdef.symm.trans hdef')
    exact .pure _
  | vector hdef' =>
    obtain rfl := Option.some.inj (hdef.symm.trans hdef')
    exact .pure _
  | shape hdef' hfills =>
    obtain rfl := Option.some.inj (hdef.symm.trans hdef')
    exact shape_yields hfills hpaint hlength
  | layers hdef' hds =>
    obtain rfl := Option.some.inj (hdef.symm.trans hdef')
    exact .bind (.mapM hds hpaint) (.pure _)
  | selector hdef' hvalues hstates =>
    obtain rfl := Option.some.inj (hdef.symm.trans hdef')
    refine .bind (selector_yields .paint hvalues hstates fun item hitem => ?_) (.pure _)
    exact hpaint _ (List.mem_map_of_mem hitem)
  | link hdef' hd =>
    obtain rfl := Option.some.inj (hdef.symm.trans hdef')
    exact .bind (hpaint _ List.mem_cons_self _ hd) (.pure _)

theorem drawable_yields {name : String} {d : Drawable α} (hdenotes : raw.Denotes (.drawable name) d)
    (hguards : Guards raw alarm (.drawable name) stack)
    (h : YieldsBelow raw alarm (.drawable name) stack ask) :
    Yields raw alarm stack d (drawable raw ask name) := by
  have hdeclares : raw.drawables.contains name = true :=
    hdenotes.declares_of_mem_pushed rfl (List.mem_singleton_self _)
  obtain ⟨definition, hdef⟩ := SortedMap.contains_iff.1 hdeclares
  refine .definition hdenotes hguards rfl rfl hdef fun hfresh => build_yields hdenotes hdef ?_ ?_
  · intro text hmem
    exact h _ _ ((Refers.paint hdef hmem).calls_under rfl hfresh)
  · intro text hmem
    exact h _ _ ((Refers.length hdef hmem).calls_under rfl hfresh)

/-! ## Steps for texts -/

theorem drawableName?_eq_some {text name : String} (h : Names text .drawable name) :
    (Text.stripLead? "@drawable/" text).or (Text.stripLead? "@mipmap/" text) = some name := by
  cases hdrawable : Text.stripLead? "@drawable/" text with
  | some other =>
    have hother := names_drawable.2 (Or.inl (Text.stripLead?_eq_some_iff.1 hdrawable))
    rw [(h.unique hother).2]
    rfl
  | none =>
    rcases names_drawable.1 h with hname | hname
    · exact absurd hname (Text.stripLead?_eq_none_iff.1 hdrawable name)
    · exact Text.stripLead?_eq_some_iff.2 hname

theorem drawableName?_eq_none {text : String} (h : ∀ name, ¬ Names text .drawable name) :
    (Text.stripLead? "@drawable/" text).or (Text.stripLead? "@mipmap/" text) = none := by
  rw [Option.or_eq_none_iff, Text.stripLead?_eq_none_iff, Text.stripLead?_eq_none_iff]
  constructor
  · intro name hname
    exact h name (names_drawable.2 (Or.inl hname))
  · intro name hname
    exact h name (names_drawable.2 (Or.inr hname))

theorem throughTheme_yields {need : Need} {text target : String} {answer : need.Answer α}
    (hknows : raw.Knows (.text need text)) (hfollows : raw.Follows text target)
    (hanswer : raw.Denotes (.text need target) answer)
    (hguards : Guards raw alarm (.text need text) stack)
    (h : YieldsBelow raw alarm (.text need text) stack ask) :
    Yields raw alarm stack answer
      (throughTheme raw (Text.trim text) fun target => ask (.text need target)) := by
  have hpushed : raw.pushed (.text need text) = [Text.dropLeading '?' (Text.trim text)] :=
    pushed_of_theme hfollows.1
  have hmem : Text.dropLeading '?' (Text.trim text) ∈ raw.pushed (.text need text) := by
    simp [hpushed]
  exact .throughTheme hfollows.2 (themeKey_mem_stackKeys hknows hmem) (hguards _ hmem)
    fun hfresh => h _ _ ((Refers.theme hfollows).calls_under hpushed hfresh) _ hanswer

theorem colorText_yields {text : String} {c : Color} (hknows : raw.Knows (.text .color text))
    (hdenotes : raw.Denotes (.text .color text) c)
    (hguards : Guards raw alarm (.text .color text) stack)
    (h : YieldsBelow raw alarm (.text .color text) stack ask) :
    Yields raw alarm stack c (colorText raw ask text) := by
  -- the tests of the routine exclude each other, so the order in which they are made does not
  -- matter
  have hnumber : ∀ lead name, Names (Text.trim text) lead name →
      Text.leads "#" (Text.trim text) = false := by
    intro lead name hname
    exact Text.not_leads_of_clash (by decide) hname.leads
  unfold colorText
  dsimp only
  cases hdenotes.unfolds with
  | theme hfollows hc =>
    rw [if_pos hfollows.1]
    exact throughTheme_yields hknows hfollows hc hguards h
  | constant hconstant =>
    rw [if_neg (by simp [hconstant.not_theme])]
    rcases hconstant with hread | ⟨name, hname, hplatform⟩
    · rw [if_pos (Color.leads_of_read? hread), hread]
      exact .pure c
    · rw [if_neg (by simp [hnumber _ _ hname]),
        Text.stripLead?_eq_some_iff.2 (names_platformColor.1 hname)]
      dsimp only
      rw [hplatform]
      exact .pure c
  | toColor hname hc =>
    have hplatform : Text.stripLead? "@android:color/" (Text.trim text) = none := by
      refine Text.stripLead?_eq_none_iff.2 fun name hplatform => ?_
      cases (hname.unique (names_platformColor.2 hplatform)).1
    rw [if_neg (by simp [hname.not_theme]), if_neg (by simp [hnumber _ _ hname]), hplatform,
      Text.stripLead?_eq_some_iff.2 (names_color.1 hname)]
    exact h _ _ ((Refers.toColor hname).calls (pushed_of_not_theme hname.not_theme)) _ hc

theorem lengthText_yields {text : String} {d : Dimension α}
    (hknows : raw.Knows (.text .length text)) (hdenotes : raw.Denotes (.text .length text) d)
    (hguards : Guards raw alarm (.text .length text) stack)
    (h : YieldsBelow raw alarm (.text .length text) stack ask) :
    Yields raw alarm stack d (lengthText raw ask text) := by
  -- the lead of a dimension is tested first, and neither a theme nor a literal has it
  have hdimen : (∀ name, ¬ Names (Text.trim text) .dimen name) →
      Text.stripLead? "@dimen/" (Text.trim text) = none := by
    intro hno
    exact Text.stripLead?_eq_none_iff.2 fun name hname => hno name (names_dimen.2 hname)
  unfold lengthText
  dsimp only
  cases hdenotes.unfolds with
  | theme hfollows hd =>
    rw [hdimen fun name => hfollows.not_names]
    dsimp only
    rw [if_pos hfollows.1]
    exact throughTheme_yields hknows hfollows hd hguards h
  | toDimen hname hd =>
    rw [Text.stripLead?_eq_some_iff.2 (names_dimen.1 hname)]
    exact h _ _ ((Refers.toDimen hname).calls (pushed_of_not_theme hname.not_theme)) _ hd
  | literal hliteral =>
    rw [hdimen fun name hname => Dimension.literal?_not_names hliteral hname]
    dsimp only
    rw [if_neg (by simp [Dimension.literal?_not_theme hliteral]), hliteral]
    exact .pure d

theorem paint_yields {text : String} {d : Drawable α} (hknows : raw.Knows (.text .paint text))
    (hdenotes : raw.Denotes (.text .paint text) d)
    (hguards : Guards raw alarm (.text .paint text) stack)
    (h : YieldsBelow raw alarm (.text .paint text) stack ask) :
    Yields raw alarm stack d (paint raw ask text) := by
  -- a colour's name is no drawable's, under neither of the two spellings
  have hcolor : ∀ {name}, Names (Text.trim text) .color name →
      (Text.stripLead? "@drawable/" (Text.trim text)).or
          (Text.stripLead? "@mipmap/" (Text.trim text)) = none ∧
        Text.stripLead? "@color/" (Text.trim text) = some name := by
    intro name hname
    refine ⟨drawableName?_eq_none fun other hother => ?_,
      Text.stripLead?_eq_some_iff.2 (names_color.1 hname)⟩
    cases (hname.unique hother).1
  unfold paint
  dsimp only
  cases hdenotes.unfolds with
  | theme hfollows hd =>
    rw [if_pos hfollows.1]
    exact throughTheme_yields hknows hfollows hd hguards h
  | toDrawable hname hd =>
    have hpushed : raw.pushed (.text .paint text) = [] := pushed_of_not_theme hname.not_theme
    rw [if_neg (by simp [hname.not_theme]), drawableName?_eq_some hname]
    exact h _ _ ((Refers.toDrawable hname).calls hpushed) _ hd
  | paintState hname hstates hd =>
    have hpushed : raw.pushed (.text .paint text) = [] := pushed_of_not_theme hname.not_theme
    rw [if_neg (by simp [hname.not_theme]), (hcolor hname).1]
    dsimp only
    rw [(hcolor hname).2]
    dsimp only
    rw [if_pos hstates]
    exact .bind (h _ _ ((Refers.paintState hname hstates).calls hpushed) _ hd) (.pure _)
  | paintColor hname hplain hd =>
    have hpushed : raw.pushed (.text .paint text) = [] := pushed_of_not_theme hname.not_theme
    rw [if_neg (by simp [hname.not_theme]), (hcolor hname).1]
    dsimp only
    rw [(hcolor hname).2]
    dsimp only
    rw [if_neg (by simp [hplain])]
    exact .bind (h _ _ ((Refers.paintColor hname hplain).calls hpushed) _ hd) (.pure _)
  | paintPlain hplain hd =>
    have hpushed : raw.pushed (.text .paint text) = [] := pushed_of_not_theme hplain.1
    have hnone : Text.stripLead? "@color/" (Text.trim text) = none :=
      Text.stripLead?_eq_none_iff.2 fun name hname => hplain.2.2 name (names_color.2 hname)
    rw [if_neg (by simp [hplain.1]), drawableName?_eq_none hplain.2.1]
    dsimp only
    rw [hnone]
    exact .bind (h _ _ ((Refers.paintPlain hplain).calls hpushed) _ hd) (.pure _)

/-- What denotes a value is found in one step, if all that the step looks up is. -/
theorem step_yields {l : Lookup} {answer : l.Answer α} (hknows : raw.Knows l)
    (hdenotes : raw.Denotes l answer) (hguards : Guards raw alarm l stack)
    (h : YieldsBelow raw alarm l stack ask) : Yields raw alarm stack answer (step raw ask l) := by
  -- one routine for each kind of lookup, and one for each need of a text
  cases l with
  | color name => exact color_yields hdenotes hguards h
  | colorState name => exact colorState_yields hdenotes hguards h
  | dimen name => exact dimen_yields hdenotes hguards h
  | string name => exact string_yields hdenotes hguards h
  | drawable name => exact drawable_yields hdenotes hguards h
  | font name => exact font_yields hdenotes hguards h
  | text need text =>
    cases need with
    | color =>
      rw [step]
      exact colorText_yields hknows hdenotes hguards h
    | length =>
      rw [step]
      exact lengthText_yields hknows hdenotes hguards h
    | paint =>
      rw [step]
      exact paint_yields hknows hdenotes hguards h

end Resolve

end LayoutCompiler
