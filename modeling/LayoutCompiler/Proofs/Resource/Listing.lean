import LayoutCompiler.Output.InterfaceDocument
import LayoutCompiler.Proofs.Compilation.UsedResources
import LayoutCompiler.Proofs.Resource.Runs
/-!
# Drawables under their names

What a text is read as is found again by its name alone: in a table that has been resolved, a
drawable has the name of the entry that it comes from. So a document, which knows nothing of the
drawables in use but their keys, declares those that the layout means.

* `listed_of_read`: a drawable that is read stands in the table under its name.
* `usedColor?_of_listed`, `usedImage?_of_listed`: its key leads to it.
-/

namespace LayoutCompiler

variable {α : Type}

namespace ResourceTable

/-- A drawable with a name stands in a table under this name. -/
def Lists (table : ResourceTable α) : Drawable α → Prop
  | .color _ => True
  | .namedColor name c => table.colors.get? name = some c
  | .stateColor name states => table.colorStates.get? name = some states
  | d => table.drawables.get? d.name = some d

variable [Scalar α] {raw : RawResources α} {table : ResourceTable α} {d : Drawable α}
  {name : String}

/-- The drawables of a resolved table have the names of their entries. -/
theorem listed_of_get? (h : raw.resolve = .ok table) (hd : table.drawables.get? name = some d) :
    table.Lists d := by
  have hdenotes : raw.Denotes (.drawable name) d :=
    ((RawResources.answer?_eq_some_iff (l := .drawable name) h).1 hd).2
  cases hdenotes.unfolds <;> exact hd

omit [Scalar α] in
theorem orMissing_eq_ok {β : Type} {kind : ResourceKind} {found : Option β} {v : β}
    (h : orMissing kind name found = .ok v) : found = some v := by
  cases found with
  | none => cases h
  | some w => exact congrArg some (Except.ok.inj h)

theorem listed_of_lookUp (h : raw.resolve = .ok table) {text : String} {lead : Lead}
    (hd : table.lookUp text lead name = .ok (.drawable d)) : table.Lists d := by
  -- three leads end at drawables; all others end at values of another kind
  cases lead with
  | style =>
    unfold lookUp at hd
    cases hchain : StyleSheet.chain table.styles name with
    | error e =>
      simp only [hchain] at hd
      cases hd
    | ok chain =>
      simp only [hchain] at hd
      cases hd
  | layout =>
    have hfound := orMissing_eq_ok hd
    split at hfound <;> cases hfound
  | font =>
    obtain ⟨_, -, heq⟩ := Option.map_eq_some_iff.1 (orMissing_eq_ok hd)
    cases heq
  | drawable =>
    obtain ⟨_, hget, heq⟩ := Option.map_eq_some_iff.1 (orMissing_eq_ok hd)
    cases heq
    exact listed_of_get? h hget
  | platformColor =>
    unfold lookUp at hd
    dsimp only at hd
    split at hd
    · cases hd
      trivial
    · cases hd
  | color =>
    unfold lookUp at hd
    dsimp only at hd
    split at hd
    · rename_i states hstates
      cases hd
      exact hstates
    · obtain ⟨c, hget, heq⟩ := Option.map_eq_some_iff.1 (orMissing_eq_ok hd)
      cases heq
      exact hget
  | string =>
    obtain ⟨_, -, heq⟩ := Option.map_eq_some_iff.1 (orMissing_eq_ok hd)
    cases heq
  | dimen =>
    obtain ⟨_, -, heq⟩ := Option.map_eq_some_iff.1 (orMissing_eq_ok hd)
    cases heq

theorem listed_of_readPlain (h : raw.resolve = .ok table) {untrimmed text : String}
    (hd : table.readPlain untrimmed text = .ok (.drawable d)) : table.Lists d := by
  unfold readPlain at hd
  split at hd
  · cases hd
    trivial
  · split at hd
    · exact listed_of_lookUp h hd
    · unfold literal at hd
      split at hd
      · cases hd
      · split at hd <;> cases hd

/-- A drawable that a text is read as stands in the table under its name. -/
theorem listed_of_read (h : raw.resolve = .ok table) {text : String}
    (hd : table.read text = .ok (.drawable d)) : table.Lists d := by
  -- a reference to the theme is read as another text, with one hop less
  have hwithin : ∀ hops text, table.readWithin hops text = .ok (.drawable d) → table.Lists d := by
    intro hops
    induction hops with
    | zero =>
      intro text hd
      rw [readWithin_zero] at hd
      split at hd
      · cases hd
      · exact listed_of_readPlain h hd
    | succ hops ih =>
      intro text hd
      rw [readWithin_succ] at hd
      split at hd
      · split at hd
        · cases hd
        · exact ih _ hd
      · exact listed_of_readPlain h hd
  exact hwithin maxThemeHops text hd

end ResourceTable

/-! ## Keys -/

theorem Drawable.mem_keys_of_resourceKey? {d : Drawable α} {key : String}
    (h : d.resourceKey? = some key) : key ∈ (Value.drawable d).keys :=
  Drawable.mem_keys_iff.2 (Drawable.mentions_iff.2 (Or.inl h))

namespace InterfaceDocument

variable {table : ResourceTable α} {name file : String}

/-- The key of a color leads to a color of that name. -/
theorem usedColor?_of_listed
    (h : (∃ c, table.Lists (.namedColor name c)) ∨
      ∃ states, table.Lists (.stateColor name states)) :
    ∃ c, usedColor? table (ResourceKind.color.key name) = some (name, c) := by
  -- a state colour that is no colour as well is shown by its normal one
  have hfound : ∃ c, (table.colors.get? name).or ((table.colorStates.get? name).map (·.normal)) =
      some c := by
    rcases h with ⟨c, hc⟩ | ⟨states, hstates⟩
    · rw [show table.colors.get? name = some c from hc]
      exact ⟨c, rfl⟩
    · rw [show table.colorStates.get? name = some states from hstates]
      cases table.colors.get? name with
      | some c => exact ⟨c, rfl⟩
      | none => exact ⟨states.normal, rfl⟩
  obtain ⟨c, hc⟩ := hfound
  refine ⟨c, ?_⟩
  unfold usedColor?
  rw [ResourceKind.splitOnce_key]
  show Option.map _ _ = _
  rw [hc]
  rfl

/-- The key of an image leads to it. -/
theorem usedImage?_of_listed
    (h : table.Lists (.bitmap name file) ∨ table.Lists (.vector name file)) :
    usedImage? table (ResourceKind.drawable.key name) = some name := by
  unfold usedImage?
  rw [ResourceKind.splitOnce_key, show ResourceKind.drawable.word = "drawable" from rfl]
  rcases h with h | h
  · simp only [show table.drawables.get? name = some (.bitmap name file) from h]
  · simp only [show table.drawables.get? name = some (.vector name file) from h]

end InterfaceDocument

end LayoutCompiler
