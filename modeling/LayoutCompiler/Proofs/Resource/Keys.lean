import LayoutCompiler.Proofs.Resource.Denotation
import LayoutCompiler.Proofs.Text.Pieces
import Mathlib.Data.List.Perm.Subperm
/-!
# Keys

A look-up that goes on to others puts its key on the stack first, unless it only passes from a text
to a name or from a name to its state list. Keys are those of definitions and of texts, so there
are no more than the resources can count.

* `Refers.mem_stackKeys`: only keys of the resources are put on the stack.
* `Calls.headroom_lt`: every look-up that another one makes is closer to the full stack.
-/

namespace LayoutCompiler

/-! ## Texts of a theme -/

namespace StyleSheet

variable {sheet : StyleSheet}

theorem mem_values_of_climb {steps : Nat} {path : List (String × Style)} {current : Style}
    {chain : StyleChain} (hpath : ∀ layer ∈ path, layer.2 ∈ sheet.values)
    (h : sheet.climb steps path current = .ok chain) :
    ∀ layer ∈ chain.layers, layer.2 ∈ sheet.values := by
  -- by induction on the steps that are left, for every path that has only styles of the sheet
  induction steps generalizing path current with
  | zero =>
    cases h
    exact hpath
  | succ steps ih =>
    unfold climb at h
    split at h
    · cases h
      exact hpath
    · dsimp only at h
      split at h
      · cases h
      · split at h
        · cases h
          exact hpath
        · rename_i hparent
          refine ih (fun layer hmem => ?_) h
          rcases List.mem_append.1 hmem with hmem | hmem
          · exact hpath layer hmem
          · rw [List.mem_singleton.1 hmem]
            exact SortedMap.mem_values_of_get? hparent

/-- All styles of a chain are in the sheet. -/
theorem mem_values_of_chain {reference : String} {chain : StyleChain}
    (h : sheet.chain reference = .ok chain) : ∀ layer ∈ chain.layers, layer.2 ∈ sheet.values := by
  unfold StyleSheet.chain at h
  dsimp only at h
  split at h
  · cases h
  · rename_i hstyle
    refine mem_values_of_climb (fun layer hmem => ?_) h
    rw [List.mem_singleton.1 hmem]
    exact SortedMap.mem_values_of_get? hstyle

end StyleSheet

/-- What a reference through the theme stands for is an entry of some style. -/
theorem Theme.mem_items_of_attribute? {sheet : StyleSheet} {theme reference target : String}
    (h : Theme.attribute? sheet theme reference = .ok target) :
    target ∈ sheet.values.flatMap (·.items.values) := by
  unfold Theme.attribute? at h
  split at h
  · cases h
  · rename_i chain hchain
    dsimp only at h
    split at h
    · rename_i hfound
      cases h
      -- under either spelling, the text stands in one of the layers
      obtain ⟨key, hkey⟩ : ∃ key, chain.get? key = some target := by
        rcases Option.or_eq_some_iff.1 hfound with h | ⟨-, h⟩
        · exact ⟨_, h⟩
        · exact ⟨_, h⟩
      obtain ⟨layer, hmem, hget⟩ := List.exists_of_findSome?_eq_some hkey
      exact List.mem_flatMap.2 ⟨layer.2, StyleSheet.mem_values_of_chain hchain layer hmem,
        SortedMap.mem_values_of_get? hget⟩
    · cases h

/-! ## Keys -/

/-- The key of a resource tells its kind and its name. -/
theorem ResourceKind.splitOnce_key (kind : ResourceKind) (name : String) :
    Text.splitOnce '/' (kind.key name) = some (kind.word, name) := by
  have hword : '/' ∉ kind.word.toList := by cases kind <;> decide
  have hkey : (kind.key name).toList = kind.word.toList ++ '/' :: name.toList := by
    unfold key
    rw [String.toList_append, String.toList_append, List.append_assoc]
    rfl
  unfold Text.splitOnce
  rw [hkey, Text.cutOnce_append hword]
  simp only [Option.map_some, String.ofList_toList]

theorem ResourceKind.key_inj {kind kind' : ResourceKind} {name name' : String}
    (h : kind.key name = kind'.key name') : kind = kind' ∧ name = name' := by
  have hsplit := congrArg (Text.splitOnce '/') h
  rw [splitOnce_key, splitOnce_key] at hsplit
  obtain ⟨hword, hname⟩ := Prod.mk.inj (Option.some.inj hsplit)
  refine ⟨?_, hname⟩
  revert hword
  cases kind <;> cases kind' <;> decide

namespace RawResources

open ResourceTable.Lead (Names)

variable {α : Type} (raw : RawResources α)

/-- The keys of the definitions of each kind, and those of texts. -/
def keyLists : List (List String) :=
  [raw.colors.keys.map ResourceKind.color.key, raw.colorStates.keys.map ResourceKind.color.key,
    raw.dimens.keys.map ResourceKind.dimen.key, raw.strings.keys.map ResourceKind.string.key,
    raw.drawables.keys.map ResourceKind.drawable.key, raw.fonts.keys.map ResourceKind.font.key,
    raw.texts.map fun text => Text.dropLeading '?' (Text.trim text)]

/-- The keys that can be on the stack. -/
def stackKeys : List String := raw.keyLists.flatten

theorem length_stackKeys : raw.stackKeys.length = raw.keyCount := by
  simp [stackKeys, keyLists, keyCount, SortedMap.keys, SortedMap.size, Nat.add_assoc]

/-- The keys that a look-up puts on the stack before it makes others: one, or none. -/
def pushed : Lookup → List String
  | .color name => if raw.colorStates.contains name then [] else [ResourceKind.color.key name]
  | .colorState name => [ResourceKind.color.key name]
  | .dimen name => [ResourceKind.dimen.key name]
  | .string name => [ResourceKind.string.key name]
  | .drawable name => [ResourceKind.drawable.key name]
  | .font name => [ResourceKind.font.key name]
  | .text _ text =>
    if Text.leads "?" (Text.trim text) then [Text.dropLeading '?' (Text.trim text)] else []

/-- A look-up is for a name, or for a text of the resources up to the blanks around it. -/
def Knows : Lookup → Prop
  | .text _ text => ∃ text' ∈ raw.texts, Text.trim text' = Text.trim text
  | _ => True

variable {raw} {l l' : Lookup} {stack stack' : List String}

theorem pushed_of_theme {need : Need} {text : String}
    (h : Text.leads "?" (Text.trim text) = true) :
    raw.pushed (.text need text) = [Text.dropLeading '?' (Text.trim text)] := by
  simp [pushed, h]

theorem pushed_of_not_theme {need : Need} {text : String}
    (h : Text.leads "?" (Text.trim text) = false) : raw.pushed (.text need text) = [] := by
  simp [pushed, h]

/-! ## Texts of the resources -/

theorem mem_texts_of_color {name text : String} (h : raw.colors.get? name = some text) :
    text ∈ raw.texts := by
  simp [texts, SortedMap.mem_values_of_get? h]

theorem mem_texts_of_item {name : String} {items : RawSelector} {item : Interaction × String}
    (h : raw.colorStates.get? name = some items) (hmem : item ∈ items) : item.2 ∈ raw.texts := by
  have hitems : item.2 ∈ raw.colorStates.values.flatMap (·.map Prod.snd) :=
    List.mem_flatMap.2 ⟨items, SortedMap.mem_values_of_get? h, List.mem_map_of_mem hmem⟩
  simp only [texts, List.mem_append]
  tauto

theorem mem_texts_of_dimen {name text : String} (h : raw.dimens.get? name = some text) :
    text ∈ raw.texts := by
  simp [texts, SortedMap.mem_values_of_get? h]

theorem mem_texts_of_drawable {name text : String} {d : RawDrawable α}
    (h : raw.drawables.get? name = some d) (hmem : text ∈ d.texts) : text ∈ raw.texts := by
  have hdrawable : text ∈ raw.drawables.values.flatMap (·.texts) :=
    List.mem_flatMap.2 ⟨d, SortedMap.mem_values_of_get? h, hmem⟩
  simp only [texts, List.mem_append]
  tauto

theorem Follows.mem_texts {text target : String} (h : raw.Follows text target) :
    target ∈ raw.texts :=
  List.mem_append_right _ (Theme.mem_items_of_attribute? h.2)

/-- What a look-up of the resources refers to is one of the resources. -/
theorem Refers.knows (h : raw.Refers l l') (hknows : raw.Knows l) : raw.Knows l' := by
  cases h with
  | color hplain htext => exact ⟨_, mem_texts_of_color htext, rfl⟩
  | item hitems hmem => exact ⟨_, mem_texts_of_item hitems hmem, rfl⟩
  | dimen htext => exact ⟨_, mem_texts_of_dimen htext, rfl⟩
  | paint hdef hmem => exact ⟨_, mem_texts_of_drawable hdef (List.mem_append_left _ hmem), rfl⟩
  | length hdef hmem => exact ⟨_, mem_texts_of_drawable hdef (List.mem_append_right _ hmem), rfl⟩
  | theme h => exact ⟨_, h.mem_texts, rfl⟩
  | paintPlain =>
    obtain ⟨text, hmem, htrim⟩ := hknows
    exact ⟨text, hmem, by rw [Text.trim_trim, htrim]⟩
  | _ => trivial

/-! ## The stack -/

theorem key_mem_stackKeys {β : Type} {m : SortedMap β} {name : String} {value : β}
    (kind : ResourceKind) (h : m.get? name = some value)
    (hlist : m.keys.map kind.key ∈ raw.keyLists) : kind.key name ∈ raw.stackKeys :=
  List.mem_flatten.2 ⟨_, hlist,
    List.mem_map_of_mem (SortedMap.mem_keys_iff.2 (SortedMap.contains_iff.2 ⟨value, h⟩))⟩

theorem themeKey_mem_stackKeys {need : Need} {text key : String}
    (hknows : raw.Knows (.text need text)) (hkey : key ∈ raw.pushed (.text need text)) :
    key ∈ raw.stackKeys := by
  obtain ⟨text, hmem, htrim⟩ := hknows
  simp only [pushed] at hkey
  split at hkey
  · refine List.mem_flatten.2
      ⟨raw.texts.map fun text => Text.dropLeading '?' (Text.trim text), by simp [keyLists], ?_⟩
    exact List.mem_map.2 ⟨text, hmem, by rw [List.mem_singleton.1 hkey, htrim]⟩
  · cases hkey

/-- Only keys of the resources are put on the stack. -/
theorem Refers.mem_stackKeys (h : raw.Refers l l') (hknows : raw.Knows l) {key : String}
    (hkey : key ∈ raw.pushed l) : key ∈ raw.stackKeys := by
  -- a definition pushes its own key, a text none but that of the theme that it follows
  cases h with
  | hidden hhidden => simp [pushed, hhidden] at hkey
  | color hplain htext =>
    simp only [pushed, hplain, Bool.false_eq_true, if_false, List.mem_singleton] at hkey
    exact hkey ▸ key_mem_stackKeys .color htext (by simp [keyLists])
  | item hitems =>
    rw [List.mem_singleton.1 hkey]
    exact key_mem_stackKeys .color hitems (by simp [keyLists])
  | dimen htext =>
    rw [List.mem_singleton.1 hkey]
    exact key_mem_stackKeys .dimen htext (by simp [keyLists])
  | string htext =>
    rw [List.mem_singleton.1 hkey]
    exact key_mem_stackKeys .string htext (by simp [keyLists])
  | paint hdef =>
    rw [List.mem_singleton.1 hkey]
    exact key_mem_stackKeys .drawable hdef (by simp [keyLists])
  | length hdef =>
    rw [List.mem_singleton.1 hkey]
    exact key_mem_stackKeys .drawable hdef (by simp [keyLists])
  | member hdef =>
    rw [List.mem_singleton.1 hkey]
    exact key_mem_stackKeys .font hdef (by simp [keyLists])
  | _ => exact themeKey_mem_stackKeys hknows hkey

/-- The steps that can be made in a row without a key being put on the stack. -/
def rank : Lookup → Nat
  | .text .paint _ => 3
  | .text .color _ => 2
  | .text .length _ => 1
  | .color _ => 1
  | _ => 0

theorem rank_le (l : Lookup) : rank l ≤ 3 := by
  unfold rank
  split <;> omega

/-- A look-up that puts no key on the stack leads to one of a lower rank. -/
theorem Refers.rank_lt (h : raw.Refers l l') (hpushed : raw.pushed l = []) :
    rank l' < rank l := by
  cases h with
  | color hplain => simp [pushed, hplain] at hpushed
  | theme h =>
    rw [pushed_of_theme h.1] at hpushed
    cases hpushed
  | item | dimen | string | paint | length | member => cases hpushed
  | _ => simp [rank]

/-- The keys on the stack are keys of the resources, and each of them is there once. -/
structure Stacked (raw : RawResources α) (stack : List String) : Prop where
  nodup : stack.Nodup
  keys : ∀ key ∈ stack, key ∈ raw.stackKeys

theorem Stacked.append {keys : List String} (h : raw.Stacked stack) (hkeys : raw.Stacked keys)
    (hfresh : ∀ key ∈ keys, key ∉ stack) : raw.Stacked (stack ++ keys) where
  nodup := List.nodup_append.2
    ⟨h.nodup, hkeys.nodup, fun _ hkey key' hkey' heq => hfresh key' hkey' (heq ▸ hkey)⟩
  keys key hkey := (List.mem_append.1 hkey).elim (h.keys key) (hkeys.keys key)

theorem Stacked.length_le (h : raw.Stacked stack) : stack.length ≤ raw.keyCount := by
  -- different keys out of so many cannot be more
  rw [← length_stackKeys]
  exact (List.Nodup.subperm h.nodup h.keys).length_le

theorem stacked_singleton {key : String} (h : key ∈ raw.stackKeys) : raw.Stacked [key] where
  nodup := List.nodup_cons.2 ⟨List.not_mem_nil, .nil⟩
  keys _ hkey := List.mem_singleton.1 hkey ▸ h

theorem pushed_nodup (raw : RawResources α) (l : Lookup) : (raw.pushed l).Nodup := by
  cases l with
  | color name =>
    dsimp only [pushed]
    split <;> simp
  | text need text =>
    dsimp only [pushed]
    split <;> simp
  | _ => simp [pushed]

/-- One look-up makes another one, with the keys that are on the stack before and after that. -/
structure Calls (raw : RawResources α) (l : Lookup) (stack : List String) (l' : Lookup)
    (stack' : List String) : Prop where
  refers : raw.Refers l l'
  fresh : ∀ key ∈ raw.pushed l, key ∉ stack
  pushes : stack' = stack ++ raw.pushed l

/-- A look-up that puts no key on the stack. -/
theorem Refers.calls (h : raw.Refers l l') (hpushed : raw.pushed l = []) :
    raw.Calls l stack l' stack :=
  ⟨h, by simp [hpushed], by simp [hpushed]⟩

/-- A look-up that puts a key on the stack. -/
theorem Refers.calls_under {key : String} (h : raw.Refers l l') (hpushed : raw.pushed l = [key])
    (hfresh : key ∉ stack) : raw.Calls l stack l' (stack ++ [key]) :=
  ⟨h, by simpa [hpushed], by rw [hpushed]⟩

theorem Calls.stacked (h : raw.Calls l stack l' stack') (hknows : raw.Knows l)
    (hstack : raw.Stacked stack) : raw.Stacked stack' := by
  rw [h.pushes]
  refine hstack.append ⟨pushed_nodup raw l, fun key hkey => ?_⟩ h.fresh
  exact h.refers.mem_stackKeys hknows hkey

/-- How many steps can still be nested below a look-up, itself counted. -/
def headroom (raw : RawResources α) (l : Lookup) (stack : List String) : Nat :=
  4 * (raw.keyCount - stack.length) + rank l + 1

/-- Every look-up that another one makes is closer to the full stack. -/
theorem Calls.headroom_lt (h : raw.Calls l stack l' stack') (hknows : raw.Knows l)
    (hstack : raw.Stacked stack) : raw.headroom l' stack' < raw.headroom l stack := by
  have hlength := (h.stacked hknows hstack).length_le
  have hrank := rank_le l'
  rw [h.pushes, List.length_append] at hlength
  unfold headroom
  rw [h.pushes, List.length_append]
  -- a key on the stack makes up for any rank; without one the rank goes down
  rcases Nat.eq_zero_or_pos (raw.pushed l).length with hnone | hsome
  · have hlower := h.refers.rank_lt (List.length_eq_zero_iff.1 hnone)
    omega
  · omega

theorem headroom_le (raw : RawResources α) (l : Lookup) (stack : List String) :
    raw.headroom l stack ≤ 4 * (raw.keyCount + 1) := by
  have hrank := rank_le l
  unfold headroom
  omega

end RawResources

end LayoutCompiler
