import LayoutCompiler.Style.Basic
import Mathlib.Data.List.Nodup
import Mathlib.Data.List.Perm.Subperm
/-!
# Inheritance of styles

An entry that a style does not have is looked for in its parent, in the parent of that, and so on
(`Inherits`). The chain of a style lists these styles, and there are three ways from a chain to an
entry: searching its styles from the front, flattening them from the back, and laying the attributes
of an element over the flattened chain. All three give what is inherited.

* `lineage_of_chain`: the styles of a chain are those from the named style up.
* `Lineage.get?_iff`: searching a chain gives what is inherited.
* `merge_shadows`: what merging gives, and that it gives no more when it is done again.
-/

namespace LayoutCompiler

namespace StyleSheet

variable {sheet : StyleSheet}

/-! ## Parents -/

/-- The parent of a style, with its name, if the sheet has it. -/
def parent? (sheet : StyleSheet) (style : Style) : Option (String × Style) :=
  style.parent.bind fun reference =>
    (sheet.get? (bareName reference)).map fun parent => (bareName reference, parent)

theorem get?_of_parent? {style : Style} {above : String × Style}
    (h : sheet.parent? style = some above) : sheet.get? above.1 = some above.2 := by
  unfold parent? at h
  obtain ⟨reference, -, h⟩ := Option.bind_eq_some_iff.1 h
  obtain ⟨parent, hparent, rfl⟩ := Option.map_eq_some_iff.1 h
  exact hparent

/-- A style gives a value to a key by inheritance: it has the entry itself, or it has none and its
parent gives the value. -/
inductive Inherits (sheet : StyleSheet) (key : String) : Style → String → Prop
  | own {style : Style} {value : String} (h : style.items.get? key = some value) :
    Inherits sheet key style value
  | parent {style : Style} {above : String × Style} {value : String}
    (hown : style.items.get? key = none) (hparent : sheet.parent? style = some above)
    (h : Inherits sheet key above.2 value) : Inherits sheet key style value

/-- The styles from one up: itself, its parent and so on, to one without a parent in the sheet. -/
inductive Lineage (sheet : StyleSheet) : String × Style → List (String × Style) → Prop
  | last {layer : String × Style} (h : sheet.parent? layer.2 = none) :
    Lineage sheet layer [layer]
  | next {layer above : String × Style} {layers : List (String × Style)}
    (hparent : sheet.parent? layer.2 = some above) (h : Lineage sheet above layers) :
    Lineage sheet layer (layer :: layers)

/-- Searching the styles of a lineage from the front gives what is inherited. -/
theorem Lineage.get?_iff {layer : String × Style} {layers : List (String × Style)}
    (h : Lineage sheet layer layers) (key value : String) :
    StyleChain.get? ⟨layers⟩ key = some value ↔ Inherits sheet key layer.2 value := by
  induction h with
  | @last layer hparent =>
    have hget : StyleChain.get? ⟨[layer]⟩ key = layer.2.items.get? key := by
      simp [StyleChain.get?]
    rw [hget]
    constructor
    · intro hown
      exact .own hown
    · intro hinherits
      cases hinherits with
      | own hown => exact hown
      | parent _ hsome _ =>
        rw [hparent] at hsome
        cases hsome
  | @next layer above layers hparent _ ih =>
    -- a layer is asked before those that it inherits from
    have hget : StyleChain.get? ⟨layer :: layers⟩ key =
        (layer.2.items.get? key).or (StyleChain.get? ⟨layers⟩ key) := by
      unfold StyleChain.get?
      rw [List.findSome?_cons]
      cases layer.2.items.get? key <;> rfl
    rw [hget, Option.or_eq_some_iff, ih]
    constructor
    · rintro (hown | ⟨hnone, hinherits⟩)
      · exact .own hown
      · exact .parent hnone hparent hinherits
    · intro hinherits
      cases hinherits with
      | own hown => exact Or.inl hown
      | parent hnone hsome hrest =>
        rw [hparent] at hsome
        cases hsome
        exact Or.inr ⟨hnone, hrest⟩

/-! ## Chains -/

/-- Different styles of a sheet. -/
structure Path (sheet : StyleSheet) (path : List (String × Style)) : Prop where
  stored : ∀ layer ∈ path, sheet.get? layer.1 = some layer.2
  nodup : (path.map Prod.fst).Nodup

namespace Path

variable {path : List (String × Style)}

theorem singleton {layer : String × Style} (h : sheet.get? layer.1 = some layer.2) :
    Path sheet [layer] where
  stored := by
    intro other hmem
    rw [List.mem_singleton.1 hmem]
    exact h
  nodup := List.nodup_singleton _

theorem append {above : String × Style} (h : Path sheet path)
    (habove : sheet.get? above.1 = some above.2) (hnew : above.1 ∉ path.map Prod.fst) :
    Path sheet (path ++ [above]) where
  stored := by
    intro layer hmem
    rcases List.mem_append.1 hmem with hmem | hmem
    · exact h.stored layer hmem
    · rw [List.mem_singleton.1 hmem]
      exact habove
  nodup := by
    rw [List.map_append]
    exact List.nodup_append.2 ⟨h.nodup, List.nodup_singleton _, by
      rintro name hname other hother rfl
      rw [List.mem_singleton.1 hother] at hname
      exact hnew hname⟩

/-- A style of the sheet whose name is on a path is on it. -/
theorem mem_of_name {other : String × Style} (h : Path sheet path)
    (hother : sheet.get? other.1 = some other.2) (hname : other.1 ∈ path.map Prod.fst) :
    other ∈ path := by
  obtain ⟨layer, hmem, heq⟩ := List.mem_map.1 hname
  have hstyle : some layer.2 = some other.2 := by
    rw [← h.stored layer hmem, heq]
    exact hother
  rwa [← Prod.ext heq (Option.some.inj hstyle)]

/-- There are no more different styles than the sheet has. -/
theorem length_le (h : Path sheet path) : path.length ≤ sheet.size := by
  have hsubset : path.map Prod.fst ⊆ sheet.keys := by
    intro name hname
    obtain ⟨layer, hmem, rfl⟩ := List.mem_map.1 hname
    rw [SortedMap.mem_keys_iff, SortedMap.contains_iff]
    exact ⟨layer.2, h.stored layer hmem⟩
  have hle := (h.nodup.subperm hsubset).length_le
  rwa [List.length_map, SortedMap.keys, List.length_map] at hle

/-- One step up from the end of a path: there is no parent, or the parent is on the path already, or
it goes to the end of the path. -/
theorem climb_succ (h : Path sheet path) (steps : Nat) (current : Style) :
    sheet.climb (steps + 1) path current =
      match sheet.parent? current with
      | none => .ok ⟨path⟩
      | some above =>
        if above.1 ∈ path.map Prod.fst then .error (.styleCycle (path.map Prod.fst) above.1)
        else sheet.climb steps (path ++ [above]) above.2 := by
  have hany : ∀ name, path.any (fun layer => layer.1 = name) = true ↔
      name ∈ path.map Prod.fst := by
    intro name
    rw [List.any_eq_true, List.mem_map]
    simp only [decide_eq_true_eq]
  conv_lhs => unfold climb
  unfold parent?
  cases hparent : current.parent with
  | none => rfl
  | some reference =>
    rw [Option.bind_some]
    by_cases hmem : bareName reference ∈ path.map Prod.fst
    · -- a style that is on the path is one of the sheet
      obtain ⟨layer, hlayer, hname⟩ := List.mem_map.1 hmem
      have hstored := h.stored layer hlayer
      rw [hname] at hstored
      dsimp only
      rw [if_pos ((hany _).2 hmem), hstored, Option.map_some]
      exact (if_pos hmem).symm
    · dsimp only
      rw [if_neg (mt (hany _).1 hmem)]
      cases sheet.get? (bareName reference) with
      | none => rfl
      | some parent => exact (if_neg hmem).symm

end Path

/-- The styles passed on the way up from one style to another one. -/
inductive Ascent (sheet : StyleSheet) :
    String × Style → List (String × Style) → String × Style → Prop
  | here {layer : String × Style} : Ascent sheet layer [layer] layer
  | up {layer above last : String × Style} {layers : List (String × Style)}
    (hparent : sheet.parent? layer.2 = some above) (h : Ascent sheet above layers last) :
    Ascent sheet layer (layer :: layers) last

/-- A climb from the end of a path goes on to the end of the lineage, or to a style whose parent is
on the path: as long as a path can grow, there are steps left for it. -/
theorem climb_cases {steps : Nat} {before : List (String × Style)} {layer : String × Style}
    (hpath : Path sheet (before ++ [layer])) (hsteps : sheet.size < before.length + 1 + steps) :
    (∃ layers, Lineage sheet layer layers ∧ Path sheet (before ++ layers) ∧
      sheet.climb steps (before ++ [layer]) layer.2 = .ok ⟨before ++ layers⟩) ∨
    (∃ layers last again, Ascent sheet layer layers last ∧ sheet.parent? last.2 = some again ∧
      Path sheet (before ++ layers) ∧ again ∈ before ++ layers ∧
      sheet.climb steps (before ++ [layer]) layer.2 =
        .error (.styleCycle ((before ++ layers).map Prod.fst) again.1)) := by
  induction steps generalizing before layer with
  | zero =>
    -- no path is longer than the sheet
    have hlength := hpath.length_le
    rw [List.length_append, List.length_singleton] at hlength
    omega
  | succ steps ih =>
    rw [hpath.climb_succ]
    cases hparent : sheet.parent? layer.2 with
    | none =>
      left
      exact ⟨[layer], .last hparent, hpath, rfl⟩
    | some above =>
      dsimp only
      by_cases hmem : above.1 ∈ (before ++ [layer]).map Prod.fst
      · right
        rw [if_pos hmem]
        have hpassed := hpath.mem_of_name (get?_of_parent? hparent) hmem
        exact ⟨[layer], layer, above, .here, hparent, hpath, hpassed, rfl⟩
      · rw [if_neg hmem]
        have hgrown := hpath.append (get?_of_parent? hparent) hmem
        have hleft : sheet.size < (before ++ [layer]).length + 1 + steps := by
          rw [List.length_append, List.length_singleton]
          omega
        -- one step up, the path is longer by the layer below
        have happend : ∀ layers, before ++ [layer] ++ layers = before ++ layer :: layers := by
          intro layers
          rw [List.append_assoc, List.singleton_append]
        rcases ih hgrown hleft with ⟨layers, hlineage, hall, hclimb⟩ |
          ⟨layers, last, again, hascent, hagain, hall, hpassed, hclimb⟩
        · left
          rw [happend layers] at hall hclimb
          exact ⟨layer :: layers, .next hparent hlineage, hall, hclimb⟩
        · right
          rw [happend layers] at hall hpassed hclimb
          exact ⟨layer :: layers, last, again, .up hparent hascent, hagain, hall, hpassed, hclimb⟩

/-- A chain fails for want of the style, or it is the lineage of the style, or it fails since the
parent of a style on the path is on it already. -/
theorem chain_cases (sheet : StyleSheet) (reference : String) :
    (sheet.find? reference = none ∧ sheet.chain reference =
      .error (.reference (ResourceKind.style.reference (bareName reference)) (.missing .style))) ∨
    ∃ style, sheet.find? reference = some style ∧
      ((∃ layers, Lineage sheet (bareName reference, style) layers ∧ Path sheet layers ∧
        sheet.chain reference = .ok ⟨layers⟩) ∨
      (∃ layers last again, Ascent sheet (bareName reference, style) layers last ∧
        sheet.parent? last.2 = some again ∧ Path sheet layers ∧ again ∈ layers ∧
        sheet.chain reference = .error (.styleCycle (layers.map Prod.fst) again.1))) := by
  unfold StyleSheet.chain
  dsimp only
  cases hfind : sheet.get? (bareName reference) with
  | none =>
    left
    exact ⟨hfind, rfl⟩
  | some style =>
    right
    have hpath : Path sheet ([] ++ [(bareName reference, style)]) := Path.singleton hfind
    have hsteps : sheet.size < ([] : List (String × Style)).length + 1 + sheet.size := by simp
    exact ⟨style, hfind, climb_cases hpath hsteps⟩

/-- The styles of a chain are those from the named style up. -/
theorem lineage_of_chain {reference : String} {chain : StyleChain}
    (h : sheet.chain reference = .ok chain) :
    ∃ style, sheet.find? reference = some style ∧
      Lineage sheet (bareName reference, style) chain.layers := by
  rcases sheet.chain_cases reference with ⟨-, hchain⟩ | ⟨style, hfind, hcases⟩
  · have heq := h.symm.trans hchain
    cases heq
  · rcases hcases with ⟨layers, hlineage, -, hchain⟩ | ⟨layers, last, again, -, -, -, -, hchain⟩
    · have heq := h.symm.trans hchain
      cases heq
      exact ⟨style, hfind, hlineage⟩
    · have heq := h.symm.trans hchain
      cases heq

/-! ## Merging -/

theorem merge_of_chain {own : Attributes} {reference : String} {chain : StyleChain}
    (hstyle : own.get? Attributes.styleName = some reference)
    (hchain : sheet.chain reference = .ok chain) :
    sheet.merge own = .ok (own.layered chain.flatten) := by
  unfold merge
  rw [hstyle]
  dsimp only
  rw [hchain]
  rfl

/-- Merged attributes are those of the element, and at other keys what its style inherits. They
refer to the same style as those of the element, so that merging them again changes nothing. The
chain of the style can be searched or flattened, which comes to the same. And an element that refers
to no style has just its own attributes. -/
theorem merge_shadows (sheet : StyleSheet) (own : Attributes) :
    (∀ reference chain, own.get? Attributes.styleName = some reference →
      sheet.chain reference = .ok chain →
      ∃ style merged, sheet.find? reference = some style ∧ sheet.merge own = .ok merged ∧
        (∀ key value, merged.get? key = some value ↔
          own.get? key = some value ∨ own.get? key = none ∧ sheet.Inherits key style value) ∧
        (∀ key, chain.flatten.get? key = chain.get? key) ∧
        sheet.merge merged = .ok merged) ∧
    (own.get? Attributes.styleName = none → sheet.merge own = .ok own) := by
  constructor
  · intro reference chain hstyle hchain
    obtain ⟨style, hfind, hlineage⟩ := lineage_of_chain hchain
    have hget : ∀ key,
        (own.layered chain.flatten).get? key = (own.get? key).or (chain.get? key) := by
      intro key
      rw [SortedMap.get?_layered, StyleChain.get?_flatten]
    refine ⟨style, own.layered chain.flatten, hfind, merge_of_chain hstyle hchain, ?_,
      chain.get?_flatten, ?_⟩
    · intro key value
      rw [hget, Option.or_eq_some_iff]
      exact or_congr_right (and_congr_right fun _ => hlineage.get?_iff key value)
    -- the style's name stays, so that merging again meets the same chain
    · have hmerged : (own.layered chain.flatten).get? Attributes.styleName = some reference := by
        rw [hget, hstyle]
        rfl
      rw [merge_of_chain hmerged hchain]
      congr 1
      apply SortedMap.ext_get?
      intro key
      rw [SortedMap.get?_layered, hget, StyleChain.get?_flatten]
      cases own.get? key <;> simp
  · intro hnone
    unfold merge
    rw [hnone]

end StyleSheet

/-! ## An element with a style -/

namespace Sample

def plainText : Style :=
  { items := .ofList [("android:textColor", "#222222"), ("android:textSize", "14sp")] }

/-- A style that inherits the color and has a size of its own. -/
def heading : Style :=
  { parent := some "@style/Plain", items := .ofList [("android:textSize", "20sp")] }

def styles : StyleSheet := .ofList [("Heading", heading), ("Plain", plainText)]

def headed : Attributes := .ofList [("android:text", "Hello"), ("style", "@style/Heading")]

theorem merge_shadows_headed : ∃ style merged, styles.find? "@style/Heading" = some style ∧
    styles.merge headed = .ok merged ∧
    (∀ key value, merged.get? key = some value ↔
      headed.get? key = some value ∨ headed.get? key = none ∧ styles.Inherits key style value) ∧
    merged.get? "android:textColor" = some "#222222" ∧
    merged.get? "android:textSize" = some "20sp" ∧ styles.merge merged = .ok merged ∧
    styles.merge plainText.items = .ok plainText.items := by
  have hstyle : headed.get? Attributes.styleName = some "@style/Heading" := by decide
  have hchain : styles.chain "@style/Heading" =
      .ok ⟨[("Heading", heading), ("Plain", plainText)]⟩ := rfl
  obtain ⟨style, merged, hfind, hmerge, hget, -, hagain⟩ :=
    (StyleSheet.merge_shadows styles headed).1 _ _ hstyle hchain
  have hnone := (StyleSheet.merge_shadows styles plainText.items).2 (by decide)
  obtain rfl : style = heading := by
    have hheading : styles.find? "@style/Heading" = some heading := rfl
    exact Option.some.inj (hfind.symm.trans hheading)
  refine ⟨heading, merged, hfind, hmerge, hget, ?_, ?_, hagain, hnone⟩
  · refine (hget _ _).2 (Or.inr ⟨by decide, ?_⟩)
    have hparent : styles.parent? heading = some ("Plain", plainText) := rfl
    exact .parent (by decide) hparent (.own (by decide))
  · exact (hget _ _).2 (Or.inr ⟨by decide, .own (by decide)⟩)

end Sample

end LayoutCompiler
