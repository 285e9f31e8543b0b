import LayoutCompiler.Proofs.Number.Rational
import LayoutCompiler.Proofs.Resource.Runs
/-!
# What selectors show

A selector is put together from a list of items, each of them for a state or for none in
particular. The first item that is for a state is what the selector shows in it, wherever the item
stands; the first one for no particular state is shown in all other states. So what is shown is the
first item that applies to the state, unless one for no particular state stands in front of the
first one for the state.

* `Selector.get_ofItems?`: what is shown in a state.
* `RawResources.reads_of_resolve`: the same of the selectors of a table.
-/

namespace LayoutCompiler

namespace Selector

variable {β : Type} {s : Selector β} {items : List (Interaction × β)} {item : Interaction × β}
  {state : Interaction}

/-! ## Items -/

/-- Whether an item applies to a state: it is for the state, or for none in particular. -/
def applies (state : Interaction) (item : Interaction × β) : Bool :=
  item.1 == state || item.1 == .normal

/-- A selector shows in every state what the items say. -/
structure Reads (items : List (Interaction × β)) (s : Selector β) : Prop where
  /-- The first item that applies, unless others behind it are for the state and it is not. -/
  first : ∀ state x, items.find? (applies state) = some x →
    (x.1 = state ∨ ∀ y ∈ items, y.1 ≠ state) → s.get state = x.2
  /-- The first item for the state, whatever stands in front of it. -/
  own : ∀ state x, items.find? (·.1 == state) = some x → s.get state = x.2
  /-- The last item, if none applies. -/
  last : ∀ state, items.find? (applies state) = none →
    ∃ x, items.getLast? = some x ∧ s.get state = x.2

/-- An item for a state other than the normal one counts when the state has no value yet. -/
theorem own?_offer (hstate : state ≠ .normal) : (s.offer item).own? state =
    (s.own? state).or (if item.1 == state then some item.2 else none) := by
  obtain ⟨other, value⟩ := item
  unfold offer
  by_cases hother : other = state
  · subst hother
    cases hown : s.own? other with
    | some v => simp [hown]
    | none =>
      have hset : (s.set other value).own? other = some value := by cases other <;> rfl
      simpa [hown, hstate] using hset
  -- an item for another state leaves this one as it is, whether it is taken or not
  · have hset : (s.set other value).own? state = s.own? state := by
      cases other <;> cases state <;>
        first | rfl | exact absurd rfl hstate | exact absurd rfl hother
    have hno : (other == state) = false := beq_false_of_ne hother
    dsimp only
    rw [hno]
    split
    · rw [hset, if_neg Bool.false_ne_true, Option.or_none]
    · rw [if_neg Bool.false_ne_true, Option.or_none]

theorem normal_offer : (s.offer item).normal = s.normal := by
  obtain ⟨other, value⟩ := item
  unfold offer
  split
  · rename_i h
    cases other <;> first | rfl | exact absurd rfl h.1
  · rfl

/-- Of the items for a state the first one counts. -/
theorem own?_foldl_offer (hstate : state ≠ .normal) : (items.foldl offer s).own? state =
    (s.own? state).or ((items.find? (·.1 == state)).map Prod.snd) := by
  induction items generalizing s with
  | nil => rw [List.foldl_nil, List.find?_nil, Option.map_none, Option.or_none]
  | cons item items ih =>
    rw [List.foldl_cons, ih, own?_offer hstate, Option.or_assoc, List.find?_cons]
    cases item.1 == state <;> rfl

theorem normal_foldl_offer : (items.foldl offer s).normal = s.normal := by
  induction items generalizing s with
  | nil => rfl
  | cons item items ih => rw [List.foldl_cons, ih, normal_offer]

/-- What a selector shows in a state: the first item for the state, or else the first one for no
particular state, or else the last one. -/
theorem get_ofItems? (h : ofItems? items = some s) (state : Interaction) : some (s.get state) =
    (((items.find? (·.1 == state)).or (items.find? (·.1 == .normal))).or
      items.getLast?).map Prod.snd := by
  obtain ⟨normal, hnormal, rfl⟩ := Option.map_eq_some_iff.1 h
  unfold normalOf? at hnormal
  by_cases hstate : state = .normal
  · subst hstate
    have hget : (items.foldl offer { normal := normal }).get .normal = normal := normal_foldl_offer
    rw [hget, Option.or_self, hnormal]
  · unfold get
    rw [own?_foldl_offer hstate, normal_foldl_offer, Option.or_assoc, Option.map_or, hnormal]
    have hnone : ({ normal := normal } : Selector β).own? state = none := by
      cases state <;> first | rfl | exact absurd rfl hstate
    rw [hnone, Option.none_or]
    cases (items.find? (·.1 == state)).map Prod.snd <;> rfl

/-- The first item that applies to a state is the first one for the state, or the first one for no
particular state. -/
theorem find?_applies {x : Interaction × β} (h : items.find? (applies state) = some x) :
    x.1 = state ∧ items.find? (·.1 == state) = some x ∨
      x.1 = .normal ∧ items.find? (·.1 == .normal) = some x := by
  obtain ⟨happlies, before, behind, rfl, hbefore⟩ := List.find?_eq_some_iff_append.1 h
  -- what passes the narrower test passes the wider one, so nothing in front of the item does
  have hpassed : ∀ p : Interaction × β → Bool, (∀ y, p y = true → applies state y = true) →
      p x = true → (before ++ x :: behind).find? p = some x := by
    intro p hp hx
    refine List.find?_eq_some_iff_append.2 ⟨hx, before, behind, rfl, fun y hy => ?_⟩
    rw [Bool.not_eq_true', Bool.eq_false_iff]
    intro hpy
    have hnot := hbefore y hy
    rw [hp y hpy] at hnot
    cases hnot
  unfold applies at happlies
  rw [Bool.or_eq_true, beq_iff_eq, beq_iff_eq] at happlies
  rcases happlies with hx | hx
  · refine Or.inl ⟨hx, hpassed _ (fun y hy => ?_) (beq_iff_eq.2 hx)⟩
    exact Bool.or_eq_true_iff.2 (Or.inl hy)
  · refine Or.inr ⟨hx, hpassed _ (fun y hy => ?_) (beq_iff_eq.2 hx)⟩
    exact Bool.or_eq_true_iff.2 (Or.inr hy)

theorem reads_of_ofItems? (h : ofItems? items = some s) : Reads items s where
  first state x hfirst hown := by
    have hget := get_ofItems? h state
    rcases find?_applies hfirst with ⟨-, hfound⟩ | ⟨hnormal, hfound⟩
    · rw [hfound] at hget
      exact Option.some.inj hget
    · -- no item is for the state, unless the state is the normal one
      rcases hown with rfl | hown
      · rw [hnormal, hfound] at hget
        rw [hnormal]
        exact Option.some.inj hget
      · have hnone : items.find? (·.1 == state) = none :=
          List.find?_eq_none.2 fun y hy => by simpa using hown y hy
        rw [hnone, hfound] at hget
        exact Option.some.inj hget
  own state x hfound := by
    have hget := get_ofItems? h state
    rw [hfound] at hget
    exact Option.some.inj hget
  last state hnone := by
    have hget := get_ofItems? h state
    rw [List.find?_eq_none] at hnone
    -- no item applies, so there is one neither for the state nor for the normal one
    have hfound : ∀ other, other = state ∨ other = .normal →
        items.find? (·.1 == other) = none := by
      refine fun other hother => List.find?_eq_none.2 fun y hy hyother => hnone y hy ?_
      unfold applies
      rw [Bool.or_eq_true, beq_iff_eq, beq_iff_eq, beq_iff_eq.1 hyother]
      exact hother
    rw [hfound state (Or.inl rfl), hfound .normal (Or.inr rfl), Option.none_or, Option.none_or]
      at hget
    obtain ⟨x, hx, hvalue⟩ := Option.map_eq_some_iff.1 hget.symm
    exact ⟨x, hx, hvalue.symm⟩

end Selector

/-! ## Selectors of a table -/

namespace RawResources

variable {α : Type} [Scalar α] {raw : RawResources α} {table : ResourceTable α}

/-- Values are those that the texts of items stand for, each for the state of its item. -/
abbrev Items (raw : RawResources α) (need : Need) (items : RawSelector)
    (values : List (Interaction × need.Answer α)) : Prop :=
  List.Forall₂ (fun item value => value.1 = item.1 ∧ raw.Denotes (.text need item.2) value.2)
    items values

/-- The selectors of a table show what the items of their definitions stand for: the first item
that applies to a state, unless it is for no particular state and one for the state comes later. -/
theorem reads_of_resolve (h : raw.resolve = .ok table) :
    (∀ name items, raw.colorStates.get? name = some items → ∃ values states,
      raw.Items .color items values ∧ table.colorStates.get? name = some states ∧
      Selector.Reads values states) ∧
    ∀ name items, raw.drawables.get? name = some (.selector items) → ∃ values states,
      raw.Items .paint items values ∧ table.drawables.get? name = some (.states name states) ∧
      Selector.Reads values states := by
  -- what has a definition has an entry, which is what the definition denotes
  have hentry : ∀ l, raw.Declares l → ∃ v, table.answer? l = some v ∧ raw.Denotes l v := by
    intro l hdeclares
    obtain ⟨v, hv⟩ := Option.isSome_iff_exists.1 (((resolve_denotes h).1 l).2 hdeclares)
    exact ⟨v, hv, ((answer?_eq_some_iff h).1 hv).2⟩
  constructor
  · intro name items hitems
    obtain ⟨states, hstates, hdenotes⟩ :=
      hentry (.colorState name) (SortedMap.contains_iff.2 ⟨items, hitems⟩)
    cases hdenotes.unfolds with
    | colorState hitems' hvalues hmade =>
      rw [hitems] at hitems'
      cases hitems'
      exact ⟨_, states, hvalues, hstates, Selector.reads_of_ofItems? hmade⟩
  · intro name items hitems
    obtain ⟨d, hd, hdenotes⟩ :=
      hentry (.drawable name) (SortedMap.contains_iff.2 ⟨_, hitems⟩)
    cases hdenotes.unfolds with
    | selector hitems' hvalues hmade =>
      rw [hitems] at hitems'
      cases hitems'
      exact ⟨_, _, hvalues, hd, Selector.reads_of_ofItems? hmade⟩
    | _ => grind

end RawResources

namespace Sample

/-- A tint whose first item is for no particular state, and a key whose only item is for one. -/
def tints : RawResources ℚ where
  colorStates := .ofList [("tint", [(.normal, "#000000"), (.highlighted, "#FFFFFF"),
    (.highlighted, "#102030")])]
  drawables := .ofList [("key", .selector [(.disabled, "#FFFFFF")])]

theorem reads_of_resolve_tints : ∃ table values states, tints.resolve = .ok table ∧
    tints.Items .color [(.normal, "#000000"), (.highlighted, "#FFFFFF"),
      (.highlighted, "#102030")] values ∧
    table.colorStates.get? "tint" = some states ∧ Selector.Reads values states := by
  have hrun : tints.resolve.toOption.isSome = true := by decide +kernel
  cases hresolve : tints.resolve with
  | error e =>
    rw [hresolve] at hrun
    cases hrun
  | ok table =>
    obtain ⟨values, states, hvalues, hstates, hreads⟩ :=
      (RawResources.reads_of_resolve hresolve).1 "tint" _ rfl
    exact ⟨table, values, states, rfl, hvalues, hstates, hreads⟩

/-- The first item that applies to the highlighted state is black, but the selector shows the first
one that is for the state, which is white. -/
theorem get_ne_first_applying_tints : ∃ table values states x,
    tints.resolve = .ok table ∧
    tints.Items .color [(.normal, "#000000"), (.highlighted, "#FFFFFF"),
      (.highlighted, "#102030")] values ∧
    table.colorStates.get? "tint" = some states ∧
    values.find? (Selector.applies .highlighted) = some x ∧ states.get .highlighted ≠ x.2 := by
  have hrun : tints.resolve.toOption.map (fun table =>
      (table.colorStates.get? "tint").map (·.get .highlighted)) =
        some (some ⟨0xff, 0xff, 0xff, 0xff⟩) := by
    decide +kernel
  cases hresolve : tints.resolve with
  | error e =>
    rw [hresolve] at hrun
    cases hrun
  | ok table =>
    rw [hresolve] at hrun
    obtain ⟨states, hstates, hget⟩ := Option.map_eq_some_iff.1 (Option.some.inj hrun)
    have hliteral : ∀ {text : String} {c : Color}, Color.read? (Text.trim text) = some c →
        tints.Denotes (.text .color text) c :=
      fun h => RawResources.Unfolds.denotes (.constant (Or.inl h))
    refine ⟨table, [(.normal, ⟨0, 0, 0, 0xff⟩), (.highlighted, ⟨0xff, 0xff, 0xff, 0xff⟩),
      (.highlighted, ⟨0x10, 0x20, 0x30, 0xff⟩)], states, (.normal, ⟨0, 0, 0, 0xff⟩), rfl, ?_,
      hstates, rfl, ?_⟩
    · exact .cons ⟨rfl, hliteral rfl⟩ (.cons ⟨rfl, hliteral rfl⟩ (.cons ⟨rfl, hliteral rfl⟩ .nil))
    · rw [hget]
      decide

end Sample

end LayoutCompiler
