/-!
# Selectors

One value for each state of interaction. A state without a value of its own has the normal one.
-/

namespace LayoutCompiler

/-- The states of interaction that a selector tells apart. -/
inductive Interaction where
  | normal
  | selected
  | highlighted
  | disabled
  | focused
deriving Repr, DecidableEq, Inhabited

namespace Interaction

/-- All states, in order. -/
def all : List Interaction := [normal, selected, highlighted, disabled, focused]

/-- The name of a state. -/
def name : Interaction → String
  | normal => "normal"
  | selected => "selected"
  | highlighted => "highlighted"
  | disabled => "disabled"
  | focused => "focused"

/-- The state with a name. -/
def ofName? (s : String) : Option Interaction := all.find? (·.name == s)

end Interaction

/-- A value for the normal state, and for some of the others. -/
structure Selector (β : Type) where
  normal : β
  selected : Option β := none
  highlighted : Option β := none
  disabled : Option β := none
  focused : Option β := none
deriving Repr, DecidableEq

namespace Selector

variable {β γ : Type}

/-- The value a state has of its own. -/
def own? (s : Selector β) : Interaction → Option β
  | .normal => some s.normal
  | .selected => s.selected
  | .highlighted => s.highlighted
  | .disabled => s.disabled
  | .focused => s.focused

/-- The value of a state. -/
def get (s : Selector β) (state : Interaction) : β := (s.own? state).getD s.normal

/-- The selector with the value of one state replaced. -/
def set (s : Selector β) (state : Interaction) (value : β) : Selector β :=
  match state with
  | .normal => { s with normal := value }
  | .selected => { s with selected := some value }
  | .highlighted => { s with highlighted := some value }
  | .disabled => { s with disabled := some value }
  | .focused => { s with focused := some value }

/-- The states with a value of their own, in order. -/
def declared (s : Selector β) : List (Interaction × β) :=
  Interaction.all.filterMap fun state => (s.own? state).map fun value => (state, value)

theorem own?_of_mem_declared {s : Selector β} {x : Interaction × β} (h : x ∈ s.declared) :
    s.own? x.1 = some x.2 := by
  obtain ⟨state, _, hs⟩ := List.mem_filterMap.1 h
  obtain ⟨value, hv, rfl⟩ := Option.map_eq_some_iff.1 hs
  exact hv

theorem sizeOf_lt_of_own? [SizeOf β] {s : Selector β} {state : Interaction} {value : β}
    (h : s.own? state = some value) : sizeOf value < sizeOf s := by
  obtain ⟨normal, selected, highlighted, disabled, focused⟩ := s
  cases state <;> simp only [own?, Option.some.injEq] at h <;> subst h <;>
    simp only [mk.sizeOf_spec, Option.some.sizeOf_spec] <;> omega

/-- The selector with one more item: it counts unless its state has a value already. -/
def offer (s : Selector β) (item : Interaction × β) : Selector β :=
  if item.1 ≠ .normal ∧ (s.own? item.1).isNone then s.set item.1 item.2 else s

/-- The value that serves as the normal one: that of the first item for the normal state, or of
the last item if there is none. -/
def normalOf? (items : List (Interaction × β)) : Option β :=
  ((items.find? (·.1 == .normal)).or items.getLast?).map Prod.snd

/-- The selector of a list of items; nothing without an item. -/
def ofItems? (items : List (Interaction × β)) : Option (Selector β) :=
  (normalOf? items).map fun normal => items.foldl offer { normal := normal }

end Selector

end LayoutCompiler
