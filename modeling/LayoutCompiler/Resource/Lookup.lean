import LayoutCompiler.Resource.Table
/-!
# Look-ups

What can be asked for while resources are resolved: a resource by its name, or what a text stands
for at a place where a color, a length or a paint is needed. Answers for names are kept in a table.

* `answer?_store_self`, `answer?_store_of_ne`: an answer is kept for its own look-up only.
-/

namespace LayoutCompiler

/-- What a text in a definition has to stand for. -/
inductive Need where
  | color
  | length
  /-- A color, or another drawable. -/
  | paint
deriving Repr, DecidableEq

/-- What can be looked up. -/
inductive Lookup where
  | color (name : String)
  | colorState (name : String)
  | dimen (name : String)
  | string (name : String)
  | drawable (name : String)
  | font (name : String)
  | text (need : Need) (text : String)
deriving Repr, DecidableEq

/-- What meets a need. -/
abbrev Need.Answer (α : Type) : Need → Type
  | color => Color
  | length => Dimension α
  | paint => Drawable α

/-- What a look-up is answered with. -/
abbrev Lookup.Answer (α : Type) : Lookup → Type
  | color _ => Color
  | colorState _ => Selector Color
  | dimen _ => Dimension α
  | string _ => String
  | drawable _ => Drawable α
  | font _ => FontResource
  | text need _ => need.Answer α

/-- Whether a look-up is for a name. -/
def Lookup.isNamed : Lookup → Bool
  | text .. => false
  | _ => true

namespace ResourceTable

variable {α : Type}

/-- The answer that a table holds. -/
def answer? (t : ResourceTable α) : (l : Lookup) → Option (l.Answer α)
  | .color name => t.colors.get? name
  | .colorState name => t.colorStates.get? name
  | .dimen name => t.dimens.get? name
  | .string name => t.strings.get? name
  | .drawable name => t.drawables.get? name
  | .font name => t.fonts.get? name
  | .text .. => none

/-- The table with one more answer; those for texts are not kept. -/
def store (t : ResourceTable α) : (l : Lookup) → l.Answer α → ResourceTable α
  | .color name, c => { t with colors := t.colors.insert name c }
  | .colorState name, states => { t with colorStates := t.colorStates.insert name states }
  | .dimen name, d => { t with dimens := t.dimens.insert name d }
  | .string name, s => { t with strings := t.strings.insert name s }
  | .drawable name, d => { t with drawables := t.drawables.insert name d }
  | .font name, f => { t with fonts := t.fonts.insert name f }
  | .text .., _ => t

@[simp] theorem theme_store (t : ResourceTable α) (l : Lookup) (v : l.Answer α) :
    (t.store l v).theme = t.theme := by
  cases l <;> rfl

theorem answer?_store_self (t : ResourceTable α) {l : Lookup} (v : l.Answer α)
    (h : l.isNamed = true) : (t.store l v).answer? l = some v := by
  cases l with
  | text => cases h
  | _ => simp [store, answer?]

theorem answer?_store_of_ne (t : ResourceTable α) {l l' : Lookup} (v : l.Answer α) (h : l ≠ l') :
    (t.store l v).answer? l' = t.answer? l' := by
  cases l <;> cases l' <;> simp_all [store, answer?]

end ResourceTable

end LayoutCompiler
