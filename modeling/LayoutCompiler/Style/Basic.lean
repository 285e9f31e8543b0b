import LayoutCompiler.Attributes
import LayoutCompiler.Failure
/-!
# Styles

A style is a set of attributes with an optional parent. The chain of a style is the style itself,
its parent, the parent of that, and so on; the first style of the chain with an entry gives its
value. Attributes of an element are laid over the chain of the style it refers to.

* `StyleChain.get?_flatten`: looking an entry up in the chain and in the flattened chain agree.
-/

namespace LayoutCompiler

/-- A style: its own entries, and a reference to its parent. -/
structure Style where
  parent : Option String := none
  items : Attributes := SortedMap.empty
deriving Repr, DecidableEq

/-- The styles of a project by name. -/
abbrev StyleSheet := SortedMap Style

/-- A style and its ancestors by name, the style itself first. -/
structure StyleChain where
  layers : List (String × Style)
deriving Repr, DecidableEq

/-! ## Chains -/

namespace StyleChain

/-- The entry of the first style that has one. -/
def get? (chain : StyleChain) (key : String) : Option String :=
  chain.layers.findSome? fun layer => layer.2.items.get? key

/-- The names of the styles. -/
def names (chain : StyleChain) : List String := chain.layers.map Prod.fst

/-- How many styles the chain has. -/
def depth (chain : StyleChain) : Nat := chain.layers.length

/-- The entries of all styles, those of earlier ones over those of later ones. -/
def flatten (chain : StyleChain) : Attributes :=
  chain.layers.foldr (fun layer below => layer.2.items.layered below) SortedMap.empty

theorem get?_flatten (chain : StyleChain) (key : String) :
    chain.flatten.get? key = chain.get? key := by
  obtain ⟨layers⟩ := chain
  induction layers with
  | nil => rfl
  | cons layer layers ih =>
    simp only [flatten, get?, List.foldr_cons, List.findSome?_cons] at ih ⊢
    rw [SortedMap.get?_layered, ih]
    cases layer.2.items.get? key <;> rfl

end StyleChain

namespace StyleSheet

/-- The name of the style that a reference stands for. -/
def bareName (reference : String) : String :=
  ((Text.stripLead? "@style/" reference).or
    ((Text.stripLead? "@android:style/" reference).or
      (Text.stripLead? "android:" reference))).getD reference

/-- The style that a reference stands for. -/
def find? (sheet : StyleSheet) (reference : String) : Option Style :=
  sheet.get? (bareName reference)

/-- The path of parents from a style on, appended to the path that leads to it. A parent outside
the sheet ends the path; one that is on it already is a cycle. At most `steps` parents are
visited: a path without a cycle is no longer than the sheet is large. -/
def climb (sheet : StyleSheet) : Nat → List (String × Style) → Style → Outcome StyleChain
  | 0, path, _ => .ok ⟨path⟩
  | steps + 1, path, current =>
    match current.parent with
    | none => .ok ⟨path⟩
    | some reference =>
      let name := bareName reference
      if path.any fun layer => layer.1 = name then
        .error (.styleCycle (path.map Prod.fst) name)
      else match sheet.get? name with
        | none => .ok ⟨path⟩
        | some parent => climb sheet steps (path ++ [(name, parent)]) parent

/-- The chain of the style that a reference stands for. -/
def chain (sheet : StyleSheet) (reference : String) : Outcome StyleChain :=
  let name := bareName reference
  match sheet.get? name with
  | none => .error (.reference (ResourceKind.style.reference name) (.missing .style))
  | some style => climb sheet sheet.size [(name, style)] style

/-- The attributes of an element laid over the chain of the style it refers to. -/
def merge (sheet : StyleSheet) (own : Attributes) : Outcome Attributes :=
  match own.get? Attributes.styleName with
  | none => .ok own
  | some reference => (sheet.chain reference).map fun chain => own.layered chain.flatten

end StyleSheet

end LayoutCompiler
