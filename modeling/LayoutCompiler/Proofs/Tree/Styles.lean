import LayoutCompiler.Proofs.Tree.Entries
import LayoutCompiler.Proofs.Tree.Walks
/-!
# Style entries

A style entry says where below a node a declaration goes, for which property, and with which text.
It is set by a walk to its place. Where entries lead can be told from the tree that they leave, as
what has been paved can still be followed: each property there has the text of the last entry that
leads to the node and names the property, and nothing else has been declared.

* `node_setStyle`: what one declaration leaves of a node.
* `Styled`: what a row of entries leaves of a tree.
* `StyleEntry.forM_set_styled`: setting a row of entries, by induction over the row.
-/

namespace LayoutCompiler

variable {α : Type}

/-- A style declaration below a node: where, for which property, and its text. -/
structure StyleEntry where
  steps : List PathStep
  property : String
  text : String
deriving Repr, DecidableEq

namespace Tree

variable {t t' t'' : Tree α} {start x y : Nat} {steps : List PathStep} {property text : String}
  {e : StyleEntry} {entries : List StyleEntry}

/-! ## One declaration -/

theorem node_setStyle (hx : x < t.size) (property text : String) (y : Nat) :
    (t.setStyle x property text).node y =
      if y = x then { t.node y with style := setEntry property text (t.node y).style }
      else t.node y :=
  node_modifyNode_of_lt hx _ y

/-- A declaration is found under its property, and all others are found as before. -/
theorem lookup_setStyle (hx : x < t.size) (property text key : String) (y : Nat) :
    ((t.setStyle x property text).node y).style.lookup key =
      if y = x ∧ key = property then some text else (t.node y).style.lookup key := by
  rw [node_setStyle hx]
  by_cases hy : y = x
  · rw [if_pos hy, lookup_setEntry]
    simp only [hy, true_and]
  · rw [if_neg hy, if_neg fun h => hy h.1]

/-- Steps do not look at declarations. -/
theorem follow?_setStyle (hx : x < t.size) (property text : String) (y : Nat)
    (steps : List PathStep) :
    (t.setStyle x property text).follow? y steps = t.follow? y steps := by
  have hfits : ∀ c step,
      fits ((t.setStyle x property text).node c) step = fits (t.node c) step := by
    intro c step
    rw [node_setStyle hx]
    split <;> rfl
  have hchildren : ∀ c, ((t.setStyle x property text).node c).children = (t.node c).children := by
    intro c
    rw [node_setStyle hx]
    split <;> rfl
  induction steps generalizing y with
  | nil => rfl
  | cons step steps ih =>
    unfold follow? childAt?
    simp only [hfits, hchildren, ih]

/-! ## Rows of entries -/

/-- What style entries that are set below a node leave of a tree. -/
structure Styled (start : Nat) (entries : List StyleEntry) (t t' : Tree α) : Prop where
  /-- An entry leads to a node. There its property has its text, unless an entry behind it leads to
  the same node and names the same property. -/
  written : ∀ before e behind, entries = before ++ e :: behind →
    ∃ x < t'.size, t'.follow? start e.steps = some x ∧
      ((∀ other ∈ behind, t'.follow? start other.steps = some x → other.property ≠ e.property) →
        (t'.node x).style.lookup e.property = some e.text)
  /-- A property of a node that no entry names is as it was. New nodes had none. -/
  others : ∀ x property,
    (∀ e ∈ entries, t'.follow? start e.steps = some x → e.property ≠ property) →
      (t'.node x).style.lookup property = (t.node x).style.lookup property
  /-- No property comes to be declared twice. -/
  distinct : ∀ x, ((t.node x).style.map Prod.fst).Nodup → ((t'.node x).style.map Prod.fst).Nodup
  /-- But for their style nodes are as they were, with new children behind their own. -/
  kept : ∀ x < t.size, ∃ new style, (∀ c ∈ new, t.size ≤ c) ∧
    t'.node x = { t.node x with children := (t.node x).children ++ new, style }
  leads : ∀ x < t.size, ∀ steps y, t.follow? x steps = some y → t'.follow? x steps = some y
  size_le : t.size ≤ t'.size
  size_le_add : t'.size ≤ t.size + (entries.flatMap StyleEntry.steps).length
  closed : t'.Closed
  root : t'.root = t.root
  constraints : t'.constraints = t.constraints
  ids : t'.ids = t.ids

namespace Styled

theorem nil (hc : t.Closed) (start : Nat) : Styled start [] t t where
  written before e behind h := absurd h (by simp)
  others _ _ _ := rfl
  distinct _ h := h
  kept x _ := ⟨[], (t.node x).style, nofun, by rw [List.append_nil]⟩
  leads _ _ _ _ h := h
  size_le := Nat.le_refl _
  size_le_add := Nat.le_refl _
  closed := hc
  root := rfl
  constraints := rfl
  ids := rfl

/-- A declaration where a path has been paved. -/
theorem single (hc : t.Closed) (h : Paves start e.steps x t t') :
    Styled start [e] t (t'.setStyle x e.property e.text) := by
  have hnode := node_setStyle h.lt_size e.property e.text
  have hlookup := lookup_setStyle h.lt_size e.property e.text
  have hfollow := follow?_setStyle h.lt_size e.property e.text
  have hsize : (t'.setStyle x e.property e.text).size = t'.size := size_modifyNode _ _ _
  have hleads : (t'.setStyle x e.property e.text).follow? start e.steps = some x :=
    (hfollow start e.steps).trans h.leads
  -- the walk to the place declares nothing
  have hstyle : ∀ y, (t'.node y).style = (t.node y).style := by
    intro y
    by_cases hy : y < t.size
    · obtain ⟨new, -, hkept⟩ := h.kept y hy
      rw [hkept]
    · rw [(h.bare y (Nat.le_of_not_lt hy)).2, node_eq_default (Nat.le_of_not_lt hy)]
  constructor
  case written =>
    intro before e' behind hentries
    cases before with
    | nil =>
      obtain ⟨rfl, rfl⟩ := List.cons.inj hentries
      refine ⟨x, hsize ▸ h.lt_size, hleads, fun _ => ?_⟩
      rw [hlookup, if_pos ⟨rfl, rfl⟩]
    | cons _ before => exact absurd (List.cons.inj hentries).2 (by simp)
  case others =>
    intro y property hnone
    rw [hlookup, if_neg, hstyle]
    rintro ⟨rfl, rfl⟩
    exact hnone e List.mem_cons_self hleads rfl
  case distinct =>
    intro y hdistinct
    rw [← hstyle y] at hdistinct
    rw [hnode]
    split
    · exact nodup_setEntry hdistinct
    · exact hdistinct
  case kept =>
    intro y hy
    obtain ⟨new, hnew, hkept⟩ := h.kept y hy
    rw [hnode, hkept]
    split
    · exact ⟨new, _, hnew, rfl⟩
    · exact ⟨new, _, hnew, rfl⟩
  case leads =>
    intro y hy steps z hz
    rw [hfollow]
    exact h.toAppends.follow? hc hy hz
  case size_le => exact hsize ▸ h.size_le
  case size_le_add => simpa [hsize] using h.size_le_add
  case closed =>
    intro p c hmem
    rw [hnode] at hmem
    rw [hsize]
    split at hmem <;> exact h.closed p c hmem
  case root => exact h.root
  case constraints => exact h.constraints
  case ids => exact h.ids

/-- One entry and those behind it. -/
theorem cons (hstart : start < t.size) (h : Styled start [e] t t')
    (h' : Styled start entries t' t'') : Styled start (e :: entries) t t'' := by
  obtain ⟨x, hx, hleads, hwritten⟩ := h.written [] e [] rfl
  -- where the first entry has led it leads at the end
  have hlast : t''.follow? start e.steps = some x :=
    h'.leads start (Nat.lt_of_lt_of_le hstart h.size_le) e.steps x hleads
  constructor
  case written =>
    intro before e' behind hentries
    cases before with
    | nil =>
      obtain ⟨rfl, rfl⟩ := List.cons.inj hentries
      refine ⟨x, Nat.lt_of_lt_of_le hx h'.size_le, hlast, fun hbehind => ?_⟩
      rw [h'.others x e.property hbehind]
      exact hwritten nofun
    | cons _ before => exact h'.written before e' behind (List.cons.inj hentries).2
  case others =>
    intro y property hnone
    obtain ⟨hfirst, hrest⟩ := List.forall_mem_cons.1 hnone
    rw [h'.others y property hrest]
    refine h.others y property fun e' he' hy => ?_
    obtain rfl := List.mem_singleton.1 he'
    exact hfirst (hlast.trans (hleads.symm.trans hy))
  case distinct => exact fun y hdistinct => h'.distinct y (h.distinct y hdistinct)
  case kept =>
    intro y hy
    obtain ⟨new, style, hnew, hnode⟩ := h.kept y hy
    obtain ⟨new', style', hnew', hnode'⟩ := h'.kept y (Nat.lt_of_lt_of_le hy h.size_le)
    refine ⟨new ++ new', style', fun c hc => ?_, by rw [hnode', hnode, List.append_assoc]⟩
    rcases List.mem_append.1 hc with hc | hc
    · exact hnew c hc
    · exact Nat.le_trans h.size_le (hnew' c hc)
  case leads =>
    intro y hy steps z hz
    exact h'.leads y (Nat.lt_of_lt_of_le hy h.size_le) steps z (h.leads y hy steps z hz)
  case size_le => exact Nat.le_trans h.size_le h'.size_le
  case size_le_add =>
    have hfirst := h.size_le_add
    have hrest := h'.size_le_add
    simp only [List.flatMap_cons, List.flatMap_nil, List.append_nil, List.length_append]
      at hfirst ⊢
    omega
  case closed => exact h'.closed
  case root => exact h'.root.trans h.root
  case constraints => exact h'.constraints.trans h.constraints
  case ids => exact h'.ids.trans h.ids

end Styled

end Tree

/-! ## Setting entries -/

namespace StyleEntry

variable {t : Tree α} {start : Nat}

/-- Sets the entry below a node. -/
def set (node : Nat) (entry : StyleEntry) : Edit α Unit := do
  let target ← Tree.walkPath node entry.steps
  modify (·.setStyle target entry.property entry.text)

theorem set_styled (hc : t.Closed) (hstart : start < t.size) (e : StyleEntry) :
    Ensures (set start e) t fun _ t' => Tree.Styled start [e] t t' :=
  Ensures.seq (Tree.walkPath_paves hc hstart e.steps) fun _ _ hpaves =>
    Ensures.modify (Tree.Styled.single hc hpaves)

/-- Entries that are set one after the other. -/
theorem forM_set_styled (hc : t.Closed) (hstart : start < t.size) (entries : List StyleEntry) :
    Ensures (entries.forM (set start)) t fun _ t' => Tree.Styled start entries t t' := by
  induction entries generalizing t with
  | nil => exact Tree.Styled.nil hc start
  | cons e entries ih =>
    refine Ensures.seq (set_styled hc hstart e) fun _ t' hfirst => ?_
    have hlt : start < t'.size := Nat.lt_of_lt_of_le hstart hfirst.size_le
    exact (ih hfirst.closed hlt).imp fun _ t'' hrest => hfirst.cons hstart hrest

end StyleEntry

end LayoutCompiler
