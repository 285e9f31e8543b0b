import LayoutCompiler.Proofs.Tree.Fences
import LayoutCompiler.Proofs.Tree.Footprints
/-!
# Walks along paths

At each step of a path a walk goes to the first child that fits, or makes one. What it makes stands
at the end of a list of children, behind everything that steps were looking at before. So after a
walk the whole path is there to be followed, and a second walk follows it and makes nothing.

* `Appends`: what the steps of a walk leave of a tree.
* `Appends.follow?`: where steps led before they lead afterwards.
* `findOrCreate_paves`: one step.
* `walkPath_paves`: a walk, by induction over its steps.
* `walkPath_repeats`: a walk, the way that it takes, and the same walk again.
-/

namespace LayoutCompiler.Tree

variable {α : Type} {t t' t'' : Tree α} {start x y z : Nat} {step : PathStep}
  {steps rest : List PathStep}

/-! ## Following a path -/

/-- The first child that a step leads to, if there is one. -/
def childAt? (t : Tree α) (x : Nat) (step : PathStep) : Option Nat :=
  (t.node x).children.find? fun child => fits (t.node child) step

/-- Where the steps of a path lead, if there is a child for each of them. -/
def follow? (t : Tree α) : Nat → List PathStep → Option Nat
  | x, [] => some x
  | x, step :: steps => (t.childAt? x step).bind fun y => follow? t y steps

theorem follow?_append (steps rest : List PathStep) (x : Nat) :
    t.follow? x (steps ++ rest) = (t.follow? x steps).bind fun y => t.follow? y rest := by
  induction steps generalizing x with
  | nil => rfl
  | cons step steps ih =>
    rw [List.cons_append, follow?, follow?, Option.bind_assoc]
    exact congrArg _ (funext ih)

theorem follow?_singleton (x : Nat) (step : PathStep) :
    t.follow? x [step] = t.childAt? x step :=
  Option.bind_fun_some _

theorem mem_of_childAt? (h : t.childAt? x step = some y) : y ∈ (t.node x).children :=
  List.mem_of_find?_eq_some h

/-- A step leads to a node with its name, and with the attribute that it asks for. -/
theorem fits_iff {n : Node} : fits n step = true ↔ n.name = step.name ∧
    ∀ key value, step.key = some (key, value) → n.attributes.lookup key = some value := by
  unfold fits
  rw [Bool.and_eq_true, decide_eq_true_eq]
  refine and_congr_right' ?_
  cases step.key with
  | none => simp
  | some entry =>
    obtain ⟨key, value⟩ := entry
    simp

theorem fits_of_childAt? (h : t.childAt? x step = some y) : fits (t.node y) step = true := by
  have hfound := List.find?_some (p := fun child => fits (t.node child) step) h
  exact hfound

/-- Where there is a child for a step, the step is taken and nothing else happens. -/
theorem findOrCreate_of_childAt? (h : t.childAt? x step = some y) :
    findOrCreate x step t = (y, t) := by
  obtain ⟨hfits, before, after, hchildren, hbefore⟩ := List.find?_eq_some_iff_append.1 h
  have hpassed : ∀ c ∈ before, fits (t.node c) step = false :=
    fun c hc => by simpa using hbefore c hc
  obtain ⟨hfound, hsame⟩ := findOrCreate_of_fits hchildren hpassed hfits
  exact Prod.ext hfound hsame

/-- Where a path can be followed, a walk does so and nothing else. -/
theorem walkPath_of_follow? (h : t.follow? x steps = some y) : walkPath x steps t = (y, t) := by
  induction steps generalizing x with
  | nil =>
    cases h
    rfl
  | cons step steps ih =>
    obtain ⟨z, hz, hrest⟩ := Option.bind_eq_some_iff.1 h
    show walkPath (findOrCreate x step t).1 steps (findOrCreate x step t).2 = _
    rw [findOrCreate_of_childAt? hz]
    exact ih hrest

theorem walkPath_append (steps rest : List PathStep) (x : Nat) (t : Tree α) :
    walkPath x (steps ++ rest) t =
      walkPath (walkPath x steps t).1 rest (walkPath x steps t).2 := by
  induction steps generalizing x t with
  | nil => rfl
  | cons step steps ih => exact ih _ _

/-! ## What a walk leaves of a tree -/

/-- Behind the children of a node there may be new ones, without text and style. All else is as it
was. -/
structure Appends (t t' : Tree α) : Prop where
  size_le : t.size ≤ t'.size
  kept : ∀ x < t.size, ∃ new, (∀ c ∈ new, t.size ≤ c) ∧
    t'.node x = { t.node x with children := (t.node x).children ++ new }
  bare : ∀ x, t.size ≤ x → (t'.node x).text = none ∧ (t'.node x).style = []
  root : t'.root = t.root
  constraints : t'.constraints = t.constraints
  ids : t'.ids = t.ids

namespace Appends

theorem refl (t : Tree α) : Appends t t where
  size_le := Nat.le_refl _
  kept x _ := ⟨[], nofun, by rw [List.append_nil]⟩
  bare x hx := by
    rw [node_eq_default hx]
    exact ⟨rfl, rfl⟩
  root := rfl
  constraints := rfl
  ids := rfl

theorem trans (h : Appends t t') (h' : Appends t' t'') : Appends t t'' where
  size_le := Nat.le_trans h.size_le h'.size_le
  kept x hx := by
    obtain ⟨new, hnew, hnode⟩ := h.kept x hx
    obtain ⟨new', hnew', hnode'⟩ := h'.kept x (Nat.lt_of_lt_of_le hx h.size_le)
    refine ⟨new ++ new', fun c hc => ?_, by rw [hnode', hnode, List.append_assoc]⟩
    rcases List.mem_append.1 hc with hc | hc
    · exact hnew c hc
    · exact Nat.le_trans h.size_le (hnew' c hc)
  bare x hx := by
    by_cases hlt : x < t'.size
    · obtain ⟨_, -, hnode⟩ := h'.kept x hlt
      rw [hnode]
      exact h.bare x hx
    · exact h'.bare x (Nat.le_of_not_lt hlt)
  root := h'.root.trans h.root
  constraints := h'.constraints.trans h.constraints
  ids := h'.ids.trans h.ids

/-- Steps look at the names and the attributes of nodes, which stay. -/
theorem fits_eq (h : Appends t t') (hx : x < t.size) (step : PathStep) :
    fits (t'.node x) step = fits (t.node x) step := by
  obtain ⟨new, -, hnode⟩ := h.kept x hx
  rw [hnode]
  rfl

/-- A step leads where it led: the children that there were stand in front of the new ones. -/
theorem childAt? (h : Appends t t') (hc : t.Closed) (hx : x < t.size)
    (hy : t.childAt? x step = some y) : t'.childAt? x step = some y := by
  obtain ⟨new, -, hnode⟩ := h.kept x hx
  obtain ⟨hfits, before, after, hchildren, hbefore⟩ := List.find?_eq_some_iff_append.1 hy
  have hlt : ∀ c ∈ before ++ y :: after, c < t.size := fun c hmem => hc x c (hchildren ▸ hmem)
  refine List.find?_eq_some_iff_append.2 ⟨?_, before, after ++ new, ?_, fun c hmem => ?_⟩
  · rw [h.fits_eq (hlt y (by simp))]
    exact hfits
  · rw [hnode]
    show (t.node x).children ++ new = _
    rw [hchildren, List.append_assoc, List.cons_append]
  · rw [h.fits_eq (hlt c (List.mem_append_left _ hmem))]
    exact hbefore c hmem

theorem follow? (h : Appends t t') (hc : t.Closed) (hx : x < t.size)
    (hy : t.follow? x steps = some y) : t'.follow? x steps = some y := by
  induction steps generalizing x with
  | nil => exact hy
  | cons step steps ih =>
    obtain ⟨z, hz, hrest⟩ := Option.bind_eq_some_iff.1 hy
    have hlt : z < t.size := hc x z (mem_of_childAt? hz)
    exact Option.bind_eq_some_iff.2 ⟨z, h.childAt? hc hx hz, ih hlt hrest⟩

end Appends

/-- The way along a path is there, and at most one node has been made for each of its steps. -/
structure Paves (x : Nat) (steps : List PathStep) (y : Nat) (t t' : Tree α) : Prop
    extends Appends t t' where
  size_le_add : t'.size ≤ t.size + steps.length
  closed : t'.Closed
  lt_size : y < t'.size
  leads : t'.follow? x steps = some y

/-- A way may be paved in two parts. -/
theorem Paves.trans (hx : x < t.size) (h : Paves x steps y t t') (h' : Paves y rest z t' t'') :
    Paves x (steps ++ rest) z t t'' where
  toAppends := h.toAppends.trans h'.toAppends
  size_le_add := by
    have hfirst := h.size_le_add
    have hsecond := h'.size_le_add
    rw [List.length_append]
    omega
  closed := h'.closed
  lt_size := h'.lt_size
  leads := by
    have hlt : x < t'.size := Nat.lt_of_lt_of_le hx h.size_le
    rw [follow?_append, h'.toAppends.follow? h.closed hlt h.leads, Option.bind_some]
    exact h'.leads

/-- Making a child draws no identifier and records nothing. -/
theorem unlinked_findOrCreate (x : Nat) (step : PathStep) (t : Tree α) :
    Ensures (findOrCreate x step) t fun _ t' =>
      t'.root = t.root ∧ t'.constraints = t.constraints ∧ t'.ids = t.ids := by
  unfold findOrCreate
  refine Ensures.bind (Ensures.get ?_)
  split
  · exact ⟨rfl, rfl, rfl⟩
  · refine Ensures.bind ?_
    cases step.key with
    | none => exact ⟨rfl, rfl, rfl⟩
    | some entry => exact ⟨rfl, rfl, rfl⟩

/-- A step that finds a child leaves the tree alone. -/
theorem Paves.of_found (hc : t.Closed) (hchild : t.childAt? x step = some y) :
    Paves x [step] y t t where
  toAppends := Appends.refl t
  size_le_add := Nat.le_add_right _ _
  closed := hc
  lt_size := hc x y (mem_of_childAt? hchild)
  leads := (follow?_singleton x step).trans hchild

/-- What the tree has become when a step has made the last child of a node. -/
structure ChildMade (x : Nat) (step : PathStep) (t t' : Tree α) : Prop where
  size_eq : t'.size = t.size + 1
  node_eq : ∀ z, t'.node z =
    if z = t.size then
      { name := step.name, attributes := step.key.toList, parent := some x }
    else if z = x then
      { t.node z with children := (t.node z).children ++ [t.size] }
    else t.node z
  unlinked : t'.root = t.root ∧ t'.constraints = t.constraints ∧ t'.ids = t.ids

namespace ChildMade

theorem appends (h : ChildMade x step t t') : Appends t t' := by
  obtain ⟨hroot, hconstraints, hids⟩ := h.unlinked
  have hsize := h.size_eq
  refine ⟨by omega, fun c hlt => ?_, fun c hle => ?_, hroot, hconstraints, hids⟩
  · rw [h.node_eq c, if_neg (Nat.ne_of_lt hlt)]
    by_cases hcx : c = x
    · exact ⟨[t.size], by simp, by rw [if_pos hcx]⟩
    · exact ⟨[], nofun, by rw [if_neg hcx, List.append_nil]⟩
  · rw [h.node_eq c, node_eq_default hle]
    split
    · exact ⟨rfl, rfl⟩
    · split <;> exact ⟨rfl, rfl⟩

theorem closed (h : ChildMade x step t t') (hc : t.Closed) : t'.Closed := by
  intro p c hmem
  have hsize := h.size_eq
  rw [h.node_eq] at hmem
  split at hmem
  · cases hmem
  · split at hmem
    · rcases List.mem_append.1 hmem with hmem | hmem
      · exact Nat.lt_of_lt_of_le (hc p c hmem) h.appends.size_le
      · rw [List.mem_singleton.1 hmem]
        omega
    · exact Nat.lt_of_lt_of_le (hc p c hmem) h.appends.size_le

/-- The new child fits the step that has made it. -/
theorem fits_new (h : ChildMade x step t t') : fits (t'.node t.size) step = true := by
  rw [h.node_eq, if_pos rfl]
  refine fits_iff.2 ⟨rfl, fun key value hkey => ?_⟩
  show step.key.toList.lookup key = some value
  rw [hkey]
  simp

/-- The step leads to the new child, because it fits none of those in front. -/
theorem paves (h : ChildMade x step t t') (hc : t.Closed) (hx : x < t.size)
    (hnone : ∀ c ∈ (t.node x).children, fits (t.node c) step = false) :
    Paves x [step] t.size t t' where
  toAppends := h.appends
  size_le_add := Nat.le_of_eq h.size_eq
  closed := h.closed hc
  lt_size := by
    rw [h.size_eq]
    exact Nat.lt_succ_self _
  leads := by
    have hself : (t'.node x).children = (t.node x).children ++ [t.size] := by
      rw [h.node_eq, if_neg (Nat.ne_of_lt hx), if_pos rfl]
    rw [follow?_singleton]
    refine List.find?_eq_some_iff_append.2
      ⟨h.fits_new, (t.node x).children, [], hself, fun c hmem => ?_⟩
    rw [h.appends.fits_eq (hc x c hmem), hnone c hmem]
    rfl

end ChildMade

/-- One step: it finds a child and leaves the tree alone, or makes the last child, which it leads to
from then on because it fits none of those in front. -/
theorem findOrCreate_paves (hc : t.Closed) (hx : x < t.size) (step : PathStep) :
    Ensures (findOrCreate x step) t fun y t' => Paves x [step] y t t' := by
  cases hchild : t.childAt? x step with
  | some y =>
    unfold Ensures
    rw [findOrCreate_of_childAt? hchild]
    exact .of_found hc hchild
  | none =>
    have hnone : ∀ c ∈ (t.node x).children, fits (t.node c) step = false := by
      intro c hmem
      exact Bool.eq_false_iff.2 (List.find?_eq_none.1 hchild c hmem)
    have hnew := findOrCreate_new hx hnone
    have hunlinked := unlinked_findOrCreate x step t
    unfold Ensures at hnew hunlinked ⊢
    generalize findOrCreate x step t = made at hnew hunlinked ⊢
    obtain ⟨y, t'⟩ := made
    obtain ⟨rfl, hsize, hnode⟩ := hnew
    have hmade : ChildMade x step t t' := ⟨hsize, hnode, hunlinked⟩
    exact hmade.paves hc hx hnone

/-- A walk paves the way along its path. -/
theorem walkPath_paves (hc : t.Closed) (hx : x < t.size) (steps : List PathStep) :
    Ensures (walkPath x steps) t fun y t' => Paves x steps y t t' := by
  induction steps generalizing x t with
  | nil =>
    exact
      { toAppends := Appends.refl t
        size_le_add := Nat.le_refl _
        closed := hc
        lt_size := hx
        leads := rfl }
  | cons step steps ih =>
    refine Ensures.seq (findOrCreate_paves hc hx step) fun y t' hstep => ?_
    exact (ih hstep.closed hstep.lt_size).imp fun z t'' hrest => hstep.trans hx hrest

/-! ## Main statement -/

/-- A walk from a node of a tree in which only nodes are listed, as any number of changes leave it
(`Sound.lists_nodes`). The same walk again leads to the same node and changes nothing. Each step of
the first one makes at most one node. Nodes that there were get children behind their own, and keep
everything else. From every node on the way a step leads to a child with its name, and with the
attribute that it asks for. -/
theorem walkPath_repeats (hc : t.Closed) (hstart : start < t.size) (steps : List PathStep) :
    let last := (walkPath start steps t).1
    let t' := (walkPath start steps t).2
    let reached := fun k => (walkPath start (steps.take k) t).1
    let reshaped := fun k => (walkPath start (steps.take k) t).2
    walkPath start steps t' = (last, t') ∧
    Appends t t' ∧ t'.Closed ∧ t'.size ≤ t.size + steps.length ∧
    reached 0 = start ∧ reached steps.length = last ∧
    ∀ k (hk : k < steps.length),
      (reshaped (k + 1)).size ≤ (reshaped k).size + 1 ∧
      reached (k + 1) ∈ (t'.node (reached k)).children ∧
      (t'.node (reached (k + 1))).name = steps[k].name ∧
      ∀ key value, steps[k].key = some (key, value) →
        (t'.node (reached (k + 1))).attributes.lookup key = some value := by
  intro last t' reached reshaped
  have hwalk : Paves start steps last t t' := walkPath_paves hc hstart steps
  have hbegun : ∀ k, Paves start (steps.take k) (reached k) t (reshaped k) := fun k =>
    walkPath_paves hc hstart (steps.take k)
  -- what the first steps have paved can still be followed at the end of the walk
  have hfollow : ∀ k, t'.follow? start (steps.take k) = some (reached k) := by
    intro k
    have hrest := walkPath_paves (hbegun k).closed (hbegun k).lt_size (steps.drop k)
    unfold Ensures at hrest
    rw [← walkPath_append, List.take_append_drop] at hrest
    have hlt : start < (reshaped k).size := Nat.lt_of_lt_of_le hstart (hbegun k).size_le
    exact hrest.toAppends.follow? (hbegun k).closed hlt (hbegun k).leads
  refine ⟨walkPath_of_follow? hwalk.leads, hwalk.toAppends, hwalk.closed, hwalk.size_le_add, rfl,
    ?_, fun k hk => ⟨?_, ?_⟩⟩
  · show (walkPath start (steps.take steps.length) t).1 = last
    rw [List.take_length]
  · have hstep := findOrCreate_paves (hbegun k).closed (hbegun k).lt_size steps[k]
    have hsplit : reshaped (k + 1) = (findOrCreate (reached k) steps[k] (reshaped k)).2 := by
      show (walkPath start (steps.take (k + 1)) t).2 = _
      rw [List.take_succ_eq_append_getElem hk, walkPath_append]
      rfl
    rw [hsplit]
    exact hstep.size_le_add
  · have hchild : t'.childAt? (reached k) steps[k] = some (reached (k + 1)) := by
      have hnext := hfollow (k + 1)
      rwa [List.take_succ_eq_append_getElem hk, follow?_append, hfollow k, Option.bind_some,
        follow?_singleton] at hnext
    exact ⟨mem_of_childAt? hchild, fits_iff.1 (fits_of_childAt? hchild)⟩

namespace Sample

/-- A button with three nodes of the same name below it, two of them with the same key. -/
def palette : Tree Unit where
  nodes := #[{ name := "button", children := [1, 2, 3] },
    { name := "color", attributes := [("key", "tint")], parent := some 0 },
    { name := "color", attributes := [("key", "text")], children := [4], parent := some 0 },
    { name := "color", attributes := [("key", "text")], parent := some 0 },
    { name := "state", parent := some 2 }]
  root := some 0
  ids := { seed := "palette" }

/-- The first node with the key is there. Below it there is none with the next key, so that it is
made, and one more below that. -/
def route : List PathStep :=
  [⟨"color", some ("key", "text")⟩, ⟨"state", some ("key", "pressed")⟩, ⟨"state", none⟩]

theorem closed_palette : palette.Closed := by
  intro p c hmem
  by_cases hp : p < palette.size
  · have hall : ∀ p < palette.size, ∀ c ∈ (palette.node p).children, c < palette.size := by decide
    exact hall p hp c hmem
  · rw [node_eq_default (Nat.le_of_not_lt hp)] at hmem
    cases hmem

end Sample

/-- A walk that finds one node and makes two, and the same walk again. -/
theorem walkPath_repeats_palette :
    Sample.palette.Closed ∧ 0 < Sample.palette.size ∧
    (walkPath 0 Sample.route Sample.palette).1 = 6 ∧
    (walkPath 0 Sample.route Sample.palette).2.size = 7 ∧
    (walkPath 0 Sample.route (walkPath 0 Sample.route Sample.palette).2).1 = 6 ∧
    (walkPath 0 Sample.route (walkPath 0 Sample.route Sample.palette).2).2.size = 7 := by
  have hlast : (walkPath 0 Sample.route Sample.palette).1 = 6 := by decide
  have hsize : (walkPath 0 Sample.route Sample.palette).2.size = 7 := by decide
  obtain ⟨hagain, -⟩ :=
    walkPath_repeats Sample.closed_palette (by decide : 0 < Sample.palette.size) Sample.route
  refine ⟨Sample.closed_palette, by decide, hlast, hsize, ?_, ?_⟩
  · rw [hagain, hlast]
  · rw [hagain, hsize]

end LayoutCompiler.Tree
