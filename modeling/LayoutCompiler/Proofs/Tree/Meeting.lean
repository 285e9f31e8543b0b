import LayoutCompiler.Proofs.Tree.Ancestry
/-!
# Where two lines meet

The nearest common ancestor of two nodes is looked for by climbing. A climb from a node takes as
many links as the depth of the node allows, so that two climbs which end at the same node are
equally long once the nodes they begin at are equally deep; from there on both may go up link by
link, and the first node they have in common is below all others.

* `depth_of_up`: a node is one deeper than its parent.
* `climb?_depth_sub`: how many links lead from a node to one of its ancestors.
* `first_of_meet?`: two climbs in step meet where they first can.
* `nearest_iff_common`: what is found is the nearest common ancestor, and nothing is found only if
  there is none.
-/

namespace LayoutCompiler.Tree

variable {α : Type} {t : Tree α} {a b c k m n p x y : Nat}

/-! ## Climbs -/

theorem climb?_succ_of_up (h : t.Up x p) (k : Nat) : t.climb? (k + 1) x = t.climb? k p := by
  rw [climb?, show (t.node x).parent = some p from h, Option.bind_some]

theorem climb?_succ_of_none (h : (t.node x).parent = none) (k : Nat) :
    t.climb? (k + 1) x = none := by
  rw [climb?, h, Option.bind_none]

/-- A climb may be made in two parts. -/
theorem climb?_add (j k x : Nat) : t.climb? (j + k) x = (t.climb? j x).bind (t.climb? k) := by
  induction j generalizing x with
  | zero => rw [Nat.zero_add, climb?, Option.bind_some]
  | succ j ih =>
    rw [Nat.add_right_comm]
    cases hx : (t.node x).parent with
    | none => rw [climb?_succ_of_none hx, climb?_succ_of_none hx, Option.bind_none]
    | some p => rw [climb?_succ_of_up hx, climb?_succ_of_up hx, ih]

theorem reaches_of_climb? (h : t.climb? k x = some a) : t.Reaches x a := by
  induction k generalizing x with
  | zero => exact Option.some.inj h ▸ Reaches.refl t x
  | succ k ih =>
    cases hx : (t.node x).parent with
    | none =>
      rw [climb?_succ_of_none hx] at h
      cases h
    | some p =>
      rw [climb?_succ_of_up hx] at h
      exact (Up.reaches hx).trans (ih h)

theorem exists_climb? (h : t.Reaches x a) : ∃ k, t.climb? k x = some a := by
  induction h using Relation.ReflTransGen.head_induction_on with
  | refl => exact ⟨0, rfl⟩
  | head hup _ ih =>
    obtain ⟨k, hk⟩ := ih
    exact ⟨k + 1, by rw [climb?_succ_of_up hup, hk]⟩

/-! ## Depths -/

/-- A shorter bound cuts a line off. -/
theorem take_lineFrom (t : Tree α) (n x : Nat) :
    (t.lineFrom (n + 1) x).take n = t.lineFrom n x := by
  induction n generalizing x with
  | zero => rfl
  | succ n ih =>
    cases hx : (t.node x).parent with
    | none => rw [lineFrom_of_none hx, lineFrom_of_none hx, List.take_succ_cons, List.take_nil]
    | some p => rw [lineFrom_of_up hx, lineFrom_of_up hx, List.take_succ_cons, ih]

/-- The line of a node goes on with that of its parent, which has room in the same bound. -/
theorem line_of_up (ha : t.Acyclic) (hb : t.Bounded) (h : t.Up x p) :
    t.line x = x :: t.line p := by
  have hx := h.lt_size
  -- no node stands twice behind the first one, so its line does not use up the bound
  have hnodup : (x :: t.line p).Nodup := by
    refine List.nodup_cons.2 ⟨fun hmem => ?_, ha.nodup_lineFrom t.size p⟩
    exact ha.not_reaches h (reaches_of_mem_lineFrom hmem)
  have hsub : x :: t.line p ⊆ List.range t.size := by
    intro y hy
    rw [List.mem_range]
    rcases List.mem_cons.1 hy with rfl | hy
    · exact hx
    · exact (reaches_of_mem_lineFrom hy).lt_size hb (hb x p h)
  have hlength : (t.line p).length + 1 ≤ t.size := by
    have := (hnodup.subperm hsub).length_le
    rwa [List.length_cons, List.length_range] at this
  obtain ⟨bound, hbound⟩ := Nat.exists_eq_add_one_of_ne_zero (Nat.ne_zero_of_lt hx)
  unfold line at hlength ⊢
  rw [hbound] at hlength ⊢
  rw [lineFrom_of_up h, ← take_lineFrom, List.take_of_length_le (by omega)]

/-- A node is one deeper than its parent. -/
theorem depth_of_up (ha : t.Acyclic) (hb : t.Bounded) (h : t.Up x p) :
    t.depth x = t.depth p + 1 := by
  obtain ⟨bound, hbound⟩ := Nat.exists_eq_add_one_of_ne_zero (Nat.ne_zero_of_lt h.lt_size)
  have hne : (t.line p).length ≠ 0 := by
    unfold line
    rw [hbound, lineFrom, List.length_cons]
    exact Nat.succ_ne_zero _
  unfold depth
  rw [line_of_up ha hb h, List.length_cons]
  omega

theorem length_lineFrom_le (t : Tree α) (n x : Nat) : (t.lineFrom n x).length ≤ n := by
  induction n generalizing x with
  | zero => exact Nat.le_refl 0
  | succ n ih =>
    cases hx : (t.node x).parent with
    | none =>
      rw [lineFrom_of_none hx, List.length_singleton]
      exact Nat.succ_le_succ (Nat.zero_le n)
    | some p =>
      rw [lineFrom_of_up hx, List.length_cons]
      exact Nat.succ_le_succ (ih p)

theorem depth_lt_size (hx : x < t.size) : t.depth x < t.size := by
  have := t.length_lineFrom_le t.size x
  unfold depth line
  omega

/-- Parent links make no cycle if each of them leads to a node that is less deep. -/
theorem Acyclic.of_depth (h : ∀ c p, t.Up c p → t.depth p < t.depth c) : t.Acyclic :=
  Subrelation.wf (fun {p c} hup => h c p hup) (InvImage.wf t.depth Nat.lt_wfRel.wf)

theorem depth_of_climb? (ha : t.Acyclic) (hb : t.Bounded) (h : t.climb? k x = some a) :
    t.depth x = t.depth a + k := by
  induction k generalizing x with
  | zero => rw [Option.some.inj h, Nat.add_zero]
  | succ k ih =>
    cases hx : (t.node x).parent with
    | none =>
      rw [climb?_succ_of_none hx] at h
      cases h
    | some p =>
      rw [climb?_succ_of_up hx] at h
      rw [depth_of_up ha hb hx, ih h, Nat.add_assoc]

/-- An ancestor is as many links away as it is less deep. -/
theorem climb?_depth_sub (ha : t.Acyclic) (hb : t.Bounded) (h : t.Reaches x a) :
    t.depth a ≤ t.depth x ∧ t.climb? (t.depth x - t.depth a) x = some a := by
  obtain ⟨k, hk⟩ := exists_climb? h
  have hdepth := depth_of_climb? ha hb hk
  refine ⟨by omega, ?_⟩
  rw [hdepth, Nat.add_sub_cancel_left]
  exact hk

/-! ## Climbs in step -/

/-- Two climbs in step meet at the first node that both come to after equally many links. -/
theorem first_of_meet? (h : t.meet? n a b = some c) :
    ∃ k, t.climb? k a = some c ∧ t.climb? k b = some c ∧
      ∀ j m, t.climb? j a = some m → t.climb? j b = some m → k ≤ j := by
  -- both climbs go up by the same number of links, so the first meeting is found at the smallest
  -- one
  induction n generalizing a b with
  | zero => cases h
  | succ n ih =>
    unfold meet? at h
    split at h
    · rename_i heq
      obtain rfl := Option.some.inj h
      exact ⟨0, rfl, heq ▸ rfl, fun j _ _ _ => Nat.zero_le j⟩
    · rename_i hne
      obtain ⟨a', hup, h⟩ := Option.bind_eq_some_iff.1 h
      obtain ⟨b', hup', h⟩ := Option.bind_eq_some_iff.1 h
      obtain ⟨k, hk, hk', hfirst⟩ := ih h
      refine ⟨k + 1, ?_, ?_, ?_⟩
      · rw [climb?_succ_of_up hup, hk]
      · rw [climb?_succ_of_up hup', hk']
      · intro j m hj hj'
        cases j with
        | zero => exact absurd (Option.some.inj (hj.trans hj'.symm)) hne
        | succ j =>
          rw [climb?_succ_of_up hup] at hj
          rw [climb?_succ_of_up hup'] at hj'
          exact Nat.succ_le_succ (hfirst j m hj hj')

/-- Two climbs in step meet if equally many links lead both to one node, and the bound allows as
many. -/
theorem exists_meet? (hk : k < n) (ha : t.climb? k a = some m) (hb : t.climb? k b = some m) :
    ∃ c, t.meet? n a b = some c := by
  induction n generalizing k a b with
  | zero => exact absurd hk (Nat.not_lt_zero k)
  | succ n ih =>
    unfold meet?
    split
    · exact ⟨a, rfl⟩
    · rename_i hne
      cases k with
      | zero => exact absurd (Option.some.inj (ha.trans hb.symm)) hne
      | succ k =>
        obtain ⟨a', hup, ha⟩ := Option.bind_eq_some_iff.1 ha
        obtain ⟨b', hup', hb⟩ := Option.bind_eq_some_iff.1 hb
        obtain ⟨c, hc⟩ := ih (Nat.lt_of_succ_lt_succ hk) ha hb
        exact ⟨c, by rw [hup, Option.bind_some, hup', Option.bind_some, hc]⟩

/-! ## The nearest common ancestor -/

/-- `n` is above two nodes or one of them, and no other such node is below it. -/
structure IsNearest (t : Tree α) (a b n : Nat) : Prop where
  left : t.Reaches a n
  right : t.Reaches b n
  lowest : ∀ m, t.Reaches a m → t.Reaches b m → t.Reaches n m

theorem IsNearest.symm (h : t.IsNearest a b n) : t.IsNearest b a n :=
  ⟨h.right, h.left, fun m hb ha => h.lowest m ha hb⟩

theorem IsNearest.unique (ha : t.Acyclic) (h : t.IsNearest a b n) (h' : t.IsNearest a b m) :
    n = m :=
  ha.antisymm (h.lowest m h'.left h'.right) (h'.lowest n h.left h.right)

/-- What is found is above both nodes, whatever the tree is like. -/
theorem reaches_of_nearestCommon? (h : t.nearestCommon? a b = some n) :
    t.Reaches a n ∧ t.Reaches b n := by
  obtain ⟨a', ha, h⟩ := Option.bind_eq_some_iff.1 h
  obtain ⟨b', hb, h⟩ := Option.bind_eq_some_iff.1 h
  obtain ⟨k, hk, hk', -⟩ := first_of_meet? h
  exact ⟨(reaches_of_climb? ha).trans (reaches_of_climb? hk),
    (reaches_of_climb? hb).trans (reaches_of_climb? hk')⟩

/-- From two nodes at one depth equally many links lead to a common ancestor. -/
theorem level_of_common (ha : t.Acyclic) (hb : t.Bounded) (hx : t.Reaches x m)
    (hy : t.Reaches y m) : ∃ x' y',
    t.climb? (t.depth x - t.depth y) x = some x' ∧ t.climb? (t.depth y - t.depth x) y = some y' ∧
    t.climb? (min (t.depth x) (t.depth y) - t.depth m) x' = some m ∧
    t.climb? (min (t.depth x) (t.depth y) - t.depth m) y' = some m := by
  obtain ⟨hle, hclimb⟩ := climb?_depth_sub ha hb hx
  obtain ⟨hle', hclimb'⟩ := climb?_depth_sub ha hb hy
  have hsplit : t.depth x - t.depth m =
      (t.depth x - t.depth y) + (min (t.depth x) (t.depth y) - t.depth m) := by omega
  have hsplit' : t.depth y - t.depth m =
      (t.depth y - t.depth x) + (min (t.depth x) (t.depth y) - t.depth m) := by omega
  rw [hsplit, climb?_add] at hclimb
  rw [hsplit', climb?_add] at hclimb'
  obtain ⟨x', hx', hclimb⟩ := Option.bind_eq_some_iff.1 hclimb
  obtain ⟨y', hy', hclimb'⟩ := Option.bind_eq_some_iff.1 hclimb'
  exact ⟨x', y', hx', hy', hclimb, hclimb'⟩

/-- Something is found if there is a common ancestor. -/
theorem exists_nearestCommon? (ha : t.Acyclic) (hb : t.Bounded) (hlt : x < t.size)
    (hx : t.Reaches x m) (hy : t.Reaches y m) : ∃ n, t.nearestCommon? x y = some n := by
  obtain ⟨x', y', hx', hy', hclimb, hclimb'⟩ := level_of_common ha hb hx hy
  have hbound : min (t.depth x) (t.depth y) - t.depth m < t.size := by
    have := depth_lt_size hlt
    omega
  obtain ⟨n, hn⟩ := exists_meet? hbound hclimb hclimb'
  exact ⟨n, by rw [nearestCommon?, hx', Option.bind_some, hy', Option.bind_some, hn]⟩

/-- What is found is below every common ancestor. -/
theorem reaches_of_common (ha : t.Acyclic) (hb : t.Bounded) (h : t.nearestCommon? x y = some n)
    (hx : t.Reaches x m) (hy : t.Reaches y m) : t.Reaches n m := by
  obtain ⟨x', y', hx', hy', hclimb, hclimb'⟩ := level_of_common ha hb hx hy
  rw [nearestCommon?, hx', Option.bind_some, hy', Option.bind_some] at h
  obtain ⟨k, hk, -, hfirst⟩ := first_of_meet? h
  -- the climbs meet before they come to the other common ancestor, and then go on together
  have hle := hfirst _ m hclimb hclimb'
  obtain ⟨rest, hrest⟩ := Nat.exists_eq_add_of_le hle
  rw [hrest, climb?_add, hk, Option.bind_some] at hclimb
  exact reaches_of_climb? hclimb

theorem isNearest_of_nearestCommon? (ha : t.Acyclic) (hb : t.Bounded)
    (h : t.nearestCommon? x y = some n) : t.IsNearest x y n :=
  ⟨(reaches_of_nearestCommon? h).1, (reaches_of_nearestCommon? h).2,
    fun _ hx hy => reaches_of_common ha hb h hx hy⟩

/-- The nearest common ancestor is the one below all other common ones. -/
theorem nearestCommon?_eq (ha : t.Acyclic) (hb : t.Bounded) (hlt : x < t.size)
    (h : t.IsNearest x y n) : t.nearestCommon? x y = some n := by
  obtain ⟨n', hn'⟩ := exists_nearestCommon? ha hb hlt h.left h.right
  rw [hn', (isNearest_of_nearestCommon? ha hb hn').unique ha h]

/-! ## Main statement -/

/-- On a tree without cycles the climbs find the one node that is above two nodes, or one of them,
and below all others that are. They find nothing only if there is no such node at all, and it makes
no difference which node is named first. -/
theorem nearest_iff_common (ha : t.Acyclic) (hb : t.Bounded) (hlt : a < t.size)
    (hlt' : b < t.size) :
    (∀ n, t.nearestCommon? a b = some n ↔ t.IsNearest a b n) ∧
    (t.nearestCommon? a b = none ↔ ¬ ∃ m, t.Reaches a m ∧ t.Reaches b m) ∧
    t.nearestCommon? b a = t.nearestCommon? a b := by
  have hsome : ∀ {x y}, x < t.size → ∀ n, t.nearestCommon? x y = some n ↔ t.IsNearest x y n :=
    fun hx n => ⟨isNearest_of_nearestCommon? ha hb, nearestCommon?_eq ha hb hx⟩
  -- that there is no answer, and that the order makes no difference, follows from what an answer is
  refine ⟨hsome hlt, ?_, ?_⟩
  · constructor
    · rintro hnone ⟨m, hm, hm'⟩
      obtain ⟨n, hn⟩ := exists_nearestCommon? ha hb hlt hm hm'
      rw [hnone] at hn
      cases hn
    · intro hno
      refine Option.eq_none_iff_forall_ne_some.2 fun n hn => hno ⟨n, ?_⟩
      exact reaches_of_nearestCommon? hn
  · apply Option.ext
    intro n
    rw [hsome hlt', hsome hlt]
    exact ⟨IsNearest.symm, IsNearest.symm⟩

namespace Sample

/-- Two trees. In the first one a node has been moved, with the one below it, under a node that is
newer than both. -/
def grove : Tree Unit where
  nodes := #[{ children := [3, 6] }, { parent := some 3, children := [2] }, { parent := some 1 },
    { parent := some 0, children := [1] }, { children := [5] }, { parent := some 4 },
    { parent := some 0 }]
  root := some 0
  ids := { seed := "grove" }

theorem bounded_grove : grove.Bounded := by
  intro c p hup
  have hall : ∀ c < grove.size, ∀ p ∈ (grove.node c).parent, p < grove.size := by decide
  exact hall c hup.lt_size p hup

theorem acyclic_grove : grove.Acyclic := by
  refine Acyclic.of_depth fun c p hup => ?_
  have hall : ∀ c < grove.size, ∀ p ∈ (grove.node c).parent, grove.depth p < grove.depth c := by
    decide
  exact hall c hup.lt_size p hup

end Sample

/-- Nodes at different depths, a node and one above it, and nodes of different trees. -/
theorem nearest_iff_common_grove :
    Sample.grove.IsNearest 2 6 0 ∧ Sample.grove.IsNearest 2 3 3 ∧
    ¬ ∃ m, Sample.grove.Reaches 3 m ∧ Sample.grove.Reaches 5 m := by
  have hall : ∀ a b, a < Sample.grove.size → b < Sample.grove.size → _ :=
    fun _ _ hlt hlt' => nearest_iff_common Sample.acyclic_grove Sample.bounded_grove hlt hlt'
  refine ⟨?deeper, ?above, ?apart⟩
  case deeper => exact ((hall 2 6 (by decide) (by decide)).1 0).1 (by decide)
  case above => exact ((hall 2 3 (by decide) (by decide)).1 3).1 (by decide)
  case apart => exact (hall 3 5 (by decide) (by decide)).2.1.1 (by decide)

end LayoutCompiler.Tree
