import LayoutCompiler.Tree.Basic
import Mathlib.Data.List.Nodup
import Mathlib.Data.List.Perm.Subperm
import Mathlib.Logic.Relation
/-!
# Lines of ancestors

What following parent links leads to. The tree itself bounds every walk along its links by the size
of the arena; on a tree without cycles the bound is never met, so that the bounded walks are the
real ones:

* `mem_line`: a line holds a node and all of its ancestors.
* `mem_below`, `nodup_below`: a walk downwards meets each node below it, and meets it once.
-/

namespace LayoutCompiler.Tree

variable {α : Type} {t : Tree α} {a b c n p x y : Nat}

/-! ## Links upwards -/

/-- `p` is the parent of `c`. -/
def Up (t : Tree α) (c p : Nat) : Prop := (t.node c).parent = some p

/-- `a` is `x` or one of its ancestors. -/
def Reaches (t : Tree α) : Nat → Nat → Prop := Relation.ReflTransGen t.Up

/-- No node is above itself: every walk upwards ends. -/
def Acyclic (t : Tree α) : Prop := WellFounded fun p c => t.Up c p

/-- Parent links stay inside the arena. -/
def Bounded (t : Tree α) : Prop := ∀ c p, t.Up c p → p < t.size

theorem node_eq_default (h : t.size ≤ x) : t.node x = {} := by
  unfold node
  rw [Array.getElem?_eq_none h]
  rfl

theorem Up.unique (h : t.Up c p) (h' : t.Up c n) : p = n := by
  unfold Up at h h'
  rw [h] at h'
  exact Option.some.inj h'

/-- Only nodes of the arena have a parent. -/
theorem Up.lt_size (h : t.Up c p) : c < t.size := by
  by_contra hc
  unfold Up at h
  rw [node_eq_default (Nat.le_of_not_lt hc)] at h
  cases h

theorem Reaches.refl (t : Tree α) (x : Nat) : t.Reaches x x := Relation.ReflTransGen.refl

theorem Reaches.trans (h : t.Reaches x y) (h' : t.Reaches y a) : t.Reaches x a :=
  Relation.ReflTransGen.trans h h'

theorem Up.reaches (h : t.Up c p) : t.Reaches c p := Relation.ReflTransGen.single h

/-- A walk from a node stays there or goes through its parent. -/
theorem reaches_iff : t.Reaches x a ↔ x = a ∨ ∃ p, t.Up x p ∧ t.Reaches p a :=
  Relation.ReflTransGen.cases_head_iff

/-- A walk to a node comes through one of its children. -/
theorem reaches_iff' : t.Reaches x a ↔ a = x ∨ ∃ c, t.Reaches x c ∧ t.Up c a :=
  Relation.ReflTransGen.cases_tail_iff t.Up x a

theorem Reaches.of_up (h : t.Up c p) (hr : t.Reaches c a) (hne : c ≠ a) : t.Reaches p a := by
  rcases reaches_iff.1 hr with rfl | ⟨q, hq, hr⟩
  · exact absurd rfl hne
  · rwa [h.unique hq]

/-- The ancestors of a node stand in one row. -/
theorem Reaches.total (h : t.Reaches x a) (h' : t.Reaches x b) : t.Reaches a b ∨ t.Reaches b a :=
  Relation.ReflTransGen.total_of_right_unique (fun _ _ _ hp hq => Up.unique hp hq) h h'

theorem Reaches.lt_size (hb : t.Bounded) (h : t.Reaches x a) (hx : x < t.size) : a < t.size := by
  rcases reaches_iff'.1 h with rfl | ⟨c, _, hc⟩
  · exact hx
  · exact hb c a hc

/-- No parent of a node leads back to it. -/
theorem Acyclic.not_reaches (ha : t.Acyclic) (h : t.Up c p) : ¬ t.Reaches p c := by
  -- Along the order of the links: a walk from `p` back to `c` makes `c` an ancestor of `p` too, and
  -- the same walk read from `p` refutes the claim one link higher.
  induction c using ha.induction generalizing p with
  | _ c ih =>
    intro hr
    rcases reaches_iff.1 hr with rfl | ⟨q, hq, hr⟩
    · exact ih p h h (Reaches.refl t p)
    · exact ih p h hq (hr.trans h.reaches)

theorem Acyclic.ne (ha : t.Acyclic) (h : t.Up c p) : c ≠ p := by
  rintro rfl
  exact ha.not_reaches h (Reaches.refl t c)

theorem Acyclic.antisymm (ha : t.Acyclic) (h : t.Reaches x a) (h' : t.Reaches a x) : x = a := by
  rcases reaches_iff.1 h with rfl | ⟨p, hp, hr⟩
  · rfl
  · exact absurd (hr.trans h') (ha.not_reaches hp)

/-- What is above two children of a node is that node or above it. -/
theorem Acyclic.reaches_of_siblings (ha : t.Acyclic) (hb : t.Up b p) (hc : t.Up c p) (hne : b ≠ c)
    (hbx : t.Reaches b x) (hcx : t.Reaches c x) : t.Reaches p x := by
  refine Reaches.of_up hb hbx ?_
  rintro rfl
  exact ha.not_reaches hb (hcx.of_up hc hne.symm)

/-! ## Lines -/

theorem lineFrom_of_up (h : t.Up x p) (n : Nat) :
    t.lineFrom (n + 1) x = x :: t.lineFrom n p := by
  rw [lineFrom, show (t.node x).parent = some p from h]

theorem lineFrom_of_none (h : (t.node x).parent = none) (n : Nat) :
    t.lineFrom (n + 1) x = [x] := by
  rw [lineFrom, h]

theorem reaches_of_mem_lineFrom (h : a ∈ t.lineFrom n x) : t.Reaches x a := by
  induction n generalizing x with
  | zero => cases h
  | succ n ih =>
    cases hx : (t.node x).parent with
    | none =>
      rw [lineFrom_of_none hx, List.mem_singleton] at h
      exact h ▸ Reaches.refl t a
    | some p =>
      rw [lineFrom_of_up hx, List.mem_cons] at h
      rcases h with rfl | h
      · exact Reaches.refl t a
      · exact (Up.reaches hx).trans (ih h)

theorem Acyclic.nodup_lineFrom (ha : t.Acyclic) (n x : Nat) : (t.lineFrom n x).Nodup := by
  induction n generalizing x with
  | zero => exact List.nodup_nil
  | succ n ih =>
    cases hx : (t.node x).parent with
    | none => simp [lineFrom_of_none hx]
    | some p =>
      rw [lineFrom_of_up hx]
      exact List.nodup_cons.2 ⟨fun hm => ha.not_reaches hx (reaches_of_mem_lineFrom hm), ih p⟩

/-- A bounded line is whole, or as long as its bound. -/
theorem mem_lineFrom_or_length (t : Tree α) (n x : Nat) :
    (∀ a, t.Reaches x a → a ∈ t.lineFrom n x) ∨ (t.lineFrom n x).length = n := by
  -- a climb that ends before its bound has come to a node without a parent, and so has met all that
  -- is above
  induction n generalizing x with
  | zero => exact Or.inr rfl
  | succ n ih =>
    cases hx : (t.node x).parent with
    | none =>
      refine Or.inl fun a h => ?_
      rcases reaches_iff.1 h with rfl | ⟨p, hp, _⟩
      · simp [lineFrom_of_none hx]
      · rw [show t.Up x p from hp] at hx
        cases hx
    | some p =>
      rw [lineFrom_of_up hx]
      rcases ih p with whole | full
      · refine Or.inl fun a h => ?_
        by_cases hne : x = a
        · exact hne ▸ List.mem_cons_self
        · exact List.mem_cons_of_mem _ (whole a (h.of_up hx hne))
      · exact Or.inr (by rw [List.length_cons, full])

/-- A line holds a node and its ancestors: a line that used up its bound holds the whole arena. -/
theorem mem_line (ha : t.Acyclic) (hb : t.Bounded) (hx : x < t.size) :
    a ∈ t.line x ↔ t.Reaches x a := by
  refine ⟨reaches_of_mem_lineFrom, fun h => ?_⟩
  rcases mem_lineFrom_or_length t t.size x with whole | full
  · exact whole a h
  · -- No node stands twice in a line, so one as long as the arena meets every node there is.
    have hsub : t.line x ⊆ List.range t.size := by
      intro y hy
      exact List.mem_range.2 ((reaches_of_mem_lineFrom hy).lt_size hb hx)
    have hperm := ((ha.nodup_lineFrom t.size x).subperm hsub).perm_of_length_le
      (by rw [List.length_range]; exact Nat.le_of_eq full.symm)
    exact hperm.mem_iff.2 (List.mem_range.2 (h.lt_size hb hx))

/-! ## Walks downwards -/

/-- Child lists and parent links say the same. -/
def Listed (t : Tree α) : Prop := ∀ p c, c ∈ (t.node p).children ↔ t.Up c p

theorem mem_below_succ :
    x ∈ t.below (n + 1) y ↔ x = y ∨ ∃ c ∈ (t.node y).children, x ∈ t.below n c := by
  simp only [below, List.mem_cons, List.mem_flatMap]

/-- A line that may be one step longer ends at the same node, or one step further. -/
theorem mem_lineFrom_succ :
    a ∈ t.lineFrom (n + 1) x ↔ x = a ∨ ∃ c ∈ t.lineFrom n x, t.Up c a := by
  -- one more step adds the parent of the last node, so that what is new is seen at the far end of
  -- the line
  induction n generalizing x with
  | zero =>
    cases hx : (t.node x).parent with
    | none =>
      rw [lineFrom_of_none hx]
      simp [lineFrom, eq_comm]
    | some p =>
      rw [lineFrom_of_up hx]
      simp [lineFrom, eq_comm]
  | succ n ih =>
    cases hx : (t.node x).parent with
    | none =>
      rw [lineFrom_of_none hx, lineFrom_of_none hx]
      simp [Up, hx, eq_comm]
    | some p =>
      rw [lineFrom_of_up hx, lineFrom_of_up hx, List.mem_cons, ih]
      constructor
      · rintro (rfl | rfl | ⟨c, hc, hup⟩)
        · exact Or.inl rfl
        · exact Or.inr ⟨x, List.mem_cons_self, hx⟩
        · exact Or.inr ⟨c, List.mem_cons_of_mem _ hc, hup⟩
      · rintro (rfl | ⟨c, hc, hup⟩)
        · exact Or.inl rfl
        · rcases List.mem_cons.1 hc with rfl | hc
          · exact Or.inr (Or.inl (Up.unique hx hup))
          · exact Or.inr (Or.inr ⟨c, hc, hup⟩)

/-- A walk downwards meets the nodes whose line leads to where it began. -/
theorem mem_below (hl : t.Listed) : x ∈ t.below n y ↔ y ∈ t.lineFrom n x := by
  -- One bound serves both walks. The one downwards takes its first step at `y`, the line its last.
  induction n generalizing y with
  | zero => simp [below, lineFrom]
  | succ n ih =>
    rw [mem_below_succ, mem_lineFrom_succ]
    constructor
    · rintro (rfl | ⟨c, hc, hx⟩)
      · exact Or.inl rfl
      · exact Or.inr ⟨c, ih.1 hx, (hl y c).1 hc⟩
    · rintro (rfl | ⟨c, hc, hy⟩)
      · exact Or.inl rfl
      · exact Or.inr ⟨c, (hl y c).2 hy, ih.2 hc⟩

/-- Two walks downwards that begin at different children have no node in common. -/
theorem disjoint_below (ha : t.Acyclic) (hl : t.Listed) (hb : t.Up b p) (hc : t.Up c p)
    (hne : b ≠ c) : (t.below n b).Disjoint (t.below n c) := by
  intro x hxb hxc
  have hxb := reaches_of_mem_lineFrom ((mem_below hl).1 hxb)
  have hxc := reaches_of_mem_lineFrom ((mem_below hl).1 hxc)
  rcases hxb.total hxc with h | h
  · exact ha.not_reaches hc (h.of_up hb hne)
  · exact ha.not_reaches hb (h.of_up hc hne.symm)

/-- A walk downwards meets no node twice. -/
theorem nodup_below (ha : t.Acyclic) (hl : t.Listed) (honce : ∀ p, (t.node p).children.Nodup)
    (n y : Nat) : (t.below n y).Nodup := by
  induction n generalizing y with
  | zero => exact List.nodup_nil
  | succ n ih =>
    refine List.nodup_cons.2 ⟨fun hm => ?_, List.nodup_flatMap.2 ⟨fun c _ => ih c, ?_⟩⟩
    · obtain ⟨c, hc, hy⟩ := List.mem_flatMap.1 hm
      have hup := (hl y c).1 hc
      exact ha.not_reaches hup (reaches_of_mem_lineFrom ((mem_below hl).1 hy))
    · refine (honce y).imp_of_mem fun {b c} hb hc hne => ?_
      exact disjoint_below ha hl ((hl y b).1 hb) ((hl y c).1 hc) hne

end LayoutCompiler.Tree
