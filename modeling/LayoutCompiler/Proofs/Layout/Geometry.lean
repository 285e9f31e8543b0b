import LayoutCompiler.Proofs.Layout.Members
import LayoutCompiler.Proofs.Number.Rational
import Mathlib.Tactic.Ring
/-!
# Geometry of constraints

Assignments of boxes to nodes, what it means for a constraint to hold of them, and what the laws of
layout say about edges and middles.

* `Aligned`: a box sits in another one as an alignment with insets asks for.
* `holds_placeLaws`: the pins of an alignment hold of just those boxes that are aligned that way.
* `Aligned.inside`: insets add up over nested boxes.
-/

namespace LayoutCompiler

/-! ## Boxes -/

/-- The edges of a box. -/
structure Box where
  leading : ℚ
  trailing : ℚ
  top : ℚ
  bottom : ℚ
deriving Repr, DecidableEq

namespace Box

/-- The edge at which an axis begins. -/
def start (b : Box) : Axis → ℚ
  | .horizontal => b.leading
  | .vertical => b.top

/-- The edge at which an axis ends. -/
def finish (b : Box) : Axis → ℚ
  | .horizontal => b.trailing
  | .vertical => b.bottom

/-- The extent along an axis. -/
def extent (b : Box) (axis : Axis) : ℚ := b.finish axis - b.start axis

/-- The middle of an axis. -/
def center (b : Box) (axis : Axis) : ℚ := (b.start axis + b.finish axis) / 2

/-- The measure of a facet. -/
def measure (b : Box) : Facet → ℚ
  | .top => b.top
  | .bottom => b.bottom
  | .leading => b.leading
  | .trailing => b.trailing
  | .width => b.extent .horizontal
  | .height => b.extent .vertical
  | .centerX => b.center .horizontal
  | .centerY => b.center .vertical

@[simp] theorem measure_start (b : Box) (axis : Axis) : b.measure axis.start = b.start axis := by
  cases axis <;> rfl

@[simp] theorem measure_finish (b : Box) (axis : Axis) : b.measure axis.finish = b.finish axis := by
  cases axis <;> rfl

@[simp] theorem measure_extent (b : Box) (axis : Axis) : b.measure axis.extent = b.extent axis := by
  cases axis <;> rfl

@[simp] theorem measure_center (b : Box) (axis : Axis) : b.measure axis.center = b.center axis := by
  cases axis <;> rfl

end Box

/-! ## Constraints on boxes -/

/-- The right side of a constraint. -/
def Constraint.right (c : Constraint ℚ) (boxes : Nat → Box) : ℚ :=
  match c.second with
  | none => c.constant
  | some second => (boxes second.node).measure second.facet * c.multiplier + c.constant

/-- Two measures compare as a relation says. -/
def Relation.Compares : Relation → ℚ → ℚ → Prop
  | .equal, x, y => x = y
  | .atLeast, x, y => y ≤ x
  | .atMost, x, y => x ≤ y

instance : (r : Relation) → (x y : ℚ) → Decidable (r.Compares x y)
  | .equal, x, y => inferInstanceAs (Decidable (x = y))
  | .atLeast, x, y => inferInstanceAs (Decidable (y ≤ x))
  | .atMost, x, y => inferInstanceAs (Decidable (x ≤ y))

/-- A constraint holds of some boxes. -/
def Constraint.Holds (c : Constraint ℚ) (boxes : Nat → Box) : Prop :=
  c.relation.Compares ((boxes c.first.node).measure c.first.facet) (c.right boxes)

instance (c : Constraint ℚ) (boxes : Nat → Box) : Decidable (c.Holds boxes) :=
  inferInstanceAs (Decidable (c.relation.Compares _ _))

namespace Layout

variable {boxes : Nat → Box} {child container : Nat} {axis : Axis} {align : Align}
  {start finish less : ℚ}

/-! ## What the laws say -/

theorem holds_law {c : Constraint ℚ} : c.law.Holds boxes ↔ c.Holds boxes := Iff.rfl

theorem holds_pinLaw {first second : Anchor} {constant : ℚ} :
    (pinLaw first second constant).Holds boxes ↔
      (boxes first.node).measure first.facet =
        (boxes second.node).measure second.facet + constant := by
  have hone : (boxes second.node).measure second.facet * (1 : ℚ) + constant =
      (boxes second.node).measure second.facet + constant := by ring
  rw [← hone]
  exact Iff.rfl

theorem holds_startLaw :
    (startLaw child container axis start).Holds boxes ↔
      (boxes child).start axis = (boxes container).start axis + start := by
  unfold startLaw
  rw [holds_pinLaw, Box.measure_start, Box.measure_start]

theorem holds_finishLaw :
    (finishLaw child container axis finish).Holds boxes ↔
      (boxes container).finish axis = (boxes child).finish axis + finish := by
  unfold finishLaw
  rw [holds_pinLaw, Box.measure_finish, Box.measure_finish]

theorem holds_centerLaw :
    (centerLaw child container axis start finish).Holds boxes ↔
      (boxes child).center axis = (boxes container).center axis + (start - finish) / 2 := by
  unfold centerLaw
  rw [holds_pinLaw, Box.measure_center, Box.measure_center, Rational.half_eq]

theorem holds_extentLaw :
    (extentLaw child container axis less).Holds boxes ↔
      (boxes child).extent axis = (boxes container).extent axis - less := by
  have hone : (boxes container).extent axis * (1 : ℚ) + -less =
      (boxes container).extent axis - less := by ring
  rw [← hone, ← Box.measure_extent, ← Box.measure_extent]
  exact Iff.rfl

/-! ## Alignment -/

/-- A box sits in another one as an alignment with insets asks for, up to a tolerance. -/
def Aligned (tolerance : ℚ) (child container : Box) (axis : Axis) (align : Align)
    (start finish : ℚ) : Prop :=
  let atStart := |child.start axis - (container.start axis + start)| ≤ tolerance
  let atFinish := |child.finish axis - (container.finish axis - finish)| ≤ tolerance
  match align with
  | .start => atStart
  | .finish => atFinish
  | .fill => atStart ∧ atFinish
  | .center =>
    |child.center axis - (container.center axis + (start - finish) / 2)| ≤ tolerance

instance (tolerance : ℚ) (child container : Box) (axis : Axis) (start finish : ℚ) :
    (align : Align) → Decidable (Aligned tolerance child container axis align start finish)
  | .start => inferInstanceAs (Decidable (_ ≤ _))
  | .finish => inferInstanceAs (Decidable (_ ≤ _))
  | .fill => inferInstanceAs (Decidable (_ ∧ _))
  | .center => inferInstanceAs (Decidable (_ ≤ _))

namespace Aligned

variable {a b c : Box} {s f s' f' tolerance : ℚ}

/-- Without tolerance a box sits where it should. -/
theorem start_eq (h : Aligned 0 a b axis .fill s f) : a.start axis = b.start axis + s := by
  have := abs_nonpos_iff.1 h.1
  linarith

theorem finish_eq (h : Aligned 0 a b axis .fill s f) : a.finish axis = b.finish axis - f := by
  have := abs_nonpos_iff.1 h.2
  linarith

theorem of_eq (hstart : a.start axis = b.start axis + s)
    (hfinish : a.finish axis = b.finish axis - f) :
    Aligned 0 a b axis .fill s f := by
  refine ⟨le_of_eq ?_, le_of_eq ?_⟩
  · rw [hstart, sub_self, abs_zero]
  · rw [hfinish, sub_self, abs_zero]

/-- A box that is as large as there is room fills it, whichever way it is aligned. -/
theorem fill_of_extent (h : Aligned 0 a b axis align s f)
    (hextent : a.extent axis = b.extent axis - (s + f)) : Aligned 0 a b axis .fill s f := by
  unfold Box.extent at hextent
  cases align with
  | fill => exact h
  | start =>
    have hs := abs_nonpos_iff.1 h
    exact of_eq (by linarith) (by linarith)
  | finish =>
    have hf := abs_nonpos_iff.1 h
    exact of_eq (by linarith) (by linarith)
  | center =>
    have hc := abs_nonpos_iff.1 h
    unfold Box.center at hc
    exact of_eq (by linarith) (by linarith)

/-- Insets add up over nested boxes. -/
theorem inside (h : Aligned 0 a b axis align s f) (h' : Aligned 0 b c axis .fill s' f') :
    Aligned 0 a c axis align (s' + s) (f' + f) := by
  -- the middle box keeps exactly its two insets from the outer one, so every guide line of the
  -- outer box is one of the middle box moved by them
  have hs := h'.start_eq
  have hf := h'.finish_eq
  have hstart : a.start axis - (c.start axis + (s' + s)) = a.start axis - (b.start axis + s) := by
    rw [hs]
    ring
  have hfinish : a.finish axis - (c.finish axis - (f' + f)) =
      a.finish axis - (b.finish axis - f) := by
    rw [hf]
    ring
  have hcenter : a.center axis - (c.center axis + (s' + s - (f' + f)) / 2) =
      a.center axis - (b.center axis + (s - f) / 2) := by
    unfold Box.center
    rw [hs, hf]
    ring
  cases align with
  | start => exact (congrArg (|·|) hstart).trans_le h
  | finish => exact (congrArg (|·|) hfinish).trans_le h
  | fill => exact ⟨(congrArg (|·|) hstart).trans_le h.1, (congrArg (|·|) hfinish).trans_le h.2⟩
  | center => exact (congrArg (|·|) hcenter).trans_le h

/-- Insets may be off by as much as is tolerated. -/
theorem loosen (h : Aligned 0 a b axis align s f) (hs : |s - s'| ≤ tolerance)
    (hf : |f - f'| ≤ tolerance) : Aligned tolerance a b axis align s' f' := by
  rw [abs_le] at hs hf
  -- exact at the old insets, so what is missed at the new ones is the difference of the insets
  have hstart : a.start axis = b.start axis + s →
      |a.start axis - (b.start axis + s')| ≤ tolerance := by
    intro heq
    rw [abs_le]
    constructor <;> linarith
  have hfinish : a.finish axis = b.finish axis - f →
      |a.finish axis - (b.finish axis - f')| ≤ tolerance := by
    intro heq
    rw [abs_le]
    constructor <;> linarith
  cases align with
  | start => exact hstart (by have := abs_nonpos_iff.1 h; linarith)
  | finish => exact hfinish (by have := abs_nonpos_iff.1 h; linarith)
  | fill => exact ⟨hstart h.start_eq, hfinish h.finish_eq⟩
  -- the middle is moved by half of the two differences, which is within the tolerance again
  | center =>
    have hc := abs_nonpos_iff.1 h
    refine abs_le.2 ⟨?_, ?_⟩ <;> linarith

/-- Boxes with the same edges sit in the same way. -/
theorem of_edges (h : Aligned tolerance b c axis align s f) (hstart : a.start axis = b.start axis)
    (hfinish : a.finish axis = b.finish axis) : Aligned tolerance a c axis align s f := by
  have hcenter : a.center axis = b.center axis := by
    unfold Box.center
    rw [hstart, hfinish]
  unfold Aligned at h ⊢
  rwa [hstart, hfinish, hcenter]

end Aligned

/-! ## Exact alignment -/

section

variable {a b : Box}

/-- Both edges of a box are where the insets from another one ask for. -/
def Inset (a b : Box) (axis : Axis) (start finish : ℚ) : Prop :=
  a.start axis = b.start axis + start ∧ a.finish axis = b.finish axis - finish

/-- Where both edges keep their insets, the extents differ by the sum of them. -/
theorem Inset.extent (h : Inset a b axis start finish) :
    a.extent axis = b.extent axis - (start + finish) := by
  unfold Box.extent
  rw [h.1, h.2]
  ring

theorem abs_sub_nonpos_iff {x y : ℚ} : |x - y| ≤ 0 ↔ x = y := by
  rw [abs_nonpos_iff, sub_eq_zero]

theorem aligned_start_iff :
    Aligned 0 a b axis .start start finish ↔ a.start axis = b.start axis + start :=
  abs_sub_nonpos_iff

theorem aligned_finish_iff :
    Aligned 0 a b axis .finish start finish ↔ a.finish axis = b.finish axis - finish :=
  abs_sub_nonpos_iff

theorem aligned_center_iff :
    Aligned 0 a b axis .center start finish ↔
      a.center axis = b.center axis + (start - finish) / 2 :=
  abs_sub_nonpos_iff

theorem aligned_fill_iff :
    Aligned 0 a b axis .fill start finish ↔ Inset a b axis start finish :=
  and_congr abs_sub_nonpos_iff abs_sub_nonpos_iff

/-- Both edges of an axis are pinned just for boxes with these insets. -/
theorem holds_edgeLaws :
    (∀ l ∈ edgeLaws child container axis start finish, l.Holds boxes) ↔
      Inset (boxes child) (boxes container) axis start finish := by
  simp only [edgeLaws, List.forall_mem_cons, List.not_mem_nil, false_implies, implies_true,
    and_true, holds_startLaw, holds_finishLaw]
  exact and_congr_right fun _ => eq_sub_iff_add_eq.trans eq_comm |>.symm

/-- The pins of an alignment hold of just those boxes that are aligned that way. -/
theorem holds_placeLaws :
    (∀ l ∈ placeLaws child container axis align start finish, l.Holds boxes) ↔
      Aligned 0 (boxes child) (boxes container) axis align start finish := by
  cases align with
  | fill => exact holds_edgeLaws.trans aligned_fill_iff.symm
  | start => exact List.forall_mem_singleton.trans (holds_startLaw.trans aligned_start_iff.symm)
  | center => exact List.forall_mem_singleton.trans (holds_centerLaw.trans aligned_center_iff.symm)
  | finish =>
    rw [aligned_finish_iff, eq_sub_iff_add_eq]
    exact List.forall_mem_singleton.trans (holds_finishLaw.trans eq_comm)

end

end Layout

end LayoutCompiler
