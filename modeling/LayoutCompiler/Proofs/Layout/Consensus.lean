import LayoutCompiler.Layout.Plan
import Mathlib.Data.List.Forall2
/-!
# The alignment of a stack

A stack aligns all members alike, so every child that asks for another alignment has to be
wrapped. The alignment of the stack is found by one scan over the possible ones, which keeps the
best so far.

* `foldl_better`: what a scan ends with.
* `consensus_first`: the scan over all alignments.
* `length_eq_count_add_misfits`: what an alignment is worth, in terms of who disagrees with it.
* `consensus_perm`: the order of the children is of no importance.
* `misfits_consensus_le`: no alignment leaves fewer of them.
* `wrapped_of_misfit`: who disagrees is wrapped.
* `consensus_fewest_misfits`: no alignment of a stack would need fewer wrappers for the sake of
  alignment.
-/

namespace LayoutCompiler

/-- How early an alignment comes when several are equally good. -/
def Align.rank : Align → Nat
  | .fill => 0
  | .start => 1
  | .center => 2
  | .finish => 3

namespace Layout

/-- How many of some alignments differ from one of them. -/
def misfits (alignments : List Align) (align : Align) : Nat := alignments.countP (· ≠ align)

variable {alignments : List Align}

/-! ## The scan -/

/-- A scan ends with an alignment that is strictly better than all before it and at least as good
as all behind it. -/
theorem foldl_better (alignments : List Align) (first : Align) (rest : List Align) :
    ∃ before after, first :: rest = before ++ rest.foldl (better alignments) first :: after ∧
      (∀ a ∈ before,
        score alignments a < score alignments (rest.foldl (better alignments) first)) ∧
      ∀ a ∈ after,
        score alignments a ≤ score alignments (rest.foldl (better alignments) first) := by
  induction rest generalizing first with
  | nil => exact ⟨[], [], rfl, by simp, by simp⟩
  | cons next rest ih =>
    rw [List.foldl_cons]
    by_cases hlt : score alignments first < score alignments next
    · rw [show better alignments first next = next from if_pos hlt]
      obtain ⟨before, after, hlist, hbefore, hafter⟩ := ih next
      generalize rest.foldl (better alignments) next = best at *
      refine ⟨first :: before, after, by rw [hlist]; rfl, ?_, hafter⟩
      -- The new one is either the best or beaten by it.
      have hnext : score alignments next ≤ score alignments best := by
        have hmem : next ∈ before ++ best :: after := hlist ▸ List.mem_cons_self
        rcases List.mem_append.1 hmem with h | h
        · exact Nat.le_of_lt (hbefore next h)
        · rcases List.mem_cons.1 h with rfl | h
          · exact Nat.le_refl _
          · exact hafter next h
      intro a ha
      rcases List.mem_cons.1 ha with rfl | ha
      · exact Nat.lt_of_lt_of_le hlt hnext
      · exact hbefore a ha
    · rw [show better alignments first next = first from if_neg hlt]
      obtain ⟨before, after, hlist, hbefore, hafter⟩ := ih first
      generalize rest.foldl (better alignments) first = best at *
      have hle : score alignments next ≤ score alignments first := Nat.not_lt.1 hlt
      cases before with
      | nil =>
        obtain ⟨rfl, rfl⟩ := List.cons.inj hlist
        refine ⟨[], next :: rest, rfl, by simp, ?_⟩
        intro a ha
        rcases List.mem_cons.1 ha with rfl | ha
        · exact hle
        · exact hafter a ha
      | cons head before =>
        obtain ⟨rfl, rfl⟩ := List.cons.inj hlist
        refine ⟨first :: next :: before, after, rfl, ?_, hafter⟩
        have hfirst := hbefore first List.mem_cons_self
        intro a ha
        rcases List.mem_cons.1 ha with rfl | ha
        · exact hfirst
        · rcases List.mem_cons.1 ha with rfl | ha
          · exact Nat.lt_of_le_of_lt hle hfirst
          · exact hbefore a (List.mem_cons_of_mem _ ha)

/-- No alignment is worth more than the one that is chosen, and of the others than filling those
that are worth as much come later. -/
theorem consensus_first (hne : alignments ≠ []) (a : Align) :
    score alignments a ≤ score alignments (consensus alignments) ∧
      (a ≠ .fill → score alignments a = score alignments (consensus alignments) →
        (consensus alignments).rank ≤ a.rank) := by
  have hscan : consensus alignments =
      [.center, .finish, .fill].foldl (better alignments) .start := by
    simp [consensus, hne]
  obtain ⟨before, after, hlist, hbefore, hafter⟩ :=
    foldl_better alignments .start [.center, .finish, .fill]
  rw [← hscan] at hlist hbefore hafter
  generalize consensus alignments = best at *
  clear hscan
  -- Where the best one stands among the four decides which of them it beats.
  rcases before with _ | ⟨b₁, _ | ⟨b₂, _ | ⟨b₃, _ | ⟨b₄, before⟩⟩⟩⟩ <;>
    simp only [List.nil_append, List.cons_append, List.cons.injEq, List.append_eq_nil_iff,
      List.nil_eq, reduceCtorEq, and_false] at hlist
  · obtain ⟨rfl, rfl⟩ := hlist
    simp only [List.forall_mem_cons] at hafter
    cases a <;> simp [Align.rank] <;> omega
  · obtain ⟨rfl, rfl, rfl⟩ := hlist
    simp only [List.forall_mem_cons] at hbefore hafter
    cases a <;> simp [Align.rank] <;> omega
  · obtain ⟨rfl, rfl, rfl, rfl⟩ := hlist
    simp only [List.forall_mem_cons] at hbefore hafter
    cases a <;> simp [Align.rank] <;> omega
  · obtain ⟨rfl, rfl, rfl, rfl, rfl⟩ := hlist
    simp only [List.forall_mem_cons] at hbefore
    cases a <;> simp [Align.rank] <;> omega

/-! ## Misfits -/

/-- Everybody agrees with an alignment or is a misfit to it. -/
theorem length_eq_count_add_misfits (alignments : List Align) (a : Align) :
    alignments.length = alignments.count a + misfits alignments a := by
  have h := List.length_eq_countP_add_countP (fun b => b == a) (l := alignments)
  have hmisfits : misfits alignments a = alignments.countP fun b => ¬ (b == a) := by
    unfold misfits
    congr 1
    funext b
    simp
  rw [h, hmisfits]
  rfl

/-- No alignment leaves fewer misfits than the one that is chosen, and those that leave as few are
ranked behind it. -/
theorem misfits_consensus_le (alignments : List Align) (a : Align) :
    misfits alignments (consensus alignments) ≤ misfits alignments a ∧
      (misfits alignments a = misfits alignments (consensus alignments) →
        (consensus alignments).rank ≤ a.rank) := by
  by_cases hne : alignments = []
  · subst hne
    exact ⟨Nat.le_refl _, fun _ => Nat.zero_le _⟩
  obtain ⟨hscore, hrank⟩ := consensus_first hne a
  generalize consensus alignments = best at *
  have hbest := length_eq_count_add_misfits alignments best
  have ha := length_eq_count_add_misfits alignments a
  -- The one that filling is worth more cannot make up for a child.
  have hfewest : misfits alignments best ≤ misfits alignments a := by
    unfold score at hscore
    split at hscore <;> split at hscore <;> omega
  refine ⟨hfewest, ?_⟩
  intro heq
  have hcount : alignments.count a = alignments.count best := by omega
  by_cases hfill : best = .fill
  · rw [hfill]
    exact Nat.zero_le _
  · rw [score, score, hcount, if_neg hfill] at hscore
    have hnot : a ≠ .fill := by
      rintro rfl
      rw [if_pos rfl] at hscore
      omega
    apply hrank hnot
    rw [score, score, hcount, if_neg hfill, if_neg hnot]

/-- The order of the alignments is of no importance. -/
theorem consensus_perm {others : List Align} (h : others.Perm alignments) :
    consensus others = consensus alignments := by
  have hscore : score others = score alignments := by
    funext a
    simp only [score, h.count_eq]
  have hbetter : better others = better alignments := by
    funext a b
    simp only [better, hscore]
  unfold consensus
  rw [h.isEmpty_eq, hbetter]

/-! ## Plans -/

section

variable {α : Type} [Scalar α]

/-- The alignments that children ask for across the axis of a stack. -/
def askedAlignments (container : Params α) (children : List (Params α)) : List Align :=
  children.map fun child => stackAlignment container child container.orientation.cross

/-- A child that asks for another alignment than the stack has is wrapped. -/
theorem wrapped_of_misfit (container : Params α) (children : List (Params α)) :
    List.Forall₂
      (fun align placement => align ≠ (plan container children).consensus →
        ∃ along across, placement = Placement.wrapped align along across)
      (askedAlignments container children) (plan container children).placements := by
  have hplacements : (plan container children).placements = children.map fun child =>
      placement (plan container children).consensus
        (stackAlignment container child container.orientation.cross)
        (excess child container.orientation (plan container children).hoisted)
        (excess child container.orientation.cross (plan container children).hoistedCross) := rfl
  rw [hplacements, askedAlignments, List.forall₂_map_left_iff, List.forall₂_map_right_iff,
    List.forall₂_same]
  intro child _ hmisfit
  refine ⟨_, _, if_neg ?_⟩
  rintro ⟨hfits, _⟩
  exact hmisfit hfits

end

/-- The consensus leaves as few misfits as an alignment can. Of the alignments that leave as few,
it is filling if that is one of them, and otherwise the first of start, center and end. So it does
not depend on the order of the children. A stack is aligned by the consensus of its children, and
the misfits among them are wrapped. -/
theorem consensus_fewest_misfits (alignments : List Align) :
    (∀ align, misfits alignments (consensus alignments) ≤ misfits alignments align) ∧
      (∀ align, misfits alignments align = misfits alignments (consensus alignments) →
        (consensus alignments).rank ≤ align.rank) ∧
      (∀ others, others.Perm alignments → consensus others = consensus alignments) ∧
      ∀ (α : Type) [Scalar α] (container : Params α) (children : List (Params α)),
        (plan container children).consensus = consensus (askedAlignments container children) ∧
          List.Forall₂
            (fun align placement => align ≠ (plan container children).consensus →
              ∃ along across, placement = Placement.wrapped align along across)
            (askedAlignments container children) (plan container children).placements := by
  refine ⟨?_, ?_, ?_, ?_⟩
  · intro align
    exact (misfits_consensus_le alignments align).1
  · intro align
    exact (misfits_consensus_le alignments align).2
  · intro others hperm
    exact consensus_perm hperm
  · intro α _ container children
    exact ⟨rfl, wrapped_of_misfit container children⟩

end Layout

end LayoutCompiler
