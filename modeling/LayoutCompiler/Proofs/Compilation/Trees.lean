import LayoutCompiler.Proofs.Compilation.Elements
import LayoutCompiler.Proofs.Number.Rational
/-!
# The trees of compilations

What is true of every tree that a compilation ends with, whatever the rules, the resources, the
options and the layout are.

* `WellFormed.of_ofElement`: it is one tree, all of whose links lead to nodes of it.
* `hosts_of_ofElement`: every constraint belongs to the deepest named node above those that take
  part in it, so that no compilation fails because of a constraint.
-/

namespace LayoutCompiler

/-! ## A small set of rules -/

namespace Sample

/-- Rules for views, for stacks of them and for views that lie over each other. Padding needs a
node of its own. -/
def book : RuleBook :=
  let view : ElementRule :=
    { id := "View", template := some { name := "view", holder := some "subviews" } }
  let linear : ElementRule :=
    { id := "LinearLayout", parent := some "View", container := some .linear
      autoWrapFor := ["android:padding"] }
  let frame : ElementRule :=
    { id := "FrameLayout", parent := some "View", container := some .frame
      autoWrapFor := ["android:padding"] }
  ((RuleBook.addElement {} view).addElement linear).addElement frame

def setting : Setting ℚ := { book, resources := {}, options := {} }

def file : String := "sample.xml"

def view (attributes : List (String × String)) : Element :=
  { tag := "View", attributes := SortedMap.ofList attributes }

/-- A stack in a wrapper, with one child that moves into a wrapper of its own. -/
def stack : Element :=
  { tag := "LinearLayout"
    attributes := SortedMap.ofList [("android:padding", "4dp")]
    children := [view [("android:layout_width", "match_parent")],
      view [("android:layout_margin", "8dp")]] }

end Sample

variable {α : Type}

namespace Tree

variable {t : Tree α} {r x : Nat}

/-! ## Linked trees as a whole -/

/-- From every node of a linked tree the way up ends at the root. -/
theorem Linked.reaches_root (hl : t.Linked) (hx : x < t.size) :
    ∃ r, t.root = some r ∧ t.Reaches x r := by
  induction x using hl.acyclic.induction with
  | _ x ih =>
    cases hp : (t.node x).parent with
    | none => exact ⟨x, hl.orphan x hx hp, Reaches.refl t x⟩
    | some p =>
      have hup : t.Up x p := hp
      obtain ⟨r, hr, hreaches⟩ := ih p hup (hl.bounded x p hup)
      exact ⟨r, hr, hup.reaches.trans hreaches⟩

/-- A walk through a linked tree meets every node, and meets it once. -/
theorem Linked.walk_perm (hl : t.Linked) : t.walk.Perm (List.range t.size) := by
  unfold walk
  cases hr : t.root with
  | none =>
    have hempty : t.size = 0 := by
      by_contra hne
      obtain ⟨r, hroot, -⟩ := hl.reaches_root (Nat.pos_of_ne_zero hne)
      rw [hr] at hroot
      cases hroot
    rw [hempty]
    exact List.Perm.refl _
  | some r =>
    -- the walk has no node twice, and a node is walked just if it reaches the root
    refine (List.perm_ext_iff_of_nodup (nodup_below hl.acyclic hl.listed hl.once _ _)
      List.nodup_range).2 fun x => ?_
    rw [mem_below hl.listed, List.mem_range]
    constructor
    · intro hx
      rcases reaches_iff.1 (reaches_of_mem_lineFrom hx) with rfl | ⟨p, hup, -⟩
      · exact (hl.rooted x hr).1
      · exact hup.lt_size
    · intro hx
      obtain ⟨r', hroot, hreaches⟩ := hl.reaches_root hx
      rw [hr] at hroot
      obtain rfl := Option.some.inj hroot
      exact (mem_line hl.acyclic hl.bounded hx).2 hreaches

end Tree

namespace Compilation

/-! ## Well-formed compilations -/

/-- A compilation has one tree, all of whose links lead to nodes of it. -/
structure WellFormed (c : Compilation α) : Prop where
  /-- There is a root, above which there is nothing. -/
  rooted : ∃ r, c.tree.root = some r ∧ (c.tree.node r).parent = none
  root_lt : ∀ r ∈ c.tree.root, r < c.tree.size
  parent_lt : ∀ x, ∀ p ∈ (c.tree.node x).parent, p < c.tree.size
  child_lt : ∀ x, ∀ k ∈ (c.tree.node x).children, k < c.tree.size
  content_lt : ∀ x, ∀ k ∈ (c.tree.node x).content, k < c.tree.size
  participant_lt : ∀ k ∈ c.tree.constraints, ∀ m ∈ k.participants, m < c.tree.size
  outlet_lt : ∀ o ∈ c.outlets, ∀ n ∈ o.node, n < c.tree.size
  /-- A node is listed by its parent, once, and by no other node. -/
  listed : ∀ p k, (c.tree.node p).children.count k =
    if (c.tree.node k).parent = some p then 1 else 0
  /-- The parents of a node lead to the root. -/
  upward : ∀ x < c.tree.size, ∀ r ∈ c.tree.root, c.tree.Reaches x r
  /-- A walk visits every node once. -/
  walked : c.tree.walk.Perm (List.range c.tree.size)

/-- The pass that a compilation starts with. -/
def start (file : String) : Pass α := { tree := Tree.empty file }

/-- The compilation that a pass ends with. -/
def ended (file : String) (s : Pass α) : Compilation α :=
  { name := nameOf file, file, tree := s.tree, outlets := s.outlets, used := s.used
    elementCount := s.elements, wrapperCount := s.wrappers, syntheticCount := s.synthetic }

theorem ready_start (file : String) : Ready none [] (start file : Pass α) where
  linked := Tree.linked_empty file
  settled _ hk := absurd hk List.not_mem_nil
  outlets _ ho := absurd ho List.not_mem_nil
  place := rfl
  below _ hm := absurd hm List.not_mem_nil

theorem WellFormed.of_compiled {M : List Nat} {s : Pass α} (h : Compiled M s)
    (hsize : 0 < s.tree.size) (file : String) : (ended file s).WellFormed := by
  have hl := h.linked
  obtain ⟨r, hroot, -⟩ := hl.reaches_root hsize
  refine
    { rooted := ⟨r, hroot, (hl.rooted r hroot).2⟩
      root_lt := fun r hr => (hl.rooted r hr).1
      parent_lt := fun x p hp => hl.bounded x p hp
      child_lt := fun x k hk => ((hl.listed x k).1 hk).lt_size
      content_lt := fun x k hk => (hl.held x k hk).1.lt_size
      participant_lt := fun k hk m hm => ?_
      outlet_lt := h.outlets
      listed := fun p k => ?_
      upward := fun x hx r' hr' => ?_
      walked := hl.walk_perm }
  · obtain ⟨a, ha, -⟩ := h.settled k hk
    exact Tree.lt_size_of_ident (ha.named m hm)
  · have hmem := hl.listed p k
    show (s.tree.node p).children.count k = if (s.tree.node k).parent = some p then 1 else 0
    -- once at its parent and nowhere else
    split
    · rename_i hp
      exact List.count_eq_one_of_mem (hl.once p) (hmem.2 hp)
    · rename_i hp
      exact List.count_eq_zero_of_not_mem fun hk => hp (hmem.1 hk)
  · obtain ⟨r'', hr'', hreaches⟩ := hl.reaches_root hx
    rw [show s.tree.root = some r' from hr'] at hr''
    obtain rfl := Option.some.inj hr''
    exact hreaches

variable [Scalar α] {setting : Setting α} {file : String} {root : Element} {c : Compilation α}

/-- If every constraint has a host, all of them together have. -/
theorem hosted_of_hosts {t : Tree α} (h : ∀ k ∈ t.constraints, ∃ x, t.host k = .ok x) :
    ∃ hosts, t.hosted = .ok hosts := by
  unfold Tree.hosted
  generalize t.constraints = constraints at h
  induction constraints with
  | nil => exact ⟨[], rfl⟩
  | cons k ks ih =>
    obtain ⟨x, hx⟩ := h k List.mem_cons_self
    obtain ⟨hosts, hhosts⟩ := ih fun k' hk' => h k' (List.mem_cons_of_mem _ hk')
    refine ⟨(x, k) :: hosts, ?_⟩
    rw [List.mapM_cons, hx, hhosts]
    rfl

/-- A pass that ends is all that a compilation takes: the hosts are only looked for after it, and
all of them are found. -/
theorem ofElement_of_run {child : Child α} {s : Pass α}
    (h : Compile.element setting file root none none {} (start file) = .ok (child, s)) :
    Compile.Added setting file root none none [] child (start file) s ∧
      ofElement setting file root = .ok (ended file s) := by
  have hspec := Compile.element_spec setting file root none {} none [] _ (ready_start file)
  have hadded := hspec.of_ok h
  have hsettled := hadded.compiled.settled
  -- every law has a host in a compiled tree, so hosting cannot fail
  obtain ⟨hosts, hhosts⟩ := hosted_of_hosts (t := s.tree) fun k hk => by
    obtain ⟨x, ha, -⟩ := hsettled k hk
    exact ⟨x, ha.host_eq hadded.compiled.linked⟩
  refine ⟨hadded, ?_⟩
  show (Compile.element setting file root none none {} (start file) >>= _) = _
  rw [h]
  by_cases htarget : setting.options.target.usesConstraints
  · simp only [bind, Except.bind, htarget, if_true, hhosts]
    rfl
  · simp only [bind, Except.bind, htarget]
    rfl

/-- A compilation fails as the pass over its root does. -/
theorem ofElement_of_fault {e : Failure}
    (h : Compile.element setting file root none none {} (start file) = .error e) :
    ofElement setting file root = .error e := by
  show (Compile.element setting file root none none {} (start file) >>= _) = _
  rw [h]
  rfl

/-- A compilation ends with what the pass over its root has left behind, or fails for a reason that
is none of layout. -/
theorem ofElement_cases (setting : Setting α) (file : String) (root : Element) :
    (∃ child s, Compile.element setting file root none none {} (start file) = .ok (child, s) ∧
      Compile.Added setting file root none none [] child (start file) s ∧
      ofElement setting file root = .ok (ended file s)) ∨
    ∃ e, ofElement setting file root = .error e ∧ e.isLayout = false := by
  have hspec := Compile.element_spec setting file root none {} none [] _ (ready_start file)
  cases hrun : Compile.element setting file root none none {} (start file) with
  | error e => exact Or.inr ⟨e, ofElement_of_fault hrun, hspec.of_error hrun⟩
  | ok r => exact Or.inl ⟨r.1, r.2, rfl, ofElement_of_run hrun⟩

/-! ## Every compilation -/

/-- A compilation is what the pass over its root has left behind. -/
theorem exists_pass (h : ofElement setting file root = .ok c) :
    ∃ child s, Compile.element setting file root none none {} (start file) = .ok (child, s) ∧
      Compile.Added setting file root none none [] child (start file) s ∧ c = ended file s := by
  rcases ofElement_cases setting file root with ⟨child, s, hrun, hadded, hok⟩ | ⟨e, herror, -⟩
  · rw [hok] at h
    exact ⟨child, s, hrun, hadded, (Except.ok.inj h).symm⟩
  · rw [herror] at h
    cases h

/-- The tree of every compilation is one tree, whose links lead to nodes of it and agree. -/
theorem WellFormed.of_ofElement (h : ofElement setting file root = .ok c) : c.WellFormed := by
  rcases ofElement_cases setting file root with ⟨child, s, -, hadded, hok⟩ | ⟨e, herror, -⟩
  · rw [hok] at h
    obtain rfl := Except.ok.inj h
    refine .of_compiled hadded.compiled ?_ file
    exact Nat.zero_lt_of_lt (Tree.lt_size_of_ident hadded.named)
  · rw [herror] at h
    cases h

theorem WellFormed.of_sample : ∃ c, ofElement Sample.setting Sample.file Sample.stack = .ok c ∧
    c.WellFormed := by
  have hsome : (ofElement Sample.setting Sample.file Sample.stack).toOption.isSome = true := by
    decide +kernel
  cases h : ofElement Sample.setting Sample.file Sample.stack with
  | error e =>
    rw [h] at hsome
    cases hsome
  | ok c => exact ⟨c, rfl, WellFormed.of_ofElement h⟩

/-- Every constraint of a compilation belongs to the deepest named node above those that take part
in it, which never is a node that only holds children; and no compilation fails because of a
constraint. -/
theorem hosts_of_ofElement (setting : Setting α) (file : String) (root : Element) :
    (∀ c, ofElement setting file root = .ok c →
      (∃ hosts, c.tree.hosted = .ok hosts) ∧
      ∀ k ∈ c.tree.constraints, (∀ m ∈ k.participants, (c.tree.node m).ident.isSome) ∧
        ∃ x, c.tree.host k = .ok x ∧ c.tree.IsDeepest k x ∧ (c.tree.node x).holder = false) ∧
    ∀ e, ofElement setting file root = .error e → e.isLayout = false := by
  rcases ofElement_cases setting file root with ⟨child, s, -, hadded, hok⟩ | ⟨e, herror, hlayout⟩
  · have hl := hadded.compiled.linked
    refine ⟨fun c hc => ?_, fun e he => ?_⟩
    · rw [hok] at hc
      obtain rfl := Except.ok.inj hc
      have hhost : ∀ k ∈ s.tree.constraints, ∃ x, s.tree.Anchored k x := by
        intro k hk
        obtain ⟨x, ha, -⟩ := hadded.compiled.settled k hk
        exact ⟨x, ha⟩
      refine ⟨hosted_of_hosts fun k hk => ?_, fun k hk => ?_⟩
      · obtain ⟨x, ha⟩ := hhost k hk
        exact ⟨x, ha.host_eq hl⟩
      · obtain ⟨x, ha⟩ := hhost k hk
        exact ⟨ha.named, x, ha.host_eq hl, ha.isDeepest hl, hl.holder_of_ident ha.host_named⟩
    · rw [hok] at he
      cases he
  · refine ⟨fun c hc => ?_, fun e' he' => ?_⟩
    · rw [herror] at hc
      cases hc
    · rw [herror] at he'
      exact Except.error.inj he' ▸ hlayout

theorem hosts_of_sample : ∃ c, ofElement Sample.setting Sample.file Sample.stack = .ok c ∧
    c.tree.constraints ≠ [] ∧ ∀ k ∈ c.tree.constraints,
      ∃ x, c.tree.host k = .ok x ∧ c.tree.IsDeepest k x ∧ (c.tree.node x).holder = false := by
  have hsome : (ofElement Sample.setting Sample.file Sample.stack).toOption.any
      (fun c => !c.tree.constraints.isEmpty) = true := by
    decide +kernel
  cases h : ofElement Sample.setting Sample.file Sample.stack with
  | error e =>
    rw [h] at hsome
    cases hsome
  | ok c =>
    rw [h] at hsome
    have hhosts := (hosts_of_ofElement Sample.setting Sample.file Sample.stack).1 c h
    refine ⟨c, rfl, fun hnil => ?_, fun k hk => (hhosts.2 k hk).2⟩
    simp [Except.toOption, hnil] at hsome

end Compilation

end LayoutCompiler
