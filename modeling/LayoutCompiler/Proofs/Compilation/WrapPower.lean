import LayoutCompiler.Proofs.Compilation.Confinement
import LayoutCompiler.Proofs.Layout.Grips
/-!
# Elements that wrap their content

How strongly the nodes of an element hold on to their content in a finished tree. An element that
wraps its content on an axis is the weaker the more elements around it do so, too. How its nodes
hold on is written when its attributes have been applied; nothing that comes later changes it, since
the elements inside it and beside it are written behind its nodes, and layouts change no grip.

* `grip_of_opening`: how the nodes of an element hold on to their content.
* `spans_steady`: nothing that comes later changes that.
* `Visits.depth_eq`: the depth that is counted on the way down is the number of elements around.
* `gripped_of_ofElement`: how all nodes of a finished tree hold on to their content.
-/

namespace LayoutCompiler

open Layout (grip evenGrip Steady)

variable {α : Type}

/-! ## Elements that wrap their content -/

/-- The attribute for the size of an element on an axis. -/
def sizeName : Axis → String
  | .horizontal => "android:layout_width"
  | .vertical => "android:layout_height"

/-- Whether an element is to be as large as its content on an axis. -/
def Frame.wraps (f : Frame) (axis : Axis) : Bool :=
  f.attributes.get? (sizeName axis) = some "wrap_content"

/-- How strongly an element holds on to its content if it wraps it: the weaker, the more elements
around it wrap their content on the same axis. -/
def Scope.power (s : Scope) (axis : Axis) : Nat :=
  max 1 (998 - 2 * s.around.countP (·.wraps axis))

namespace Scope

@[simp] theorem here_enter (around : Option Scope) (f : Frame) :
    (Scope.enter around f).here = f := by
  cases around <;> rfl

theorem power_eq (s : Scope) (axis : Axis) :
    s.power axis = Layout.wrapPower (s.around.countP (·.wraps axis)) := rfl

theorem power_bounds (s : Scope) (axis : Axis) : 1 ≤ s.power axis ∧ s.power axis ≤ 998 := by
  unfold power
  omega

/-- An element is weaker than one around it that wraps its content, unless it is as weak as can
be. -/
theorem power_lt {s s' : Scope} {axis : Axis} (h : s'.frames <:+ s.around)
    (hwraps : s'.here.wraps axis = true) : s.power axis < s'.power axis ∨ s.power axis = 1 := by
  obtain ⟨between, heq⟩ := h
  have hcount : s.around.countP (·.wraps axis) =
      between.countP (·.wraps axis) + (s'.around.countP (·.wraps axis) + 1) := by
    rw [← heq, List.countP_append]
    show _ + (s'.here :: s'.around).countP (·.wraps axis) = _
    rw [List.countP_cons, if_pos hwraps]
  unfold power
  omega

end Scope

section

variable [Scalar α] {resources : ResourceTable α} {attributes : Attributes}

theorem isWrapContent_of_readSize {name : String} {size : BoxSize α}
    (h : Params.readSize resources attributes name = .ok size) :
    size.isWrapContent = decide (attributes.get? name = some "wrap_content") := by
  unfold Params.readSize at h
  split at h
  case h_5 raw _ _ hother hget =>
    -- any other text states a length, or nothing
    rw [hget, decide_eq_false fun heq => hother (Option.some.inj heq)]
    cases hlength : resources.dimension? raw with
    | error e =>
      rw [hlength] at h
      cases h
    | ok length =>
      rw [hlength] at h
      cases length <;> cases h <;> rfl
  all_goals
    rename_i hget
    cases h
    rw [hget]
    rfl

theorem isWrapContent_of_read {params : Params α}
    (h : Params.read resources attributes = .ok params) (axis : Axis) :
    (params.size axis).isWrapContent =
      decide (attributes.get? (sizeName axis) = some "wrap_content") := by
  unfold Params.read at h
  obtain ⟨width, hwidth, h⟩ := bind_eq_ok_iff.1 h
  obtain ⟨height, hheight, h⟩ := bind_eq_ok_iff.1 h
  obtain ⟨minWidth, -, h⟩ := bind_eq_ok_iff.1 h
  obtain ⟨minHeight, -, h⟩ := bind_eq_ok_iff.1 h
  obtain ⟨margin, -, h⟩ := bind_eq_ok_iff.1 h
  obtain ⟨padding, -, h⟩ := bind_eq_ok_iff.1 h
  cases h
  cases axis with
  | horizontal => exact isWrapContent_of_readSize hwidth
  | vertical => exact isWrapContent_of_readSize hheight

end

namespace Compile

variable [Scalar α] {setting : Setting α} {file : String} {e : Element} {around : Option Scope}
  {parent : Option Nat} {depth : WrapDepth} {p : Prepared α} {placed : Placed} {s s' : Pass α}
  {t : Tree α}

/-- An element wraps its content as its attributes together with its styles say. -/
theorem wraps_of_prepare (h : prepare setting file e around = .ok p) (axis : Axis) :
    (p.params.size axis).isWrapContent = p.scope.here.wraps axis := by
  obtain ⟨merged, -, -, hparams, hscope⟩ := run_prepare h
  rw [isWrapContent_of_read hparams, hscope, Scope.here_enter]
  rfl

/-! ## Nodes that hold on to their content -/

omit [Scalar α] in
/-- The tree where the nodes of an element hold on to their content on an axis, if it wraps it. -/
def hold (p : Prepared α) (placed : Placed) (depth : WrapDepth) (t : Tree α) (axis : Axis) :
    Tree α :=
  if (p.params.size axis).isWrapContent then
    let outer := Layout.applyWrapPower t placed.outer axis (depth.on axis)
    if placed.inner = placed.outer then outer
    else Layout.applyWrapPower outer placed.inner axis (depth.on axis)
  else t

omit [Scalar α] in
theorem size_hold (p : Prepared α) (placed : Placed) (depth : WrapDepth) (t : Tree α)
    (axis : Axis) : (hold p placed depth t axis).size = t.size := by
  unfold hold
  split
  · split
    · exact (decorates_applyWrapPower _ _ _ _).size
    · exact ((decorates_applyWrapPower _ _ _ _).trans (decorates_applyWrapPower _ _ _ _)).size
  · rfl

omit [Scalar α] in
/-- Both nodes of an element hold on to their content alike. -/
theorem grip_hold (houter : placed.outer < t.size) (hinner : placed.inner < t.size) {x : Nat}
    (hx : x ∈ [placed.outer, placed.inner]) (axis axis' : Axis) :
    grip ((hold p placed depth t axis).node x) axis' =
      if axis' = axis ∧ (p.params.size axis).isWrapContent = true then
        evenGrip (Layout.wrapPower (depth.on axis))
      else grip (t.node x) axis' := by
  have hout := Layout.grip_applyWrapPower houter axis (depth.on axis) x axis'
  have hin := Layout.grip_applyWrapPower
    ((decorates_applyWrapPower t placed.outer axis (depth.on axis)).size.symm ▸ hinner)
    axis (depth.on axis) x axis'
  unfold hold
  -- the outer node is written first and then the inner one, unless they are the same
  by_cases hwraps : (p.params.size axis).isWrapContent = true
  · rw [if_pos hwraps]
    by_cases hsame : placed.inner = placed.outer
    · have hxo : x = placed.outer := by simpa [hsame] using hx
      dsimp only
      rw [if_pos hsame, hout]
      simp [hxo, hwraps]
    · dsimp only
      rw [if_neg hsame, hin, hout]
      rcases List.mem_pair.1 hx with rfl | rfl
      · simp [hwraps, Ne.symm hsame]
      · simp [hwraps, hsame]
  · rw [if_neg hwraps, if_neg fun h => hwraps h.2]

omit [Scalar α] in
/-- Once a node holds on to its content on an axis, nothing that is written on other axes changes
that. -/
theorem grip_foldl_hold (houter : placed.outer < t.size) (hinner : placed.inner < t.size) {x : Nat}
    (hx : x ∈ [placed.outer, placed.inner]) {axis : Axis}
    (hwraps : (p.params.size axis).isWrapContent = true) (axes : List Axis)
    (h : axis ∈ axes ∨ grip (t.node x) axis = evenGrip (Layout.wrapPower (depth.on axis))) :
    grip ((axes.foldl (hold p placed depth) t).node x) axis =
      evenGrip (Layout.wrapPower (depth.on axis)) := by
  induction axes generalizing t with
  | nil => exact h.resolve_left List.not_mem_nil
  | cons a as ih =>
    have hsize := size_hold p placed depth t a
    have hgrip : grip ((hold p placed depth t a).node x) axis = _ :=
      grip_hold houter hinner hx a axis
    rw [List.foldl_cons]
    refine ih (hsize.symm ▸ houter) (hsize.symm ▸ hinner) ?_
    -- a later round is about another axis and leaves this one as it is
    by_cases ha : axis = a
    · subst ha
      rw [if_pos ⟨rfl, hwraps⟩] at hgrip
      exact Or.inr hgrip
    · rw [if_neg fun hpair => ha hpair.1] at hgrip
      rcases h with h | h
      · exact Or.inl ((List.mem_cons.1 h).resolve_left ha)
      · exact Or.inr (hgrip.trans h)

omit [Scalar α] in
/-- A loop whose rounds only change the tree changes it round by round. -/
theorem run_changes {γ : Type} (xs : List γ) (f : Tree α → γ → Tree α)
    (body : γ → PUnit → Compile α (ForInStep PUnit))
    (hbody : ∀ x s, body x ⟨⟩ s = .ok (.yield ⟨⟩, { s with tree := f s.tree x })) (s : Pass α) :
    (forIn xs PUnit.unit body : Compile α PUnit) s =
      .ok (⟨⟩, { s with tree := xs.foldl f s.tree }) := by
  induction xs generalizing s with
  | nil => rfl
  | cons x xs ih =>
    rw [List.forIn_cons]
    show (body x ⟨⟩ s >>= _) = _
    rw [hbody]
    exact ih _

omit [Scalar α] in
theorem run_holdContent (htarget : setting.options.target.usesConstraints = true)
    (depth : WrapDepth) :
    holdContent setting p placed depth s =
      .ok ((), { s with tree := Axis.both.foldl (hold p placed depth) s.tree }) := by
  unfold holdContent
  rw [if_pos htarget]
  refine congrArg (· >>= _) (run_changes Axis.both (hold p placed depth) _ (fun axis s => ?_) s)
  unfold hold
  split
  · by_cases hsame : placed.inner = placed.outer
    · rw [if_pos hsame, if_neg (not_not.2 hsame)]
      rfl
    · rw [if_neg hsame, if_pos hsame]
      rfl
  · rfl

/-- When an element that wraps its content has been opened, its nodes hold on to it. -/
theorem grip_of_opening (htarget : setting.options.target.usesConstraints = true)
    (h : opening setting file e around parent depth s = .ok ((p, placed), s')) {x : Nat}
    (hx : x ∈ [placed.outer, placed.inner]) :
    x < s'.tree.size ∧ ∀ axis, (p.params.size axis).isWrapContent = true →
      grip (s'.tree.node x) axis = evenGrip (Layout.wrapPower (depth.on axis)) := by
  obtain ⟨-, s₁, s₂, hmake, hdeclare, hhold⟩ := run_opening h
  obtain ⟨-, hle, hlt⟩ := make_planted hmake
  -- declaring an outlet comes in between and does not touch the tree
  have htree : s₂.tree = s₁.tree := by
    refine leads_declareOutlet (R := fun s s' => s'.tree = s.tree)
      ⟨fun _ => rfl, fun h h' => h'.trans h⟩ (fun _ _ => rfl) p placed _ _ _ hdeclare
  rw [run_holdContent htarget] at hhold
  cases hhold
  have hinner : placed.inner < s₂.tree.size := htree.symm ▸ hlt
  have houter : placed.outer < s₂.tree.size := Nat.lt_of_le_of_lt hle hinner
  have hsize : (Axis.both.foldl (hold p placed depth) s₂.tree).size = s₂.tree.size :=
    (size_hold p placed depth _ _).trans (size_hold p placed depth _ _)
  refine ⟨hsize.symm ▸ ?_, fun axis hwraps => ?_⟩
  · rcases List.mem_pair.1 hx with rfl | rfl
    · exact houter
    · exact hinner
  · refine grip_foldl_hold houter hinner hx hwraps Axis.both (Or.inl ?_)
    cases axis <;> decide

/-! ## Later steps -/

/-- Nothing that is done after an element has been opened changes how its nodes hold on. -/
theorem spans_steady (setting : Setting α) (file : String) :
    Spans setting file fun s s' => Steady s.tree s'.tree where
  refl s := Steady.refl s.tree
  trans := Steady.trans
  opening e around parent depth := by
    rintro s ⟨p, placed⟩ s' h
    exact Steady.plant (opening_planted h)
  arrange p placed children := by
    intro s _ s' h
    rcases run_arrangeChildren h with rfl | ⟨-, b, added, t, -, harrange, rfl⟩
    · exact Steady.refl s'.tree
    · have hsteady := (Layout.layable_steady b).arrange (containerOf p.chain) placed.inner p.params
        children s.tree
      rwa [harrange] at hsteady

end Compile

/-! ## Elements and those around them -/

/-- An element of a layout, below the elements of a list: it is a child of the first of them, this
one a child of the second, and the last one is the root. -/
inductive Lineage (root : Element) : List Element → Element → Prop
  | root : Lineage root [] root
  | child {line : List Element} {e e' : Element} (h : Lineage root line e)
    (hmem : e' ∈ e.children) : Lineage root (e :: line) e'

namespace Compilation

variable [Scalar α] {setting : Setting α} {file : String} {root e : Element}
  {around : Option Scope} {parent : Option Nat} {depth : WrapDepth} {p : Prepared α}
  {placed : Placed} {children : List (Child α)} {s : Pass α} {c : Compilation α}

/-- On the way down it is counted how many of the elements around wrap their content. -/
theorem Visits.depth_eq (hv : Visits setting file root e around parent depth s) (f : Frame)
    (axis : Axis) : depth.on axis = (Scope.enter around f).around.countP (·.wraps axis) := by
  induction hv generalizing f with
  | root => cases axis <;> rfl
  | @child e e' around parent depth s s₁ s₂ p placed before after done hv hopening hsplit hbefore
    ih =>
    obtain ⟨hprepare, -⟩ := Compile.run_opening hopening
    obtain ⟨merged, -, -, -, hscope⟩ := Compile.run_prepare hprepare
    have hinside : (depth.inside p.params).on axis = depth.on axis +
        if (p.params.size axis).isWrapContent = true then 1 else 0 := by
      cases axis <;> rfl
    show _ = (p.scope.here :: p.scope.around).countP (·.wraps axis)
    rw [hinside, Compile.wraps_of_prepare hprepare, List.countP_cons,
      ih { element := e, attributes := merged }, ← hscope]

/-- The elements around an element are seen with their styles, as it is itself. -/
theorem Visits.merged (hv : Visits setting file root e around parent depth s) (f : Frame) :
    ∀ f' ∈ (Scope.enter around f).around,
      setting.resources.styles.merge f'.element.attributes = .ok f'.attributes := by
  induction hv generalizing f with
  | root => exact fun f' hf' => absurd hf' List.not_mem_nil
  | @child e e' around parent depth s s₁ s₂ p placed before after done hv hopening hsplit hbefore
    ih =>
    obtain ⟨hprepare, -⟩ := Compile.run_opening hopening
    obtain ⟨merged, hmerged, -, -, hscope⟩ := Compile.run_prepare hprepare
    have hhere : p.scope.here = { element := e, attributes := merged } := by
      rw [hscope, Scope.here_enter]
    show ∀ f' ∈ p.scope.here :: p.scope.around, _
    rw [List.forall_mem_cons]
    refine ⟨by rw [hhere]; exact hmerged, ?_⟩
    have habove := ih { element := e, attributes := merged }
    rwa [← hscope] at habove

/-- Every element of a layout is visited, below the elements that are around it. -/
theorem exists_visits_of_lineage {line : List Element} (h : ofElement setting file root = .ok c)
    (hl : Lineage root line e) :
    ∃ around parent depth s, Visits setting file root e around parent depth s ∧
      ∀ f, (Scope.enter around f).around.map (·.element) = line := by
  induction hl with
  | root => exact ⟨none, none, {}, _, .root, fun _ => rfl⟩
  | @child line e e' _ hmem ih =>
    obtain ⟨around, parent, depth, s, hv, hline⟩ := ih
    obtain ⟨p, placed, s₁, s₂, hopening, hv'⟩ := hv.exists_child h hmem
    obtain ⟨merged, -, -, -, hscope⟩ := Compile.run_prepare (Compile.run_opening hopening).1
    refine ⟨some p.scope, _, _, s₂, hv', fun f => ?_⟩
    show p.scope.frames.map (·.element) = e :: line
    unfold Scope.frames
    rw [hscope, List.map_cons, Scope.here_enter, hline]

/-! ## Finished trees -/

/-- How a tree has the nodes of an element hold on to its content on an axis. -/
structure Gripped (t : Tree α) (scope : Scope) (placed : Placed) (axis : Axis) : Prop where
  outer : grip (t.node placed.outer) axis = evenGrip (scope.power axis)
  inner : grip (t.node placed.inner) axis = evenGrip (scope.power axis)
  bounds : 1 ≤ scope.power axis ∧ scope.power axis ≤ 998
  /-- The element is weaker than those around it that wrap their content, too. -/
  weaker : ∀ above : Scope, above.frames <:+ scope.around → above.here.wraps axis = true →
    scope.power axis < above.power axis ∨ scope.power axis = 1

/-- Every element of a layout is visited below those around it, all of them with their styles; and
if it wraps its content on an axis, then both of its nodes hold on to it in the finished tree, by
two less for each of the elements around it that do so, too, but never by less than one. -/
theorem gripped_of_ofElement (h : ofElement setting file root = .ok c)
    (htarget : setting.options.target.usesConstraints = true) :
    (∀ line e, Lineage root line e → ∃ p placed children,
      Visited setting file root e p placed children ∧ p.scope.around.map (·.element) = line) ∧
    ∀ e p placed children, Visited setting file root e p placed children →
      p.scope.here.element = e ∧
      (∀ f ∈ p.scope.frames,
        setting.resources.styles.merge f.element.attributes = .ok f.attributes) ∧
      ∀ axis, p.scope.here.wraps axis = true → Gripped c.tree p.scope placed axis := by
  refine ⟨fun line e hl => ?_, fun e p placed children hv => ?_⟩
  · obtain ⟨around, parent, depth, s, hv, hline⟩ := exists_visits_of_lineage h hl
    obtain ⟨p, placed, s₁, children, s₂, hopening, -, hvisited⟩ := hv.visited h
    obtain ⟨merged, -, -, -, hscope⟩ := Compile.run_prepare (Compile.run_opening hopening).1
    exact ⟨p, placed, children, hvisited, hscope ▸ hline _⟩
  · obtain ⟨around, parent, depth, s, s₁, s₂, hv, hopening, -⟩ := hv
    obtain ⟨merged, hmerged, -, -, hscope⟩ := Compile.run_prepare (Compile.run_opening hopening).1
    have hprepare := (Compile.run_opening hopening).1
    have hhere : p.scope.here = { element := e, attributes := merged } := by
      rw [hscope, Scope.here_enter]
    obtain ⟨top, last, hroot, -, rfl⟩ := exists_pass h
    have hsteady : Steady s₁.tree last.tree :=
      hv.leads_of_opening (Compile.spans_steady setting file) hroot hopening
    refine ⟨by rw [hhere], ?_, fun axis hwraps => ?_⟩
    · unfold Scope.frames
      rw [List.forall_mem_cons, hhere]
      exact ⟨hmerged, hscope ▸ hv.merged _⟩
    · -- how the nodes hold on when they have been made, is how they do in the end
      have hgrip : ∀ x ∈ [placed.outer, placed.inner],
          grip (last.tree.node x) axis = evenGrip (p.scope.power axis) := by
        intro x hx
        obtain ⟨hlt, hheld⟩ := Compile.grip_of_opening htarget hopening hx
        rw [hsteady.grip x hlt axis,
          hheld axis ((Compile.wraps_of_prepare hprepare axis).trans hwraps),
          hv.depth_eq { element := e, attributes := merged } axis, ← hscope, Scope.power_eq]
      exact
        { outer := hgrip _ (by simp)
          inner := hgrip _ (by simp)
          bounds := p.scope.power_bounds axis
          weaker := fun _ habove => Scope.power_lt habove }

end Compilation

namespace Sample

/-- A wrapped element inside of one that is as large as its parent, which wraps its content. -/
def box : Element :=
  { tag := "LinearLayout"
    attributes := SortedMap.ofList
      [("android:layout_width", "wrap_content"), ("android:padding", "4dp")] }

def row : Element :=
  { tag := "LinearLayout"
    attributes := SortedMap.ofList [("android:layout_width", "match_parent")]
    children := [box] }

def wrapping : Element :=
  { tag := "FrameLayout"
    attributes := SortedMap.ofList [("android:layout_width", "wrap_content")]
    children := [row] }

/-- Whether an element is written to be as wide as its content. -/
def isWide (e : Element) : Bool :=
  e.attributes.get? "android:layout_width" = some "wrap_content"

theorem lineage_box : Lineage wrapping [row, wrapping] box :=
  .child (.child .root List.mem_cons_self) List.mem_cons_self

/-- One of the two elements around the box wraps its content, too. -/
theorem gripped_box : ∃ c p placed children,
    Compilation.ofElement setting file wrapping = .ok c ∧
    Compilation.Visited setting file wrapping box p placed children ∧
    grip (c.tree.node placed.outer) .horizontal = (some "996", some "996") ∧
    grip (c.tree.node placed.inner) .horizontal = (some "996", some "996") := by
  have hok : (Compilation.ofElement setting file wrapping).toOption.isSome = true := by
    decide +kernel
  cases h : Compilation.ofElement setting file wrapping with
  | error e =>
    rw [h] at hok
    cases hok
  | ok c =>
    obtain ⟨hvisited, hgripped⟩ := Compilation.gripped_of_ofElement h rfl
    obtain ⟨p, placed, children, hv, hline⟩ := hvisited _ _ lineage_box
    obtain ⟨hhere, hmerged, hall⟩ := hgripped box p placed children hv
    -- none of the elements has a style, so that each is seen as it is written
    have hplain : ∀ e ∈ [box, row, wrapping],
        setting.resources.styles.merge e.attributes = .ok e.attributes := by
      simp only [List.forall_mem_cons]
      exact ⟨rfl, rfl, rfl, fun _ he => absurd he List.not_mem_nil⟩
    have hframes : p.scope.frames.map (·.element) = [box, row, wrapping] := by
      show p.scope.here.element :: p.scope.around.map (·.element) = _
      rw [hhere, hline]
    have hwraps : ∀ f ∈ p.scope.frames, f.wraps .horizontal = isWide f.element := by
      intro f hf
      have hmem : f.element ∈ [box, row, wrapping] := hframes ▸ List.mem_map_of_mem hf
      have hsame : f.element.attributes = f.attributes :=
        Except.ok.inj ((hplain _ hmem).symm.trans (hmerged f hf))
      unfold Frame.wraps isWide
      rw [hsame]
      rfl
    have hbox : p.scope.here.wraps .horizontal = true := by
      rw [hwraps _ List.mem_cons_self, hhere]
      decide +kernel
    have hcount : p.scope.around.countP (·.wraps .horizontal) = 1 := by
      have helements : p.scope.around.countP (·.wraps .horizontal) =
          (p.scope.around.map (·.element)).countP isWide := by
        rw [List.countP_map]
        refine List.countP_congr fun f hf => ?_
        rw [hwraps f (List.mem_cons_of_mem _ hf)]
        rfl
      rw [helements, hline]
      decide +kernel
    have hpower : evenGrip (p.scope.power .horizontal) = (some "996", some "996") := by
      unfold Scope.power
      rw [hcount]
      decide +kernel
    have hgrip := hall .horizontal hbox
    exact ⟨c, p, placed, children, rfl, hv, hgrip.outer.trans hpower, hgrip.inner.trans hpower⟩

end Sample

end LayoutCompiler
