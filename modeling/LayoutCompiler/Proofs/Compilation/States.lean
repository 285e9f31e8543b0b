import LayoutCompiler.Proofs.Compilation.Places
import LayoutCompiler.Proofs.Data.Relation
import LayoutCompiler.Proofs.Number.Rational
import LayoutCompiler.Proofs.Tree.Footprints
import LayoutCompiler.Proofs.Tree.Paths
import LayoutCompiler.Rule.Builtin.Ios
/-!
# States that are kept apart

A rule may write a value for each of its states, below a child that is found by the name of the
state. Emissions come one after the other, and each of them goes through all states, so that the
child for a state is found again and again while those for other states are made. Even so each
child is what the emissions make of it with the value that its state has, as if there were no other
states.

* `AttributeRule.PerState`: rules that write below one child for each state.
* `perState_buttonAttributes`: the built-in rules that do so.
* `Compile.emit_perState`: what such a rule does to the tree.
* `Compile.states_apart`: what there is below a node afterwards.
-/

namespace LayoutCompiler

/-! ## States of a value -/

section Values

variable {α β : Type}

theorem Selector.map_fst_declared (s : Selector β) :
    s.declared.map Prod.fst = Interaction.all.filter fun state => (s.own? state).isSome := by
  unfold declared
  rw [List.map_filterMap, ← List.filterMap_eq_filter]
  refine congrArg (List.filterMap · _) (funext fun state => ?_)
  cases hown : s.own? state <;> simp [Option.guard, hown]

theorem Selector.nodup_declared (s : Selector β) : (s.declared.map Prod.fst).Nodup := by
  rw [map_fst_declared]
  exact List.Nodup.filter _ (by decide)

/-- A value is declared once for a state. -/
theorem Value.nodup_stateValues (v : Value α) : (v.stateValues.map Prod.fst).Nodup := by
  have hdrawable : ∀ d : Drawable α, (d.stateValues.map Prod.fst).Nodup := by
    intro d
    cases d with
    | stateColor name s =>
      unfold Drawable.stateValues
      rw [List.map_map]
      exact s.nodup_declared
    | states name s => exact s.nodup_declared
    | _ => exact List.nodup_singleton _
  cases v with
  | drawable d =>
    unfold stateValues
    rw [List.map_map]
    exact hdrawable d
  | _ => exact List.nodup_singleton _

end Values

theorem Interaction.name_injective : Function.Injective Interaction.name := by
  intro state state' h
  cases state <;> cases state' <;> first | rfl | (revert h; decide)

/-! ## Rules -/

/-- The step to the child for a state. -/
def Interaction.step (name key : String) (state : Interaction) : PathStep :=
  { name, key := some (key, state.name) }

/-- The emissions of a rule write for each state. All of them go to the child with a name that has
the name of the state under a key; from there each goes on by steps of its own to an attribute of
its own. -/
structure AttributeRule.PerState (rule : AttributeRule) (name key : String)
    (rest : Emission → List PathStep × String) : Prop where
  nonempty : rule.emit ≠ []
  named : name ≠ "" ∧ '[' ∉ name.toList ∧ '/' ∉ name.toList
  keyed : key ≠ "" ∧ '=' ∉ key.toList ∧ '/' ∉ key.toList
  kind : ∀ e ∈ rule.emit, e.kind = .state
  path : ∀ e ∈ rule.emit, ∀ resolve, e.path.write resolve = AttributePath.text
    ⟨⟨name, some (key, (resolve "state").getD "")⟩ :: (rest e).1, some (rest e).2⟩
  steps : ∀ e ∈ rule.emit, ∀ step ∈ (rest e).1, step.Spells step.text ∧ '/' ∉ step.text.toList
  target : ∀ e ∈ rule.emit, (rest e).2 ≠ "" ∧ '/' ∉ (rest e).2.toList
  /-- At the child itself nothing is written under the key that it is found by. -/
  apart : ∀ e ∈ rule.emit, (rest e).1 = [] → (rest e).2 ≠ key

/-- A path with a hole where the name of the state stands. -/
theorem AttributePath.write_keyed {path : Template} {name key last : String}
    {steps : List PathStep} (h : path.parts = [.literal (name ++ "[" ++ key ++ "="), .hole "state",
      .literal ("]/" ++ text ⟨steps, some last⟩)]) (resolve : String → Option String) :
    path.write resolve =
      text ⟨⟨name, some (key, (resolve "state").getD "")⟩ :: steps, some last⟩ := by
  have hclosed : ∀ step : PathStep, text ⟨step :: steps, some last⟩ =
      step.text ++ "/" ++ text ⟨steps, some last⟩ := by
    intro step
    apply String.toList_inj.1
    unfold text stepsText
    simp [Text.toList_closed]
  rw [hclosed]
  unfold Template.write PathStep.text
  rw [h]
  apply String.toList_inj.1
  simp

/-- The steps behind the first one of a path that is written without the texts of its holes, and
the attribute. -/
def Emission.behind (e : Emission) : List PathStep × String :=
  match AttributePath.read (e.path.write fun _ => none) with
  | .ok ⟨steps, some last⟩ => (steps.tail, last)
  | _ => ([], "")

/-- What buttons show for their states is written below one child for each state. -/
theorem perState_buttonAttributes : ∀ rule ∈ Rule.Ios.buttonAttributes,
    (∃ e ∈ rule.emit, e.kind = .state) → rule.PerState "state" "key" Emission.behind := by
  intro rule hrule hstate
  -- the rules are a finite list, so what they emit is read off once
  have hemit : ∀ rule ∈ Rule.Ios.buttonAttributes, (∃ e ∈ rule.emit, e.kind = .state) →
      ∀ e ∈ rule.emit, e.kind = .state ∧
        e.path.parts = [.literal "state[key=", .hole "state",
          .literal ("]/" ++ AttributePath.text ⟨e.behind.1, some e.behind.2⟩)] ∧
        (∀ step ∈ e.behind.1, PathStep.read? step.text = some step ∧ '/' ∉ step.text.toList) ∧
        (e.behind.2 ≠ "" ∧ '/' ∉ e.behind.2.toList) ∧ e.behind.2 ≠ "key" := by
    decide +kernel
  exact
    { nonempty := List.ne_nil_of_mem hstate.choose_spec.1
      named := by decide
      keyed := by decide
      kind := fun e he => (hemit rule hrule hstate e he).1
      path := fun e he => AttributePath.write_keyed (hemit rule hrule hstate e he).2.1
      steps := fun e he step hstep => by
        obtain ⟨-, -, hsteps, -⟩ := hemit rule hrule hstate e he
        exact (hsteps step hstep).imp_left PathStep.read?_eq_some_iff.1
      target := fun e he => (hemit rule hrule hstate e he).2.2.2.1
      apart := fun e he _ => (hemit rule hrule hstate e he).2.2.2.2 }

/-- A branch that is made for a state is found by that state only. -/
theorem Branch.fits_fresh_step (name key : String) (state state' : Interaction) :
    (fresh (state.step name key)).fits (state'.step name key) = (state == state') := by
  rw [Bool.eq_iff_iff, beq_iff_eq]
  simp [fresh, fits, Tree.fits, Interaction.step, Interaction.name_injective.eq_iff]

namespace Compile

variable {α : Type} [Scalar α]

/-- The text of an emission for a state, rendered from the value of the state. -/
def stateText (setting : Setting α) (scope : Scope) (e : Emission) (state : Interaction)
    (own : Value α) : String :=
  (valueRendering setting own scope (SortedMap.singleton "state" state.name)).render e.template

/-- What an emission writes below the child for a state, from the value of that state. -/
def stateWriting (setting : Setting α) (scope : Scope) (rest : Emission → List PathStep × String)
    (state : Interaction) (own : Value α) (e : Emission) : Writing :=
  { steps := (rest e).1, key := (rest e).2, text := stateText setting scope e state own }

/-- What a rule makes of the child for a state, from the value of that state. -/
def stateBranch (setting : Setting α) (scope : Scope) (rule : AttributeRule) (name key : String)
    (rest : Emission → List PathStep × String) (state : Interaction) (own : Value α) : Branch :=
  (Branch.fresh (state.step name key)).after
    (rule.emit.map (stateWriting setting scope rest state own))

variable {setting : Setting α} {rule : AttributeRule} {name key : String}
  {rest : Emission → List PathStep × String} {node : Nat} {scope : Scope} {v : Value α}

/-! ## Running a rule -/

/-- One emission for one state writes below the child for the state. -/
theorem emitOne_perState (h : rule.PerState name key rest)
    (hfree : setting.options.overrides.get? "state" = none) {e : Emission} (he : e ∈ rule.emit)
    (state : Interaction) (own : Value α) :
    emitOne setting node scope (SortedMap.singleton "state" state.name) own e =
      edit (Tree.writeAttribute (rest e).2 (stateText setting scope e state own)
        (state.step name key :: (rest e).1) node) := by
  -- the step of a state is spelled by its own name under the key, and holds no slash
  have hstate : (state.step name key).Spells (state.step name key).text :=
    .keyed h.named.1 h.named.2.1 h.keyed.1 h.keyed.2.1
  have hslash : '/' ∉ (state.step name key).text.toList := by
    have hname : '/' ∉ state.name.toList := by cases state <;> decide
    unfold PathStep.text Interaction.step
    simp [h.named.2.2, h.keyed.2.2, hname]
  have hpath := h.path e he
    (valueRendering setting own scope (SortedMap.singleton "state" state.name)).resolve?
  rw [Emission.resolve?_state hfree, Option.getD_some] at hpath
  -- the rendered path is the text of a path, which is read back as that path
  have hread : AttributePath.read
      ((valueRendering setting own scope (SortedMap.singleton "state" state.name)).render e.path) =
        .ok ⟨state.step name key :: (rest e).1, some (rest e).2⟩ := by
    refine (congrArg AttributePath.read hpath).trans ?_
    refine AttributePath.read_text ?_ ?_ (h.target e he).1 (h.target e he).2
    · exact List.forall_mem_cons.2 ⟨hstate, fun step hstep => (h.steps e he step hstep).1⟩
    · exact List.forall_mem_cons.2 ⟨hslash, fun step hstep => (h.steps e he step hstep).2⟩
  unfold emitOne emission
  simp only [h.kind e he, hread]
  rfl

omit [Scalar α] in
/-- Steps that only change the tree make a loop that only changes the tree. -/
theorem forM_eq_edit {γ : Type} {xs : List γ} {body : γ → Compile α PUnit}
    {step : γ → Edit α PUnit} (h : ∀ x ∈ xs, body x = edit (step x)) :
    xs.forM body = edit (xs.forM step) := by
  induction xs with
  | nil => rfl
  | cons x xs ih =>
    obtain ⟨hx, hxs⟩ := List.forall_mem_cons.1 h
    exact congrArg₂ Bind.bind hx (funext fun _ => ih hxs)

/-- A rule writes emission by emission, and for each of them state by state. -/
theorem emit_perState (h : rule.PerState name key rest)
    (hfree : setting.options.overrides.get? "state" = none) (node : Nat) (scope : Scope)
    (v : Value α) : rule.emit.forM (emit setting node scope v) =
      edit (rule.emit.forM fun e => v.stateValues.forM fun x =>
        Tree.writeAttribute (rest e).2 (stateText setting scope e x.1 x.2)
          (x.1.step name key :: (rest e).1) node) := by
  refine forM_eq_edit fun e he => ?_
  unfold emit
  simp only [h.kind e he]
  exact forM_eq_edit fun x _ => emitOne_perState h hfree he x.1 x.2

theorem fits_stateBranch (h : rule.PerState name key rest) (state state' : Interaction)
    (own : Value α) :
    (stateBranch setting scope rule name key rest state own).fits (state'.step name key) =
      (state == state') := by
  refine (Branch.fits_after fun w hw hsteps entry hentry => ?_).trans
    (Branch.fits_fresh_step name key state state')
  obtain ⟨e, he, rfl⟩ := List.mem_map.1 hw
  cases hentry
  exact Ne.symm (h.apart e he hsteps)

/-- Below the node there are the branches for the states, each made from the value of its state. -/
theorem bears_perState (h : rule.PerState name key rest) (setting : Setting α) (scope : Scope)
    (v : Value α) {t : Tree α} (hnode : node < t.size)
    (hchildren : ∀ c ∈ (t.node node).children, c < t.size ∧ (t.node c).name ≠ name) :
    Ensures (rule.emit.forM fun e => v.stateValues.forM fun x =>
        Tree.writeAttribute (rest e).2 (stateText setting scope e x.1 x.2)
          (x.1.step name key :: (rest e).1) node) t fun _ t' =>
      t.Bears t' node (v.stateValues.map fun x =>
        stateBranch setting scope rule name key rest x.1 x.2) := by
  have hpassed : ∀ state : Interaction, ∀ c ∈ (t.node node).children,
      c < t.size ∧ Tree.fits (t.node c) (state.step name key) = false := by
    intro state c hc
    refine ⟨(hchildren c hc).1, Bool.eq_false_iff.2 fun hfits => ?_⟩
    unfold Tree.fits at hfits
    rw [Bool.and_eq_true, decide_eq_true_eq] at hfits
    exact (hchildren c hc).2 hfits.1
  have hround : ∀ e bs t₁, t.Bears t₁ node bs →
      Ensures (v.stateValues.forM fun x => Tree.writeAttribute (rest e).2
          (stateText setting scope e x.1 x.2) (x.1.step name key :: (rest e).1) node) t₁
        fun _ t' => t.Bears t' node (v.stateValues.foldl (fun bs x =>
          Branch.graft (x.1.step name key) (Branch.write (rest e).2
            (stateText setting scope e x.1 x.2) (rest e).1) bs) bs) := by
    intro e bs t₁ h₁
    refine Ensures.forM (I := fun bs t' => t.Bears t' node bs) (fun x _ bs t₂ h₂ => ?_) h₁
    rw [Tree.writeAttribute_cons]
    exact h₂.graft (Tree.reshapes_writeAttribute _ _ _) (hpassed x.1)
  -- both loops together follow folds of branches that do not mix
  have hrounds := Ensures.forM (I := fun bs t' => t.Bears t' node bs)
    (fun e (_ : e ∈ rule.emit) bs t₁ h₁ => hround e bs t₁ h₁) (Tree.bears_nil hnode)
  rw [Branch.foldl_graft h.nonempty] at hrounds
  · simpa only [stateBranch, stateWriting, Branch.after, List.foldl_map] using hrounds
  · refine fun e he x b y => Branch.fits_write fun hsteps entry hentry => ?_
    cases hentry
    exact Ne.symm (h.apart e he hsteps)
  · refine (List.pairwise_map.1 v.nodup_stateValues).imp fun hne => ?_
    rw [Branch.fits_fresh_step]
    exact beq_false_of_ne hne

/-! ## Main statement -/

/-- What a rule has come to below a node, and that it has changed nothing else. -/
structure StatesApart (setting : Setting α) (scope : Scope) (rule : AttributeRule)
    (name key : String) (rest : Emission → List PathStep × String) (v : Value α) (node : Nat)
    (t t' : Tree α) : Prop where
  /-- A state that is declared has one child, which is what the rule makes of its own value. -/
  one : ∀ state own, (state, own) ∈ v.stateValues → ∃ id taken,
    (t'.node node).children.filter (fun c => Tree.fits (t'.node c) (state.step name key)) = [id] ∧
    t'.Stands node id (stateBranch setting scope rule name key rest state own) taken
  /-- Another state has none. -/
  none : ∀ state, state ∉ v.stateValues.map Prod.fst →
    (t'.node node).children.filter (fun c => Tree.fits (t'.node c) (state.step name key)) = []
  /-- There are no other children of the name. -/
  named : ∀ c ∈ (t'.node node).children, (t'.node c).name = name →
    ∃ x ∈ v.stateValues, Tree.fits (t'.node c) (x.1.step name key) = true
  /-- The attributes below the child for a state are those by which nodes are found, and those that
  the emissions render from the value of the state. -/
  entries : ∀ state own, (state, own) ∈ v.stateValues → ∀ entry,
    entry ∈ (stateBranch setting scope rule name key rest state own).entries →
      entry = (key, state.name) ∨ ∃ e ∈ rule.emit,
        entry = ((rest e).2, stateText setting scope e state own) ∨
          ∃ step ∈ (rest e).1, step.key = some entry
  /-- Each emission has written its attribute, unless a later one writes one of the same name. -/
  written : ∀ state own, (state, own) ∈ v.stateValues → ∀ before e behind,
    rule.emit = before ++ e :: behind → (∀ e' ∈ behind, (rest e').2 ≠ (rest e).2) →
      ((rest e).2, stateText setting scope e state own) ∈
        (stateBranch setting scope rule name key rest state own).entries
  /-- It is where the steps of the emission lead, also when a later one writes one of the same name
  where other steps lead, as long as nothing is written under the keys of the steps. -/
  found : ∀ state own, (state, own) ∈ v.stateValues → ∀ before e behind,
    rule.emit = before ++ e :: behind →
    (∀ e' ∈ behind, (rest e').2 ≠ (rest e).2 ∨ PathStep.diverge (rest e).1 (rest e').1 = true) →
    (∀ e' ∈ e :: behind, ∀ step ∈ (rest e).1, ∀ entry ∈ step.key, entry.1 ≠ (rest e').2) →
      (stateBranch setting scope rule name key rest state own).read? (rest e).2 (rest e).1 =
        some (stateText setting scope e state own)
  /-- The children that there were are still there, in front. -/
  kept : ∃ ids, t'.node node = { t.node node with children := (t.node node).children ++ ids }
  others : ∀ x < t.size, x ≠ node → t'.node x = t.node x

omit [Scalar α] in
/-- Of entries with different keys one only has the key of a given one. -/
theorem filter_fst_eq {xs : List (Interaction × Value α)} {x : Interaction × Value α}
    (hnodup : (xs.map Prod.fst).Nodup) (hx : x ∈ xs) : xs.filter (·.1 == x.1) = [x] := by
  obtain ⟨before, behind, rfl⟩ := List.append_of_mem hx
  have hothers : ∀ ys : List (Interaction × Value α), x.1 ∉ ys.map Prod.fst →
      ys.filter (·.1 == x.1) = [] := by
    refine fun ys hys => List.filter_eq_nil_iff.2 fun y hy heq => hys ?_
    exact List.mem_map.2 ⟨y, hy, beq_iff_eq.1 heq⟩
  rw [List.map_append, List.map_cons, List.nodup_middle, List.nodup_cons, List.mem_append, not_or]
    at hnodup
  rw [List.filter_append, hothers _ hnodup.1.1, List.filter_cons, if_pos (beq_self_eq_true x.1),
    hothers _ hnodup.1.2]
  rfl

section Bears

variable {t t' : Tree α}

omit [Scalar α] in
/-- The children that there were are none of those for states. -/
theorem name_ne_of_bears {bs : List Branch} (hbears : t.Bears t' node bs) {c : Nat}
    (hchild : c < t.size ∧ (t.node c).name ≠ name) : (t'.node c).name ≠ name := by
  obtain ⟨_, hkept⟩ := hbears.old hchild.1
  rw [hkept]
  exact hchild.2

/-- The children for a state stand for the values that are declared for it. -/
theorem forall₂_filter_of_bears (h : rule.PerState name key rest)
    (hchildren : ∀ c ∈ (t.node node).children, c < t.size ∧ (t.node c).name ≠ name)
    (hbears : t.Bears t' node (v.stateValues.map fun x =>
      stateBranch setting scope rule name key rest x.1 x.2)) (state : Interaction) :
    List.Forall₂
      (fun id x => ∃ own,
        t'.Stands node id (stateBranch setting scope rule name key rest x.1 x.2) own)
      ((t'.node node).children.filter fun c => Tree.fits (t'.node c) (state.step name key))
      (v.stateValues.filter (·.1 == state)) := by
  -- no child of before has the name, so all that fit are among the new ones
  have hnone : (t.node node).children.filter
      (fun c => Tree.fits (t'.node c) (state.step name key)) = [] := by
    refine List.filter_eq_nil_iff.2 fun c hc hfits => ?_
    unfold Tree.fits at hfits
    rw [Bool.and_eq_true, decide_eq_true_eq] at hfits
    exact name_ne_of_bears hbears (hchildren c hc) hfits.1
  obtain ⟨ids, own, hself, hstands, -, -⟩ := hbears
  rw [hself, List.filter_append, hnone, List.nil_append]
  refine List.rel_filter ?_ (List.forall₂_map_right_iff.1 hstands.forall₂)
  rintro id x ⟨own, hstands⟩
  show Tree.fits (t'.node id) (state.step name key) = true ↔ (x.1 == state) = true
  rw [hstands.fits_eq, fits_stateBranch h]

theorem statesApart_of_bears (h : rule.PerState name key rest)
    (hchildren : ∀ c ∈ (t.node node).children, c < t.size ∧ (t.node c).name ≠ name)
    (hbears : t.Bears t' node (v.stateValues.map fun x =>
      stateBranch setting scope rule name key rest x.1 x.2)) :
    StatesApart setting scope rule name key rest v node t t' := by
  have hfilter := forall₂_filter_of_bears h hchildren hbears
  have hbranches := hbears
  obtain ⟨ids, own, hself, hstands, -, hreshaped⟩ := hbranches
  refine
    { one := fun state own hmem => ?_
      none := fun state hstate => ?_
      named := fun c hc hname => ?_
      entries := fun state own hmem entry hentry => ?_
      written := fun state own hmem before e behind hemit hlast => ?_
      found := fun state own hmem before e behind hemit hlast hkeys => ?_
      kept := ⟨ids, hself⟩
      others := fun x hx hne => hreshaped.frame x hx hne }
  -- no state is given twice, so its filter leaves one branch
  · have hone := hfilter state
    rw [filter_fst_eq v.nodup_stateValues hmem] at hone
    obtain ⟨id, ids', ⟨taken, htaken⟩, hrest, heq⟩ := List.forall₂_cons_right_iff.1 hone
    rw [List.forall₂_nil_right_iff.1 hrest] at heq
    exact ⟨id, taken, heq, htaken⟩
  · have hnone := hfilter state
    rw [List.filter_eq_nil_iff.2 fun x hx heq => hstate
      (List.mem_map.2 ⟨x, hx, beq_iff_eq.1 heq⟩)] at hnone
    exact List.forall₂_nil_right_iff.1 hnone
  · rw [hself, List.mem_append] at hc
    rcases hc with hc | hc
    · exact absurd hname (name_ne_of_bears hbears (hchildren c hc))
    · obtain ⟨x, hx, own, hfirst⟩ :=
        exists_of_forall₂ (List.forall₂_map_right_iff.1 hstands.forall₂) hc
      refine ⟨x, hx, ?_⟩
      rw [hfirst.fits_eq, fits_stateBranch h, beq_self_eq_true]
  · rcases Branch.mem_entries_after hentry with ⟨w, hw, hwritten⟩ | hfresh
    · obtain ⟨e, he, rfl⟩ := List.mem_map.1 hw
      exact Or.inr ⟨e, he, hwritten⟩
    · exact Or.inl (Option.some.inj (Branch.mem_entries_fresh.1 hfresh)).symm
  · unfold stateBranch
    rw [hemit, List.map_append, List.map_cons]
    -- a key that is written again keeps the last text
    have hbehind : ∀ w ∈ behind.map (stateWriting setting scope rest state own),
        w.key ≠ (stateWriting setting scope rest state own e).key := by
      intro w hw
      obtain ⟨e', he', rfl⟩ := List.mem_map.1 hw
      exact hlast e' he'
    exact Branch.mem_entries_after_of_last hbehind
  · unfold stateBranch
    rw [hemit, List.map_append, List.map_cons]
    refine Branch.read?_after_of_last (w := stateWriting setting scope rest state own e) ?_ ?_
    · refine List.forall_mem_cons.2 ⟨hkeys e List.mem_cons_self, fun w hw => ?_⟩
      obtain ⟨e', he', rfl⟩ := List.mem_map.1 hw
      exact hkeys e' (List.mem_cons_of_mem _ he')
    · intro w hw
      obtain ⟨e', he', rfl⟩ := List.mem_map.1 hw
      exact hlast e' he'

end Bears

/-- A rule whose emissions write for each state below a child of its own keeps the states of any
value apart. -/
theorem states_apart (h : rule.PerState name key rest)
    (hfree : setting.options.overrides.get? "state" = none) (scope : Scope) (v : Value α)
    (s : Pass α) (hnode : node < s.tree.size)
    (hchildren : ∀ c ∈ (s.tree.node node).children,
      c < s.tree.size ∧ (s.tree.node c).name ≠ name) :
    ∃ t, rule.emit.forM (emit setting node scope v) s = .ok ((), { s with tree := t }) ∧
      StatesApart setting scope rule name key rest v node s.tree t := by
  have hbears := bears_perState h setting scope v hnode hchildren
  rw [emit_perState h hfree]
  exact ⟨_, rfl, statesApart_of_bears h hchildren hbears⟩

end Compile

namespace Sample

/-- A title that is red, and gray while the button cannot be used. -/
def title : Value ℚ :=
  .drawable (.stateColor "title"
    { normal := ⟨255, 0, 0, 255⟩, disabled := some ⟨128, 128, 128, 255⟩ })

/-- The scope of the button, whose attributes do not matter here. -/
def scope : Scope := ⟨{ element := { tag := "Button" }, attributes := SortedMap.empty }, []⟩

/-- What has become of a button before its attributes are applied. -/
def button : Pass ℚ :=
  { tree := { nodes := #[{ name := "button" }], root := some 0, ids := { seed := "button" } } }

/-- The built-in rule for the color of a title. -/
def titleRule : AttributeRule := Rule.Ios.buttonAttributes[1]

/-- The six emissions of the built-in rule go to one child for either color. -/
theorem states_apart_button : titleRule.PerState "state" "key" Emission.behind ∧
    title.stateValues.map (·.1.name) = ["normal", "disabled"] ∧
    (∀ c ∈ (button.tree.node 0).children,
      c < button.tree.size ∧ (button.tree.node c).name ≠ "state") ∧
    ∃ t, titleRule.emit.forM (Compile.emit setting 0 scope title) button =
        .ok ((), { button with tree := t }) ∧
      Compile.StatesApart setting scope titleRule "state" "key" Emission.behind title 0
        button.tree t := by
  have hrule : titleRule.PerState "state" "key" Emission.behind :=
    perState_buttonAttributes titleRule (List.getElem_mem _) (by decide)
  have hchildren : ∀ c ∈ (button.tree.node 0).children,
      c < button.tree.size ∧ (button.tree.node c).name ≠ "state" := nofun
  exact ⟨hrule, rfl, hchildren,
    Compile.states_apart hrule rfl scope title button (by decide) hchildren⟩

end Sample

end LayoutCompiler
