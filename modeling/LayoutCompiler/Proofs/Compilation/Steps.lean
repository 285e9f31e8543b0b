import LayoutCompiler.Proofs.Compilation.Failures
import LayoutCompiler.Proofs.Layout.Settling
/-!
# Steps of compilation

What a step of compilation leaves behind when it succeeds, and that it never fails because of a
constraint (`Ends`). The lemmas on `Ends` follow the way steps are put together.

* `applyAttributes_spec`: the rules for attributes write below a node, and move and relate nothing.
-/

namespace LayoutCompiler

variable {α β γ : Type}

/-- A step ends as claimed, or fails for a reason that is none of layout. -/
def Ends (step : Compile α β) (s : Pass α) (post : β → Pass α → Prop) : Prop :=
  match step s with
  | .ok (v, s') => post v s'
  | .error e => e.isLayout = false

namespace Ends

variable {s : Pass α} {P Q : β → Pass α → Prop}

theorem of_ok {step : Compile α β} {v : β} {s' : Pass α} (h : Ends step s P)
    (hok : step s = .ok (v, s')) : P v s' := by
  unfold Ends at h
  rwa [hok] at h

theorem of_error {step : Compile α β} {e : Failure} (h : Ends step s P)
    (herror : step s = .error e) : e.isLayout = false := by
  unfold Ends at h
  rwa [herror] at h

theorem pure {v : β} (h : P v s) : Ends (Pure.pure v) s P := h

theorem imp {step : Compile α β} (h : Ends step s P) (himp : ∀ v s', P v s' → Q v s') :
    Ends step s Q := by
  unfold Ends at h ⊢
  split at h
  · exact himp _ _ h
  · exact h

/-- A step followed by others, with what is known in between. -/
theorem seq {step : Compile α γ} {next : γ → Compile α β} {R : γ → Pass α → Prop}
    (h : Ends step s R) (hnext : ∀ v s', R v s' → Ends (next v) s' P) :
    Ends (step >>= next) s P := by
  unfold Ends at h
  have hbind : (step >>= next) s = (step s >>= fun r => next r.1 r.2) := rfl
  unfold Ends
  rw [hbind]
  cases hs : step s with
  | ok r =>
    rw [hs] at h
    exact hnext r.1 r.2 h
  | error e =>
    rw [hs] at h
    exact h

theorem modify {f : Pass α → Pass α} {P : PUnit → Pass α → Prop} (h : P ⟨⟩ (f s)) :
    Ends (modify f) s P := h

/-- A step on the tree leaves everything else as it is. -/
theorem edit {step : Edit α β} {post : β → Tree α → Prop} (h : Ensures step s.tree post) :
    Ends (Compile.edit step) s fun v s' => ∃ t, s' = { s with tree := t } ∧ post v t :=
  ⟨_, rfl, h⟩

theorem change {f : Tree α → Tree α} {P : Unit → Pass α → Prop}
    (h : P () { s with tree := f s.tree }) : Ends (Compile.change f) s P := h

/-- A result from outside, whose failure is none of layout. -/
theorem lift {r : Outcome β} (hr : Placeless r) (h : ∀ v, r = .ok v → P v s) :
    Ends (liftM r : Compile α β) s P := by
  cases r with
  | ok v => exact h v rfl
  | error e => exact hr e rfl

theorem atElement {r : Outcome β} (file tag : String) (subject : Option String)
    (hr : Placeless r) (h : ∀ v, r = .ok v → P v s) :
    Ends (Compile.atElement file tag subject r) s P := by
  cases r with
  | ok v => exact h v rfl
  | error e => exact (Failure.isLayout_within file tag subject e).trans (hr e rfl)

/-- A step whose failure is placed at an element. -/
theorem within {step : Compile α β} (h : Ends step s P) (file tag : String)
    (subject : Option String) :
    Ends (fun s => (step s).mapError (Failure.within file tag subject)) s P := by
  unfold Ends at h ⊢
  dsimp only
  cases hs : step s with
  | ok r =>
    rw [hs] at h
    exact h
  | error e =>
    rw [hs] at h
    exact (Failure.isLayout_within file tag subject e).trans h

/-- A loop of edits that only record records the laws of all rounds. -/
theorem forIn_notes (xs : List γ) (body : γ → Edit α PUnit) (laws : γ → List (Constraint α))
    (hbody : ∀ x t, Ensures (body x) t fun _ t' => Tree.Notes t t' (laws x)) (s : Pass α) :
    Ends (forIn xs PUnit.unit fun x _ => do
        Compile.edit (body x)
        Pure.pure (ForInStep.yield PUnit.unit)) s fun _ s' =>
      ∃ t, s' = { s with tree := t } ∧ Tree.Notes s.tree t (xs.flatMap laws) := by
  induction xs generalizing s with
  | nil => exact pure ⟨s.tree, rfl, Tree.Notes.refl _⟩
  | cons x xs ih =>
    rw [List.forIn_cons, List.flatMap_cons]
    refine seq (R := fun step s₁ => step = .yield ⟨⟩ ∧
      ∃ t, s₁ = { s with tree := t } ∧ Tree.Notes s.tree t (laws x)) ?_ ?_
    · exact seq (edit (hbody x s.tree)) fun _ s₁ h => pure ⟨rfl, h⟩
    · rintro step _ ⟨rfl, t₁, rfl, h₁⟩
      refine (ih { s with tree := t₁ }).imp ?_
      rintro _ _ ⟨t₂, rfl, h₂⟩
      exact ⟨t₂, rfl, h₁.trans h₂⟩

/-- A loop keeps what each of its rounds keeps. -/
theorem forIn {σ : Type} {I : Pass α → Prop} (xs : List γ) (init : σ)
    (body : γ → σ → Compile α (ForInStep σ)) (hs : I s)
    (hbody : ∀ x r s, I s → Ends (body x r) s fun _ s' => I s') :
    Ends (forIn xs init body) s fun _ s' => I s' := by
  induction xs generalizing init s with
  | nil => exact hs
  | cons x xs ih =>
    rw [List.forIn_cons]
    refine seq (hbody x init s hs) fun step s₁ h₁ => ?_
    cases step with
    | done r => exact h₁
    | yield r => exact ih r h₁

theorem forM {I : Pass α → Prop} (xs : List γ) (body : γ → Compile α PUnit)
    (hbody : ∀ x s, I s → Ends (body x) s fun _ s' => I s') (hs : I s) :
    Ends (xs.forM body) s fun _ s' => I s' := by
  induction xs generalizing s with
  | nil => exact hs
  | cons x xs ih =>
    exact seq (hbody x s hs) fun _ s' hs' => ih hs'

end Ends

-- From here on a step is taken apart by the lemmas above, and never run.
attribute [irreducible] Ends

/-! ## Writing attributes -/

/-- Something has been written below nodes that there are: nothing is moved, related or named. -/
structure Written (s s' : Pass α) : Prop where
  linked : s'.tree.Linked
  sprouts : Tree.Sprouts s.tree.size s.tree s'.tree
  outlets : s'.outlets = s.outlets

namespace Written

variable {s s' s'' : Pass α} {t : Tree α} {x : Nat}

theorem refl (hl : s.tree.Linked) : Written s s := ⟨hl, Tree.Sprouts.refl _, rfl⟩

theorem trans (h : Written s s') (h' : Written s' s'') : Written s s'' :=
  ⟨h'.linked, h.sprouts.trans h.sprouts.size_le h'.sprouts, h'.outlets.trans h.outlets⟩

theorem decorate (h : Written s s') (hd : Tree.Decorates s'.tree t) :
    Written s { s' with tree := t } :=
  ⟨h.linked.of_decorates hd, h.sprouts.decorate hd, h.outlets⟩

end Written

namespace Compile

open LayoutCompiler.Tree (Sprouts Decorates)

variable {t : Tree α} {s : Pass α} {node : Nat}

theorem writeRuntime_spec (hl : t.Linked) (hx : node < t.size) (name type text : String) :
    Ensures (writeRuntime node name type text) t fun _ t' =>
      t'.Linked ∧ Sprouts t.size t t' := by
  unfold writeRuntime
  refine Ensures.seq (Tree.findOrCreate_spec hl hx runtimeStep) ?_
  rintro holder t₁ ⟨hl₁, hs₁, hup₁⟩
  refine Ensures.seq (Tree.findOrCreate_spec hl₁ hup₁.lt_size (runtimeEntryStep name)) ?_
  rintro entry t₂ ⟨hl₂, hs₂, -⟩
  have hd := (Tree.decorates_setAttribute t₂ entry "type" type).trans
    (Tree.decorates_setAttribute _ entry "value" text)
  exact ⟨hl₂.of_decorates hd, (hs₁.trans hs₁.size_le hs₂).decorate hd⟩

theorem writeAt_spec (hl : t.Linked) (hx : node < t.size) (kind : EmissionKind)
    (runtimeType : Option String) (path : AttributePath) (text : String) :
    Ensures (writeAt kind runtimeType node path text) t fun _ t' =>
      t'.Linked ∧ Sprouts t.size t t' := by
  unfold writeAt
  split
  · exact ⟨hl, Sprouts.refl t⟩
  · rename_i name _
    refine Ensures.seq (Tree.walkPath_spec hl hx path.steps) ?_
    rintro target t₁ ⟨hl₁, hs₁, htarget⟩
    split
    · have hd := Tree.decorates_setStyle t₁ target name text
      exact ⟨hl₁.of_decorates hd, hs₁.decorate hd⟩
    · refine (writeRuntime_spec hl₁ htarget name _ text).imp ?_
      rintro _ t₂ ⟨hl₂, hs₂⟩
      exact ⟨hl₂, hs₁.trans hs₁.size_le hs₂⟩
    · have hd := Tree.decorates_setAttribute t₁ target name text
      exact ⟨hl₁.of_decorates hd, hs₁.decorate hd⟩

theorem writeText_spec (hl : t.Linked) (hx : node < t.size) (steps : List PathStep)
    (text : String) :
    Ensures (writeText node steps text) t fun _ t' => t'.Linked ∧ Sprouts t.size t t' := by
  unfold writeText
  refine Ensures.seq (Tree.walkPath_spec hl hx steps) ?_
  rintro target t₁ ⟨hl₁, hs₁, -⟩
  have hd := Tree.decorates_setText t₁ target text
  exact ⟨hl₁.of_decorates hd, hs₁.decorate hd⟩

/-- A step that was read from a path. -/
theorem map_spec {r : Outcome γ} {f : γ → Edit α Unit} {P : Tree α → Prop}
    (hf : ∀ v, Ensures (f v) t fun _ t' => P t') {step : Edit α Unit} (h : r.map f = .ok step) :
    Ensures step t fun _ t' => P t' := by
  cases r with
  | error e => cases h
  | ok v =>
    cases h
    exact hf v

/-- What an emission writes, it writes below the node. -/
theorem emission_spec (e : Emission) (path text : String) (hl : t.Linked) (hx : node < t.size) :
    Placeless (emission e path text node : Outcome (Edit α Unit)) ∧
      ∀ step, emission e path text node = .ok step →
        Ensures step t fun _ t' => t'.Linked ∧ Sprouts t.size t t' := by
  refine ⟨(malformed_emission e path text node).mono fun e he => he ▸ rfl, fun step h => ?_⟩
  unfold emission at h
  split at h
  · exact map_spec (fun steps => writeText_spec hl hx steps text) h
  · exact map_spec (fun p => writeAt_spec hl hx _ _ p text) h

/-- A loop of steps that write writes. -/
theorem written_forM (xs : List γ) (body : γ → Compile α PUnit) (hx : node < s.tree.size)
    (hl : s.tree.Linked)
    (hbody : ∀ x s, s.tree.Linked → node < s.tree.size →
      Ends (body x) s fun _ s' => Written s s') :
    Ends (xs.forM body) s fun _ s' => Written s s' := by
  refine Ends.forM (I := Written s) xs body (fun x s₁ h₁ => ?_) (Written.refl hl)
  have hx₁ : node < s₁.tree.size := Nat.lt_of_lt_of_le hx h₁.sprouts.size_le
  exact (hbody x s₁ h₁.linked hx₁).imp fun _ s₂ h₂ => h₁.trans h₂

variable [Scalar α]

theorem emitOne_spec (setting : Setting α) (scope : Scope) (extras : SortedMap String)
    (v : Value α) (e : Emission) (hl : s.tree.Linked) (hx : node < s.tree.size) :
    Ends (emitOne setting node scope extras v e) s fun _ s' => Written s s' := by
  obtain ⟨hplaceless, hstep⟩ := emission_spec (t := s.tree) e
    ((valueRendering setting v scope extras).render e.path)
    ((valueRendering setting v scope extras).render e.template) hl hx
  refine Ends.seq (Ends.lift (P := fun step s' => s = s' ∧ Ensures step s.tree fun _ t' =>
    t'.Linked ∧ Sprouts s.tree.size s.tree t') hplaceless fun step h => ⟨rfl, hstep step h⟩) ?_
  rintro step _ ⟨rfl, h⟩
  refine (Ends.edit h).imp ?_
  rintro _ _ ⟨t, rfl, hl, hs⟩
  exact ⟨hl, hs, rfl⟩

theorem emit_spec (setting : Setting α) (scope : Scope) (v : Value α) (e : Emission)
    (hl : s.tree.Linked) (hx : node < s.tree.size) :
    Ends (emit setting node scope v e) s fun _ s' => Written s s' := by
  unfold emit
  split
  · exact written_forM _ _ hx hl fun _ s hl hx => emitOne_spec setting scope _ _ e hl hx
  · exact emitOne_spec setting scope _ v e hl hx

theorem applyAttribute_spec (setting : Setting α) (file : String) (chain : List ElementRule)
    (scope : Scope) (name raw : String) (hl : s.tree.Linked) (hx : node < s.tree.size) :
    Ends (applyAttribute setting file chain node scope name raw) s fun _ s' => Written s s' := by
  unfold applyAttribute
  split
  · refine Ends.seq (Ends.atElement (P := fun _ s' => s = s') file scope.here.element.tag
      (some name) (reading_read _ raw).placeless fun _ _ => rfl) ?_
    rintro v _ rfl
    split
    · exact Ends.pure (Written.refl hl)
    · rename_i rule _
      refine Ends.seq (Ends.modify (P := fun _ s' => s'.tree = s.tree ∧ s'.outlets = s.outlets)
        ⟨rfl, rfl⟩) ?_
      -- that the resources of the value are noted leaves the tree alone
      rintro _ s₁ ⟨htree, houtlets⟩
      have hwritten := written_forM (s := s₁) rule.emit (emit setting node scope v) (htree ▸ hx)
        (htree ▸ hl) fun e s hl hx => emit_spec setting scope v e hl hx
      refine Ends.within (hwritten.imp fun _ s₂ h₂ => ?_) _ _ _
      exact ⟨h₂.linked, htree ▸ h₂.sprouts, h₂.outlets.trans houtlets⟩
  · exact Ends.pure (Written.refl hl)

/-- The rules for attributes write below a node, and move and relate nothing. -/
theorem applyAttributes_spec (setting : Setting α) (file : String) (chain : List ElementRule)
    (scope : Scope) (attributes : Attributes) (hl : s.tree.Linked) (hx : node < s.tree.size) :
    Ends (applyAttributes setting file chain node scope attributes) s fun _ s' => Written s s' :=
  written_forM _ _ hx hl fun entry _ hl hx =>
    applyAttribute_spec setting file chain scope entry.1 entry.2 hl hx

end Compile

end LayoutCompiler
