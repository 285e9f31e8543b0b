import LayoutCompiler.Proofs.Compilation.Visits
import LayoutCompiler.Proofs.Tree.Quiet
/-!
# Steps of a compilation along a relation

What the steps of a compilation keep, whatever the state is like that they succeed from. A step
`Leads` along a relation between states when it takes every state to one that is related to it. Most
of the steps only write to the tree, without drawing an identifier, and so lead along every relation
that `Permits` that much.

* `leads_emit`, `leads_applyAttributes`, `leads_holdContent`: the steps that write.
* `leads_make`, `leads_opening`: the nodes of an element, for relations that also hold otherwise.
* `leads_element`: what a compilation keeps as a whole.
* `Visits.leads`: what it keeps from one of its elements on.
-/

namespace LayoutCompiler

open LayoutCompiler.Tree (Mute Notes)

variable {α β γ : Type}

/-- A step takes every state that it succeeds from to one that is related to it. -/
def Leads (R : Pass α → Pass α → Prop) (step : Compile α β) : Prop :=
  ∀ s v s', step s = .ok (v, s') → R s s'

/-- A relation that steps lead along one after another when each of them does. -/
structure Composes (R : Pass α → Pass α → Prop) : Prop where
  refl : ∀ s, R s s
  trans : ∀ {s s' s''}, R s s' → R s' s'' → R s s''

/-- A relation that is not broken by writing to the tree without drawing an identifier. -/
structure Permits (R : Pass α → Pass α → Prop) : Prop extends Composes R where
  write : ∀ s t, Mute s.tree t → R s { s with tree := t }

namespace Leads

variable {R : Pass α → Pass α → Prop}

theorem modify {f : Pass α → Pass α} (hf : ∀ s, R s (f s)) :
    Leads R (modify f : Compile α PUnit) := by
  intro s v s' h
  cases h
  exact hf s

theorem edit {step : Edit α β} (h : ∀ s, R s { s with tree := (step s.tree).2 }) :
    Leads R (Compile.edit step) := by
  intro s v s' hrun
  cases hrun
  exact h s

theorem within {step : Compile α β} (h : Leads R step) (file tag : String)
    (subject : Option String) :
    Leads R fun s => (step s).mapError (Failure.within file tag subject) := by
  intro s v s' hrun
  cases hs : step s with
  | error e =>
    simp only [hs] at hrun
    cases hrun
  | ok r =>
    simp only [hs] at hrun
    cases hrun
    exact h s _ _ hs

/-- A result that the rest of a step depends on. -/
theorem lift_seq {r : Outcome γ} {next : γ → Compile α β}
    (hnext : ∀ c, r = .ok c → Leads R (next c)) : Leads R ((liftM r : Compile α γ) >>= next) := by
  intro s v s' h
  cases r with
  | error e => cases h
  | ok w => exact hnext w rfl s v s' h

variable (hR : Composes R)

include hR

theorem pure (v : β) : Leads R (Pure.pure v : Compile α β) := by
  intro s v' s' h
  cases h
  exact hR.refl s

theorem seq {step : Compile α γ} {next : γ → Compile α β} (h : Leads R step)
    (hnext : ∀ c, Leads R (next c)) : Leads R (step >>= next) := by
  intro s v s' hrun
  obtain ⟨c, s₁, hstep, hrest⟩ := Compile.run_seq hrun
  exact hR.trans (h s c s₁ hstep) (hnext c s₁ v s' hrest)

theorem forM (xs : List γ) (body : γ → Compile α PUnit) (hbody : ∀ x ∈ xs, Leads R (body x)) :
    Leads R (xs.forM body) := by
  induction xs with
  | nil => exact pure hR _
  | cons x xs ih =>
    obtain ⟨hx, hxs⟩ := List.forall_mem_cons.1 hbody
    exact seq hR hx fun _ => ih hxs

theorem forIn {σ : Type} (xs : List γ) (init : σ) (body : γ → σ → Compile α (ForInStep σ))
    (hbody : ∀ x r, Leads R (body x r)) : Leads R (forIn xs init body) := by
  induction xs generalizing init with
  | nil => exact pure hR init
  | cons x xs ih =>
    rw [List.forIn_cons]
    refine seq hR (hbody x init) fun step => ?_
    cases step with
    | done r => exact pure hR r
    | yield r => exact ih r

theorem atElement (file tag : String) (subject : Option String) (r : Outcome β) :
    Leads R (Compile.atElement file tag subject r : Compile α β) := by
  intro s v s' h
  cases r with
  | error e => cases h
  | ok w =>
    cases h
    exact hR.refl s

omit hR

theorem write (hR : Permits R) {step : Edit α β} (h : Along Mute step) :
    Leads R (Compile.edit step) :=
  edit fun s => hR.write s _ (h s.tree)

theorem change (hR : Permits R) {f : Tree α → Tree α} (h : ∀ t, Mute t (f t)) :
    Leads R (Compile.change f) :=
  write hR (Along.modify h)

end Leads

namespace Compile

/-! ## Writing -/

theorem mute_writeRuntime (node : Nat) (name type text : String) :
    Along Mute (writeRuntime node name type text : Edit α Unit) := by
  have hR : Stable (Mute : Tree α → Tree α → Prop) := Tree.stable_mute
  unfold writeRuntime
  refine Along.seq hR (Tree.along_findOrCreate hR node _) fun holder => ?_
  refine Along.seq hR (Tree.along_findOrCreate hR holder _) fun entry => ?_
  refine Along.seq hR (Along.modify fun t => Tree.stable_setAttribute hR t entry _ _) fun _ => ?_
  exact Along.modify fun t => Tree.stable_setAttribute hR t entry _ _

theorem mute_writeAt (kind : EmissionKind) (runtimeType : Option String) (node : Nat)
    (path : AttributePath) (text : String) :
    Along Mute (writeAt kind runtimeType node path text : Edit α Unit) := by
  have hR : Stable (Mute : Tree α → Tree α → Prop) := Tree.stable_mute
  unfold writeAt
  split
  · exact Along.pure hR ()
  · refine Along.seq hR (Tree.along_walkPath hR node path.steps) fun target => ?_
    split
    · exact Along.modify fun t => hR.modifyNode t target _ fun _ => rfl
    · exact mute_writeRuntime target _ _ text
    · exact Along.modify fun t => Tree.stable_setAttribute hR t target _ _

/-- What an emission writes, it writes without drawing an identifier. -/
theorem mute_emission {e : Emission} {path text : String} {node : Nat} {step : Edit α Unit}
    (h : emission e path text node = .ok step) : Along Mute step := by
  have hR : Stable (Mute : Tree α → Tree α → Prop) := Tree.stable_mute
  -- a path that cannot be read writes nothing at all, so there is no step to speak of
  have hpath : ∀ kind : EmissionKind, (AttributePath.read path).map
      (fun p => writeAt kind e.runtimeType node p text) = .ok step → Along Mute step := by
    intro kind hmap
    cases hread : AttributePath.read path with
    | error e =>
      rw [hread] at hmap
      cases hmap
    | ok p =>
      rw [hread] at hmap
      cases hmap
      exact mute_writeAt kind e.runtimeType node p text
  unfold emission at h
  split at h
  · cases hread : AttributePath.readNode path with
    | error e =>
      rw [hread] at h
      cases h
    | ok steps =>
      rw [hread] at h
      cases h
      refine Along.seq hR (Tree.along_walkPath hR node steps) fun target => ?_
      exact Along.modify fun t => hR.modifyNode t target _ fun _ => rfl
  · exact hpath _ h

/-- An outlet is declared next to the others. -/
theorem leads_declareOutlet {R : Pass α → Pass α → Prop} (hR : Composes R)
    (hdeclare : ∀ s outlets, R s { s with outlets }) (p : Prepared α) (placed : Placed) :
    Leads R (declareOutlet p placed) := by
  unfold declareOutlet
  split
  · exact Leads.pure hR ()
  · exact Leads.modify fun s => hdeclare s _

/-- Content is held by what is written on the nodes of an element. -/
theorem leads_holdContent_of {R : Pass α → Pass α → Prop} (hcomposes : Composes R)
    (setting : Setting α) {p : Prepared α} {placed : Placed}
    (hhold : ∀ node ∈ [placed.outer, placed.inner], ∀ (axis : Axis) (depth : Nat),
      Leads R (change fun t : Tree α => Layout.applyWrapPower t node axis depth))
    (depth : WrapDepth) : Leads R (holdContent setting p placed depth) := by
  unfold holdContent
  split
  · refine Leads.seq hcomposes (Leads.forIn hcomposes _ _ _ fun axis _ => ?_) fun _ =>
      Leads.pure hcomposes _
    split
    · refine Leads.seq hcomposes (hhold placed.outer (by simp) axis _) fun _ => ?_
      split
      · exact Leads.seq hcomposes (hhold placed.inner (by simp) axis _) fun _ =>
          Leads.pure hcomposes _
      · exact Leads.pure hcomposes _
    · exact Leads.pure hcomposes _
  · exact Leads.pure hcomposes _

section

variable [Scalar α] {R : Pass α → Pass α → Prop} (hR : Composes R) (setting : Setting α)
  (file : String) {node : Nat}
  (hwrite : ∀ e path text step, emission e path text node = .ok step → Leads R (edit step))

include hR hwrite

/-- A relation that no emission to a node breaks is not broken by those for a value either. -/
theorem leads_emit_of (scope : Scope) (v : Value α) (e : Emission) :
    Leads R (emit setting node scope v e) := by
  have hone : ∀ extras own, Leads R (emitOne setting node scope extras own e) := fun _ _ =>
    Leads.lift_seq fun _ hstep => hwrite e _ _ _ hstep
  unfold emit
  split
  · exact Leads.forM hR _ _ fun _ _ => hone _ _
  · exact hone _ v

/-- Attributes are applied by emissions, and by noting what they use. -/
theorem leads_applyAttribute_of (huse : ∀ s used, R s { s with used }) (chain : List ElementRule)
    (scope : Scope) (name raw : String) :
    Leads R (applyAttribute setting file chain node scope name raw) := by
  unfold applyAttribute
  split
  · refine Leads.seq hR (Leads.atElement hR file _ _ _) fun v => ?_
    split
    · exact Leads.pure hR _
    · rename_i rule _
      refine Leads.seq hR (Leads.modify fun s => huse s _) fun _ => ?_
      exact Leads.within (Leads.forM hR rule.emit _ fun e _ =>
        leads_emit_of hR setting hwrite scope v e) file _ _
  · exact Leads.pure hR _

theorem leads_applyAttributes_of (huse : ∀ s used, R s { s with used }) (chain : List ElementRule)
    (scope : Scope) (attributes : Attributes) :
    Leads R (applyAttributes setting file chain node scope attributes) :=
  Leads.forM hR _ _ fun entry _ =>
    leads_applyAttribute_of hR setting file hwrite huse chain scope entry.1 entry.2

end

section

variable {R : Pass α → Pass α → Prop} (hR : Permits R) (setting : Setting α) (file : String)

include hR

theorem leads_holdContent (p : Prepared α) (placed : Placed) (depth : WrapDepth) :
    Leads R (holdContent setting p placed depth) := by
  have hstable : Stable (Mute : Tree α → Tree α → Prop) := Tree.stable_mute
  refine leads_holdContent_of hR.toComposes setting (fun node _ axis depth => ?_) depth
  refine Leads.change hR fun t => ?_
  have hhugging := Tree.stable_setAttribute hstable t node (Layout.huggingKey axis)
    (toString (Layout.wrapPower depth))
  exact hstable.trans hhugging (Tree.stable_setAttribute hstable _ node _ _)

theorem leads_emission (node : Nat) (e : Emission) (path text : String) (step : Edit α Unit)
    (h : emission e path text node = .ok step) : Leads R (edit step) :=
  Leads.write hR (mute_emission h)

variable [Scalar α]

theorem leads_emit (node : Nat) (scope : Scope) (v : Value α) (e : Emission) :
    Leads R (emit setting node scope v e) :=
  leads_emit_of hR.toComposes setting (leads_emission hR node) scope v e

theorem leads_applyAttributes (huse : ∀ s used, R s { s with used }) (chain : List ElementRule)
    (node : Nat) (scope : Scope) (attributes : Attributes) :
    Leads R (applyAttributes setting file chain node scope attributes) :=
  leads_applyAttributes_of hR.toComposes setting file (leads_emission hR node) huse chain scope
    attributes

end

/-! ## Whole elements -/

variable [Scalar α] {setting : Setting α} {file : String}

/-- An element without attributes that need a node of their own gets one node. -/
theorem run_makeOne {p : Prepared α} {parent : Option Nat} {placed : Placed} {s s' : Pass α}
    (h : makeOne setting file p parent s = .ok (placed, s')) :
    ∃ node s₁, edit (Tree.instantiate p.blueprint parent (elementRender setting p.scope)) s =
        .ok (node, s₁) ∧
      applyAttributes setting file p.chain node p.scope p.scope.here.attributes s₁ =
        .ok ((), s') ∧
      placed = ⟨node, node⟩ := by
  unfold makeOne at h
  obtain ⟨node, s₁, hnode, h⟩ := run_seq h
  obtain ⟨_, s₂, hattributes, h⟩ := run_seq h
  cases h
  exact ⟨node, s₁, hnode, hattributes, rfl⟩

/-- An element with such attributes gets two nodes. All that follows its attributes only records
constraints, and only for a target that uses them. -/
theorem run_makeTwo {p : Prepared α} {parent : Option Nat} {placed : Placed} {s s' : Pass α}
    (h : makeTwo setting file p parent s = .ok (placed, s')) :
    ∃ chain b outer inner s₁ s₂ s₃ s₄,
      rulesFor setting file setting.options.baseKind p.forcing = .ok (chain, b) ∧
      edit (Tree.instantiate b parent (elementRender setting p.scope)) s = .ok (outer, s₁) ∧
      edit (Tree.instantiate p.blueprint (some outer) (elementRender setting p.scope)) s₁ =
        .ok (inner, s₂) ∧
      applyAttributes setting file chain outer p.scope p.forcing
        { s₂ with wrappers := s₂.wrappers + 1 } = .ok ((), s₃) ∧
      applyAttributes setting file p.chain inner p.scope p.rest s₃ = .ok ((), s₄) ∧
      placed = ⟨outer, inner⟩ ∧
      ∀ R : Pass α → Pass α → Prop, Composes R →
        (setting.options.target.usesConstraints = true →
          ∀ s t laws, Notes s.tree t laws → R s { s with tree := t }) → R s₄ s' := by
  unfold makeTwo at h
  obtain ⟨⟨chain, b⟩, s₀, hrules, h⟩ := run_seq h
  obtain ⟨outer, s₁, houter, h⟩ := run_seq h
  obtain ⟨inner, s₂, hinner, h⟩ := run_seq h
  obtain ⟨_, _, hcount, h⟩ := run_seq h
  cases hcount
  obtain ⟨_, s₃, hforcing, h⟩ := run_seq h
  obtain ⟨_, s₄, hrest, h⟩ := run_seq h
  obtain ⟨hchain, heq⟩ := run_lift hrules
  rw [heq] at houter
  refine ⟨chain, b, outer, inner, s₁, s₂, s₃, s₄, hchain, houter, hinner, hforcing, hrest, ?_⟩
  split at h
  · rename_i hlaid
    obtain ⟨params, s₅, hparams, h⟩ := run_seq h
    obtain ⟨_, s₆, hpins, h⟩ := run_seq h
    cases h
    refine ⟨rfl, fun R hR hnotes => ?_⟩
    -- reading the box moves nothing, and the pins only record laws
    have hread : R s₄ s₅ := Leads.atElement hR file _ _ _ s₄ params s₅ hparams
    refine hR.trans hread ?_
    refine Leads.forIn hR Axis.both _ _ (fun axis _ => ?_) s₅ _ s' hpins
    refine Leads.seq hR (Leads.edit fun s => ?_) fun _ => Leads.pure hR _
    exact hnotes hlaid s _ _ (Layout.pinEdges_spec inner outer axis _ _)
  · cases h
    exact ⟨rfl, fun R hR _ => hR.refl s'⟩

/-- The nodes of an element lead along a relation that making nodes, counting them, applying
attributes and recording constraints does not break. -/
theorem leads_make {R : Pass α → Pass α → Prop} (hR : Composes R) {p : Prepared α}
    (hinner : ∀ place render,
      Leads R (edit (Tree.instantiate p.blueprint place render) : Compile α Nat))
    (houter : ∀ chain b, rulesFor setting file setting.options.baseKind p.forcing = .ok (chain, b) →
      ∀ place render, Leads R (edit (Tree.instantiate b place render) : Compile α Nat))
    (hcount : ∀ s wrappers, R s { s with wrappers })
    (happly : ∀ chain node attributes,
      Leads R (applyAttributes setting file chain node p.scope attributes))
    (hrecord : setting.options.target.usesConstraints = true →
      ∀ s t laws, Notes s.tree t laws → R s { s with tree := t })
    (parent : Option Nat) : Leads R (make setting file p parent) := by
  intro s placed s' h
  unfold make at h
  split at h
  · obtain ⟨node, s₁, hnode, hattributes, -⟩ := run_makeOne h
    exact hR.trans (hinner _ _ _ _ _ hnode) (happly _ _ _ _ _ _ hattributes)
  · obtain ⟨chain, b, outer, inner, s₁, s₂, s₃, s₄, hchain, hbase, hown, hforcing, hrest, -,
      hlaid⟩ := run_makeTwo h
    -- the parts of a run, each of which leads on by what is assumed of it
    have hnodes : R s s₂ :=
      hR.trans (houter chain b hchain _ _ _ _ _ hbase) (hinner _ _ _ _ _ hown)
    have hforced : R s₂ s₃ := hR.trans (hcount s₂ _) (happly _ _ _ _ _ _ hforcing)
    have happlied : R s₃ s₄ := happly _ _ _ _ _ _ hrest
    exact hR.trans hnodes (hR.trans hforced (hR.trans happlied (hlaid R hR hrecord)))

theorem eq_ok_of_mapError {β : Type} {r : Outcome β} {f : Failure → Failure} {v : β}
    (h : r.mapError f = .ok v) : r = .ok v := by
  cases r with
  | error e => cases h
  | ok w => exact h

/-- What is known about an element is read from its attributes together with its styles. -/
theorem run_prepare {e : Element} {around : Option Scope} {p : Prepared α}
    (h : prepare setting file e around = .ok p) :
    ∃ merged, setting.resources.styles.merge e.attributes = .ok merged ∧
      rulesFor setting file e.tag merged = .ok (p.chain, p.blueprint) ∧
      Params.read setting.resources merged = .ok p.params ∧
      p.scope = Scope.enter around { element := e, attributes := merged } := by
  unfold prepare at h
  obtain ⟨merged, hmerged, h⟩ := bind_eq_ok_iff.1 h
  obtain ⟨⟨chain, blueprint⟩, hrules, h⟩ := bind_eq_ok_iff.1 h
  obtain ⟨params, hparams, h⟩ := bind_eq_ok_iff.1 h
  cases h
  exact ⟨merged, eq_ok_of_mapError hmerged, hrules, eq_ok_of_mapError hparams, rfl⟩

/-- An element is opened in four steps, once it has been counted. -/
theorem run_opening {e : Element} {around : Option Scope} {parent : Option Nat}
    {depth : WrapDepth} {p : Prepared α} {placed : Placed} {s s' : Pass α}
    (h : opening setting file e around parent depth s = .ok ((p, placed), s')) :
    prepare setting file e around = .ok p ∧ ∃ s₁ s₂,
      make setting file p parent { s with elements := s.elements + 1 } = .ok (placed, s₁) ∧
      declareOutlet p placed s₁ = .ok ((), s₂) ∧
      holdContent setting p placed depth s₂ = .ok ((), s') := by
  unfold opening at h
  obtain ⟨_, s₀, hcount, h⟩ := run_seq h
  cases hcount
  obtain ⟨p', s₃, hlift, h⟩ := run_seq h
  obtain ⟨placed', s₁, hmake, h⟩ := run_seq h
  obtain ⟨_, s₂, hdeclare, h⟩ := run_seq h
  obtain ⟨_, s₄, hhold, h⟩ := run_seq h
  cases h
  obtain ⟨hprepare, rfl⟩ := run_lift hlift
  exact ⟨hprepare, s₁, s₂, hmake, hdeclare, hhold⟩

/-- Opening an element leads along a relation that its four steps do not break, nor counting. -/
theorem leads_opening {R : Pass α → Pass α → Prop} (hR : Composes R) {e : Element}
    {around : Option Scope} {parent : Option Nat} {depth : WrapDepth}
    (hcount : ∀ s elements, R s { s with elements })
    (hmake : ∀ p, prepare setting file e around = .ok p → Leads R (make setting file p parent))
    (hdeclare : ∀ s outlets, R s { s with outlets })
    (hhold : ∀ p placed, Leads R (holdContent setting p placed depth)) :
    Leads R (opening setting file e around parent depth) := by
  rintro s ⟨p, placed⟩ s' h
  obtain ⟨hprepare, s₁, s₂, hmade, hdeclared, hheld⟩ := run_opening h
  have hnodes : R s s₁ := hR.trans (hcount s _) (hmake p hprepare _ _ _ hmade)
  have houtlet : R s₁ s₂ := leads_declareOutlet hR hdeclare p placed _ _ _ hdeclared
  exact hR.trans hnodes (hR.trans houtlet (hhold p placed _ _ _ hheld))

/-- A layout of children is all that its step does, if there is one. -/
theorem run_arrangeChildren {p : Prepared α} {placed : Placed} {children : List (Child α)}
    {s s' : Pass α} (h : arrangeChildren setting p placed children s = .ok ((), s')) :
    s' = s ∨ setting.options.target.usesConstraints = true ∧ ∃ b added t, base setting = .ok b ∧
      Layout.arrange (containerOf p.chain) b placed.inner p.params children s.tree = (added, t) ∧
      s' = { s with tree := t, synthetic := s.synthetic + added } := by
  unfold arrangeChildren at h
  split at h
  · rename_i hlaid
    obtain ⟨b, s₁, hbase, h⟩ := run_seq h
    obtain ⟨added, s₂, harrange, h⟩ := run_seq h
    obtain ⟨hblueprint, rfl⟩ := run_lift hbase
    cases harrange
    cases h
    exact Or.inr ⟨hlaid.1, b, _, _, hblueprint, rfl, rfl⟩
  · cases h
    exact Or.inl rfl

/-- A relation that the phases of every element lead along. -/
structure Spans (setting : Setting α) (file : String) (R : Pass α → Pass α → Prop) : Prop extends
    Composes R where
  opening : ∀ e around parent depth, Leads R (opening setting file e around parent depth)
  arrange : ∀ p placed children, Leads R (arrangeChildren setting p placed children)

variable {R : Pass α → Pass α → Prop}

mutual

/-- An element leads where its phases lead. -/
theorem leads_element (hR : Spans setting file R) : ∀ (e : Element) (around : Option Scope)
    (parent : Option Nat) (depth : WrapDepth), Leads R (element setting file e around parent depth)
  | ⟨tag, attributes, es, text⟩, around, parent, depth => by
    unfold element
    refine Leads.seq hR.toComposes (hR.opening _ _ _ _) fun opened => ?_
    refine Leads.seq hR.toComposes (leads_elements hR es _ _ _) fun inside => ?_
    exact Leads.seq hR.toComposes (hR.arrange _ _ _) fun _ => Leads.pure hR.toComposes _

theorem leads_elements (hR : Spans setting file R) : ∀ (es : List Element) (around : Scope)
    (x : Nat) (depth : WrapDepth), Leads R (elements setting file es around x depth)
  | [], around, x, depth => by
    unfold elements
    exact Leads.pure hR.toComposes _
  | e :: es, around, x, depth => by
    unfold elements
    refine Leads.seq hR.toComposes (leads_element hR e _ _ _) fun child => ?_
    exact Leads.seq hR.toComposes (leads_elements hR es _ _ _) fun rest =>
      Leads.pure hR.toComposes _

end

end Compile

namespace Compilation

variable [Scalar α] {setting : Setting α} {file : String} {root e : Element}
  {around : Option Scope} {parent : Option Nat} {depth : WrapDepth} {p : Prepared α}
  {placed : Placed} {s s₁ last : Pass α} {R : Pass α → Pass α → Prop}

/-- From an element that is visited all steps lead to the end of the compilation. -/
theorem Visits.leads (hR : Compile.Spans setting file R) {top : Child α}
    (hroot : Compile.element setting file root none none {} (start file) = .ok (top, last))
    (hv : Visits setting file root e around parent depth s) :
    ∃ child s', Compile.element setting file e around parent depth s = .ok (child, s') ∧
      R s' last := by
  induction hv with
  | root => exact ⟨top, last, hroot, hR.refl last⟩
  | @child e e' around parent depth s s₁ s₂ p placed before after done hv hopening hsplit hbefore
    ih =>
    -- by the induction the parent's run reaches the end; this child is behind those before it and
    -- in front of the rest
    obtain ⟨_, s', hrun, hlater⟩ := ih
    obtain ⟨_, _, _, children, s₄, hopening', hrun, harrange, -⟩ := Compile.run_element hrun
    rw [hopening] at hopening'
    cases hopening'
    rw [hsplit] at hrun
    obtain ⟨_, _, others, hbefore', hothers, rfl⟩ := Compile.run_elements_append hrun
    rw [hbefore] at hbefore'
    cases hbefore'
    obtain ⟨child, s₃, rest, helement, hrest, rfl⟩ := Compile.run_elements_cons hothers
    have hbehind : R s₃ s₄ := Compile.leads_elements hR after _ _ _ _ _ _ hrest
    have harranged : R s₄ s' := hR.arrange _ _ _ _ _ _ harrange
    exact ⟨child, s₃, helement, hR.trans hbehind (hR.trans harranged hlater)⟩

/-- So do they from when its nodes have been made. -/
theorem Visits.leads_of_opening (hR : Compile.Spans setting file R) {top : Child α}
    (hroot : Compile.element setting file root none none {} (start file) = .ok (top, last))
    (hv : Visits setting file root e around parent depth s)
    (hopening : Compile.opening setting file e around parent depth s = .ok ((p, placed), s₁)) :
    R s₁ last := by
  obtain ⟨_, s', hrun, hlater⟩ := hv.leads hR hroot
  obtain ⟨_, _, _, children, s₂, hopening', helements, harrange, -⟩ := Compile.run_element hrun
  rw [hopening] at hopening'
  cases hopening'
  have hinside : R s₁ s₂ := Compile.leads_elements hR _ _ _ _ _ _ _ helements
  exact hR.trans hinside (hR.trans (hR.arrange _ _ _ _ _ _ harrange) hlater)

end Compilation

end LayoutCompiler
