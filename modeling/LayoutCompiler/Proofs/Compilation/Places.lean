import LayoutCompiler.Proofs.Compilation.Policies
import LayoutCompiler.Proofs.Text.Renderings
/-!
# Places of emissions

Where emissions write, as far as the rules tell. A path that has no hole but for the name of a state
is written as one of few texts (`Emission.routes`), and each of them says by which keys nodes are
found on the way, and under which key of what node the text of the emission ends up. Policies are
checked against rules place by place.

* `Emission.mem_routes`: a path is written as one of its routes.
* `Policy.Admits.of_places`: what a policy has to allow of an emission.
-/

namespace LayoutCompiler

/-! ## Routes -/

namespace Emission

/-- The path has no hole, but for the name of the state when the emission is for states. -/
def Charted (e : Emission) : Prop := ∀ hole ∈ e.path.holes, e.kind = .state ∧ hole = "state"

instance (e : Emission) : Decidable e.Charted :=
  inferInstanceAs (Decidable (∀ hole ∈ e.path.holes, e.kind = .state ∧ hole = "state"))

/-- The texts that a charted path is written as. -/
def routes (e : Emission) : List String :=
  if e.kind = .state then Interaction.all.map fun state => e.path.write fun _ => some state.name
  else [e.path.write fun _ => none]

variable {α : Type} [Scalar α] {setting : Setting α} {scope : Scope} {v : Value α} {e : Emission}
  {r : Rendering α}

theorem resolve?_state (hfree : setting.options.overrides.get? "state" = none) (v : Value α)
    (state : Interaction) :
    (Compile.valueRendering setting v scope (SortedMap.singleton "state" state.name)).resolve?
      "state" = some state.name := by
  have hsegments : Template.segments "state" = ["state"] := by rfl
  have hextra : (SortedMap.singleton "state" state.name).get? "state" = some state.name :=
    (SortedMap.get?_insert _ _ _ _).trans (if_pos rfl)
  unfold Rendering.resolve? Compile.valueRendering
  rw [hsegments]
  simp only [hfree, Option.none_or, Rendering.walk?, Rendering.enter?, hextra]
  rfl

/-- A charted path is written as one of its routes. -/
theorem mem_routes (h : e.Charted) (hfree : setting.options.overrides.get? "state" = none)
    (hr : Compile.Renders setting scope v e r) : r.render e.path ∈ e.routes := by
  cases hr with
  | whole hkind =>
    rw [routes, if_neg hkind, List.mem_singleton]
    exact Template.write_congr fun hole hhole => absurd (h hole hhole).1 hkind
  | @state state own hkind hmem =>
    rw [routes, if_pos hkind, List.mem_map]
    refine ⟨state, by cases state <;> decide, ?_⟩
    refine Template.write_congr fun hole hhole => ?_
    rw [(h hole hhole).2]
    exact (resolve?_state hfree own state).symm

end Emission

/-! ## Places -/

namespace EmissionKind

/-- The keys by which nodes are found along a path. -/
def stepKeys (kind : EmissionKind) (path : String) : List String :=
  let steps := if kind = .text then AttributePath.readNode path
    else (AttributePath.read path).map AttributePath.steps
  match steps with
  | .ok steps => steps.filterMap fun step => step.key.map Prod.fst
  | .error _ => []

/-- The key that a path ends with, when an attribute is written under it, and the name of the node
that has the attribute, if it is a node that the path leads to. -/
def target? (kind : EmissionKind) (path : String) : Option (Option String × String) :=
  if kind ∈ [.text, .style, .runtime] then none
  else match AttributePath.read path with
    | .ok p => p.name.map fun key => ((p.steps.map PathStep.name).getLast?, key)
    | .error _ => none

end EmissionKind

theorem Policy.AllowsSteps.of_frees {policy : Policy} {steps : List PathStep}
    (h : ∀ key ∈ steps.filterMap (fun step => step.key.map Prod.fst), policy.Frees key) :
    policy.AllowsSteps steps := by
  intro step hstep entry hentry
  refine h entry.1 (List.mem_filterMap.2 ⟨step, hstep, ?_⟩) _ _
  rw [Option.mem_def.1 hentry]
  rfl

/-- A policy admits an emission when the nodes on the way are found by keys that are free, and the
attribute at the end is allowed: on the node that the path leads to, or on every node when the path
leads to none. -/
theorem Policy.Admits.of_places {policy : Policy} {kind : EmissionKind} {path text : String}
    (hsteps : ∀ key ∈ kind.stepKeys path, policy.Frees key)
    (htarget : ∀ place key, kind.target? path = some (place, key) →
      ∀ start, policy (place.getD start) key text) : policy.Admits kind path text where
  -- the keys of the steps and the place of the last one are all that an emission writes
  node hkind steps hread := by
    unfold EmissionKind.stepKeys at hsteps
    simp only [hkind, hread, if_true] at hsteps
    exact .of_frees hsteps
  steps hkind p hread := by
    unfold EmissionKind.stepKeys at hsteps
    simp only [hkind, hread, if_false, Except.map] at hsteps
    exact .of_frees hsteps
  name hkind p hread name hname start := by
    rw [List.getLastD_eq_getLast?]
    refine htarget _ name ?_ start
    unfold EmissionKind.target?
    rw [if_neg hkind, hread]
    simp only [hname, Option.map_some]

/-- An emission keeps to what is said about the keys by which nodes are found on its way, and about
the key that it writes under, given the name of the node. -/
structure Emission.Keeps (step : String → Prop) (target : Option String → String → Prop)
    (e : Emission) : Prop where
  charted : e.Charted
  steps : ∀ route ∈ e.routes, ∀ key ∈ e.kind.stepKeys route, step key
  target : ∀ route ∈ e.routes, ∀ place ∈ e.kind.target? route, target place.1 place.2

instance (step : String → Prop) (target : Option String → String → Prop) [DecidablePred step]
    [∀ place, DecidablePred (target place)] (e : Emission) : Decidable (e.Keeps step target) :=
  decidable_of_iff (e.Charted ∧ (∀ route ∈ e.routes, ∀ key ∈ e.kind.stepKeys route, step key) ∧
      ∀ route ∈ e.routes, ∀ place ∈ e.kind.target? route, target place.1 place.2)
    ⟨fun h => ⟨h.1, h.2.1, h.2.2⟩, fun h => ⟨h.charted, h.steps, h.target⟩⟩

/-- A policy admits what an emission writes for a value if the emission keeps to it. -/
theorem Emission.Keeps.admits {α : Type} [Scalar α] {setting : Setting α} {scope : Scope}
    {v : Value α} {e : Emission} {r : Rendering α} {policy : Policy} {step : String → Prop}
    {target : Option String → String → Prop} (h : e.Keeps step target)
    (hfree : setting.options.overrides.get? "state" = none)
    (hr : Compile.Renders setting scope v e r) (hstep : ∀ key, step key → policy.Frees key)
    (htarget : ∀ place key, target place key →
      ∀ start, policy (place.getD start) key (r.render e.template)) :
    policy.Admits e.kind (r.render e.path) (r.render e.template) := by
  have hroute := mem_routes h.charted hfree hr
  refine .of_places (fun key hkey => hstep key (h.steps _ hroute key hkey)) ?_
  intro place key hplace
  exact htarget place key (h.target _ hroute (place, key) hplace)

/-! ## Sparing -/

/-- No node may have one of some keys. -/
def Policy.sparing (keys : List String) : Policy := fun _ key _ => key ∉ keys

/-- An emission finds no node by one of some keys, and writes nothing under them. -/
abbrev Emission.Spares (keys : List String) (e : Emission) : Prop :=
  e.Keeps (· ∉ keys) fun _ key => key ∉ keys

/-- Rules leave some keys alone: no node is made with one of them or found by one, and nothing is
written under them. -/
structure RuleBook.Spares (book : RuleBook) (keys : List String) : Prop where
  elements : ∀ rule ∈ book.elementRules, ∀ b ∈ rule.template, ∀ key ∈ b.keys, key ∉ keys
  attributes : ∀ rule ∈ book.attributeRules, ∀ e ∈ rule.emit, e.Spares keys

/-- Rules that leave keys alone keep them off every node. -/
theorem RuleBook.Spares.governs {α : Type} [Scalar α] {setting : Setting α} {keys : List String}
    (h : setting.book.Spares keys) (hfixed : ∀ key ∈ Compile.fixedKeys, key ∉ keys)
    (hfree : setting.options.overrides.get? "state" = none) :
    Compile.Governs setting fun _ => Policy.sparing keys where
  mono _ _ _ _ _ _ hallowed := hallowed
  fixed key hkey _ _ _ := hfixed key hkey
  elements rule hrule b hb key hkey _ _ _ := h.elements rule hrule b hb key hkey
  attributes rule hrule _ _ _ _ _ _ e he _ _ hr :=
    (h.attributes rule hrule e he).admits hfree hr (fun _ hkey _ _ => hkey) fun _ _ hkey _ => hkey

end LayoutCompiler
