import LayoutCompiler.Proofs.Compilation.Unread
import LayoutCompiler.Proofs.Compilation.UsedResources
import LayoutCompiler.Proofs.Layout.Members
import LayoutCompiler.Proofs.Tree.Policies
/-!
# Policies for compilations

A policy may depend on the resources that are known to be in use, as long as it forbids less the
more of them there are. When the rules keep to it in what they say (`Governs`), every tree that is
compiled by them respects the policy for the resources that it uses.

* `layable_respects`: a layout writes under its own keys only.
* `respects_emission`: an emission writes to where its path leads.
* `upholds_applyAttribute`: a value counts as used before any emission shows it.
* `respects_of_ofElement`: a whole compilation.
-/

namespace LayoutCompiler

variable {α β : Type}

/-! ## Layouts -/

namespace Layout

/-- The keys under which layouts write on nodes. -/
def writtenKeys : List String :=
  Axis.both.map huggingKey ++ Axis.both.map compressionKey ++
    [axisKey, alignmentKey, spacingKey, relativeMarginsKey, "key", "top", "leading", "bottom",
      "trailing"]

variable {t : Tree α} {policy : Policy}

theorem respects_applyWrapPower (h : t.Respects policy)
    (hkeys : ∀ key ∈ writtenKeys, policy.Frees key) (node : Nat) (axis : Axis) (depth : Nat) :
    (applyWrapPower t node axis depth).Respects policy := by
  have hhugging : huggingKey axis ∈ writtenKeys := by cases axis <;> decide
  have hcompression : compressionKey axis ∈ writtenKeys := by cases axis <;> decide
  exact (h.setAttribute (hkeys _ hhugging _ _)).setAttribute (hkeys _ hcompression _ _)

/-- No layout breaks a policy, as long as it leaves the keys alone that layouts write under, and
those of the blueprint of what they add. -/
theorem layable_respects {base : Blueprint} (hkeys : ∀ key ∈ writtenKeys, policy.Frees key)
    (hbase : ∀ key ∈ base.keys, policy.Frees key) :
    Layable base fun t t' : Tree α => t.Respects policy → t'.Respects policy where
  toMovable := Tree.Respects.movable policy
  note hn h := h.of_notes hn
  plain container t h := h.instantiate hbase _ _
  spacer container axis t h := by
    -- the mark of a spacer is one of the keys that the layout writes
    have hspacer : Ensures (addSpacer base container axis) t fun _ t' => t'.Respects policy := by
      have hhugging : huggingKey axis ∈ writtenKeys := by cases axis <;> decide
      unfold addSpacer
      refine Ensures.seq (h.instantiate hbase _ _) fun spacer t₁ h₁ => ?_
      exact h₁.setAttribute (hkeys _ hhugging _ _)
    exact hspacer
  margins container t h := by
    have hmargins : Ensures (Tree.findOrCreate container marginsStep) t fun _ t' =>
        t'.Respects policy := by
      refine (h.findOrCreate container fun entry hentry => ?_).imp fun _ _ h₁ => h₁.1
      cases hentry
      exact hkeys "key" (by decide) _ _
    exact hmargins
  fact t id value key hkey h := by
    have hwritten : ∀ key ∈ factKeys, key ∈ writtenKeys := by decide
    exact h.setAttribute (hkeys key (hwritten key hkey) _ _)

end Layout

/-! ## Emissions -/

/-- A policy allows what an emission of a kind writes, with its path and its text. -/
structure Policy.Admits (policy : Policy) (kind : EmissionKind) (path text : String) : Prop where
  node : kind = .text → ∀ steps, AttributePath.readNode path = .ok steps →
    policy.AllowsSteps steps
  steps : kind ≠ .text → ∀ p, AttributePath.read path = .ok p → policy.AllowsSteps p.steps
  name : kind ∉ [.text, .style, .runtime] → ∀ p, AttributePath.read path = .ok p →
    ∀ name, p.name = some name → policy.AllowsAt p.steps name text

namespace Compile

/-- The keys under which attributes are written that are set at run time. -/
def runtimeKeys : List String := ["keyPath", "type", "value"]

/-- The keys that the compiler writes by itself, whatever the rules are. -/
def fixedKeys : List String := Layout.writtenKeys ++ runtimeKeys

section

variable {t : Tree α} {policy : Policy} (hfixed : ∀ key ∈ fixedKeys, policy.Frees key)

include hfixed

theorem respects_writeRuntime (h : t.Respects policy) (node : Nat) (name type text : String) :
    Ensures (writeRuntime node name type text) t fun _ t' => t'.Respects policy := by
  unfold writeRuntime
  refine Ensures.seq (h.findOrCreate node fun _ hentry => nomatch hentry) ?_
  rintro holder t₁ ⟨h₁, -⟩
  refine Ensures.seq (h₁.findOrCreate holder fun entry hentry => ?_) ?_
  · cases hentry
    exact hfixed "keyPath" (by decide) _ _
  · rintro entry t₂ ⟨h₂, -⟩
    have htype := h₂.setAttribute (x := entry) (hfixed "type" (by decide) _ type)
    exact htype.setAttribute (hfixed "value" (by decide) _ text)

theorem respects_writeAt (h : t.Respects policy) {kind : EmissionKind} {path : AttributePath}
    {text : String} (hsteps : policy.AllowsSteps path.steps)
    (hname : kind ∉ [.style, .runtime] → ∀ name, path.name = some name →
      policy.AllowsAt path.steps name text) (runtimeType : Option String) (node : Nat) :
    Ensures (writeAt kind runtimeType node path text) t fun _ t' => t'.Respects policy := by
  unfold writeAt
  split
  · exact h
  · rename_i name hnamed
    refine Ensures.seq (h.walkPath hsteps node) ?_
    rintro target t₁ ⟨h₁, htarget⟩
    split
    · exact h₁.modifyNode fun _ => ⟨rfl, rfl⟩
    · exact respects_writeRuntime hfixed h₁ target _ _ text
    · -- only here is the key of the path the key of an attribute
      rename_i hstyle hruntime
      have hother : kind ∉ [.style, .runtime] := by
        rw [List.mem_cons, List.mem_singleton, not_or]
        exact ⟨hstyle, hruntime⟩
      exact h₁.setAt htarget (hname hother name hnamed)

/-- An emission writes to where its path leads, under the key that the path ends with. -/
theorem respects_emission (h : t.Respects policy) {e : Emission} {path text : String} {node : Nat}
    (hadmits : policy.Admits e.kind path text) {step : Edit α Unit}
    (hstep : emission e path text node = .ok step) :
    Ensures step t fun _ t' => t'.Respects policy := by
  unfold emission at hstep
  split at hstep
  · rename_i hkind
    -- a path of nodes alone ends in a text
    cases hread : AttributePath.readNode path with
    | error e =>
      rw [hread] at hstep
      cases hstep
    | ok steps =>
      rw [hread] at hstep
      cases hstep
      refine Ensures.seq (h.walkPath (hadmits.node hkind steps hread) node) ?_
      rintro target t₁ ⟨h₁, -⟩
      exact h₁.modifyNode fun _ => ⟨rfl, rfl⟩
  · rename_i hkind
    -- any other path ends in a name, if it has one
    cases hread : AttributePath.read path with
    | error e =>
      rw [hread] at hstep
      cases hstep
    | ok p =>
      rw [hread] at hstep
      cases hstep
      refine respects_writeAt hfixed h (hadmits.steps hkind p hread) (fun hother => ?_) _ node
      refine hadmits.name ?_ p hread
      rw [List.mem_cons, not_or]
      exact ⟨hkind, hother⟩

end

/-! ## Rules -/

variable [Scalar α]

/-- The renderings for an emission of a value: for its states if the emission is for states. -/
inductive Renders (setting : Setting α) (scope : Scope) (v : Value α) (e : Emission) :
    Rendering α → Prop
  | whole (h : e.kind ≠ .state) :
    Renders setting scope v e (valueRendering setting v scope SortedMap.empty)
  | state {state : Interaction} {own : Value α} (h : e.kind = .state)
    (hmem : (state, own) ∈ v.stateValues) :
    Renders setting scope v e
      (valueRendering setting own scope (SortedMap.singleton "state" state.name))

/-- Some resources are in use, and maybe others. -/
def UsesMore (used used' : TextSet) : Prop :=
  ∀ key, used.contains key = true → used'.contains key = true

/-- Rules keep to a policy for the resources in use: a blueprint in its keys, and an emission in
what it writes for a value that counts as used. -/
structure Governs (setting : Setting α) (policy : TextSet → Policy) : Prop where
  mono : ∀ used used', UsesMore used used' → ∀ name key value,
    policy used name key value → policy used' name key value
  fixed : ∀ key ∈ fixedKeys, ∀ used, (policy used).Frees key
  elements : ∀ rule ∈ setting.book.elementRules, ∀ b, rule.template = some b →
    ∀ key ∈ b.keys, ∀ used, (policy used).Frees key
  attributes : ∀ rule ∈ setting.book.attributeRules, ∀ raw v, setting.resources.read raw = .ok v →
    v.kind.isA rule.kind = true → ∀ used, (∀ key ∈ v.keys, used.contains key = true) →
    ∀ e ∈ rule.emit, ∀ scope r, Renders setting scope v e r →
      (policy used).Admits e.kind (r.render e.path) (r.render e.template)

/-- A step uses nothing, and a tree that respects a policy goes on to do so. -/
structure Obeys (policy : Policy) (s s' : Pass α) : Prop where
  used : s'.used = s.used
  respects : s.tree.Respects policy → s'.tree.Respects policy

/-- A tree that respects the policy for what is in use goes on to do so. -/
def Upholds (policy : TextSet → Policy) (s s' : Pass α) : Prop :=
  s.tree.Respects (policy s.used) → s'.tree.Respects (policy s'.used)

omit [Scalar α] in
theorem composes_obeys (policy : Policy) :
    Composes (Obeys policy : Pass α → Pass α → Prop) where
  refl _ := ⟨rfl, id⟩
  trans h h' := ⟨h'.used.trans h.used, fun hs => h'.respects (h.respects hs)⟩

omit [Scalar α] in
theorem composes_upholds (policy : TextSet → Policy) :
    Composes (Upholds policy : Pass α → Pass α → Prop) where
  refl _ := id
  trans h h' hs := h' (h hs)

variable {setting : Setting α} {file : String} {policy : TextSet → Policy}

omit [Scalar α] in
/-- What keeps to every policy on the tree keeps to those for what is in use. -/
theorem upholds_edit {step : Edit α β}
    (h : ∀ t used, t.Respects (policy used) →
      Ensures step t fun _ t' => t'.Respects (policy used)) :
    Leads (Upholds policy) (Compile.edit step) :=
  Leads.edit fun s hs => h s.tree s.used hs

theorem obeys_emit {π : Policy} (hfixed : ∀ key ∈ fixedKeys, π.Frees key) {scope : Scope}
    {v : Value α} {e : Emission}
    (hadmits : ∀ r, Renders setting scope v e r →
      π.Admits e.kind (r.render e.path) (r.render e.template)) (node : Nat) :
    Leads (Obeys π) (emit setting node scope v e) := by
  -- one state or the whole value: each is a rendering that the policy admits
  have hone : ∀ own extras,
      π.Admits e.kind ((valueRendering setting own scope extras).render e.path)
        ((valueRendering setting own scope extras).render e.template) →
      Leads (Obeys π) (emitOne setting node scope extras own e) := fun own extras h =>
    Leads.lift_seq fun step hstep => Leads.edit fun s =>
      ⟨rfl, fun hs => respects_emission hfixed hs h hstep⟩
  unfold emit
  split
  · rename_i hkind
    refine Leads.forM (composes_obeys π) _ _ ?_
    rintro ⟨state, own⟩ hmem
    exact hone own _ (hadmits _ (.state hkind hmem))
  · rename_i hkind
    exact hone v _ (hadmits _ (.whole hkind))

omit [Scalar α] in
theorem mem_of_ruleFor? {book : RuleBook} {chain : List ElementRule} {name raw : String}
    {kind : ValueKind} {rule : AttributeRule} (h : ruleFor? book chain name kind raw = some rule) :
    rule ∈ book.attributeRules ∧ kind.isA rule.kind = true := by
  obtain ⟨r, -, hmatch⟩ := List.exists_of_findSome?_eq_some h
  refine ⟨RuleBook.mem_of_matchAttribute? hmatch, ?_⟩
  -- the rule that has been found accepts the value, and so its kind
  obtain ⟨rules, -, hfind⟩ := Option.bind_eq_some_iff.1 hmatch
  have haccepts := List.find?_some hfind
  unfold AttributeRule.accepts at haccepts
  rw [Bool.and_eq_true, Bool.and_eq_true] at haccepts
  exact haccepts.1.2

section

variable (hP : Governs setting policy)

include hP

/-- A value counts as used before any emission shows it. -/
theorem upholds_applyAttribute (chain : List ElementRule) (node : Nat) (scope : Scope)
    (name raw : String) :
    Leads (Upholds policy) (applyAttribute setting file chain node scope name raw) := by
  intro s _ s' h hs
  unfold applyAttribute at h
  split at h
  · obtain ⟨v, s₁, hread, hrest⟩ := run_seq h
    obtain ⟨hvalue, heq⟩ := run_atElement hread
    rw [heq] at hrest
    cases hrule : ruleFor? setting.book chain name v.kind raw with
    | none =>
      rw [hrule] at hrest
      cases hrest
      exact hs
    | some rule =>
      rw [hrule] at hrest
      obtain ⟨_, s₂, huse, hemit⟩ := run_seq hrest
      cases huse
      obtain ⟨hmem, hkind⟩ := mem_of_ruleFor? hrule
      -- all that follows is judged for the larger set, in which the value is
      have hkeys : ∀ key ∈ v.keys, (v.keys.foldl TextSet.add s.used).contains key = true :=
        fun key hkey => contains_foldl_add.2 (Or.inr hkey)
      have hwritten : Obeys (policy (v.keys.foldl TextSet.add s.used)) _ s' :=
        Leads.within (Leads.forM (composes_obeys _) rule.emit _ fun e he =>
          obeys_emit (fun key hkey => hP.fixed key hkey _) (fun r hr =>
            hP.attributes rule hmem raw v hvalue hkind _ hkeys e he scope r hr) node)
          file _ _ _ () s' hemit
      have hmore : s.tree.Respects (policy (v.keys.foldl TextSet.add s.used)) :=
        hs.mono (hP.mono _ _ fun key hkey => contains_foldl_add.2 (Or.inl hkey))
      rw [hwritten.used]
      exact hwritten.respects hmore
  · cases h
    exact hs

theorem upholds_applyAttributes (chain : List ElementRule) (node : Nat) (scope : Scope)
    (attributes : Attributes) :
    Leads (Upholds policy) (applyAttributes setting file chain node scope attributes) :=
  Leads.forM (composes_upholds policy) _ _ fun entry _ =>
    upholds_applyAttribute hP chain node scope entry.1 entry.2

/-- The blueprint of the rules for a tag keeps to the policy. -/
theorem frees_of_rulesFor {tag : String} {attributes : Attributes} {chain : List ElementRule}
    {b : Blueprint} (h : rulesFor setting file tag attributes = .ok (chain, b)) :
    ∀ used, ∀ key ∈ b.keys, (policy used).Frees key := by
  obtain ⟨-, rule, hrule, htemplate⟩ := mem_of_rulesFor h
  exact fun used key hkey => hP.elements rule hrule b htemplate key hkey used

theorem frees_of_base {b : Blueprint} (h : base setting = .ok b) :
    ∀ used, ∀ key ∈ b.keys, (policy used).Frees key := by
  -- the base is what an element of that kind without attributes is made of
  have hrules : ∃ chain, rulesFor setting "" setting.options.baseKind SortedMap.empty =
      .ok (chain, b) := by
    unfold base base? at h
    unfold rulesFor
    cases hrule : setting.book.matchElement? setting.options.baseKind SortedMap.empty with
    | none =>
      rw [hrule] at h
      cases h
    | some rule =>
      rw [hrule, Option.bind_some] at h
      dsimp only
      cases hblueprint : blueprintOf? (setting.book.chain rule SortedMap.empty) with
      | none =>
        rw [hblueprint] at h
        cases h
      | some blueprint =>
        rw [hblueprint] at h
        cases h
        exact ⟨_, rfl⟩
  obtain ⟨chain, hchain⟩ := hrules
  exact frees_of_rulesFor hP hchain

theorem upholds_make {p : Prepared α} {tag : String} {attributes : Attributes}
    (hrules : rulesFor setting file tag attributes = .ok (p.chain, p.blueprint))
    (parent : Option Nat) : Leads (Upholds policy) (make setting file p parent) := by
  have hmade : ∀ (b : Blueprint) (place : Option Nat) (render : Template → String),
      (∀ used, ∀ key ∈ b.keys, (policy used).Frees key) →
      Leads (Upholds policy) (Compile.edit (Tree.instantiate b place render) : Compile α Nat) :=
    fun b place render hb => upholds_edit fun t used h => h.instantiate (hb used) place render
  refine leads_make (composes_upholds policy) (fun place render => ?_)
    (fun chain b hchain place render => ?_) (fun _ _ => id) (fun chain node attributes => ?_)
    (fun _ s t laws hnotes hs => hs.of_notes hnotes) parent
  · exact hmade p.blueprint place render (frees_of_rulesFor hP hrules)
  · exact hmade b place render (frees_of_rulesFor hP hchain)
  · exact upholds_applyAttributes hP chain node p.scope attributes

theorem upholds_holdContent (p : Prepared α) (placed : Placed) (depth : WrapDepth) :
    Leads (Upholds policy) (holdContent setting p placed depth) := by
  refine leads_holdContent_of (composes_upholds policy) setting (fun node _ axis depth => ?_) depth
  refine upholds_edit fun t used h =>
    Layout.respects_applyWrapPower h (fun key hkey => ?_) node axis depth
  exact hP.fixed key (List.mem_append_left _ hkey) used

theorem upholds_opening (e : Element) (around : Option Scope) (parent : Option Nat)
    (depth : WrapDepth) :
    Leads (Upholds policy) (opening setting file e around parent depth) := by
  refine leads_opening (composes_upholds policy) (fun _ _ => id) (fun p hprepare => ?_)
    (fun _ _ => id) fun p placed => upholds_holdContent hP p placed depth
  obtain ⟨attributes, -, hrules, -⟩ := run_prepare hprepare
  exact upholds_make hP hrules parent

theorem upholds_arrangeChildren (p : Prepared α) (placed : Placed) (children : List (Child α)) :
    Leads (Upholds policy) (arrangeChildren setting p placed children) := by
  intro s _ s' h
  rcases run_arrangeChildren h with rfl | ⟨-, b, added, t, hbase, harrange, rfl⟩
  · exact id
  · intro hs
    have hlayable : Layout.Layable b fun t t' : Tree α =>
        t.Respects (policy s.used) → t'.Respects (policy s.used) :=
      Layout.layable_respects
        (fun key hkey => hP.fixed key (List.mem_append_left _ hkey) s.used)
        (frees_of_base hP hbase s.used)
    have harranged := hlayable.arrange (containerOf p.chain) placed.inner p.params children s.tree
    rw [harrange] at harranged
    exact harranged hs

/-- What the rules keep to is kept by every element. -/
theorem spans_upholds : Spans setting file (Upholds policy) where
  toComposes := composes_upholds policy
  opening := upholds_opening hP
  arrange := upholds_arrangeChildren hP

end

end Compile

namespace Compilation

variable [Scalar α] {setting : Setting α} {file : String} {root : Element} {c : Compilation α}

/-- The tree of a compilation respects the policy that the rules keep to, for the resources that it
uses. -/
theorem respects_of_ofElement {policy : TextSet → Policy} (hP : Compile.Governs setting policy)
    (h : ofElement setting file root = .ok c) : c.tree.Respects (policy c.used) := by
  obtain ⟨child, s, hrun, -, rfl⟩ := exists_pass h
  exact Compile.leads_element (Compile.spans_upholds hP) root none none {} (start file) child s hrun
    (Tree.Respects.empty file _)

end Compilation

end LayoutCompiler
