import LayoutCompiler.Proofs.Compilation.Leads
/-!
# Used resources

Which named resources a compilation reports as used: those that occur, at any depth, in the values
of the attributes for which there is a rule. What occurs in a value is said here by its constructors
(`Value.Mentions`), and which values count by the layout and the rules alone (`Applied`), without
running the compilation. The members of a font family do not count (`Value.HasMember`).

* `Drawable.mem_keys_iff`: the keys of a drawable are those that occur in it.
* `gains_element`: what compiling an element adds.
* `used_of_ofElement`: what a whole compilation uses, and what that leaves out.
-/

namespace LayoutCompiler

variable {α β : Type}

theorem Selector.mem_declared {s : Selector β} {i : Interaction} {x : β} (h : s.own? i = some x) :
    (i, x) ∈ s.declared := by
  refine List.mem_filterMap.2 ⟨i, ?_, by rw [h, Option.map_some]⟩
  cases i <;> decide

/-! ## What occurs in a value -/

/-- A key is that of a drawable or of one that occurs in it. -/
inductive Drawable.Mentions : Drawable α → String → Prop
  | namedColor (name : String) (c : Color) :
    Mentions (.namedColor name c) (ResourceKind.color.key name)
  | stateColor (name : String) (states : Selector Color) :
    Mentions (.stateColor name states) (ResourceKind.color.key name)
  | bitmap (name file : String) : Mentions (.bitmap name file) (ResourceKind.drawable.key name)
  | vector (name file : String) : Mentions (.vector name file) (ResourceKind.drawable.key name)
  | shape (name : String) (form : Shape α (Drawable α)) :
    Mentions (.shape name form) (ResourceKind.drawable.key name)
  | layers (name : String) (ds : List (Drawable α)) :
    Mentions (.layers name ds) (ResourceKind.drawable.key name)
  | states (name : String) (s : Selector (Drawable α)) :
    Mentions (.states name s) (ResourceKind.drawable.key name)
  | link (name : String) (d : Drawable α) : Mentions (.link name d) (ResourceKind.drawable.key name)
  | layer (name : String) {ds : List (Drawable α)} {d : Drawable α} {key : String} (h : d ∈ ds)
    (hd : d.Mentions key) : Mentions (.layers name ds) key
  | state (name : String) {s : Selector (Drawable α)} {i : Interaction} {d : Drawable α}
    {key : String} (h : s.own? i = some d) (hd : d.Mentions key) : Mentions (.states name s) key
  | target (name : String) {d : Drawable α} {key : String} (hd : d.Mentions key) :
    Mentions (.link name d) key
  | solid (name : String) {form : Shape α (Drawable α)} {d : Drawable α} {key : String}
    (h : form.solid = some d) (hd : d.Mentions key) : Mentions (.shape name form) key
  | strokeColor (name : String) {form : Shape α (Drawable α)} {d : Drawable α} {key : String}
    (h : form.strokeColor = some d) (hd : d.Mentions key) : Mentions (.shape name form) key
  | gradientStart (name : String) {form : Shape α (Drawable α)} {g : Gradient α (Drawable α)}
    {key : String} (h : form.gradient = some g) (hd : g.start.Mentions key) :
    Mentions (.shape name form) key
  | gradientFinish (name : String) {form : Shape α (Drawable α)} {g : Gradient α (Drawable α)}
    {key : String} (h : form.gradient = some g) (hd : g.finish.Mentions key) :
    Mentions (.shape name form) key

/-- A key is that of a value, or of a drawable that occurs in it. -/
inductive Value.Mentions : Value α → String → Prop
  | drawable {d : Drawable α} {key : String} (hd : d.Mentions key) : Mentions (.drawable d) key
  | font (f : FontResource) : Mentions (.font f) (ResourceKind.font.key f.name)

/-- A key is that of a member of a font family. -/
inductive Value.HasMember : Value α → String → Prop
  | member (name : String) {members : List Font} {f : Font} (h : f ∈ members) :
    HasMember (.font (.family name members)) (ResourceKind.font.key f.name)

namespace Drawable

variable {d : Drawable α} {key : String}

/-- What occurs in a drawable is itself or occurs in one of its components. -/
theorem mentions_iff :
    d.Mentions key ↔ d.resourceKey? = some key ∨ ∃ c ∈ d.components, c.Mentions key := by
  constructor
  · intro h
    -- a mention is by the drawable's own key or through one of its components
    cases h with
    | namedColor | stateColor | bitmap | vector | shape | layers | states | link => exact .inl rfl
    | layer _ h hd => exact .inr ⟨_, h, hd⟩
    | state _ h hd => exact .inr ⟨_, List.mem_map_of_mem (Selector.mem_declared h), hd⟩
    | target _ hd => exact .inr ⟨_, List.mem_singleton_self _, hd⟩
    | solid _ h hd => exact .inr ⟨_, by simp [components, h], hd⟩
    | strokeColor _ h hd => exact .inr ⟨_, by simp [components, h], hd⟩
    | gradientStart _ h hd => exact .inr ⟨_, by simp [components, h], hd⟩
    | gradientFinish _ h hd => exact .inr ⟨_, by simp [components, h], hd⟩
  · rintro (h | ⟨c, hc, hd⟩)
    · cases d with
      | color => cases h
      | namedColor | stateColor | bitmap | vector | shape | layers | states | link =>
        obtain rfl := Option.some.inj h
        constructor
    · cases d with
      | color | namedColor | stateColor | bitmap | vector => cases hc
      | layers name ds => exact .layer name hc hd
      | states name s =>
        obtain ⟨⟨i, c⟩, hi, rfl⟩ := List.mem_map.1 hc
        exact .state name (Selector.own?_of_mem_declared hi) hd
      | link name target =>
        obtain rfl := List.mem_singleton.1 hc
        exact .target name hd
      | shape name form =>
        simp only [components, List.mem_append, Option.mem_toList] at hc
        rcases hc with (hc | hc) | hc
        · exact .solid name hc hd
        · exact .strokeColor name hc hd
        · cases hg : form.gradient with
          | none => simp [hg] at hc
          | some g =>
            simp only [hg, List.mem_cons, List.not_mem_nil, or_false] at hc
            rcases hc with rfl | rfl
            · exact .gradientStart name hg hd
            · exact .gradientFinish name hg hd

/-- The keys of a drawable are those that occur in it. -/
theorem mem_keys_iff : ∀ {d : Drawable α}, key ∈ d.keys ↔ d.Mentions key := by
  intro d
  induction d using Drawable.keys.induct with
  | case1 d ih =>
    rw [keys, mentions_iff, List.mem_append, Option.mem_toList, List.mem_flatMap]
    refine or_congr Iff.rfl ⟨?_, ?_⟩
    · rintro ⟨⟨c, hc⟩, -, hkey⟩
      exact ⟨c, hc, (ih c hc).1 hkey⟩
    · rintro ⟨c, hc, hkey⟩
      exact ⟨⟨c, hc⟩, List.mem_attach _ _, (ih c hc).2 hkey⟩

end Drawable

theorem Value.mem_keys_iff {v : Value α} {key : String} : key ∈ v.keys ↔ v.Mentions key := by
  constructor
  · intro h
    cases v with
    | drawable d => exact .drawable (Drawable.mem_keys_iff.1 h)
    | font f =>
      obtain rfl := List.mem_singleton.1 h
      exact .font f
    | dimension | namedDimension | number | text | namedText | style | layout => cases h
  · intro h
    cases h with
    | drawable hd => exact Drawable.mem_keys_iff.2 hd
    | font f => exact List.mem_singleton_self _

/-! ## Which values count -/

namespace Compile

/-- A rule of a chain applies to an attribute, which has a value. -/
structure Takes [Scalar α] (setting : Setting α) (chain : List ElementRule) (name raw : String)
    (v : Value α) : Prop where
  not_style : name ≠ Attributes.styleName
  known : setting.book.knows name = true
  read : setting.resources.read raw = .ok v
  ruled : (ruleFor? setting.book chain name v.kind raw).isSome

/-- An attribute of an element is offered to a chain of rules: that of the element, or that of the
node around it if the attribute is one of those that need it. -/
inductive Offers (setting : Setting α) (file : String) (p : Prepared α) :
    List ElementRule → String → String → Prop
  | whole {name raw : String} (hnone : p.forcing.isEmpty = true)
    (h : (name, raw) ∈ p.scope.here.attributes.entries) : Offers setting file p p.chain name raw
  | outer {chain : List ElementRule} {b : Blueprint} {name raw : String}
    (hsome : p.forcing.isEmpty = false)
    (hrules : rulesFor setting file setting.options.baseKind p.forcing = .ok (chain, b))
    (h : (name, raw) ∈ p.forcing.entries) : Offers setting file p chain name raw
  | inner {name raw : String} (hsome : p.forcing.isEmpty = false)
    (h : (name, raw) ∈ p.rest.entries) : Offers setting file p p.chain name raw

/-- The elements of a layout, as they are prepared inside their scopes. -/
inductive Meets [Scalar α] (setting : Setting α) (file : String) :
    Element → Option Scope → Prepared α → Prop
  | here {e : Element} {around : Option Scope} {p : Prepared α}
    (h : prepare setting file e around = .ok p) : Meets setting file e around p
  | inside {e e' : Element} {around : Option Scope} {p q : Prepared α}
    (h : prepare setting file e around = .ok p) (he : e' ∈ e.children)
    (hq : Meets setting file e' (some p.scope) q) : Meets setting file e around q

variable [Scalar α]

/-- An attribute of an element has a value, to which a rule applies. -/
def Values (setting : Setting α) (file : String) (p : Prepared α) (v : Value α) : Prop :=
  ∃ chain name raw, Offers setting file p chain name raw ∧ Takes setting chain name raw v

variable {setting : Setting α} {file : String} {p : Prepared α} {placed : Placed}
  {parent : Option Nat} {s s' s'' : Pass α} {K K' : String → Prop}

/-! ## What steps add -/

/-- Some keys have been added to those in use, and no others. -/
def Gains (K : String → Prop) (s s' : Pass α) : Prop :=
  ∀ key, s'.used.contains key = true ↔ s.used.contains key = true ∨ K key

namespace Gains

omit [Scalar α]

theorem of_eq (h : s'.used = s.used) (hK : ∀ key, ¬ K key) : Gains K s s' := by
  intro key
  rw [h, or_iff_left (hK key)]

theorem after (h : Gains K s' s'') (heq : s'.used = s.used) : Gains K s s'' := by
  intro key
  rw [h key, heq]

theorem before (h : Gains K s s') (heq : s''.used = s'.used) : Gains K s s'' := by
  intro key
  rw [heq, h key]

theorem trans (h : Gains K s s') (h' : Gains K' s' s'') :
    Gains (fun key => K key ∨ K' key) s s'' := by
  intro key
  rw [h' key, h key, or_assoc]

theorem congr (h : Gains K s s') (hK : ∀ key, K key ↔ K' key) : Gains K' s s' := by
  intro key
  rw [h key, hK key]

end Gains

omit [Scalar α] in
/-- What only writes uses nothing. -/
theorem permits_used : Permits fun s s' : Pass α => s'.used = s.used where
  refl _ := rfl
  trans h h' := h'.trans h
  write _ _ _ := rfl

theorem contains_foldl_add {keys : List String} {used : TextSet} {key : String} :
    (keys.foldl TextSet.add used).contains key = true ↔
      used.contains key = true ∨ key ∈ keys := by
  induction keys generalizing used with
  | nil => simp
  | cons k ks ih =>
    have hadd : (used.add k).contains key = true ↔ used.contains key = true ∨ key = k := by
      unfold TextSet.add SortedMap.contains
      rw [SortedMap.get?_insert]
      by_cases h : k = key
      · simp [h]
      · simp [h, Ne.symm h]
    rw [List.foldl_cons, ih, hadd, List.mem_cons, or_assoc]

omit [Scalar α] in
theorem run_atElement {tag : String} {subject : Option String} {r : Outcome β} {v : β}
    (h : atElement file tag subject r s = .ok (v, s')) : r = .ok v ∧ s' = s := by
  cases r with
  | error e => cases h
  | ok w =>
    cases h
    exact ⟨rfl, rfl⟩

/-- An attribute adds what occurs in its value, if a rule applies to it. -/
theorem gains_applyAttribute {chain : List ElementRule} {node : Nat} {scope : Scope}
    {name raw : String}
    (h : applyAttribute setting file chain node scope name raw s = .ok ((), s')) :
    Gains (fun key => ∃ v, Takes setting chain name raw v ∧ v.Mentions key) s s' := by
  unfold applyAttribute at h
  split at h
  · rename_i hknown
    obtain ⟨v, s₁, hread, h⟩ := run_seq h
    obtain ⟨hvalue, heq⟩ := run_atElement hread
    cases hrule : ruleFor? setting.book chain name v.kind raw with
    | none =>
      rw [hrule] at h
      cases h
      refine Gains.of_eq (congrArg Pass.used heq) ?_
      rintro key ⟨w, htakes, -⟩
      obtain rfl := Except.ok.inj (hvalue.symm.trans htakes.read)
      have hruled := htakes.ruled
      rw [hrule] at hruled
      cases hruled
    | some rule =>
      rw [hrule] at h
      obtain ⟨_, s₂, huse, h⟩ := run_seq h
      -- the emissions write to the tree and note nothing
      have hwritten : s'.used = s₂.used :=
        Leads.within (Leads.forM permits_used.toComposes rule.emit _ fun e _ =>
          leads_emit permits_used setting node scope v e) file _ _ s₂ () s' h
      have hused : s₂.used = v.keys.foldl TextSet.add s.used := by
        cases huse
        rw [heq]
      intro key
      rw [hwritten, hused, contains_foldl_add, Value.mem_keys_iff]
      refine or_congr Iff.rfl ⟨fun hkey => ⟨v, ⟨hknown.1, hknown.2, hvalue, ?_⟩, hkey⟩, ?_⟩
      · rw [hrule]
        rfl
      -- the value is read but once, so any other one taken here is the same
      · rintro ⟨w, htakes, hkey⟩
        rwa [Except.ok.inj (hvalue.symm.trans htakes.read)]
  · rename_i hunknown
    cases h
    refine Gains.of_eq rfl ?_
    rintro key ⟨v, htakes, -⟩
    exact hunknown ⟨htakes.not_style, htakes.known⟩

/-- Attributes add what their values add, one after the other. -/
theorem gains_applyAttributes {chain : List ElementRule} {node : Nat} {scope : Scope}
    {attributes : Attributes}
    (h : applyAttributes setting file chain node scope attributes s = .ok ((), s')) :
    Gains (fun key => ∃ name raw, (name, raw) ∈ attributes.entries ∧
      ∃ v, Takes setting chain name raw v ∧ v.Mentions key) s s' := by
  unfold applyAttributes at h
  generalize attributes.entries = entries at h ⊢
  induction entries generalizing s with
  | nil =>
    cases h
    refine Gains.of_eq rfl ?_
    rintro key ⟨name, raw, hmem, -⟩
    cases hmem
  | cons entry entries ih =>
    obtain ⟨_, s₁, hfirst, hrest⟩ := run_seq h
    have hall := (gains_applyAttribute hfirst).trans (ih hrest)
    refine hall.congr fun key => ⟨?_, ?_⟩
    · rintro (⟨v, hv⟩ | ⟨name, raw, hmem, hv⟩)
      · exact ⟨_, _, List.mem_cons_self, v, hv⟩
      · exact ⟨name, raw, List.mem_cons_of_mem _ hmem, hv⟩
    · rintro ⟨name, raw, hmem, hv⟩
      rcases List.mem_cons.1 hmem with rfl | hmem
      · exact Or.inl hv
      · exact Or.inr ⟨name, raw, hmem, hv⟩

omit [Scalar α] in
theorem used_instantiate {b : Blueprint} {place : Option Nat} {render : Template → String}
    {node : Nat} (h : edit (Tree.instantiate b place render) s = .ok (node, s')) :
    s'.used = s.used := by
  cases h
  rfl

/-- The nodes of an element add what occurs in the values of its attributes. -/
theorem gains_make (h : make setting file p parent s = .ok (placed, s')) :
    Gains (fun key => ∃ v, Values setting file p v ∧ v.Mentions key) s s' := by
  unfold make at h
  split at h
  · rename_i hnone
    obtain ⟨node, s₁, hnode, hattributes, -⟩ := run_makeOne h
    have hall := (gains_applyAttributes hattributes).after (used_instantiate hnode)
    refine hall.congr fun key => ⟨?_, ?_⟩
    · rintro ⟨name, raw, hmem, v, hv, hkey⟩
      exact ⟨v, ⟨_, name, raw, .whole hnone hmem, hv⟩, hkey⟩
    · rintro ⟨v, ⟨chain, name, raw, hoffer, hv⟩, hkey⟩
      cases hoffer with
      | whole _ hmem => exact ⟨name, raw, hmem, v, hv, hkey⟩
      | outer hsome | inner hsome => simp [hnone] at hsome
  · rename_i hsome
    have hsome : p.forcing.isEmpty = false := Bool.eq_false_iff.2 hsome
    obtain ⟨chain, b, outer, inner, s₁, s₂, s₃, s₄, hchain, houter, hinner, hforcing, hrest, -,
      hrecord⟩ := run_makeTwo h
    -- making the nodes and recording the laws note no resource
    have hmade : s₂.used = s.used := (used_instantiate hinner).trans (used_instantiate houter)
    have hrecorded : s'.used = s₄.used := hrecord _ permits_used.toComposes fun _ _ _ _ _ => rfl
    have hall := ((gains_applyAttributes hforcing).after hmade).trans
      ((gains_applyAttributes hrest).before hrecorded)
    refine hall.congr fun key => ⟨?_, ?_⟩
    · rintro (⟨name, raw, hmem, v, hv, hkey⟩ | ⟨name, raw, hmem, v, hv, hkey⟩)
      · exact ⟨v, ⟨chain, name, raw, .outer hsome hchain hmem, hv⟩, hkey⟩
      · exact ⟨v, ⟨_, name, raw, .inner hsome hmem, hv⟩, hkey⟩
    · rintro ⟨v, ⟨chain', name, raw, hoffer, hv⟩, hkey⟩
      cases hoffer with
      | whole hnone => simp [hnone] at hsome
      | outer _ hchain' hmem =>
        obtain ⟨rfl, -⟩ := Prod.mk.inj (Except.ok.inj (hchain.symm.trans hchain'))
        exact Or.inl ⟨name, raw, hmem, v, hv, hkey⟩
      | inner _ hmem => exact Or.inr ⟨name, raw, hmem, v, hv, hkey⟩

/-- Opening an element adds what occurs in the values of its attributes. -/
theorem gains_opening {e : Element} {around : Option Scope} {depth : WrapDepth}
    (h : opening setting file e around parent depth s = .ok ((p, placed), s')) :
    prepare setting file e around = .ok p ∧
      Gains (fun key => ∃ v, Values setting file p v ∧ v.Mentions key) s s' := by
  obtain ⟨hprepare, s₁, s₂, hmake, hdeclare, hhold⟩ := run_opening h
  have hdeclared : s₂.used = s₁.used :=
    leads_declareOutlet permits_used.toComposes (fun _ _ => rfl) p placed s₁ _ s₂ hdeclare
  have hheld : s'.used = s₂.used :=
    leads_holdContent permits_used setting p placed depth s₂ _ s' hhold
  exact ⟨hprepare, ((gains_make hmake).before hdeclared).before hheld⟩

theorem used_arrangeChildren {children : List (Child α)}
    (h : arrangeChildren setting p placed children s = .ok ((), s')) : s'.used = s.used := by
  rcases run_arrangeChildren h with rfl | ⟨-, b, added, t, -, -, rfl⟩
  · rfl
  · rfl

mutual

/-- An element adds what occurs in the values of its attributes and of those inside it. -/
theorem gains_element : ∀ (e : Element) (around : Option Scope) (parent : Option Nat)
    (depth : WrapDepth) (s s' : Pass α) (child : Child α),
    element setting file e around parent depth s = .ok (child, s') →
    Gains (fun key => ∃ q, Meets setting file e around q ∧
      ∃ v, Values setting file q v ∧ v.Mentions key) s s'
  | ⟨tag, attributes, es, text⟩, around, parent, depth, s, s', child, hrun => by
    obtain ⟨p, placed, s₁, inside, s₂, hopening, helements, harrange, -⟩ := run_element hrun
    obtain ⟨hprepare, hopened⟩ := gains_opening hopening
    have hinside := gains_elements es p.scope placed.inner _ s₁ s₂ inside helements
    have hall := hopened.trans (hinside.before (used_arrangeChildren harrange))
    refine hall.congr fun key => ⟨?_, ?_⟩
    · rintro (hv | ⟨e', he', q, hq, hv⟩)
      · exact ⟨p, .here hprepare, hv⟩
      · exact ⟨q, .inside hprepare he' hq, hv⟩
    · rintro ⟨q, hq, hv⟩
      -- an element is prepared in one way only
      cases hq with
      | here h =>
        obtain rfl := Except.ok.inj (hprepare.symm.trans h)
        exact Or.inl hv
      | inside h he' hq =>
        obtain rfl := Except.ok.inj (hprepare.symm.trans h)
        exact Or.inr ⟨_, he', q, hq, hv⟩

theorem gains_elements : ∀ (es : List Element) (around : Scope) (x : Nat) (depth : WrapDepth)
    (s s' : Pass α) (children : List (Child α)),
    elements setting file es around x depth s = .ok (children, s') →
    Gains (fun key => ∃ e ∈ es, ∃ q, Meets setting file e (some around) q ∧
      ∃ v, Values setting file q v ∧ v.Mentions key) s s'
  | [], around, x, depth, s, s', children, hrun => by
    unfold elements at hrun
    cases hrun
    refine Gains.of_eq rfl ?_
    rintro key ⟨e, he, -⟩
    cases he
  | e :: es, around, x, depth, s, s', children, hrun => by
    obtain ⟨child, s₁, rest, helement, helements, -⟩ := run_elements_cons hrun
    have hfirst := gains_element e (some around) (some x) depth s s₁ child helement
    have hrest := gains_elements es around x depth s₁ s' rest helements
    refine (hfirst.trans hrest).congr fun key => ?_
    rw [List.exists_mem_cons_iff]

end

end Compile

/-! ## Whole compilations -/

namespace Compilation

variable [Scalar α] {setting : Setting α} {file : String} {root : Element} {c : Compilation α}

/-- A value of an attribute of a layout, to which a rule applies. -/
def Applied (setting : Setting α) (file : String) (root : Element) (v : Value α) : Prop :=
  ∃ p, Compile.Meets setting file root none p ∧ Compile.Values setting file p v

/-- What a compilation uses are the resources that occur in the values to which rules apply. The
members of a font family are not among them; so if these are to count as well, what a compilation
uses is complete exactly when every such member occurs in some value by itself. -/
theorem used_of_ofElement (h : ofElement setting file root = .ok c) :
    (∀ key, c.used.contains key = true ↔
      ∃ v, Applied setting file root v ∧ v.Mentions key) ∧
    ((∀ key, c.used.contains key = true ↔
        ∃ v, Applied setting file root v ∧ (v.Mentions key ∨ v.HasMember key)) ↔
      ∀ v key, Applied setting file root v → v.HasMember key →
        ∃ w, Applied setting file root w ∧ w.Mentions key) := by
  have hused : ∀ key, c.used.contains key = true ↔
      ∃ v, Applied setting file root v ∧ v.Mentions key := by
    rcases ofElement_cases setting file root with ⟨child, s, hrun, -, hok⟩ | ⟨e, herror, -⟩
    · rw [hok] at h
      obtain rfl := Except.ok.inj h
      intro key
      have hgains := Compile.gains_element root none none {} (start file) s child hrun key
      -- nothing is noted before the root
      have hstart : (start file : Pass α).used.contains key = false := rfl
      rw [hstart, Bool.false_eq_true, false_or] at hgains
      refine hgains.trans ⟨?_, ?_⟩
      · rintro ⟨q, hq, v, hv, hkey⟩
        exact ⟨v, ⟨q, hq, hv⟩, hkey⟩
      · rintro ⟨v, ⟨q, hq, hv⟩, hkey⟩
        exact ⟨q, hq, v, hv, hkey⟩
    · rw [herror] at h
      cases h
  refine ⟨hused, fun hall v key hv hkey => ?_, fun hmembers key => ?_⟩
  · exact (hused key).1 ((hall key).2 ⟨v, hv, Or.inr hkey⟩)
  · rw [hused key]
    constructor
    · rintro ⟨v, hv, hkey⟩
      exact ⟨v, hv, Or.inl hkey⟩
    · rintro ⟨v, hv, hkey | hkey⟩
      · exact ⟨v, hv, hkey⟩
      · exact hmembers v key hv hkey

/-! ## A font family -/

namespace Sample

/-- A view with a font, and a family of two faces for it. -/
def lettering : Setting ℚ :=
  { book := LayoutCompiler.Sample.book.addAttribute
      { id := "font", element := "View", kind := .font
        emit := [{ path := "family", template := "~family~" }] }
    resources :=
      { fonts := SortedMap.ofList [("body", .family "body"
          [⟨"regular", some "regular.ttf", 400, false⟩, ⟨"bold", some "bold.ttf", 700, false⟩])] }
    options := {} }

/-- The family is used, and its members are not. -/
theorem used_of_lettering :
    ∃ c, ofElement lettering "a.xml" (LayoutCompiler.Sample.view [("font", "@font/body")]) =
        .ok c ∧
      c.used.toList = ["font/body"] ∧
      (∃ v, Applied lettering "a.xml" (LayoutCompiler.Sample.view [("font", "@font/body")]) v ∧
        v.Mentions "font/body") ∧
      ¬ ∃ v, Applied lettering "a.xml" (LayoutCompiler.Sample.view [("font", "@font/body")]) v ∧
        v.Mentions "font/regular" := by
  have hrun : (ofElement lettering "a.xml" (LayoutCompiler.Sample.view
      [("font", "@font/body")])).toOption.any (fun c =>
        c.used.toList == ["font/body"] && c.used.contains "font/body" &&
          !c.used.contains "font/regular") = true := by
    decide +kernel
  obtain ⟨c, hc, hused⟩ := exists_ok hrun
  simp only [Bool.and_eq_true, beq_iff_eq, Bool.not_eq_true'] at hused
  obtain ⟨⟨hlist, hfamily⟩, hmember⟩ := hused
  obtain ⟨hall, -⟩ := used_of_ofElement hc
  refine ⟨c, hc, hlist, (hall _).1 hfamily, fun h => ?_⟩
  rw [(hall _).2 h] at hmember
  cases hmember

end Sample

end Compilation

end LayoutCompiler
