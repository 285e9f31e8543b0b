import LayoutCompiler.Proofs.Compilation.Leads
import LayoutCompiler.Proofs.Compilation.PathFaults
import LayoutCompiler.Proofs.Compilation.Trees
import LayoutCompiler.Proofs.Markup.Elements
/-!
# Blame

Which element a failed compilation reports, and why. Whether an element itself can be compiled, and
how it fails if it cannot, does not depend on what has been compiled before it or on where its nodes
go (`opening_failsAlike`). The elements are taken in the order in which they begin, so that the one
that is reported is the first that fails; nothing else fails but the layout of children for which
there is no spacer.

* `Fault`: what an element can be reported for.
* `opening_failsAlike`: by the steps for one element, that it fails alike wherever it is compiled.
* `judges_element`: by induction over elements, which one of a tree fails.
* `blame_of_ofElement`: what the failure of a compilation says.
-/

namespace LayoutCompiler

variable {α β γ : Type}

namespace Failure

/-- Whether a failure comes from outside of compilations: from storage, from the text of a layout,
from generated code, or from the input as a whole. -/
def isOutside : Failure → Bool
  | io _ | markup .. | generation _ | notFound _ | format _ => true
  | reference .. | styleCycle .. | noElementRule .. | rule .. | disjoint .. | context .. => false

/-- Whether a failure has no place yet: it is not about an element. -/
def isBare : Failure → Bool
  | context .. | noElementRule .. => false
  | _ => true

theorem within_of_isBare {e : Failure} (h : e.isBare = true) (file tag : String)
    (subject : Option String) : e.within file tag subject = context file tag subject e := by
  cases e <;> first | rfl | cases h

theorem isBare_of_isUnresolved {e : Failure} (h : e.isUnresolved = true) : e.isBare = true := by
  cases e <;> first | rfl | cases h

end Failure

namespace Compile

variable {P : Failure → Prop}

/-! ## Steps that fail alike -/

/-- Two steps end both, from whichever passes, or fail both with one failure that has a property. -/
def FailsAlike (P : Failure → Prop) (x : Compile α β) (y : Compile α γ) : Prop :=
  ∀ s s', (∃ r r', x s = .ok r ∧ y s' = .ok r') ∨ ∃ e, P e ∧ x s = .error e ∧ y s' = .error e

namespace FailsAlike

variable {δ ε : Type} {x : Compile α β} {y : Compile α γ}

theorem of_never (hx : FailsFor (fun _ => False) x) (hy : FailsFor (fun _ => False) y) :
    FailsAlike P x y := by
  intro s s'
  obtain ⟨v, s₁, hv⟩ := hx.ends s
  obtain ⟨w, s₂, hw⟩ := hy.ends s'
  exact .inl ⟨_, _, hv, hw⟩

theorem mono {Q : Failure → Prop} (h : FailsAlike P x y) (himp : ∀ e, P e → Q e) :
    FailsAlike Q x y := by
  intro s s'
  rcases h s s' with hok | ⟨e, he, herror⟩
  · exact .inl hok
  · exact .inr ⟨e, himp e he, herror⟩

theorem pure (v : β) (w : γ) :
    FailsAlike P (Pure.pure v : Compile α β) (Pure.pure w : Compile α γ) :=
  .of_never (.pure v) (.pure w)

theorem edit (f : Edit α β) (g : Edit α γ) : FailsAlike P (Compile.edit f) (Compile.edit g) :=
  .of_never (.edit f) (.edit g)

theorem modify (f g : Pass α → Pass α) :
    FailsAlike P (modify f : Compile α PUnit) (modify g : Compile α PUnit) :=
  .of_never (.modify f) (.modify g)

theorem bind (h : FailsAlike P x y) {f : β → Compile α δ} {g : γ → Compile α ε}
    (hnext : ∀ v w, FailsAlike P (f v) (g w)) : FailsAlike P (x >>= f) (y >>= g) := by
  intro s s'
  have hf : (x >>= f) s = (x s >>= fun r => f r.1 r.2) := rfl
  have hg : (y >>= g) s' = (y s' >>= fun r => g r.1 r.2) := rfl
  rw [hf, hg]
  rcases h s s' with ⟨⟨v, s₁⟩, ⟨w, s₂⟩, hx, hy⟩ | ⟨e, he, hx, hy⟩
  · rw [hx, hy]
    exact hnext v w s₁ s₂
  · rw [hx, hy]
    exact .inr ⟨e, he, rfl, rfl⟩

/-- What is read is the same for both steps. -/
theorem lift {r : Outcome β} (h : LayoutCompiler.FailsFor P r) {f : β → Compile α γ}
    {g : β → Compile α δ} (hnext : ∀ v, r = .ok v → FailsAlike P (f v) (g v)) :
    FailsAlike P ((liftM r : Compile α β) >>= f) ((liftM r : Compile α β) >>= g) := by
  cases r with
  | ok v => exact hnext v rfl
  | error e => exact fun s s' => .inr ⟨e, h e rfl, rfl, rfl⟩

theorem atElement {r : Outcome β} {file tag : String} {subject : Option String}
    (h : ∀ e, r = .error e → P (e.within file tag subject)) {f : β → Compile α γ}
    {g : β → Compile α δ} (hnext : ∀ v, r = .ok v → FailsAlike P (f v) (g v)) :
    FailsAlike P (Compile.atElement file tag subject r >>= f)
      (Compile.atElement file tag subject r >>= g) := by
  cases r with
  | ok v => exact hnext v rfl
  | error e => exact fun s s' => .inr ⟨_, h e rfl, rfl, rfl⟩

theorem within {Q : Failure → Prop} (h : FailsAlike Q x y) {file tag : String}
    {subject : Option String} (himp : ∀ e, Q e → P (e.within file tag subject)) :
    FailsAlike P (fun s => (x s).mapError (Failure.within file tag subject))
      (fun s => (y s).mapError (Failure.within file tag subject)) := by
  intro s s'
  rcases h s s' with ⟨r, r', hx, hy⟩ | ⟨e, he, hx, hy⟩
  · exact .inl ⟨r, r', by simp only [hx]; rfl, by simp only [hy]; rfl⟩
  · exact .inr ⟨_, himp e he, by simp only [hx]; rfl, by simp only [hy]; rfl⟩

theorem forM (xs : List γ) {f g : γ → Compile α PUnit}
    (h : ∀ x ∈ xs, FailsAlike P (f x) (g x)) : FailsAlike P (xs.forM f) (xs.forM g) := by
  induction xs with
  | nil => exact pure _ _
  | cons x xs ih =>
    obtain ⟨hx, hxs⟩ := List.forall_mem_cons.1 h
    exact bind hx fun _ _ => ih hxs

end FailsAlike

/-! ## The elements in order -/

/-- An element with its styles, or without them when they cannot be read. -/
def frameOf (setting : Setting α) (e : Element) : Frame :=
  { element := e
    attributes := (setting.resources.styles.merge e.attributes).toOption.getD e.attributes }

mutual

/-- The elements of a tree inside a scope, each with its own scope, in the order in which they
begin. -/
def places (setting : Setting α) : Element → Option Scope → List (Element × Option Scope)
  | ⟨tag, attributes, children, text⟩, around =>
    (⟨tag, attributes, children, text⟩, around) :: placesOf setting children
      (Scope.enter around (frameOf setting ⟨tag, attributes, children, text⟩))

/-- The elements of the trees of a list inside a scope. -/
def placesOf (setting : Setting α) : List Element → Scope → List (Element × Option Scope)
  | [], _ => []
  | e :: es, around => places setting e (some around) ++ placesOf setting es around

end

mutual

/-- The places are those of all elements of the tree, in the order of the document. -/
theorem map_fst_places (setting : Setting α) : ∀ (e : Element) (around : Option Scope),
    (places setting e around).map Prod.fst = e.inOrder
  | ⟨tag, attributes, children, text⟩, around => by
    rw [places, List.map_cons, map_fst_placesOf setting children, Element.inOrder]

theorem map_fst_placesOf (setting : Setting α) : ∀ (es : List Element) (around : Scope),
    (placesOf setting es around).map Prod.fst = Element.inOrderAll es
  | [], around => rfl
  | e :: es, around => by
    rw [placesOf, List.map_append, map_fst_places setting e, map_fst_placesOf setting es,
      Element.inOrderAll]

end

/-! ## The faults of an element -/

variable [Scalar α]

/-- The tags and attributes for which an element asks for rules: its own with all its attributes,
and those of a node around it with the attributes that need one. -/
inductive Asked (setting : Setting α) (file : String) (e : Element) (around : Option Scope) :
    String → Attributes → Prop
  | own {merged : Attributes} (hmerged : setting.resources.styles.merge e.attributes = .ok merged) :
      Asked setting file e around e.tag merged
  | outer {p : Prepared α} (hprepare : prepare setting file e around = .ok p) :
      Asked setting file e around setting.options.baseKind p.forcing

/-- What an element itself can be reported for. -/
inductive Fault (setting : Setting α) (file : String) (e : Element) (around : Option Scope) :
    Failure → Prop
  /-- Its styles cannot be read. -/
  | style {source : Failure} (h : setting.resources.styles.merge e.attributes = .error source) :
      Fault setting file e around (.context file e.tag (some Attributes.styleName) source)
  /-- No element rule matches. -/
  | unmatched {tag : String} {attributes : Attributes}
      (h : Asked setting file e around tag attributes)
      (hnone : setting.book.matchElement? tag attributes = none) :
      Fault setting file e around (.noElementRule file tag)
  /-- A rule matches, but there is no template on its chain. -/
  | untemplated {tag : String} {attributes : Attributes} {rule : ElementRule}
      (h : Asked setting file e around tag attributes)
      (hrule : setting.book.matchElement? tag attributes = some rule)
      (hnone : blueprintOf? (setting.book.chain rule attributes) = none) :
      Fault setting file e around (.rule rule.origin (.noTemplate rule.id))
  /-- Its box cannot be read. -/
  | box {tag : String} {attributes : Attributes} {source : Failure}
      (h : Asked setting file e around tag attributes)
      (hread : Params.read setting.resources attributes = .error source) :
      Fault setting file e around (.context file e.tag none source)
  /-- The value of an attribute cannot be read. -/
  | value {merged : Attributes} {name raw : String} {source : Failure}
      (hmerged : setting.resources.styles.merge e.attributes = .ok merged)
      (hentry : (name, raw) ∈ merged.entries)
      (hread : setting.resources.read raw = .error source) :
      Fault setting file e around (.context file e.tag (some name) source)
  /-- An emission for an attribute has no path. -/
  | emission {merged : Attributes} {name raw : String} {rule : AttributeRule} {em : Emission}
      {r : Rendering α} (hmerged : setting.resources.styles.merge e.attributes = .ok merged)
      (hentry : (name, raw) ∈ merged.entries) (hrule : rule ∈ setting.book.attributeRules)
      (hem : em ∈ rule.emit) :
      Fault setting file e around
        (.context file e.tag (some name) (AttributePath.malformed (r.render em.path)))

variable {setting : Setting α} {file : String} {e : Element} {around : Option Scope}
  {merged : Attributes} {p : Prepared α}

/-! ## Steps of an element -/

theorem faults_rulesFor {tag : String} {attributes : Attributes}
    (h : Asked setting file e around tag attributes) :
    LayoutCompiler.FailsFor (Fault setting file e around)
      (rulesFor setting file tag attributes) := by
  unfold rulesFor
  cases hrule : setting.book.matchElement? tag attributes with
  | none => exact .error (.unmatched h hrule)
  | some rule =>
    dsimp only
    cases hnone : blueprintOf? (setting.book.chain rule attributes) with
    | none => exact .error (.untemplated h hrule hnone)
    | some blueprint => exact .ok _

/-- A box that cannot be read, where the failure is placed at the element. -/
theorem fault_of_box {tag : String} {attributes : Attributes} {failure : Failure}
    (h : Asked setting file e around tag attributes)
    (hread : Params.read setting.resources attributes = .error failure) :
    Fault setting file e around (failure.within file e.tag none) := by
  have hbare := Failure.isBare_of_isUnresolved (unresolved_params _ _ failure hread)
  rw [Failure.within_of_isBare hbare]
  exact .box h hread

theorem faults_prepare : LayoutCompiler.FailsFor (Fault setting file e around)
    (prepare setting file e around) := by
  unfold prepare
  refine .seq (.mapError fun source hmerge => ?_) fun merged hmerged => ?_
  · have hbare := Failure.isBare_of_isUnresolved (unresolved_merge _ _ source hmerge)
    rw [Failure.within_of_isBare hbare]
    exact .style hmerge
  · have hown : Asked setting file e around e.tag merged := .own (eq_ok_of_mapError hmerged)
    refine (faults_rulesFor hown).bind fun rules => .bind ?_ fun params => .ok _
    exact .mapError fun source hread => fault_of_box hown hread

omit [Scalar α] in
/-- Whether an emission has a path does not depend on the node below which it is written. -/
theorem emission_alike (em : Emission) (path text : String) (node node' : Nat) :
    (∃ f g, (emission em path text node : Outcome (Edit α Unit)) = .ok f ∧
      (emission em path text node' : Outcome (Edit α Unit)) = .ok g) ∨
    ((emission em path text node : Outcome (Edit α Unit)) =
        .error (AttributePath.malformed path) ∧
      (emission em path text node' : Outcome (Edit α Unit)) =
        .error (AttributePath.malformed path)) := by
  -- whether a path can be read is decided by its text, before any node is looked at
  unfold emission
  split
  · cases hread : AttributePath.readNode path with
    | ok steps => exact .inl ⟨_, _, rfl, rfl⟩
    | error failure =>
      obtain rfl := malformed_nodePath path failure hread
      exact .inr ⟨rfl, rfl⟩
  · cases hread : AttributePath.read path with
    | ok steps => exact .inl ⟨_, _, rfl, rfl⟩
    | error failure =>
      obtain rfl := malformed_path path failure hread
      exact .inr ⟨rfl, rfl⟩

/-- A failure is that the path of an emission was rendered to no path. -/
def Pathless (α : Type) [Scalar α] (em : Emission) (failure : Failure) : Prop :=
  ∃ r : Rendering α, failure = AttributePath.malformed (r.render em.path)

theorem emitOne_failsAlike (node node' : Nat) (scope : Scope) (extras : SortedMap String)
    (v : Value α) (em : Emission) :
    FailsAlike (Pathless α em)
      (emitOne setting node scope extras v em) (emitOne setting node' scope extras v em) := by
  unfold emitOne
  generalize valueRendering setting v scope extras = r
  intro s s'
  rcases emission_alike (α := α) em (r.render em.path) (r.render em.template) node node' with
    ⟨f, g, hf, hg⟩ | ⟨hf, hg⟩
  · dsimp only
    rw [hf, hg]
    exact FailsAlike.edit f g s s'
  · dsimp only
    rw [hf, hg]
    exact .inr ⟨_, ⟨r, rfl⟩, rfl, rfl⟩

theorem emit_failsAlike (node node' : Nat) (scope : Scope) (v : Value α) (em : Emission) :
    FailsAlike (Pathless α em)
      (emit setting node scope v em) (emit setting node' scope v em) := by
  unfold emit
  split
  · exact .forM _ fun state _ => emitOne_failsAlike node node' scope _ _ em
  · exact emitOne_failsAlike node node' scope _ v em

theorem applyAttribute_failsAlike
    (hmerged : setting.resources.styles.merge e.attributes = .ok merged) {name raw : String}
    (hentry : (name, raw) ∈ merged.entries) {scope : Scope} (hscope : scope.here.element = e)
    (chain : List ElementRule) (node node' : Nat) :
    FailsAlike (Fault setting file e around)
      (applyAttribute setting file chain node scope name raw)
      (applyAttribute setting file chain node' scope name raw) := by
  unfold applyAttribute
  rw [hscope]
  split
  · refine .atElement (fun failure hread => ?_) fun v hv => ?_
    -- the value is read first, and only then can an emission of the rule fail
    · have hbare := Failure.isBare_of_isUnresolved (unresolved_read _ _ failure hread)
      rw [Failure.within_of_isBare hbare]
      exact .value hmerged hentry hread
    · cases hrule : ruleFor? setting.book chain name v.kind raw with
      | none => exact .pure _ _
      | some rule =>
        obtain ⟨r, -, hmatch⟩ := List.exists_of_findSome?_eq_some hrule
        have hmem := RuleBook.mem_of_matchAttribute? hmatch
        have hemit : FailsAlike (fun failure => ∃ em ∈ rule.emit, Pathless α em failure)
            (rule.emit.forM (emit setting node scope v))
            (rule.emit.forM (emit setting node' scope v)) :=
          .forM _ fun em hem => (emit_failsAlike node node' scope v em).mono
            fun failure hfailure => ⟨em, hem, hfailure⟩
        refine .bind (.modify _ _) fun _ _ => hemit.within ?_
        rintro _ ⟨em, hem, r, rfl⟩
        exact .emission hmerged hentry hmem hem
  · exact .pure _ _

theorem applyAttributes_failsAlike
    (hmerged : setting.resources.styles.merge e.attributes = .ok merged) {attributes : Attributes}
    (hentries : ∀ entry ∈ attributes.entries, entry ∈ merged.entries) {scope : Scope}
    (hscope : scope.here.element = e) (chain : List ElementRule) (node node' : Nat) :
    FailsAlike (Fault setting file e around)
      (applyAttributes setting file chain node scope attributes)
      (applyAttributes setting file chain node' scope attributes) :=
  .forM _ fun entry hentry =>
    applyAttribute_failsAlike hmerged (hentries entry hentry) hscope chain node node'

/-- All attributes that are applied to the nodes of an element are among those it has. -/
theorem attributes_of_prepare (h : prepare setting file e around = .ok p) :
    ∃ merged, setting.resources.styles.merge e.attributes = .ok merged ∧
      p.scope = Scope.enter around { element := e, attributes := merged } ∧
      (∀ entry ∈ p.forcing.entries, entry ∈ merged.entries) ∧
      ∀ entry ∈ p.rest.entries, entry ∈ merged.entries := by
  unfold prepare at h
  obtain ⟨merged, hmerged, h⟩ := bind_eq_ok_iff.1 h
  obtain ⟨⟨chain, blueprint⟩, -, h⟩ := bind_eq_ok_iff.1 h
  obtain ⟨params, -, h⟩ := bind_eq_ok_iff.1 h
  cases h
  exact ⟨merged, eq_ok_of_mapError hmerged, rfl, fun _ => List.mem_of_mem_filter,
    fun _ => List.mem_of_mem_filter⟩

theorem make_failsAlike (hp : prepare setting file e around = .ok p) (parent parent' : Option Nat) :
    FailsAlike (Fault setting file e around) (make setting file p parent)
      (make setting file p parent') := by
  obtain ⟨merged, hmerged, hscope, hforcing, hrest⟩ := attributes_of_prepare hp
  have hhere : p.scope.here = { element := e, attributes := merged } := by
    rw [hscope]
    cases around <;> rfl
  have helement : p.scope.here.element = e := congrArg Frame.element hhere
  unfold make
  split
  -- of one node: only its attributes can fail
  · unfold makeOne
    rw [hhere]
    refine .bind (.edit _ _) fun node node' => ?_
    refine .bind (applyAttributes_failsAlike hmerged (fun _ h => h) helement _ _ _) fun _ _ => ?_
    exact .pure _ _
  · unfold makeTwo
    -- of two nodes: the rules of the outer one come first, then the attributes of both, last the
    -- box
    refine .lift (faults_rulesFor (.outer hp)) fun rules _ => ?_
    refine .bind (.edit _ _) fun outer outer' => .bind (.edit _ _) fun inner inner' => ?_
    refine .bind (.modify _ _) fun _ _ => ?_
    refine .bind (applyAttributes_failsAlike hmerged hforcing helement _ _ _) fun _ _ => ?_
    refine .bind (applyAttributes_failsAlike hmerged hrest helement _ _ _) fun _ _ => ?_
    split
    · refine .atElement (fun failure hread => ?_) fun params _ => ?_
      · rw [helement]
        exact fault_of_box (.outer hp) hread
      · refine .bind (.of_never ?_ ?_) fun _ _ => .pure _ _
        · exact .forIn _ _ _ fun _ _ => .bind (.edit _) fun _ => .pure _
        · exact .forIn _ _ _ fun _ _ => .bind (.edit _) fun _ => .pure _
    · exact .pure _ _

/-- Whether and how an element itself fails does not depend on what has been compiled before it, on
the node that it is put under, nor on how many elements around it wrap their content. -/
theorem opening_failsAlike (setting : Setting α) (file : String) (e : Element)
    (around : Option Scope) (parent parent' : Option Nat) (depth depth' : WrapDepth) :
    FailsAlike (Fault setting file e around) (opening setting file e around parent depth)
      (opening setting file e around parent' depth') := by
  unfold opening
  refine .bind (.modify _ _) fun _ _ => ?_
  refine .lift faults_prepare fun p hp => ?_
  refine .bind (make_failsAlike hp parent parent') fun placed placed' => ?_
  refine .bind (.of_never (failsFor_declareOutlet _ _) (failsFor_declareOutlet _ _)) fun _ _ => ?_
  refine .bind (.of_never ?_ ?_) fun _ _ => .pure _ _
  · exact failsFor_holdContent setting p placed depth
  · exact failsFor_holdContent setting p placed' depth'

/-! ## The first failure -/

/-- The element itself can be compiled, wherever its nodes go and whatever came before it. -/
def Passes (setting : Setting α) (file : String) (e : Element) (around : Option Scope) : Prop :=
  ∀ parent depth s, ∃ r, opening setting file e around parent depth s = .ok r

/-- The element itself fails, wherever its nodes go and whatever came before it. -/
def Fails (setting : Setting α) (file : String) (e : Element) (around : Option Scope)
    (failure : Failure) : Prop :=
  ∀ parent depth s, opening setting file e around parent depth s = .error failure

/-- A failure is that of the first element that itself fails, or that there is no spacer for the
children of some element. -/
def Blamed (setting : Setting α) (file : String) (ps : List (Element × Option Scope))
    (failure : Failure) : Prop :=
  (failure = .noElementRule "rules" setting.options.baseKind ∧ base? setting = none) ∨
    ∃ before e around after, ps = before ++ (e, around) :: after ∧
      (∀ q ∈ before, Passes setting file q.1 q.2) ∧ Fails setting file e around failure ∧
      Fault setting file e around failure

variable {ps qs : List (Element × Option Scope)} {failure : Failure}

theorem Blamed.append (h : Blamed setting file ps failure) (qs : List (Element × Option Scope)) :
    Blamed setting file (ps ++ qs) failure := by
  rcases h with h | ⟨before, e, around, after, hplace, h⟩
  · exact .inl h
  · refine .inr ⟨before, e, around, after ++ qs, ?_, h⟩
    rw [hplace, List.append_assoc, List.cons_append]

theorem Blamed.behind (h : Blamed setting file qs failure)
    (hpasses : ∀ q ∈ ps, Passes setting file q.1 q.2) : Blamed setting file (ps ++ qs) failure := by
  rcases h with h | ⟨before, e, around, after, hplace, hbefore, h⟩
  · exact .inl h
  · refine .inr ⟨ps ++ before, e, around, after, ?_, ?_, h⟩
    · rw [hplace, List.append_assoc]
    · exact List.forall_mem_append.2 ⟨hpasses, hbefore⟩

/-- A run over elements ends, and then each of them itself can be compiled; or it fails, and then
the failure is that of one of them. -/
def Judges (setting : Setting α) (file : String) (ps : List (Element × Option Scope)) :
    Outcome β → Prop
  | .ok _ => ∀ q ∈ ps, Passes setting file q.1 q.2
  | .error failure => Blamed setting file ps failure

theorem Judges.nil (v : β) : Judges setting file [] (.ok v) :=
  fun _ hq => absurd hq List.not_mem_nil

/-- A run over some elements, and then one over others. -/
theorem Judges.seq {step : Compile α β} {next : β → Compile α γ} {s : Pass α}
    (h : Judges setting file ps (step s))
    (hnext : ∀ v s', step s = .ok (v, s') → Judges setting file qs (next v s')) :
    Judges setting file (ps ++ qs) ((step >>= next) s) := by
  have hbind : (step >>= next) s = (step s >>= fun r => next r.1 r.2) := rfl
  rw [hbind]
  -- a step that fails is blamed within its own places, so those behind it are never reached
  cases hs : step s with
  | error failure =>
    rw [hs] at h
    exact Blamed.append h qs
  | ok r =>
    rw [hs] at h
    have hrest := hnext r.1 r.2 hs
    show Judges setting file (ps ++ qs) (next r.1 r.2)
    cases hnext : next r.1 r.2 with
    | ok v =>
      rw [hnext] at hrest
      exact List.forall_mem_append.2 ⟨h, hrest⟩
    | error failure =>
      rw [hnext] at hrest
      exact Blamed.behind hrest h

/-- What follows a run hands back its result. -/
theorem Judges.map {step : Compile α β} {f : β → γ} {s : Pass α}
    (h : Judges setting file ps (step s)) :
    Judges setting file ps ((step >>= fun v => pure (f v)) s) := by
  have hrun := h.seq fun v s' _ => Judges.nil (f v, s')
  rwa [List.append_nil] at hrun

/-- An element itself ends or fails in every way in which it can be compiled. -/
theorem judges_opening (setting : Setting α) (file : String) (e : Element) (around : Option Scope)
    (parent : Option Nat) (depth : WrapDepth) (s : Pass α) :
    Judges setting file [(e, around)] (opening setting file e around parent depth s) := by
  cases hopening : opening setting file e around parent depth s with
  | ok r =>
    refine List.forall_mem_singleton.2 fun parent' depth' s' => ?_
    rcases opening_failsAlike setting file e around parent parent' depth depth' s s' with
      ⟨_, r, -, hr⟩ | ⟨failure, -, herror, -⟩
    · exact ⟨r, hr⟩
    · rw [hopening] at herror
      cases herror
  | error failure =>
    -- the failure of this run is that of every other one, so that one run shows the fault
    have hsame : ∀ parent' depth' s', Fault setting file e around failure ∧
        opening setting file e around parent' depth' s' = .error failure := by
      intro parent' depth' s'
      rcases opening_failsAlike setting file e around parent parent' depth depth' s s' with
        ⟨r, _, hr, -⟩ | ⟨failure', hfault, herror, herror'⟩
      · rw [hopening] at hr
        cases hr
      · rw [hopening] at herror
        obtain rfl := Except.error.inj herror
        exact ⟨hfault, herror'⟩
    refine .inr ⟨[], e, around, [], rfl, fun _ hq => absurd hq List.not_mem_nil, ?_, ?_⟩
    · exact fun parent' depth' s' => (hsame parent' depth' s').2
    · exact (hsame parent depth s).1

theorem scope_of_opening {parent : Option Nat} {depth : WrapDepth} {s s' : Pass α}
    {placed : Placed}
    (h : opening setting file e around parent depth s = .ok ((p, placed), s')) :
    p.scope = Scope.enter around (frameOf setting e) := by
  obtain ⟨merged, hmerged, hscope, -⟩ := attributes_of_prepare (run_opening h).1
  rw [hscope, frameOf, hmerged]
  rfl

/-- The layout of children fails only where there is no spacer. -/
theorem judges_arrangeChildren (setting : Setting α) (file : String) (p : Prepared α)
    (placed : Placed) (children : List (Child α)) (s : Pass α) :
    Judges setting file [] (arrangeChildren setting p placed children s) := by
  unfold arrangeChildren
  split
  · unfold base
    cases hbase : base? setting with
    | none => exact .inl ⟨rfl, hbase⟩
    | some blueprint => exact .nil _
  · exact .nil _

mutual

/-- An element is compiled in three phases: itself, its children, and their layout. -/
theorem judges_element : ∀ (e : Element) (around : Option Scope) (parent : Option Nat)
    (depth : WrapDepth) (s : Pass α),
    Judges setting file (places setting e around) (element setting file e around parent depth s)
  | ⟨tag, attributes, children, text⟩, around, parent, depth, s => by
    have hopening := judges_opening setting file ⟨tag, attributes, children, text⟩ around parent
      depth s
    rw [places, ← List.singleton_append]
    unfold element
    refine hopening.seq fun opened s₁ hr => ?_
    obtain ⟨p, placed⟩ := opened
    have hinside := judges_elements children p.scope placed.inner (depth.inside p.params) s₁
    -- the children are compiled in the scope that their places tell, now that the element is open
    rw [← scope_of_opening hr, ← List.append_nil (placesOf _ _ _)]
    refine hinside.seq fun inside s₂ _ => ?_
    exact (judges_arrangeChildren setting file p placed inside s₂).map

/-- The elements of a list are compiled one after the other. -/
theorem judges_elements : ∀ (es : List Element) (around : Scope) (x : Nat)
    (depth : WrapDepth) (s : Pass α),
    Judges setting file (placesOf setting es around) (elements setting file es around x depth s)
  | [], around, x, depth, s => by
    unfold elements
    exact .nil _
  | e :: es, around, x, depth, s => by
    rw [placesOf]
    unfold elements
    refine (judges_element e (some around) (some x) depth s).seq fun child s₁ _ => ?_
    exact (judges_elements es around x depth s₁).map

end

/-- An element is reported as one without a rule, by a rule without a template, or in a place of its
own, which is put around a failure once. -/
theorem Fault.cases_of (h : Fault setting file e around failure) :
    (∃ tag, failure = .noElementRule file tag) ∨
    (∃ tag attributes rule, setting.book.matchElement? tag attributes = some rule ∧
      blueprintOf? (setting.book.chain rule attributes) = none ∧
      failure = .rule rule.origin (.noTemplate rule.id)) ∨
    ∃ subject source, failure = .context file e.tag subject source ∧ source.isBare = true ∧
      source.isOutside = false := by
  -- what cannot be resolved has neither a place in the markup nor an outside cause
  have hplain : ∀ source : Failure, source.isUnresolved = true →
      source.isBare = true ∧ source.isOutside = false := by
    intro source hsource
    cases source <;> first | exact ⟨rfl, rfl⟩ | cases hsource
  cases h with
  | style hmerge => exact .inr (.inr ⟨_, _, rfl, hplain _ (unresolved_merge _ _ _ hmerge)⟩)
  | unmatched _ hnone => exact .inl ⟨_, rfl⟩
  | untemplated _ hrule hnone => exact .inr (.inl ⟨_, _, _, hrule, hnone, rfl⟩)
  | box _ hread => exact .inr (.inr ⟨_, _, rfl, hplain _ (unresolved_params _ _ _ hread)⟩)
  | value _ _ hread => exact .inr (.inr ⟨_, _, rfl, hplain _ (unresolved_read _ _ _ hread)⟩)
  | emission => exact .inr (.inr ⟨_, _, rfl, rfl, rfl⟩)

end Compile

/-! ## Compilations -/

namespace Compilation

variable [Scalar α]

/-- If a compilation fails, there is no spacer for the children of an element, or an element of the
layout itself fails, wherever it is compiled, and all elements that begin before it can be compiled
themselves. It is reported as an element without a rule, by a rule without a template, or in a place
of its own in the file, which is put around the failure once. Nothing is reported that comes from
outside of the compilation. -/
theorem blame_of_ofElement {setting : Setting α} {file : String} {root : Element}
    {failure : Failure} (h : ofElement setting file root = .error failure) :
    ((failure = .noElementRule "rules" setting.options.baseKind ∧ Compile.base? setting = none) ∨
      ∃ before e around after,
        Compile.places setting root none = before ++ (e, around) :: after ∧
        root.inOrder = before.map Prod.fst ++ e :: after.map Prod.fst ∧
        (∀ q ∈ before, Compile.Passes setting file q.1 q.2) ∧
        Compile.Fails setting file e around failure ∧
        Compile.Fault setting file e around failure ∧
        ((∃ tag, failure = .noElementRule file tag) ∨
          (∃ tag attributes rule, setting.book.matchElement? tag attributes = some rule ∧
            Compile.blueprintOf? (setting.book.chain rule attributes) = none ∧
            failure = .rule rule.origin (.noTemplate rule.id)) ∨
          ∃ subject source, failure = .context file e.tag subject source ∧
            source.isBare = true ∧ source.isOutside = false)) ∧
    failure.isOutside = false := by
  have hjudged : Compile.Judges setting file (Compile.places setting root none)
      (Compile.element setting file root none none {} (start file)) :=
    Compile.judges_element root none none {} (start file)
  cases hrun : Compile.element setting file root none none {} (start file) with
  | ok r =>
    rw [(ofElement_of_run hrun).2] at h
    cases h
  | error failure' =>
    rw [ofElement_of_fault hrun] at h
    obtain rfl := Except.error.inj h
    rw [hrun] at hjudged
    rcases hjudged with ⟨rfl, hbase⟩ | ⟨before, e, around, after, hplace, hbefore, hfails, hfault⟩
    · exact ⟨.inl ⟨rfl, hbase⟩, rfl⟩
    -- the places are the elements in the order of the document, so the split of one is a split of
    -- the other
    · have horder := Compile.map_fst_places setting root none
      rw [hplace, List.map_append, List.map_cons] at horder
      have hcases := hfault.cases_of
      refine ⟨.inr ⟨before, e, around, after, hplace, horder.symm, hbefore, hfails, hfault, hcases⟩,
        ?_⟩
      rcases hcases with ⟨tag, rfl⟩ | ⟨tag, attributes, rule, -, -, rfl⟩ |
        ⟨subject, source, rfl, -⟩ <;> rfl

end Compilation

namespace Sample

/-- A stack in a wrapper, the second child of which is as wide as a dimension that there is not; the
tag of the third one has no rule. -/
def faulty : Element :=
  { stack with
    children := [view [("android:layout_width", "match_parent")],
      view [("android:layout_width", "@dimen/none")], { tag := "Unheard" }] }

/-- The second child of the stack is reported: what begins before it passes, and it is in the place
that is put around the failure. -/
theorem blame_of_ofElement_faulty : ∃ failure,
    Compilation.ofElement setting file faulty = .error failure ∧
    failure = .context "sample.xml" "View" none (.reference "@dimen/none" (.missing .dimen)) ∧
    failure.isOutside = false ∧ ∃ before e around after,
      Compile.places setting faulty none = before ++ (e, around) :: after ∧
      faulty.inOrder = before.map Prod.fst ++ e :: after.map Prod.fst ∧ e.tag = "View" ∧
      (∀ q ∈ before, Compile.Passes setting file q.1 q.2) ∧
      Compile.Fails setting file e around failure := by
  have hrun : (match Compilation.ofElement setting file faulty with
      | .ok _ => none
      | .error failure => some failure) = some (.context "sample.xml" "View" none
        (.reference "@dimen/none" (.missing .dimen))) := by
    decide +kernel
  cases h : Compilation.ofElement setting file faulty with
  | ok c =>
    rw [h] at hrun
    cases hrun
  | error failure =>
    rw [h] at hrun
    have hfailure := Option.some.inj hrun
    obtain ⟨⟨hspacer, -⟩ | ⟨before, e, around, after, hplace, horder, hbefore, hfails, -, hcases⟩,
      houtside⟩ := Compilation.blame_of_ofElement h
    · simp only [hspacer, reduceCtorEq] at hfailure
    · refine ⟨failure, rfl, hfailure, houtside, before, e, around, after, hplace, horder, ?_,
        hbefore, hfails⟩
      rcases hcases with ⟨tag, htag⟩ | ⟨tag, attributes, rule, -, -, hrule⟩ |
        ⟨subject, source, hcontext, -⟩
      · simp only [htag, reduceCtorEq] at hfailure
      · simp only [hrule, reduceCtorEq] at hfailure
      · rw [hcontext] at hfailure
        injection hfailure

end Sample

end LayoutCompiler
