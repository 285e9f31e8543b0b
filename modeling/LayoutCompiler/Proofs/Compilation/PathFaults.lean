import LayoutCompiler.Proofs.Compilation.Failures
import LayoutCompiler.Proofs.Compilation.Unread
import LayoutCompiler.Proofs.Number.Rational
import LayoutCompiler.Proofs.Text.Renderings
/-!
# Malformed paths

A path without holes is the same text whatever a value says, so that the checks on loading see what
will be read later on. A rule that has passed them fails on a path with holes only, and nothing
else in a compilation reads paths.

* `Compile.failsFor_emission`, `Compile.failsFor_rule`: emissions that have passed the checks.
* `Compile.blames_element`: by induction over elements, what malformed paths come from.
* `Compilation.malformed_path_of_holes`: the checks are enough for paths without holes.
-/

namespace LayoutCompiler

variable {α β γ : Type}

/-! ## Steps -/

namespace Compile

/-- If the step fails, the failure has a property. -/
def FailsFor (P : Failure → Prop) (step : Compile α β) : Prop :=
  ∀ s, LayoutCompiler.FailsFor P (step s)

namespace FailsFor

variable {P Q : Failure → Prop} {step : Compile α β}

theorem mono (h : FailsFor P step) (himp : ∀ e, P e → Q e) : FailsFor Q step :=
  fun s => (h s).mono himp

theorem pure (v : β) : FailsFor P (Pure.pure v : Compile α β) := fun s => .ok (v, s)

theorem bind {next : β → Compile α γ} (h : FailsFor P step) (hnext : ∀ v, FailsFor P (next v)) :
    FailsFor P (step >>= next) :=
  fun s => (h s).bind fun r => hnext r.1 r.2

theorem lift {r : Outcome β} (h : LayoutCompiler.FailsFor P r) :
    FailsFor P (liftM r : Compile α β) := by
  intro s
  cases r with
  | ok v => exact .ok (v, s)
  | error e => exact .error (h e rfl)

theorem edit (step : Edit α β) : FailsFor P (Compile.edit step) := fun _ => .ok _

theorem modify (f : Pass α → Pass α) : FailsFor P (modify f : Compile α PUnit) := fun _ => .ok _

theorem forM (xs : List γ) (body : γ → Compile α PUnit) (h : ∀ x ∈ xs, FailsFor P (body x)) :
    FailsFor P (xs.forM body) := by
  induction xs with
  | nil => exact pure _
  | cons x xs ih =>
    obtain ⟨hx, hxs⟩ := List.forall_mem_cons.1 h
    exact bind hx fun _ => ih hxs

theorem forIn {σ : Type} (xs : List γ) (init : σ) (body : γ → σ → Compile α (ForInStep σ))
    (h : ∀ x r, FailsFor P (body x r)) : FailsFor P (forIn xs init body) := by
  induction xs generalizing init with
  | nil => exact pure _
  | cons x xs ih =>
    rw [List.forIn_cons]
    refine bind (h x init) fun next => ?_
    cases next with
    | done r => exact pure r
    | yield r => exact ih r

/-- A step that cannot fail for a reason ends. -/
theorem ends (h : FailsFor (fun _ => False) step) (s : Pass α) :
    ∃ v s', step s = .ok (v, s') := by
  cases hs : step s with
  | ok r => exact ⟨r.1, r.2, rfl⟩
  | error e => exact (h s e hs).elim

variable (hplace : ∀ file tag subject e, P e → P (Failure.within file tag subject e))
  (file tag : String) (subject : Option String)
include hplace

theorem atElement {r : Outcome β} (h : LayoutCompiler.FailsFor P r) :
    FailsFor P (Compile.atElement file tag subject r : Compile α β) := by
  intro s
  cases r with
  | ok v => exact .ok (v, s)
  | error e => exact .error (hplace file tag subject e (h e rfl))

theorem within (h : FailsFor P step) :
    FailsFor P fun s => (step s).mapError (Failure.within file tag subject) :=
  fun s => (h s).within hplace file tag subject

end FailsFor

/-! ## Steps that never fail -/

section

variable {P : Failure → Prop}

theorem failsFor_declareOutlet (p : Prepared α) (placed : Placed) :
    FailsFor P (declareOutlet p placed) := by
  unfold declareOutlet
  split
  · exact .pure _
  · exact .modify _

theorem failsFor_holdContent (setting : Setting α) (p : Prepared α) (placed : Placed)
    (depth : WrapDepth) : FailsFor P (holdContent setting p placed depth) := by
  unfold holdContent
  split
  · refine .bind (.forIn _ _ _ fun axis _ => ?_) fun _ => .pure _
    split
    · refine .bind (.edit _) fun _ => ?_
      split
      · exact .bind (.edit _) fun _ => .pure _
      · exact .pure _
    · exact .pure _
  · exact .pure _

end

/-! ## Emissions -/

section Emissions

variable [Scalar α] (setting : Setting α) (node : Nat) (scope : Scope) (v : Value α)

/-- A failure is that the path of an emission, which has holes, was rendered to no path. -/
def Misled (α : Type) [Scalar α] (e : Emission) (failure : Failure) : Prop :=
  e.path.isLiteral = false ∧
    ∃ r : Rendering α, failure = AttributePath.malformed (r.render e.path)

/-- An emission that has passed the checks fails for its holes only. -/
theorem failsFor_emission {e : Emission} (h : RuleDocument.pathIsReadable e = true)
    (r : Rendering α) (text : String) :
    LayoutCompiler.FailsFor (Misled α e)
      (emission e (r.render e.path) text node : Outcome (Edit α Unit)) := by
  cases hliteral : e.path.isLiteral with
  | false =>
    refine (malformed_emission e _ text node).mono ?_
    rintro _ rfl
    exact ⟨hliteral, r, rfl⟩
  | true =>
    -- what was checked is the text that is read now
    have hpath : e.path.write (fun _ => none) = r.render e.path :=
      Template.write_of_isLiteral hliteral _ _
    unfold RuleDocument.pathIsReadable at h
    rw [hliteral, hpath, Bool.not_true, Bool.false_or] at h
    unfold emission
    cases hkind : e.kind with
    | text =>
      simp only [hkind] at h ⊢
      cases hread : AttributePath.readNode (r.render e.path) with
      | ok steps => exact .ok _
      | error e =>
        rw [hread] at h
        cases h
    | _ =>
      simp only [hkind] at h ⊢
      cases hread : AttributePath.read (r.render e.path) with
      | ok path => exact .ok _
      | error e =>
        rw [hread] at h
        cases h

theorem failsFor_emitOne {e : Emission} (h : RuleDocument.pathIsReadable e = true)
    (extras : SortedMap String) :
    FailsFor (Misled α e) (emitOne setting node scope extras v e) :=
  .bind (.lift (failsFor_emission node h _ _)) fun step => .edit step

theorem failsFor_emit {e : Emission} (h : RuleDocument.pathIsReadable e = true) :
    FailsFor (Misled α e) (emit setting node scope v e) := by
  unfold emit
  split
  · exact .forM _ _ fun state _ => failsFor_emitOne setting node scope _ h _
  · exact failsFor_emitOne setting node scope v h _

/-- A rule that has passed the checks fails for the holes of one of its emissions. -/
theorem failsFor_rule {rule : AttributeRule} (h : RuleDocument.attributeFault? rule = none) :
    FailsFor (fun failure => ∃ e ∈ rule.emit, Misled α e failure)
      (rule.emit.forM (emit setting node scope v)) :=
  .forM _ _ fun e he => (failsFor_emit setting node scope v
    (RuleDocument.readable_of_sound h e he)).mono fun _ hfailure => ⟨e, he, hfailure⟩

end Emissions

/-! ## Elements -/

/-- If the failure is that a path is malformed, an emission of some rule has a path with holes that
was rendered to it. -/
def Blames [Scalar α] (setting : Setting α) (failure : Failure) : Prop :=
  ∀ path, failure.malformedPath? = some path → ∃ rule ∈ setting.book.attributeRules,
    ∃ e ∈ rule.emit, e.path.isLiteral = false ∧ ∃ r : Rendering α, r.render e.path = path

section Elements

variable [Scalar α] {setting : Setting α} (file : String)

theorem blames_within (file tag : String) (subject : Option String) (e : Failure)
    (h : Blames setting e) : Blames setting (e.within file tag subject) := by
  intro path hpath
  rw [Failure.malformedPath?_within] at hpath
  exact h path hpath

theorem blames_of_none {e : Failure} (h : e.malformedPath? = none) : Blames setting e := by
  intro path hpath
  rw [h] at hpath
  cases hpath

theorem blames_of_reading {r : Outcome β} (h : FailsReading r) :
    LayoutCompiler.FailsFor (Blames setting) r :=
  h.mono fun _ he => blames_of_none (Failure.isLayout_of_isReading he).2

variable (hvetted : ∀ rule ∈ setting.book.attributeRules, RuleDocument.attributeFault? rule = none)

include hvetted

theorem blames_applyAttribute (chain : List ElementRule) (node : Nat) (scope : Scope)
    (name raw : String) :
    FailsFor (Blames setting) (applyAttribute setting file chain node scope name raw) := by
  unfold applyAttribute
  split
  · refine .bind (.atElement blames_within _ _ _ (blames_of_reading (reading_read _ _))) fun v => ?_
    split
    · exact .pure _
    · rename_i rule hrule
      obtain ⟨r, -, hmatch⟩ := List.exists_of_findSome?_eq_some hrule
      have hmem := RuleBook.mem_of_matchAttribute? hmatch
      refine .bind (.modify _) fun _ => .within blames_within _ _ _ ?_
      refine (failsFor_rule setting node scope v (hvetted rule hmem)).mono ?_
      rintro _ ⟨e, he, hholes, r, rfl⟩ path hpath
      exact ⟨rule, hmem, e, he, hholes, r, Option.some.inj hpath⟩
  · exact .pure _

theorem blames_applyAttributes (chain : List ElementRule) (node : Nat) (scope : Scope)
    (attributes : Attributes) :
    FailsFor (Blames setting) (applyAttributes setting file chain node scope attributes) :=
  .forM _ _ fun entry _ => blames_applyAttribute file hvetted chain node scope entry.1 entry.2

theorem blames_make (p : Prepared α) (parent : Option Nat) :
    FailsFor (Blames setting) (make setting file p parent) := by
  unfold make
  split
  · unfold makeOne
    refine .bind (.edit _) fun node => ?_
    exact .bind (blames_applyAttributes file hvetted _ _ _ _) fun _ => .pure _
  · unfold makeTwo
    refine .bind (.lift (blames_of_reading (reading_rulesFor _ _ _ _))) fun rules => ?_
    refine .bind (.edit _) fun outer => .bind (.edit _) fun inner => .bind (.modify _) fun _ => ?_
    refine .bind (blames_applyAttributes file hvetted _ _ _ _) fun _ => ?_
    refine .bind (blames_applyAttributes file hvetted _ _ _ _) fun _ => ?_
    split
    -- the box is read from values, never from a path
    · have hparams : LayoutCompiler.FailsFor (Blames setting)
          (Params.read setting.resources p.forcing) := blames_of_reading (reading_params _ _)
      refine .bind (.atElement blames_within _ _ _ hparams) fun params => ?_
      refine .bind (.forIn _ _ _ fun axis _ => ?_) fun _ => .pure _
      exact .bind (.edit _) fun _ => .pure _
    · exact .pure _

theorem blames_opening (e : Element) (around : Option Scope) (parent : Option Nat)
    (depth : WrapDepth) :
    FailsFor (Blames setting) (opening setting file e around parent depth) := by
  unfold opening
  refine .bind (.modify _) fun _ => ?_
  refine .bind (.lift (blames_of_reading (reading_prepare _ _ _ _))) fun p => ?_
  refine .bind (blames_make file hvetted p parent) fun placed => ?_
  refine .bind (failsFor_declareOutlet p placed) fun _ => ?_
  exact .bind (failsFor_holdContent setting p placed depth) fun _ => .pure _

omit hvetted in
theorem blames_arrangeChildren (p : Prepared α) (placed : Placed) (children : List (Child α)) :
    FailsFor (Blames setting) (arrangeChildren setting p placed children) := by
  unfold arrangeChildren
  dsimp only
  split
  · refine .bind (.lift (blames_of_reading (reading_base _))) fun base => ?_
    exact .bind (.edit _) fun added => .modify _
  · exact .pure _

omit hvetted

mutual

theorem blames_element
    (hvetted : ∀ rule ∈ setting.book.attributeRules, RuleDocument.attributeFault? rule = none) :
    ∀ (e : Element) (around : Option Scope) (parent : Option Nat) (depth : WrapDepth),
      FailsFor (Blames setting) (element setting file e around parent depth)
  | ⟨tag, attributes, es, text⟩, around, parent, depth => by
    unfold element
    refine .bind (blames_opening file hvetted _ around parent depth) fun opened => ?_
    refine .bind (blames_elements hvetted es _ _ _) fun children => ?_
    exact .bind (blames_arrangeChildren _ _ _) fun _ => .pure _

theorem blames_elements
    (hvetted : ∀ rule ∈ setting.book.attributeRules, RuleDocument.attributeFault? rule = none) :
    ∀ (es : List Element) (around : Scope) (parent : Nat) (depth : WrapDepth),
      FailsFor (Blames setting) (elements setting file es around parent depth)
  | [], around, parent, depth => by
    unfold elements
    exact .pure _
  | e :: es, around, parent, depth => by
    unfold elements
    refine .bind (blames_element hvetted e _ _ _) fun child => ?_
    exact .bind (blames_elements hvetted es _ _ _) fun rest => .pure _

end

end Elements

end Compile

/-! ## Compilations -/

/-- Constraints fail for layout only. -/
theorem Tree.unmalformed_hosted [Scalar α] (t : Tree α) :
    FailsFor (fun e => e.malformedPath? = none) t.hosted := by
  unfold hosted
  refine .mapM _ (fun c => .map ?_ _) _
  unfold host
  split
  · exact .ok _
  · split
    · exact .error rfl
    · exact .ok _

theorem Markup.unmalformed_parse (document file : String) :
    FailsFor (fun e => e.malformedPath? = none) (parse document file) := by
  unfold parse
  split
  · exact .error rfl
  · rename_i events _
    cases ofEvents events with
    | ok root => exact .ok root
    | error fault => exact .error rfl

namespace Compilation

variable [Scalar α]

/-- The checks on loading are enough for paths without holes. A rule of a text that is accepted,
with such paths only, can be applied for any value at any node, whatever is known. In a compilation
with rules that have passed the checks, a malformed path is what a path with holes was rendered
to. -/
theorem malformed_path_of_holes :
    (∀ format origin text document, RuleDocument.read format origin text = .ok document →
      ∀ rule ∈ (document.withOrigin origin).attributes,
        (∀ e ∈ rule.emit, e.path.isLiteral = true) →
        ∀ (setting : Setting α) node scope v s, ∃ s',
          rule.emit.forM (Compile.emit setting node scope v) s = .ok ((), s')) ∧
    ∀ setting : Setting α,
      (∀ rule ∈ setting.book.attributeRules, RuleDocument.attributeFault? rule = none) →
      ∀ file text failure path, ofText setting file text = .error failure →
        failure.malformedPath? = some path → ∃ rule ∈ setting.book.attributeRules,
          ∃ e ∈ rule.emit, e.path.isLiteral = false ∧
            ∃ r : Rendering α, r.render e.path = path := by
  constructor
  · intro format origin text document hread rule hrule hliteral setting node scope v s
    have hsound := ((RuleDocument.loaded_of_read hread).2 rule hrule).sound
    -- a path without holes was checked when the rule was read, so no fault is left to it
    have hnever : Compile.FailsFor (fun _ => False)
        (rule.emit.forM (Compile.emit setting node scope v)) := by
      refine (Compile.failsFor_rule setting node scope v hsound).mono ?_
      rintro failure ⟨e, he, hholes, -⟩
      rw [hliteral e he] at hholes
      cases hholes
    obtain ⟨_, s', hs'⟩ := hnever.ends s
    exact ⟨s', hs'⟩
  · intro setting hvetted file text failure path hfailure
    -- outside the elements no path is read
    have hplain : ∀ {β : Type} {r : Outcome β}, FailsFor (fun e => e.malformedPath? = none) r →
        FailsFor (Compile.Blames setting) r := fun h => h.mono fun _ => Compile.blames_of_none
    have hblames : FailsFor (Compile.Blames setting) (ofText setting file text) := by
      unfold ofText ofElement
      refine .bind (hplain (Markup.unmalformed_parse text file)) fun root => ?_
      refine .bind (Compile.blames_element file hvetted root none none {} _) fun r => ?_
      dsimp only
      split
      · exact .bind ((hplain (Tree.unmalformed_hosted r.2.tree)).map _) fun _ => .ok _
      · exact .ok _
    exact hblames failure hfailure path

namespace Sample

/-- Elements of one kind, with an attribute whose value is put into the path, and one whose path
has no holes. -/
def strayingText : String :=
  "\x7b\"element\":[\x7b\"id\":\"V\",\"template\":\x7b\"name\":\"v\"\x7d\x7d]," ++
  "\"attribute\":[\x7b\"id\":\"a\",\"element\":\"V\"," ++
  "\"emit\":[\x7b\"path\":\"~value~/p\",\"template\":\"~value~\"\x7d]\x7d," ++
  "\x7b\"id\":\"b\",\"element\":\"V\"," ++
  "\"emit\":[\x7b\"path\":\"v[k=1]/p\",\"template\":\"~value~\"\x7d]\x7d]\x7d"

def straying : List (DataFormat × String × String) := [(.json, "a.json", strayingText)]

def strayed : Setting ℚ := { book := RuleBook.ofTexts straying, resources := {}, options := {} }

/-- The second rule can always be applied. The first attribute is put where its value says, which is
no path. -/
theorem malformed_path_of_holes_straying :
    (∃ document, RuleDocument.read .json "a.json" strayingText = .ok document ∧
      ∃ rule ∈ (document.withOrigin "a.json").attributes,
        (∀ e ∈ rule.emit, e.path.isLiteral = true) ∧ ∀ node scope v s, ∃ s',
          rule.emit.forM (Compile.emit strayed node scope v) s = .ok ((), s')) ∧
    ∃ failure, ofText strayed "a.xml" "<V a=\"x[\" b=\"y\"/>" = .error failure ∧
      failure.malformedPath? = some "x[/p" ∧ ∃ rule ∈ strayed.book.attributeRules,
        ∃ e ∈ rule.emit, e.path.isLiteral = false ∧
          ∃ r : Rendering ℚ, r.render e.path = "x[/p" := by
  constructor
  · have hsecond : (RuleDocument.read .json "a.json" strayingText).toOption.any (fun document =>
        (document.withOrigin "a.json").attributes.any fun rule =>
          rule.emit.all (·.path.isLiteral)) = true := by
      decide +kernel
    cases hread : RuleDocument.read .json "a.json" strayingText with
    | error e =>
      rw [hread] at hsecond
      cases hsecond
    | ok document =>
      rw [hread] at hsecond
      obtain ⟨rule, hrule, hall⟩ := List.any_eq_true.1 hsecond
      have hliteral := List.all_eq_true.1 hall
      exact ⟨document, rfl, rule, hrule, hliteral,
        malformed_path_of_holes.1 _ _ _ document hread rule hrule hliteral strayed⟩
  · have hrun : (match ofText strayed "a.xml" "<V a=\"x[\" b=\"y\"/>" with
        | .ok _ => none
        | .error failure => failure.malformedPath?) = some "x[/p" := by
      decide +kernel
    have hvetted : ∀ rule ∈ strayed.book.attributeRules,
        RuleDocument.attributeFault? rule = none :=
      fun rule hrule =>
        ((RuleBook.arranged_ofTexts_attributes straying).forall_mem rule hrule).sound
    cases hcompiled : ofText strayed "a.xml" "<V a=\"x[\" b=\"y\"/>" with
    | ok t =>
      rw [hcompiled] at hrun
      cases hrun
    | error failure =>
      rw [hcompiled] at hrun
      exact ⟨failure, rfl, hrun,
        malformed_path_of_holes.2 strayed hvetted _ _ failure _ hcompiled hrun⟩

end Sample

end Compilation

end LayoutCompiler
