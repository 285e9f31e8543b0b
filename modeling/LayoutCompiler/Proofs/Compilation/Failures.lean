import LayoutCompiler.Compilation.Elements
import LayoutCompiler.Proofs.Data.Records
/-!
# Kinds of failures

Whatever goes wrong while styles, resources and rules are read, it is a failure of reading: it is
not that a constraint joins nodes of different trees, nor that a path is malformed. `FailsFor` says
for what reasons a result can be a failure.

* `unresolved_merge`, `unresolved_read`, `unresolved_params`: styles and the values of attributes.
* `reading_prepare`: all that is known about an element before anything is made of it.
* `malformed_emission`: the paths of emissions.
-/

namespace LayoutCompiler

variable {α β γ : Type}

/-! ## Failures -/

/-- If there is a failure, it has a property. -/
def FailsFor (P : Failure → Prop) (r : Outcome β) : Prop := ∀ e, r = .error e → P e

namespace FailsFor

variable {P Q : Failure → Prop} {r : Outcome β}

theorem ok (v : β) : FailsFor P (.ok v : Outcome β) := by
  intro e h
  cases h

theorem error {e : Failure} (he : P e) : FailsFor P (.error e : Outcome β) := by
  intro e' h
  cases h
  exact he

theorem mono (h : FailsFor P r) (himp : ∀ e, P e → Q e) : FailsFor Q r :=
  fun e he => himp e (h e he)

/-- What comes next is only looked at if there is no failure before it. -/
theorem seq {next : β → Outcome γ} (h : FailsFor P r)
    (hnext : ∀ v, r = .ok v → FailsFor P (next v)) : FailsFor P (r >>= next) := by
  cases r with
  | ok v => exact hnext v rfl
  | error e => exact error (h e rfl)

theorem bind {next : β → Outcome γ} (h : FailsFor P r) (hnext : ∀ v, FailsFor P (next v)) :
    FailsFor P (r >>= next) := h.seq fun v _ => hnext v

theorem map (h : FailsFor P r) (f : β → γ) : FailsFor P (r.map f) := by
  cases r with
  | ok v => exact ok (f v)
  | error e => exact error (h e rfl)

theorem mapError {f : Failure → Failure} (h : ∀ e, r = .error e → P (f e)) :
    FailsFor P (r.mapError f) := by
  cases r with
  | ok v => exact ok v
  | error e => exact error (h e rfl)

/-- A failure can be placed at an element when the property does not look at places. -/
theorem within (h : FailsFor P r)
    (hplace : ∀ file tag subject e, P e → P (Failure.within file tag subject e))
    (file tag : String) (subject : Option String) :
    FailsFor P (r.mapError (Failure.within file tag subject)) :=
  mapError fun e he => hplace file tag subject e (h e he)

theorem foldlM (f : β → γ → Outcome β) (hf : ∀ b c, FailsFor P (f b c)) (init : β) (xs : List γ) :
    FailsFor P (xs.foldlM f init) := by
  induction xs generalizing init with
  | nil => exact ok init
  | cons x xs ih => exact bind (hf init x) fun b => ih b

theorem mapM (f : γ → Outcome β) (hf : ∀ c, FailsFor P (f c)) (xs : List γ) :
    FailsFor P (xs.mapM f) := by
  induction xs with
  | nil => exact ok []
  | cons x xs ih =>
    rw [List.mapM_cons]
    exact bind (hf x) fun v => bind ih fun vs => ok (v :: vs)

end FailsFor

/-! ## Failures of layout and of reading -/

namespace Failure

/-- Whether a failure is, at heart, that a constraint joins nodes of different trees. -/
def isLayout : Failure → Bool
  | disjoint .. => true
  | context _ _ _ source => source.isLayout
  | _ => false

theorem isLayout_within (file tag : String) (subject : Option String) (e : Failure) :
    (e.within file tag subject).isLayout = e.isLayout := by
  cases e <;> rfl

/-- Whether a failure is that a reference stands for nothing, or that styles inherit in a circle. -/
def isUnresolved : Failure → Bool
  | reference .. => true
  | styleCycle .. => true
  | _ => false

/-- Whether a failure is, at heart, one of reading: a reference that stands for nothing, styles
that inherit in a circle, or no rule or blueprint for an element. -/
def isReading : Failure → Bool
  | reference .. => true
  | styleCycle .. => true
  | noElementRule .. => true
  | rule _ (.noTemplate _) => true
  | context _ _ _ source => source.isReading
  | _ => false

theorem isReading_within (file tag : String) (subject : Option String) (e : Failure) :
    (e.within file tag subject).isReading = e.isReading := by
  cases e <;> rfl

theorem isReading_of_isUnresolved {e : Failure} (h : e.isUnresolved = true) :
    e.isReading = true := by
  cases e <;> first | rfl | cases h

/-- The path of a failure that is, at heart, that a path is malformed. -/
def malformedPath? : Failure → Option String
  | rule _ (.malformedPath path) => some path
  | context _ _ _ source => source.malformedPath?
  | _ => none

theorem malformedPath?_within (file tag : String) (subject : Option String) (e : Failure) :
    (e.within file tag subject).malformedPath? = e.malformedPath? := by
  cases e <;> rfl

/-- A failure of reading is neither one of layout nor a malformed path. -/
theorem isLayout_of_isReading {e : Failure} (h : e.isReading = true) :
    e.isLayout = false ∧ e.malformedPath? = none := by
  induction e with
  | context file tag subject source ih => exact ih h
  | rule origin fault => cases fault <;> first | exact ⟨rfl, rfl⟩ | cases h
  | disjoint => cases h
  | _ => exact ⟨rfl, rfl⟩

end Failure

/-- If there is a failure, it is none of layout. -/
def Placeless (r : Outcome β) : Prop := ∀ e, r = .error e → e.isLayout = false

/-- If there is a failure, it is one of reading. -/
abbrev FailsReading (r : Outcome β) : Prop := FailsFor (fun e => e.isReading = true) r

/-- If there is a failure, it is one of references or styles. -/
abbrev FailsUnresolved (r : Outcome β) : Prop := FailsFor (fun e => e.isUnresolved = true) r

theorem FailsUnresolved.reading {r : Outcome β} (h : FailsUnresolved r) : FailsReading r :=
  h.mono fun _ => Failure.isReading_of_isUnresolved

namespace FailsReading

variable {r : Outcome β}

theorem placeless (h : FailsReading r) : Placeless r :=
  h.mono fun _ he => (Failure.isLayout_of_isReading he).1

theorem within (h : FailsReading r) (file tag : String) (subject : Option String) :
    FailsReading (r.mapError (Failure.within file tag subject)) :=
  FailsFor.within h (fun file tag subject e he => (e.isReading_within file tag subject).trans he)
    file tag subject

end FailsReading

/-! ## Reading styles and resources -/

theorem unresolved_climb (sheet : StyleSheet) (steps : Nat) (path : List (String × Style))
    (current : Style) : FailsUnresolved (sheet.climb steps path current) := by
  induction steps generalizing path current with
  | zero => exact FailsFor.ok _
  | succ steps ih =>
    unfold StyleSheet.climb
    split
    · exact FailsFor.ok _
    · dsimp only
      split
      · exact FailsFor.error rfl
      · split
        · exact FailsFor.ok _
        · exact ih _ _

theorem unresolved_chain (sheet : StyleSheet) (reference : String) :
    FailsUnresolved (sheet.chain reference) := by
  unfold StyleSheet.chain
  dsimp only
  split
  · exact FailsFor.error rfl
  · exact unresolved_climb _ _ _ _

theorem unresolved_merge (sheet : StyleSheet) (own : Attributes) :
    FailsUnresolved (sheet.merge own) := by
  unfold StyleSheet.merge
  split
  · exact FailsFor.ok _
  · exact (unresolved_chain _ _).map _

theorem unresolved_attribute (sheet : StyleSheet) (theme reference : String) :
    FailsUnresolved (Theme.attribute? sheet theme reference) := by
  unfold Theme.attribute?
  split
  · exact FailsFor.error rfl
  · dsimp only
    split
    · exact FailsFor.ok _
    · exact FailsFor.error rfl

theorem unresolved_orMissing (kind : ResourceKind) (name : String) (v : Option β) :
    FailsUnresolved (ResourceTable.orMissing kind name v) := by
  cases v with
  | some v => exact FailsFor.ok v
  | none => exact FailsFor.error rfl

theorem unresolved_lookUp (table : ResourceTable α) (text : String) (lead : ResourceTable.Lead)
    (name : String) : FailsUnresolved (table.lookUp text lead name) := by
  cases lead with
  | style => exact (unresolved_chain _ _).map _
  | layout => exact unresolved_orMissing _ _ _
  | font => exact unresolved_orMissing _ _ _
  | drawable => exact unresolved_orMissing _ _ _
  | string => exact unresolved_orMissing _ _ _
  | dimen => exact unresolved_orMissing _ _ _
  -- the platform's colours are a fixed list with a failure of its own
  | platformColor =>
    unfold ResourceTable.lookUp
    dsimp only
    split
    · exact FailsFor.ok _
    · exact FailsFor.error rfl
  | color =>
    unfold ResourceTable.lookUp
    dsimp only
    split
    · exact FailsFor.ok _
    · exact unresolved_orMissing _ _ _

section

variable [Scalar α]

theorem unresolved_readPlain (table : ResourceTable α) (raw text : String) :
    FailsUnresolved (table.readPlain raw text) := by
  unfold ResourceTable.readPlain
  split
  · exact FailsFor.ok _
  · split
    · exact unresolved_lookUp _ _ _ _
    · exact FailsFor.ok _

theorem unresolved_readWithin (table : ResourceTable α) (hops : Nat) (raw : String) :
    FailsUnresolved (table.readWithin hops raw) := by
  induction hops generalizing raw with
  | zero =>
    rw [ResourceTable.readWithin_zero]
    split
    · exact FailsFor.error rfl
    · exact unresolved_readPlain _ _ _
  | succ hops ih =>
    rw [ResourceTable.readWithin_succ]
    split
    · split
      · rename_i e he
        exact FailsFor.error (unresolved_attribute _ _ _ e he)
      · exact ih _
    · exact unresolved_readPlain _ _ _

theorem unresolved_read (table : ResourceTable α) (raw : String) :
    FailsUnresolved (table.read raw) :=
  unresolved_readWithin table _ raw

theorem unresolved_readLength (table : ResourceTable α) (attributes : Attributes) (name : String) :
    FailsUnresolved (Params.readLength table attributes name) := by
  unfold Params.readLength
  split
  · exact FailsFor.ok _
  · exact ((unresolved_read _ _).map _).map _

theorem unresolved_readSize (table : ResourceTable α) (attributes : Attributes) (name : String) :
    FailsUnresolved (Params.readSize table attributes name) := by
  unfold Params.readSize
  split
  · exact FailsFor.ok _
  · exact FailsFor.ok _
  · exact FailsFor.ok _
  · exact FailsFor.ok _
  · exact ((unresolved_read _ _).map _).map _

theorem unresolved_readInsets (table : ResourceTable α) (attributes : Attributes) (name : String) :
    FailsUnresolved (Params.readInsets table attributes name) := by
  unfold Params.readInsets
  refine (unresolved_readLength _ _ _).bind fun all => ?_
  refine FailsFor.foldlM _ (fun insets part => ?_) _ _
  refine (unresolved_readLength _ _ _).bind fun x => ?_
  cases x with
  | some x => exact FailsFor.ok _
  | none => exact FailsFor.ok _

theorem unresolved_params (table : ResourceTable α) (attributes : Attributes) :
    FailsUnresolved (Params.read table attributes) := by
  unfold Params.read
  refine (unresolved_readSize _ _ _).bind fun width => ?_
  refine (unresolved_readSize _ _ _).bind fun height => ?_
  refine (unresolved_readLength _ _ _).bind fun minWidth => ?_
  refine (unresolved_readLength _ _ _).bind fun minHeight => ?_
  refine (unresolved_readInsets _ _ _).bind fun margin => ?_
  refine (unresolved_readInsets _ _ _).bind fun padding => ?_
  exact FailsFor.ok _

end

theorem reading_read [Scalar α] (table : ResourceTable α) (raw : String) :
    FailsReading (table.read raw) := (unresolved_read table raw).reading

theorem reading_params [Scalar α] (table : ResourceTable α) (attributes : Attributes) :
    FailsReading (Params.read table attributes) := (unresolved_params table attributes).reading

theorem reading_rulesFor (setting : Setting α) (file tag : String) (attributes : Attributes) :
    FailsReading (Compile.rulesFor setting file tag attributes) := by
  unfold Compile.rulesFor
  split
  · exact FailsFor.error rfl
  · dsimp only
    split
    · exact FailsFor.error rfl
    · exact FailsFor.ok _

theorem reading_base (setting : Setting α) : FailsReading (Compile.base setting) := by
  unfold Compile.base
  split
  · exact FailsFor.ok _
  · exact FailsFor.error rfl

theorem reading_prepare [Scalar α] (setting : Setting α) (file : String) (e : Element)
    (around : Option Scope) : FailsReading (Compile.prepare setting file e around) := by
  unfold Compile.prepare
  refine ((unresolved_merge _ _).reading.within _ _ _).bind fun merged => ?_
  refine (reading_rulesFor _ _ _ _).bind fun rules => ?_
  refine ((reading_params _ _).within _ _ _).bind fun params => ?_
  exact FailsFor.ok _

/-! ## Reading paths -/

/-- A text that is no path is malformed. -/
theorem malformed_path (path : String) :
    FailsFor (· = AttributePath.malformed path) (AttributePath.read path) := by
  unfold AttributePath.read
  dsimp only
  split
  · exact FailsFor.error rfl
  · exact FailsFor.ok _

theorem malformed_nodePath (path : String) :
    FailsFor (· = AttributePath.malformed path) (AttributePath.readNode path) := by
  unfold AttributePath.readNode
  split
  · exact FailsFor.error rfl
  · exact FailsFor.ok _

/-- Whatever kind of path an emission has, a text that is none is malformed. -/
theorem malformed_emission (e : Emission) (path text : String) (node : Nat) :
    FailsFor (· = AttributePath.malformed path)
      (Compile.emission e path text node : Outcome (Edit α Unit)) := by
  unfold Compile.emission
  split
  · exact (malformed_nodePath path).map _
  · exact (malformed_path path).map _

end LayoutCompiler
