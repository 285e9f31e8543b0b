import LayoutCompiler.Proofs.Rule.Matching
import Mathlib.Logic.Relation
/-!
# Matching values to rules

An attribute rule accepts the values of a kind and of all kinds under it, perhaps of one text only.
Of several rules that accept a value the one of the highest rank is taken. Ranks are numbers, but
they agree with what rules accept: a rule for one text ranks above all rules for any text, and of
two other rules the one for the narrower kind ranks above the other.

* `isA_iff_under`: the kinds above a kind are those met on the way up through direct supertypes.
* `priority_lt_of_guard`, `priority_lt_of_under`: what ranks stand for.
* `best_attribute_rule_of_history`: the rule for a value, whatever has been added to a book.
-/

namespace LayoutCompiler

/-! ## Kinds -/

namespace ValueKind

variable {a b : ValueKind}

/-- A kind is another one, or the other one is met on the way up from it. -/
def Under (a b : ValueKind) : Prop := Relation.ReflTransGen (fun a b => b ∈ a.supertypes) a b

theorem under_of_mem_climb {steps : Nat} (h : b ∈ climb steps a) : Under a b := by
  induction steps generalizing a with
  | zero => cases h
  | succ steps ih =>
    obtain ⟨above, habove, hb⟩ := List.mem_flatMap.1 h
    have hstep : Under a above := Relation.ReflTransGen.single habove
    rcases List.mem_cons.1 hb with rfl | hb
    · exact hstep
    · exact hstep.trans (ih hb)

theorem isA_of_mem_supertypes (h : b ∈ a.supertypes) : a.isA b = true := by
  have table : ∀ a ∈ all, ∀ b ∈ a.supertypes, a.isA b = true := by decide +kernel
  exact table a (mem_all a) b h

theorem isA_iff_under : a.isA b = true ↔ a.Under b := by
  constructor
  · intro h
    simp only [isA, ancestors, Bool.or_eq_true, beq_iff_eq, List.contains_iff_mem,
      List.mem_filter] at h
    rcases h with rfl | ⟨-, h⟩
    · exact Relation.ReflTransGen.refl
    · exact under_of_mem_climb h
  · intro h
    induction h with
    | refl => exact isA_refl a
    | tail _ hstep ih => exact isA_trans ih (isA_of_mem_supertypes hstep)

/-- No kind is so narrow that it would outrank a rule for one text. -/
theorem depth_lt_exactBonus (kind : ValueKind) : kind.depth < AttributeRule.exactBonus := by
  have table : ∀ kind ∈ all, kind.depth < AttributeRule.exactBonus := by decide +kernel
  exact table kind (mem_all kind)

end ValueKind

/-! ## Rules -/

namespace AttributeRule

variable {r q : AttributeRule} {element : String} {kind : ValueKind} {raw : String}

/-- A rule is one for the elements of a tag, for values of a kind, and for a text. -/
structure Fits (r : AttributeRule) (element : String) (kind : ValueKind) (raw : String) :
    Prop where
  element : r.element = element
  /-- The kind that the rule accepts is the kind of the value, or one above it. -/
  kind : kind.Under r.kind
  /-- If the rule is for one text only, it is this one. -/
  equals : ∀ expected, r.equals = some expected → expected = raw

theorem accepts_iff_fits : r.accepts element kind raw = true ↔ r.Fits element kind raw := by
  unfold accepts
  rw [Bool.and_eq_true, Bool.and_eq_true, beq_iff_eq, ValueKind.isA_iff_under]
  constructor
  · rintro ⟨⟨helement, hkind⟩, hequals⟩
    refine ⟨helement, hkind, fun expected hexpected => ?_⟩
    rw [hexpected] at hequals
    exact beq_iff_eq.1 hequals
  · rintro ⟨helement, hkind, hequals⟩
    refine ⟨⟨helement, hkind⟩, ?_⟩
    cases hexpected : r.equals with
    | none => rfl
    | some expected => exact beq_iff_eq.2 (hequals expected hexpected)

/-- A rule for one text ranks above every rule for any text. -/
theorem priority_lt_of_guard (hr : r.equals.isSome = false) (hq : q.equals.isSome = true) :
    r.priority < q.priority := by
  have hdepth := r.kind.depth_lt_exactBonus
  unfold priority
  rw [hr, hq]
  simp only [Bool.false_eq_true, if_false, if_true]
  omega

/-- Of two rules that are both for one text, or both for any, the one for the narrower kind ranks
above the other. -/
theorem priority_lt_of_under (hguard : q.equals.isSome = r.equals.isSome)
    (h : q.kind.Under r.kind) (hne : q.kind ≠ r.kind) : r.priority < q.priority := by
  have hdepth := ValueKind.depth_lt_of_isA (ValueKind.isA_iff_under.2 h) hne
  unfold priority
  rw [hguard]
  exact Nat.add_lt_add_right hdepth _

end AttributeRule

/-! ## Adding rules -/

namespace RuleBook

variable {element name : String} {kind : ValueKind} {raw : String}

theorem matchAttribute?_eq_pick? (book : RuleBook) (element name : String) (kind : ValueKind)
    (raw : String) : book.matchAttribute? element name kind raw =
      pick? (fun r => r.accepts element kind raw) book.attributes name := by
  unfold matchAttribute? pick?
  cases book.attributes.get? name <;> rfl

/-- Whether a rule is one for the value of an attribute. -/
def serves (element name : String) (kind : ValueKind) (raw : String) (r : AttributeRule) : Bool :=
  r.id == name && r.accepts element kind raw

theorem serves_iff {r : AttributeRule} :
    serves element name kind raw r = true ↔ r.id = name ∧ r.Fits element kind raw := by
  rw [serves, Bool.and_eq_true, beq_iff_eq, AttributeRule.accepts_iff_fits]

theorem attributes_addElements (book : RuleBook) (rs : List ElementRule) :
    (rs.foldl addElement book).attributes = book.attributes := by
  induction rs generalizing book with
  | nil => rfl
  | cons r rs ih => exact (ih _).trans rfl

theorem attributes_addAttributes (book : RuleBook) (rs : List AttributeRule) :
    (rs.foldl addAttribute book).attributes =
      rs.foldl (shelve AttributeRule.priority AttributeRule.id) book.attributes := by
  induction rs generalizing book with
  | nil => rfl
  | cons r rs ih => exact ih _

theorem attributes_add (book : RuleBook) (rules : RuleDocument) :
    (book.add rules).attributes =
      rules.attributes.foldl (shelve AttributeRule.priority AttributeRule.id) book.attributes := by
  unfold add
  rw [attributes_addAttributes, attributes_addElements]

/-- The attribute rules that an addition brings, in order. -/
def Addition.attributes : Addition → List AttributeRule
  | elementRule _ => []
  | attributeRule r => [r]
  | document rules => rules.attributes
  | text format origin raw =>
    match RuleDocument.read format origin raw with
    | .ok rules => (rules.withOrigin origin).attributes
    | .error _ => []

theorem attributes_apply (book : RuleBook) (a : Addition) :
    (a.apply book).attributes =
      a.attributes.foldl (shelve AttributeRule.priority AttributeRule.id) book.attributes := by
  cases a with
  | elementRule r => rfl
  | attributeRule r => rfl
  | document rules => exact attributes_add _ _
  | text format origin raw =>
    simp only [Addition.apply, Addition.attributes, load_eq]
    cases RuleDocument.read format origin raw with
    | error e => rfl
    | ok rules => exact attributes_add _ _

/-- The attribute rules of a history, in the order in which they were added. -/
def addedAttributes (history : List Addition) : List AttributeRule :=
  history.flatMap Addition.attributes

theorem attributes_ofHistory (history : List Addition) : (ofHistory history).attributes =
    (addedAttributes history).foldl (shelve AttributeRule.priority AttributeRule.id)
      SortedMap.empty :=
  foldl_apply attributes_apply {} history

theorem matchAttribute?_ofHistory (history : List Addition) (element name : String)
    (kind : ValueKind) (raw : String) :
    (ofHistory history).matchAttribute? element name kind raw =
      bestOf AttributeRule.priority (serves element name kind raw) none
        (addedAttributes history) := by
  rw [matchAttribute?_eq_pick?, attributes_ofHistory]
  exact (pick?_foldl_shelve shelved_empty _).2 _ name

/-! ## Main statement -/

/-- The rule for the value of an attribute is the one of the highest rank among those for its name
and tag that accept its kind and its text, and of several the one that was added first. So a rule
for the very text is taken before all rules for any text, and of rules that are alike in this none
for a kind strictly above that of another one. -/
theorem best_attribute_rule_of_history (history : List Addition) (element name : String)
    (kind : ValueKind) (raw : String) :
    (∀ r, (ofHistory history).matchAttribute? element name kind raw = some r ↔
      ∃ before behind, addedAttributes history = before ++ r :: behind ∧ r.id = name ∧
        r.Fits element kind raw ∧
        (∀ q ∈ before, q.id = name → q.Fits element kind raw → q.priority < r.priority) ∧
        ∀ q ∈ behind, q.id = name → q.Fits element kind raw → q.priority ≤ r.priority) ∧
    ((ofHistory history).matchAttribute? element name kind raw = none ↔
      ∀ q ∈ addedAttributes history, q.id = name → ¬ q.Fits element kind raw) ∧
    ∀ r, (ofHistory history).matchAttribute? element name kind raw = some r →
      ∀ q ∈ addedAttributes history, q.id = name → q.Fits element kind raw →
        (q.equals.isSome = true → r.equals.isSome = true) ∧
        (q.equals.isSome = r.equals.isSome → ¬ (q.kind.Under r.kind ∧ q.kind ≠ r.kind)) := by
  refine ⟨?_, ?_, ?_⟩
  · intro r
    rw [matchAttribute?_ofHistory, bestOf_eq_some_iff]
    simp only [Best, serves_iff, and_imp, and_assoc]
  · rw [matchAttribute?_ofHistory, bestOf_eq_none_iff]
    simp only [← Bool.not_eq_true, serves_iff, not_and]
  -- the priority of a rule is made of its guard and its kind, so the best one is best in these
  · intro r hr q hq hname hfits
    rw [matchAttribute?_ofHistory, bestOf_eq_some_iff] at hr
    have hle : q.priority ≤ r.priority := hr.le q hq (serves_iff.2 ⟨hname, hfits⟩)
    constructor
    · intro hguard
      by_contra hfree
      have hlt := AttributeRule.priority_lt_of_guard (Bool.eq_false_iff.2 hfree) hguard
      omega
    · rintro hsame ⟨hunder, hne⟩
      have hlt := AttributeRule.priority_lt_of_under hsame hunder hne
      omega

end RuleBook

end LayoutCompiler
