import LayoutCompiler.Proofs.Text.Pieces
import LayoutCompiler.Rule.Basic
/-!
# Conditions of rules

What element rules ask of attributes, told by the texts of their conditions. An attribute has a
conjunction of conditions, with `&` between them. A single condition is a word, a lead with an
operand, or the only text that it allows.

* `Predicate.allows_iff`: the values that a single condition allows.
* `ElementRule.accepts_iff`: a rule accepts the attributes that all of its conditions allow.
* `ElementRule.priority_eq_conditionCount`: the rank of a rule is the number of its conditions.
-/

namespace LayoutCompiler

/-! ## Single conditions -/

namespace Predicate

/-- The words that are conditions. -/
def words : List String := ["any", "unset"]

/-- What stands in front of an operand. -/
def leads : List String := ["contains:", "not:", "doesNotContain:"]

/-- A flag is one of those in a value such as `top|start`. -/
def Flagged (flag value : String) : Prop := ∃ piece ∈ Text.split '|' value, Text.trim piece = flag

/-- The text of a single condition allows a value of an attribute, or that there is none. A lead
without an operand allows nothing, and nor does an empty text. -/
inductive Allows : String → Option String → Prop
  | any (value : String) : Allows "any" (some value)
  | unset : Allows "unset" none
  | contains {flag value : String} (hflag : flag ≠ "") (h : Flagged flag value) :
    Allows ("contains:" ++ flag) (some value)
  | differs {unexpected : String} {value : Option String} (hunexpected : unexpected ≠ "")
    (h : value ≠ some unexpected) : Allows ("not:" ++ unexpected) value
  | lacks {flag : String} {value : Option String} (hflag : flag ≠ "")
    (h : ∀ v, value = some v → ¬ Flagged flag v) : Allows ("doesNotContain:" ++ flag) value
  | equals {expected : String} (hempty : expected ≠ "") (hword : expected ∉ words)
    (hlead : ∀ lead ∈ leads, ∀ operand, expected ≠ lead ++ operand) :
    Allows expected (some expected)

variable {raw lead operand flag : String} {value : Option String} {make : String → Predicate}

theorem hasFlag_iff {v : String} : hasFlag flag v = true ↔ Flagged flag v := by
  unfold hasFlag Flagged
  simp only [List.any_eq_true, beq_iff_eq]

/-! ### What a text is read as -/

theorem named?_append (h : operand ≠ "") (make : String → Predicate) :
    named? lead (lead ++ operand) make = some (make operand) := by
  unfold named?
  rw [Text.stripLead?_eq_some_iff.2 rfl, Option.map_some, if_neg (mt String.isEmpty_iff.1 h)]

theorem named?_lead (lead : String) (make : String → Predicate) :
    named? lead (lead ++ "") make = some (malformed (lead ++ "")) := by
  unfold named?
  rw [Text.stripLead?_eq_some_iff.2 rfl]
  rfl

theorem named?_eq_none (h : ∀ operand, raw ≠ lead ++ operand) : named? lead raw make = none := by
  unfold named?
  rw [Text.stripLead?_eq_none_iff.2 h, Option.map_none]

theorem named?_of_clash {lead' : String} (h : Text.clash lead lead' = true) (operand : String) :
    named? lead' (lead ++ operand) make = none :=
  named?_eq_none fun operand' => Text.append_ne_of_clash h operand operand'

/-- A text with a lead is none of the words, which do not begin like any lead. -/
theorem parse_append (h : lead ∈ leads) (operand : String) :
    parse (lead ++ operand) =
      ((named? "contains:" (lead ++ operand) contains).or
        ((named? "not:" (lead ++ operand) differs).or
          (named? "doesNotContain:" (lead ++ operand) lacks))).getD (equals (lead ++ operand)) := by
  have hne : ∀ lead ∈ leads, lead ≠ "" := by decide
  have hclash : ∀ lead ∈ leads, ∀ word ∈ words, Text.clash lead word = true := by decide
  have hword : ∀ word ∈ words, lead ++ operand ≠ word := by
    intro word hmem heq
    refine Text.append_ne_of_clash (hclash lead h word hmem) operand "" ?_
    rw [heq, String.append_empty]
  unfold parse
  rw [if_neg, if_neg (hword "any" (by decide)), if_neg (hword "unset" (by decide))]
  exact fun hempty => hne lead h (String.append_eq_empty_iff.1 hempty).1

theorem parse_contains (h : flag ≠ "") : parse ("contains:" ++ flag) = contains flag := by
  rw [parse_append (by decide), named?_append h]
  rfl

theorem parse_differs (h : operand ≠ "") : parse ("not:" ++ operand) = differs operand := by
  rw [parse_append (by decide), named?_of_clash (by decide), named?_append h]
  rfl

theorem parse_lacks (h : flag ≠ "") : parse ("doesNotContain:" ++ flag) = lacks flag := by
  rw [parse_append (by decide), named?_of_clash (by decide), named?_of_clash (by decide),
    named?_append h]
  rfl

theorem parse_lead (h : lead ∈ leads) : parse (lead ++ "") = malformed (lead ++ "") := by
  have table : ∀ lead ∈ leads, parse (lead ++ "") = malformed (lead ++ "") := by decide
  exact table lead h

theorem parse_plain (hempty : raw ≠ "") (hword : raw ∉ words)
    (hlead : ∀ lead ∈ leads, ∀ operand, raw ≠ lead ++ operand) : parse raw = equals raw := by
  simp only [words, List.mem_cons, List.not_mem_nil, or_false, not_or] at hword
  unfold parse
  rw [if_neg hempty, if_neg hword.1, if_neg hword.2, named?_eq_none (hlead _ (by decide)),
    named?_eq_none (hlead _ (by decide)), named?_eq_none (hlead _ (by decide))]
  rfl

/-! ### What a text allows -/

theorem holds_of_allows (h : Allows raw value) : (parse raw).holds value = true := by
  cases h with
  | any value => rfl
  | unset => rfl
  | contains hflag h =>
    rw [parse_contains hflag]
    exact hasFlag_iff.2 h
  | differs hunexpected h =>
    rw [parse_differs hunexpected]
    exact bne_iff_ne.2 h
  | @lacks flag value hflag h =>
    rw [parse_lacks hflag]
    cases value with
    | none => rfl
    | some v =>
      show (!hasFlag flag v) = true
      rw [Bool.not_eq_true', ← Bool.not_eq_true, hasFlag_iff]
      exact h v rfl
  | equals hempty hword hlead =>
    rw [parse_plain hempty hword hlead]
    exact beq_self_eq_true _

theorem allows_of_lead (hlead : lead ∈ leads) (h : (parse (lead ++ operand)).holds value = true) :
    Allows (lead ++ operand) value := by
  by_cases hoperand : operand = ""
  · rw [hoperand, parse_lead hlead] at h
    cases h
  simp only [leads, List.mem_cons, List.not_mem_nil, or_false] at hlead
  rcases hlead with rfl | rfl | rfl
  · rw [parse_contains hoperand] at h
    obtain ⟨v, rfl, hflag⟩ := (Option.any_eq_true _ _).1 h
    exact .contains hoperand (hasFlag_iff.1 hflag)
  · rw [parse_differs hoperand] at h
    exact .differs hoperand (bne_iff_ne.1 h)
  · rw [parse_lacks hoperand] at h
    refine .lacks hoperand fun v hv hflag => ?_
    subst hv
    have hlacks : (!hasFlag operand v) = true := h
    rw [hasFlag_iff.2 hflag] at hlacks
    cases hlacks

/-- A value passes the test of a condition just if the text of the condition allows it. -/
theorem allows_iff : (parse raw).holds value = true ↔ Allows raw value := by
  refine ⟨fun h => ?_, holds_of_allows⟩
  by_cases hempty : raw = ""
  · rw [hempty] at h
    cases h
  by_cases hword : raw ∈ words
  · simp only [words, List.mem_cons, List.not_mem_nil, or_false] at hword
    rcases hword with rfl | rfl
    · obtain ⟨v, rfl⟩ := Option.isSome_iff_exists.1 h
      exact .any v
    · obtain rfl := Option.isNone_iff_eq_none.1 h
      exact .unset
  by_cases hlead : ∃ lead ∈ leads, ∃ operand, raw = lead ++ operand
  · obtain ⟨lead, hmem, operand, rfl⟩ := hlead
    exact allows_of_lead hmem h
  -- any other text is the only one that it allows
  · have hplain : ∀ lead ∈ leads, ∀ operand, raw ≠ lead ++ operand :=
      fun lead hmem operand heq => hlead ⟨lead, hmem, operand, heq⟩
    rw [parse_plain hempty hword hplain] at h
    obtain rfl := eq_of_beq h
    exact .equals hempty hword hplain

end Predicate

/-! ## Conjunctions -/

namespace ElementRule

variable {r : ElementRule} {attributes : Attributes}

/-- All single conditions of a rule allow what an element has for their attributes. -/
def Meets (r : ElementRule) (attributes : Attributes) : Prop :=
  ∀ name raw, r.attributes.get? name = some raw →
    ∀ part ∈ Text.split '&' raw, Predicate.Allows (Text.trim part) (attributes.get? name)

theorem accepts_iff : r.accepts attributes = true ↔ r.Meets attributes := by
  simp only [accepts, conditions, Predicate.parseAll, List.all_eq_true, List.mem_flatMap,
    List.mem_map, Meets, SortedMap.get?_eq_some_iff]
  constructor
  · intro h name raw hmem part hpart
    exact Predicate.allows_iff.1 (h (name, _) ⟨(name, raw), hmem, _, ⟨part, hpart, rfl⟩, rfl⟩)
  · rintro h _ ⟨⟨name, raw⟩, hmem, _, ⟨part, hpart, rfl⟩, rfl⟩
    exact Predicate.allows_iff.2 (h name raw hmem part hpart)

/-- How many single conditions a rule has: one for each of its attributes, and one more for each
ampersand in the conjunctions. -/
def conditionCount (r : ElementRule) : Nat :=
  r.attributes.entries.length + (r.attributes.entries.flatMap fun entry => entry.2.toList).count '&'

/-- The rank of a rule is the number of its conditions. -/
theorem priority_eq_conditionCount (r : ElementRule) : r.priority = r.conditionCount := by
  unfold priority conditions conditionCount
  induction r.attributes.entries with
  | nil => rfl
  | cons entry entries ih =>
    rw [List.flatMap_cons, List.flatMap_cons, List.length_append, List.length_map,
      Predicate.parseAll, List.length_map, Text.length_split, ih, List.count_append,
      List.length_cons]
    omega

/-- A conjunction of two conditions and a condition alone. -/
example : conditionCount
    { id := "View"
      attributes := SortedMap.ofList [("id", "any&not:gone"), ("style", "unset")] } = 3 := by
  decide +kernel

end ElementRule

end LayoutCompiler
