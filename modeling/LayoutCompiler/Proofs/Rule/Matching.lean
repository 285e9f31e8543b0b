import LayoutCompiler.Proofs.Rule.Conditions
import LayoutCompiler.Proofs.Storage.Journal
import LayoutCompiler.Rule.Book
import Mathlib.Data.List.Induction
/-!
# Matching elements to rules

The rules for a tag stand in order of rank, and the first one that accepts an element is its rule.
Whatever has been added to a book, and in whatever documents, that is the accepting rule with the
most conditions, the earliest of several.

* `find?_insertRanked`: one more member is found only if it ranks above what was found before.
* `bestOf_eq_some_iff`: what is left of members weighed one after the other is the best one.
* `pick?_foldl_shelve`: members added to lists by name are weighed in the order of their addition.
* `best_rule_of_history`: the rule for an element, and how it changes when rules are added.
-/

namespace LayoutCompiler

/-! ## Ranked lists -/

section Ranked

variable {β : Type} {rank : β → Nat} {p : β → Bool} {x y z : β} {xs ys : List β}

/-- The members of a list stand in descending order of rank. -/
def Descending (rank : β → Nat) (ys : List β) : Prop := ys.Pairwise fun y z => rank z ≤ rank y

variable (rank x ys) in
theorem insertRanked_perm : (insertRanked rank x ys).Perm (x :: ys) := by
  induction ys with
  | nil => exact List.Perm.refl _
  | cons y ys ih =>
    unfold insertRanked
    split
    · exact List.Perm.refl _
    · exact (ih.cons y).trans (List.Perm.swap x y ys)

theorem mem_insertRanked : z ∈ insertRanked rank x ys ↔ z = x ∨ z ∈ ys :=
  (insertRanked_perm rank x ys).mem_iff.trans List.mem_cons

theorem descending_insertRanked (h : Descending rank ys) :
    Descending rank (insertRanked rank x ys) := by
  induction ys with
  | nil => simp [insertRanked, Descending]
  | cons y ys ih =>
    obtain ⟨hhead, htail⟩ := List.pairwise_cons.1 h
    unfold insertRanked
    split
    -- in front of the first member of a lower rank
    · rename_i hlt
      refine List.pairwise_cons.2 ⟨fun z hz => ?_, h⟩
      rcases List.mem_cons.1 hz with rfl | hz
      · exact Nat.le_of_lt hlt
      · exact Nat.le_trans (hhead z hz) (Nat.le_of_lt hlt)
    -- behind a member of the same rank or of a higher one
    · rename_i hle
      refine List.pairwise_cons.2 ⟨fun z hz => ?_, ih htail⟩
      rcases mem_insertRanked.1 hz with rfl | hz
      · exact Nat.le_of_not_lt hle
      · exact hhead z hz

/-- What is found when one more member is there to be found: itself, if it passes and ranks above
what was found before. -/
def better (rank : β → Nat) (p : β → Bool) (x : β) : Option β → Option β
  | none => if p x then some x else none
  | some y => if p x ∧ rank y < rank x then some x else some y

theorem better_eq_none_iff {found : Option β} :
    better rank p x found = none ↔ found = none ∧ p x = false := by
  cases found with
  | none => cases hx : p x <;> simp [better, hx]
  | some y => by_cases h : p x = true ∧ rank y < rank x <;> simp [better, h]

theorem better_eq_some_iff {found : Option β} : better rank p x found = some y ↔
    (found = some y ∧ (p x = true → rank x ≤ rank y)) ∨
      (y = x ∧ p x = true ∧ ∀ z, found = some z → rank z < rank x) := by
  cases found with
  | none => cases hx : p x <;> simp [better, hx, eq_comm]
  | some z =>
    unfold better
    split <;> grind

theorem better_of_not {found : Option β} (h : p x = false) : better rank p x found = found := by
  cases found <;> simp [better, h]

/-- One more member is found only if it ranks above what was found before. -/
theorem find?_insertRanked (h : Descending rank ys) :
    (insertRanked rank x ys).find? p = better rank p x (ys.find? p) := by
  induction ys with
  | nil => cases hx : p x <;> simp [insertRanked, better, hx]
  | cons y ys ih =>
    obtain ⟨hhead, htail⟩ := List.pairwise_cons.1 h
    unfold insertRanked
    split
    · rename_i hlt
      cases hx : p x with
      | true =>
        rw [List.find?_cons_of_pos hx]
        cases hfound : (y :: ys).find? p with
        | none => simp [better, hx]
        | some z =>
          -- whatever is found ranks no higher than the head
          have hz : rank z < rank x := by
            rcases List.mem_cons.1 (List.mem_of_find?_eq_some hfound) with rfl | hz
            · exact hlt
            · exact Nat.lt_of_le_of_lt (hhead z hz) hlt
          simp [better, hx, hz]
      | false =>
        rw [List.find?_cons_of_neg (by simp [hx])]
        cases (y :: ys).find? p <;> simp [better, hx]
    · rename_i hle
      cases hy : p y with
      | true =>
        rw [List.find?_cons_of_pos hy, List.find?_cons_of_pos hy]
        simp [better, hle]
      | false =>
        rw [List.find?_cons_of_neg (by simp [hy]), List.find?_cons_of_neg (by simp [hy]), ih htail]

/-- A member of a list passes a test, ranks above all that pass before it, and no lower than any
that pass behind it. -/
def Best (rank : β → Nat) (p : β → Bool) (xs : List β) (y : β) : Prop :=
  ∃ before behind, xs = before ++ y :: behind ∧ p y = true ∧
    (∀ z ∈ before, p z = true → rank z < rank y) ∧ ∀ z ∈ behind, p z = true → rank z ≤ rank y

theorem Best.le (h : Best rank p xs y) : ∀ z ∈ xs, p z = true → rank z ≤ rank y := by
  obtain ⟨before, behind, rfl, -, hbefore, hbehind⟩ := h
  intro z hz hp
  rcases List.mem_append.1 hz with hz | hz
  · exact Nat.le_of_lt (hbefore z hz hp)
  · rcases List.mem_cons.1 hz with rfl | hz
    · exact Nat.le_refl _
    · exact hbehind z hz hp

theorem Best.mem (h : Best rank p xs y) : y ∈ xs ∧ p y = true := by
  obtain ⟨before, behind, rfl, hp, -, -⟩ := h
  exact ⟨by simp, hp⟩

/-- The best of a longer list is the last member, or the best of the others. -/
theorem best_append_singleton : Best rank p (xs ++ [x]) y ↔
    (Best rank p xs y ∧ (p x = true → rank x ≤ rank y)) ∨
      (y = x ∧ p x = true ∧ ∀ z ∈ xs, p z = true → rank z < rank x) := by
  constructor
  · rintro ⟨before, behind, hsplit, hp, hbefore, hbehind⟩
    -- the best is the last member, or the last member stands behind it
    rcases List.eq_nil_or_concat behind with rfl | ⟨behind, last, rfl⟩
    · obtain ⟨rfl, hlast⟩ := List.append_inj' hsplit rfl
      cases hlast
      exact Or.inr ⟨rfl, hp, hbefore⟩
    · rw [List.concat_eq_append, ← List.cons_append, ← List.append_assoc] at hsplit
      obtain ⟨rfl, hlast⟩ := List.append_inj' hsplit rfl
      cases hlast
      refine Or.inl ⟨⟨before, behind, rfl, hp, hbefore, fun z hz => ?_⟩, fun hx => ?_⟩
      · exact hbehind z (by simp [hz])
      · exact hbehind x (by simp) hx
  · rintro (⟨⟨before, behind, rfl, hp, hbefore, hbehind⟩, hx⟩ | ⟨rfl, hp, hxs⟩)
    · refine ⟨before, behind ++ [x], by simp, hp, hbefore, fun z hz hpz => ?_⟩
      rcases List.mem_append.1 hz with hz | hz
      · exact hbehind z hz hpz
      · rw [List.mem_singleton.1 hz] at hpz ⊢
        exact hx hpz
    · exact ⟨xs, [], rfl, hp, hxs, nofun⟩

/-- What is left after all members of a list have been weighed against what was found before. -/
def bestOf (rank : β → Nat) (p : β → Bool) (found : Option β) (xs : List β) : Option β :=
  xs.foldl (fun found x => better rank p x found) found

theorem bestOf_append_singleton (found : Option β) (xs : List β) (x : β) :
    bestOf rank p found (xs ++ [x]) = better rank p x (bestOf rank p found xs) := by
  simp [bestOf]

theorem bestOf_eq_none_iff : bestOf rank p none xs = none ↔ ∀ x ∈ xs, p x = false := by
  -- from the end of the list, as that is the member weighed last
  induction xs using List.reverseRecOn with
  | nil => simp [bestOf]
  | append_singleton xs x ih =>
    rw [bestOf_append_singleton, better_eq_none_iff, ih, List.forall_mem_append,
      List.forall_mem_singleton]

/-- The best member of a list is left. -/
theorem bestOf_eq_some_iff : bestOf rank p none xs = some y ↔ Best rank p xs y := by
  induction xs using List.reverseRecOn generalizing y with
  | nil => simp [bestOf, Best]
  | append_singleton xs x ih =>
    -- to rank above what was found is to rank above all that pass
    have habove : (∀ z, bestOf rank p none xs = some z → rank z < rank x) ↔
        ∀ z ∈ xs, p z = true → rank z < rank x := by
      constructor
      · intro h z hz hp
        cases hfound : bestOf rank p none xs with
        | none =>
          rw [bestOf_eq_none_iff.1 hfound z hz] at hp
          cases hp
        | some w => exact Nat.lt_of_le_of_lt ((ih.1 hfound).le z hz hp) (h w hfound)
      · intro h z hz
        exact h z (ih.1 hz).mem.1 (ih.1 hz).mem.2
    rw [bestOf_append_singleton, better_eq_some_iff, best_append_singleton, ih, habove]

variable (rank p) in
theorem exists_better (x y : β) :
    ∃ z, better rank p x (some y) = some z ∧ rank y ≤ rank z := by
  by_cases h : p x = true ∧ rank y < rank x
  · exact ⟨x, by simp [better, h], Nat.le_of_lt h.2⟩
  · exact ⟨y, by simp [better, h], Nat.le_refl _⟩

/-- Something is left if anything was found before. -/
theorem exists_bestOf : ∃ z, bestOf rank p (some y) xs = some z := by
  induction xs generalizing y with
  | nil => exact ⟨y, rfl⟩
  | cons x xs ih =>
    obtain ⟨w, hw, -⟩ := exists_better rank p x y
    obtain ⟨z, hz⟩ := ih (y := w)
    exact ⟨z, by rw [← hz, ← hw]; rfl⟩

/-- Another member is left only if it ranks above what was found before. -/
theorem found_or_above {found : Option β} (h : bestOf rank p found xs = some y) :
    found = some y ∨ y ∈ xs ∧ ∀ z, found = some z → rank z < rank y := by
  induction xs generalizing found with
  | nil => exact Or.inl h
  | cons x xs ih =>
    have hrest : bestOf rank p (better rank p x found) xs = some y := h
    rcases ih hrest with hbetter | ⟨hy, habove⟩
    · rcases better_eq_some_iff.1 hbetter with ⟨hfound, -⟩ | ⟨rfl, -, habove⟩
      · exact Or.inl hfound
      · exact Or.inr ⟨List.mem_cons_self, habove⟩
    · refine Or.inr ⟨List.mem_cons_of_mem _ hy, fun z hz => ?_⟩
      subst hz
      obtain ⟨w, hw, hle⟩ := exists_better rank p x z
      exact Nat.lt_of_le_of_lt hle (habove w hw)

end Ranked

/-! ## Lists by name -/

section Shelves

variable {β : Type} {rank : β → Nat} {name : β → String} {shelves : SortedMap (List β)}

/-- The members of each list stand in descending order of rank. -/
def Shelved (rank : β → Nat) (shelves : SortedMap (List β)) : Prop :=
  ∀ key, Descending rank ((shelves.get? key).getD [])

/-- The lists with one more member, at its place by rank in the list of its name. -/
def shelve (rank : β → Nat) (name : β → String) (shelves : SortedMap (List β)) (x : β) :
    SortedMap (List β) :=
  shelves.insert (name x) (insertRanked rank x ((shelves.get? (name x)).getD []))

/-- The first member of a list that passes a test. -/
def pick? (p : β → Bool) (shelves : SortedMap (List β)) (key : String) : Option β :=
  ((shelves.get? key).getD []).find? p

theorem shelved_empty : Shelved rank (SortedMap.empty : SortedMap (List β)) :=
  fun _ => List.Pairwise.nil

theorem list_shelve (shelves : SortedMap (List β)) (x : β) (key : String) :
    ((shelve rank name shelves x).get? key).getD [] =
      if name x = key then insertRanked rank x ((shelves.get? key).getD [])
      else (shelves.get? key).getD [] := by
  unfold shelve
  rw [SortedMap.get?_insert]
  split
  · rename_i hkey
    rw [hkey, Option.getD_some]
  · rfl

theorem shelved_shelve (h : Shelved rank shelves) (x : β) :
    Shelved rank (shelve rank name shelves x) := by
  intro key
  rw [list_shelve]
  split
  · exact descending_insertRanked (h key)
  · exact h key

/-- One more member is picked only if it has the name and ranks above what was picked before. -/
theorem pick?_shelve (h : Shelved rank shelves) (x : β) (p : β → Bool) (key : String) :
    pick? p (shelve rank name shelves x) key =
      better rank (fun y => name y == key && p y) x (pick? p shelves key) := by
  unfold pick?
  rw [list_shelve]
  split
  · rename_i hkey
    rw [find?_insertRanked (h key)]
    simp [better, hkey]
  · rename_i hkey
    exact (better_of_not (by simp [hkey])).symm

/-- Members are weighed in the order in which they are added. -/
theorem pick?_foldl_shelve (h : Shelved rank shelves) (xs : List β) :
    Shelved rank (xs.foldl (shelve rank name) shelves) ∧ ∀ p key,
      pick? p (xs.foldl (shelve rank name) shelves) key =
        bestOf rank (fun y => name y == key && p y) (pick? p shelves key) xs := by
  -- by induction on the members, for all lists that are in order so far
  induction xs generalizing shelves with
  | nil => exact ⟨h, fun _ _ => rfl⟩
  | cons x xs ih =>
    obtain ⟨hordered, hpick⟩ := ih (shelved_shelve h x)
    refine ⟨hordered, fun p key => ?_⟩
    rw [List.foldl_cons, hpick, pick?_shelve h]
    rfl

end Shelves

/-! ## Adding rules -/

namespace RuleBook

variable {tag : String} {attributes : Attributes}

/-- The rules for each tag stand in descending order of rank. -/
def Ordered (book : RuleBook) : Prop :=
  ∀ tag, Descending ElementRule.priority ((book.elements.get? tag).getD [])

theorem matchElement?_eq_pick? (book : RuleBook) (tag : String) (attributes : Attributes) :
    book.matchElement? tag attributes =
      pick? (fun r => r.accepts attributes) book.elements tag := by
  unfold matchElement? pick?
  cases book.elements.get? tag <;> rfl

/-- Whether a rule is one for an element. -/
def applies (tag : String) (attributes : Attributes) (r : ElementRule) : Bool :=
  r.id == tag && r.accepts attributes

theorem applies_iff {r : ElementRule} :
    applies tag attributes r = true ↔ r.id = tag ∧ r.Meets attributes := by
  rw [applies, Bool.and_eq_true, beq_iff_eq, ElementRule.accepts_iff]

theorem elements_addElements (book : RuleBook) (rs : List ElementRule) :
    (rs.foldl addElement book).elements =
      rs.foldl (shelve ElementRule.priority ElementRule.id) book.elements := by
  induction rs generalizing book with
  | nil => rfl
  | cons r rs ih => exact ih _

theorem elements_addAttributes (book : RuleBook) (rs : List AttributeRule) :
    (rs.foldl addAttribute book).elements = book.elements := by
  induction rs generalizing book with
  | nil => rfl
  | cons r rs ih => exact (ih _).trans rfl

theorem elements_add (book : RuleBook) (rules : RuleDocument) :
    (book.add rules).elements =
      rules.elements.foldl (shelve ElementRule.priority ElementRule.id) book.elements := by
  unfold add
  rw [elements_addAttributes, elements_addElements]

/-- A text that is refused leaves the book in use as it was; one that is accepted leaves it with all
rules of its document. -/
theorem on_loadText (book : RuleBook) (format : DataFormat) (origin text : String) :
    (loadText format origin text).on book =
      match RuleDocument.read format origin text with
      | .error failure => (.error failure, book)
      | .ok document => (.ok document.size, book.add (document.withOrigin origin)) := by
  unfold loadText
  rw [Session.on_bind]
  cases RuleDocument.read format origin text with
  | error failure => rfl
  | ok document =>
    -- an accepted document goes into the book in two loops, neither of which can fail
    show Session.on (_ >>= _) book = _
    rw [Session.on_bind, Session.on_forM_modify]
    show Session.on (_ >>= _) _ = _
    rw [Session.on_bind, Session.on_forM_modify]
    simp only [add, RuleDocument.withOrigin, List.foldl_map]
    rfl

theorem load_eq (book : RuleBook) (format : DataFormat) (origin text : String) :
    book.load format origin text = (RuleDocument.read format origin text).map fun document =>
      (document.size, book.add (document.withOrigin origin)) := by
  have hload : book.load format origin text = ((loadText format origin text).on book).1.map fun n =>
      (n, ((loadText format origin text).on book).2) := rfl
  rw [hload, on_loadText]
  cases RuleDocument.read format origin text <;> rfl

/-- One way of adding rules to a book. -/
inductive Addition where
  | elementRule (r : ElementRule)
  | attributeRule (r : AttributeRule)
  | document (rules : RuleDocument)
  /-- The rules of a text, if it stands for a document. -/
  | text (format : DataFormat) (origin raw : String)

namespace Addition

/-- The book after an addition. -/
def apply (book : RuleBook) : Addition → RuleBook
  | elementRule r => book.addElement r
  | attributeRule r => book.addAttribute r
  | document rules => book.add rules
  | text format origin raw =>
    match book.load format origin raw with
    | .ok (_, book) => book
    | .error _ => book

/-- The element rules that are added, in order. -/
def elements : Addition → List ElementRule
  | elementRule r => [r]
  | attributeRule _ => []
  | document rules => rules.elements
  | text format origin raw =>
    match RuleDocument.read format origin raw with
    | .ok rules => (rules.withOrigin origin).elements
    | .error _ => []

end Addition

theorem elements_apply (book : RuleBook) (a : Addition) :
    (a.apply book).elements =
      a.elements.foldl (shelve ElementRule.priority ElementRule.id) book.elements := by
  cases a with
  | elementRule r => rfl
  | attributeRule r => rfl
  | document rules => exact elements_add _ _
  | text format origin raw =>
    simp only [Addition.apply, Addition.elements, load_eq]
    cases RuleDocument.read format origin raw with
    | error e => rfl
    | ok rules => exact elements_add _ _

/-- The book that a history of additions leads to. -/
def ofHistory (history : List Addition) : RuleBook := history.foldl Addition.apply {}

/-- The element rules of a history, in the order in which they were added. -/
def added (history : List Addition) : List ElementRule := history.flatMap Addition.elements

/-- What a list of rules by name is after a history, when each addition puts its own rules there. -/
theorem foldl_apply {β : Type} {rank : β → Nat} {name : β → String}
    {part : RuleBook → SortedMap (List β)} {brought : Addition → List β}
    (h : ∀ book a, part (Addition.apply book a) =
      (brought a).foldl (shelve rank name) (part book)) (book : RuleBook)
    (history : List Addition) : part (history.foldl Addition.apply book) =
      (history.flatMap brought).foldl (shelve rank name) (part book) := by
  induction history generalizing book with
  | nil => rfl
  | cons a history ih => rw [List.foldl_cons, ih, h, List.flatMap_cons, List.foldl_append]

theorem elements_ofHistory (history : List Addition) : (ofHistory history).elements =
    (added history).foldl (shelve ElementRule.priority ElementRule.id) SortedMap.empty :=
  foldl_apply elements_apply {} history

/-- Whatever is added, the rules for each tag stay in order. -/
theorem ordered_ofHistory (history : List Addition) : (ofHistory history).Ordered := by
  unfold Ordered
  rw [elements_ofHistory]
  exact (pick?_foldl_shelve shelved_empty _).1

theorem matchElement?_ofHistory (history : List Addition) (tag : String)
    (attributes : Attributes) : (ofHistory history).matchElement? tag attributes =
      bestOf ElementRule.priority (applies tag attributes) none (added history) := by
  rw [matchElement?_eq_pick?, elements_ofHistory]
  exact (pick?_foldl_shelve shelved_empty _).2 _ tag

/-! ## Main statement -/

/-- The rule for an element is the one with the most conditions among those for its tag whose
conditions it meets, and of several the one that was added first. More rules can only bring a rule
where there was none, or one with more conditions. -/
theorem best_rule_of_history (history more : List Addition) (tag : String)
    (attributes : Attributes) :
    (∀ r, (ofHistory history).matchElement? tag attributes = some r ↔
      ∃ before behind, added history = before ++ r :: behind ∧ r.id = tag ∧ r.Meets attributes ∧
        (∀ q ∈ before, q.id = tag → q.Meets attributes → q.conditionCount < r.conditionCount) ∧
        ∀ q ∈ behind, q.id = tag → q.Meets attributes → q.conditionCount ≤ r.conditionCount) ∧
    ((ofHistory history).matchElement? tag attributes = none ↔
      ∀ q ∈ added history, q.id = tag → ¬ q.Meets attributes) ∧
    (∀ r, (ofHistory history).matchElement? tag attributes = some r →
      ∃ r', (ofHistory (history ++ more)).matchElement? tag attributes = some r') ∧
    ∀ r', (ofHistory (history ++ more)).matchElement? tag attributes = some r' →
      (ofHistory history).matchElement? tag attributes = some r' ∨
      r' ∈ added more ∧ ∀ r, (ofHistory history).matchElement? tag attributes = some r →
        r.conditionCount < r'.conditionCount := by
  -- what is added later only has to be compared with the best rule so far
  have hmore : (ofHistory (history ++ more)).matchElement? tag attributes =
      bestOf ElementRule.priority (applies tag attributes)
        ((ofHistory history).matchElement? tag attributes) (added more) := by
    rw [matchElement?_ofHistory, matchElement?_ofHistory]
    simp [bestOf, added]
  refine ⟨?_, ?_, ?_, ?_⟩
  · intro r
    rw [matchElement?_ofHistory, bestOf_eq_some_iff]
    simp only [Best, applies_iff, and_imp, and_assoc, ElementRule.priority_eq_conditionCount]
  · rw [matchElement?_ofHistory, bestOf_eq_none_iff]
    simp only [← Bool.not_eq_true, applies_iff, not_and]
  · intro r hr
    rw [hmore, hr]
    exact exists_bestOf
  · intro r' hr'
    rw [hmore] at hr'
    simp only [← ElementRule.priority_eq_conditionCount]
    exact found_or_above hr'

end RuleBook

end LayoutCompiler
