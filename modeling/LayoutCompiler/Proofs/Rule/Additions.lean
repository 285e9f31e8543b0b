import LayoutCompiler.Proofs.Rule.Acceptance
/-!
# Loading rules

A text is loaded as a whole or not at all. If its document is refused, the book in use is what it
was; otherwise it has the rules of the document on top of those that there were. Rules are filed one
by one, each into the list of its name, so what matters is what a list becomes: nothing leaves it,
nothing in it changes places, and of rules of one rank those from the text stand behind all others,
in the order of the text.

* `filter_insertRanked`: a new member stands behind all members of its rank.
* `shelve_perm`: the lists of all names have one more member.
* `Extends`: lists by name with more members.
* `extends_of_loadText`: what loading a text leaves of a book.
-/

namespace LayoutCompiler

/-! ## Ranked lists -/

section Ranked

variable {β : Type} {rank : β → Nat} {x : β} {ys : List β}

theorem sublist_insertRanked (rank : β → Nat) (x : β) (ys : List β) :
    ys.Sublist (insertRanked rank x ys) := by
  induction ys with
  | nil => exact List.nil_sublist _
  | cons y ys ih =>
    unfold insertRanked
    split
    · exact List.sublist_cons_self x (y :: ys)
    · exact ih.cons_cons y

/-- A new member stands behind all members of its rank. -/
theorem filter_insertRanked (h : Descending rank ys) (n : Nat) :
    (insertRanked rank x ys).filter (rank · == n) =
      ys.filter (rank · == n) ++ [x].filter (rank · == n) := by
  induction ys with
  | nil => rfl
  | cons y ys ih =>
    obtain ⟨hhead, htail⟩ := List.pairwise_cons.1 h
    unfold insertRanked
    split
    · rename_i hlt
      by_cases hx : rank x = n
      · -- what the new member stands before is of a lower rank
        have hnone : (y :: ys).filter (rank · == n) = [] := by
          refine List.filter_eq_nil_iff.2 fun z hz => ?_
          have hz : rank z ≤ rank y := by
            rcases List.mem_cons.1 hz with rfl | hz
            · exact Nat.le_refl _
            · exact hhead z hz
          simp only [beq_iff_eq]
          omega
        rw [List.filter_cons, hnone, List.nil_append, List.filter_cons, List.filter_nil]
      · have hdrops : ∀ zs, (x :: zs).filter (rank · == n) = zs.filter (rank · == n) :=
          fun zs => List.filter_cons_of_neg (by simpa using hx)
        rw [hdrops, hdrops, List.filter_nil, List.append_nil]
    · rw [List.filter_cons, ih htail, List.filter_cons (x := y)]
      split
      · rw [List.cons_append]
      · rfl

end Ranked

/-! ## Lists by name -/

section Shelves

variable {β : Type} {rank : β → Nat} {name : β → String} {x : β} {xs ys : List β}
  {shelves shelves' shelves'' : SortedMap (List β)}

/-- An entry with one more member leaves all entries together with one more. -/
theorem insertEntry_perm {key : String} {entries : List (String × List β)}
    (h : entries.Pairwise (fun a b => a.1 < b.1))
    (hvalue : ys.Perm (x :: (SortedMap.find? key entries).getD [])) :
    ((SortedMap.insertEntry key ys entries).map Prod.snd).flatten.Perm
      (x :: (entries.map Prod.snd).flatten) := by
  induction entries with
  | nil => simpa [SortedMap.insertEntry, SortedMap.find?] using hvalue
  | cons e rest ih =>
    obtain ⟨k, v⟩ := e
    obtain ⟨hhead, htail⟩ := List.pairwise_cons.1 h
    unfold SortedMap.insertEntry
    split
    · rename_i hlt
      -- the key comes before all others, so it was not there
      have hnew : SortedMap.find? key ((k, v) :: rest) = none := by
        refine SortedMap.find?_eq_none_of_lt fun e he => ?_
        rcases List.mem_cons.1 he with rfl | he
        · exact hlt
        · exact String.lt_trans hlt (hhead e he)
      rw [hnew, Option.getD_none] at hvalue
      exact hvalue.append_right _
    · split
      · rename_i heq
        rw [heq, SortedMap.find?, if_pos rfl, Option.getD_some] at hvalue
        exact hvalue.append_right _
      · rename_i hne
        rw [SortedMap.find?, if_neg (Ne.symm hne)] at hvalue
        exact ((ih htail hvalue).append_left v).trans List.perm_middle

/-- The lists of all names have one more member. -/
theorem shelve_perm (rank : β → Nat) (name : β → String) (shelves : SortedMap (List β)) (x : β) :
    (shelve rank name shelves x).values.flatten.Perm (x :: shelves.values.flatten) :=
  insertEntry_perm shelves.increasing (insertRanked_perm rank x _)

/-- Lists by name with more members, added in order. -/
structure Extends (rank : β → Nat) (name : β → String) (shelves shelves' : SortedMap (List β))
    (xs : List β) : Prop where
  /-- There is nothing more and nothing less than the old members and the new ones. -/
  members : shelves'.values.flatten.Perm (shelves.values.flatten ++ xs)
  /-- Old members stand in the list in which they were, in the order in which they were. -/
  kept : ∀ key, ((shelves.get? key).getD []).Sublist ((shelves'.get? key).getD [])
  descending : Shelved rank shelves'
  /-- Of the members of one rank, the new ones stand behind the old ones. -/
  behind : ∀ key n, ((shelves'.get? key).getD []).filter (rank · == n) =
    ((shelves.get? key).getD []).filter (rank · == n) ++
      xs.filter fun x => name x == key && rank x == n

theorem Extends.refl (h : Shelved rank shelves) : Extends rank name shelves shelves [] where
  members := by rw [List.append_nil]
  kept _ := List.Sublist.refl _
  descending := h
  behind _ _ := by rw [List.filter_nil, List.append_nil]

theorem Extends.trans (h : Extends rank name shelves shelves' xs)
    (h' : Extends rank name shelves' shelves'' ys) :
    Extends rank name shelves shelves'' (xs ++ ys) where
  members := by
    rw [← List.append_assoc]
    exact h'.members.trans (h.members.append_right ys)
  kept key := (h.kept key).trans (h'.kept key)
  descending := h'.descending
  behind key n := by rw [h'.behind, h.behind, List.filter_append, List.append_assoc]

theorem extends_shelve (h : Shelved rank shelves) (x : β) :
    Extends rank name shelves (shelve rank name shelves x) [x] where
  members := (shelve_perm rank name shelves x).trans (List.perm_append_singleton x _).symm
  kept key := by
    rw [list_shelve]
    split
    · exact sublist_insertRanked rank x _
    · exact List.Sublist.refl _
  descending := shelved_shelve h x
  behind key n := by
    rw [list_shelve]
    split
    · rename_i hkey
      rw [filter_insertRanked (h key)]
      simp only [List.filter_cons, hkey, beq_self_eq_true, Bool.true_and, List.filter_nil]
    · rename_i hkey
      simp [hkey]

theorem extends_foldl (name : β → String) (h : Shelved rank shelves) (xs : List β) :
    Extends rank name shelves (xs.foldl (shelve rank name) shelves) xs := by
  induction xs generalizing shelves with
  | nil => exact Extends.refl h
  | cons x xs ih => exact (extends_shelve h x).trans (ih (shelved_shelve h x))

end Shelves

/-! ## Books -/

namespace RuleBook

/-- Whatever has been added to a book: a text whose document is refused leaves it as it is. A text
whose document is accepted adds the rules of the document and no others, each said to come from
where the text does; the answer is how many those are. -/
theorem extends_of_loadText (history : List Addition) (format : DataFormat) (origin text : String) :
    let book := ofHistory history
    match RuleDocument.read format origin text with
    | .error failure => (loadText format origin text).on book = (.error failure, book)
    | .ok document => ∃ book',
      (loadText format origin text).on book = (.ok document.size, book') ∧
      Extends ElementRule.priority ElementRule.id book.elements book'.elements
        (document.elements.map fun r => { r with origin }) ∧
      Extends AttributeRule.priority AttributeRule.id book.attributes book'.attributes
        (document.attributes.map fun r => { r with origin }) ∧
      book'.elementRules.length + book'.attributeRules.length =
        book.elementRules.length + book.attributeRules.length + document.size := by
  intro book
  have hload := on_loadText book format origin text
  cases hread : RuleDocument.read format origin text with
  | error failure => rwa [hread] at hload
  | ok document =>
    rw [hread] at hload
    have helements : Shelved ElementRule.priority book.elements := ordered_ofHistory history
    have hattributes : Shelved AttributeRule.priority book.attributes := by
      rw [attributes_ofHistory]
      exact (pick?_foldl_shelve shelved_empty _).1
    have h := extends_foldl ElementRule.id helements (document.withOrigin origin).elements
    have h' := extends_foldl AttributeRule.id hattributes (document.withOrigin origin).attributes
    rw [← elements_add] at h
    rw [← attributes_add] at h'
    refine ⟨_, hload, h, h', ?_⟩
    -- every rule of the document is on a shelf afterwards, none is there twice
    have hlength := h.members.length_eq
    have hlength' := h'.members.length_eq
    have hcount : (document.withOrigin origin).elements.length = document.elements.length :=
      List.length_map _
    have hcount' : (document.withOrigin origin).attributes.length = document.attributes.length :=
      List.length_map _
    rw [List.length_append, hcount] at hlength
    rw [List.length_append, hcount'] at hlength'
    unfold elementRules attributeRules RuleDocument.size
    omega

end RuleBook

end LayoutCompiler
