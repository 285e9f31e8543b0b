import LayoutCompiler.Proofs.Rule.Matching
/-!
# Chains of rules

A rule may name a parent, which fills in what the rule leaves open. Names are looked up on the
attributes of the element at hand, so that the rule behind a name is another one for another
element, and nothing keeps rules from naming each other in a circle. A chain goes on as long as it
meets names that it has not met before; as a rule is filed under its own name, there are as many of
them as there are tags with rules.

* `ends_or_leads`: a chain ends, or goes on with a rule whose name is new to it.
* `unseen_lt_of_leads`: each rule that it goes on with uses up a tag.
* `succession_of_chain`: what a chain is, whatever has been added to a book.
-/

namespace LayoutCompiler.RuleBook

variable {book : RuleBook} {attributes : Attributes} {r next : ElementRule} {seen : List String}
  {steps : Nat} {tag parent : String}

/-- The rule that is found for a tag is one for this tag. -/
def Named (book : RuleBook) : Prop :=
  ∀ tag attributes r, book.matchElement? tag attributes = some r → r.id = tag

theorem named_ofHistory (history : List Addition) : (ofHistory history).Named := by
  intro tag attributes r h
  rw [matchElement?_ofHistory, bestOf_eq_some_iff] at h
  exact (applies_iff.1 h.mem.2).1

theorem mem_tags_of_matchElement? (h : book.matchElement? tag attributes = some r) :
    tag ∈ book.tags := by
  obtain ⟨rules, hrules, -⟩ := Option.bind_eq_some_iff.1 h
  exact SortedMap.mem_keys_iff.2 (SortedMap.contains_iff.2 ⟨rules, hrules⟩)

/-! ## One entry -/

/-- A rule names no parent, or one that has been met, or one for which there is no rule. -/
def Ends (book : RuleBook) (attributes : Attributes) (seen : List String) (r : ElementRule) :
    Prop :=
  ∀ parent, r.parent = some parent → parent ∈ seen ∨ book.matchElement? parent attributes = none

/-- The parent that a rule names has not been met, and there is a rule for it. -/
structure Leads (book : RuleBook) (attributes : Attributes) (seen : List String) (r : ElementRule)
    (parent : String) (next : ElementRule) : Prop where
  names : r.parent = some parent
  new : parent ∉ seen
  found : book.matchElement? parent attributes = some next

theorem ends_or_leads (book : RuleBook) (attributes : Attributes) (seen : List String)
    (r : ElementRule) :
    book.Ends attributes seen r ∨ ∃ parent next, book.Leads attributes seen r parent next := by
  cases hparent : r.parent with
  | none =>
    refine Or.inl fun parent h => ?_
    rw [hparent] at h
    cases h
  | some parent =>
    -- the walk ends at a parent that was there before, and at one that no rule is for
    have hends : (parent ∈ seen ∨ book.matchElement? parent attributes = none) →
        book.Ends attributes seen r := by
      intro h parent' h'
      rwa [← Option.some.inj (hparent.symm.trans h')]
    by_cases hseen : parent ∈ seen
    · exact Or.inl (hends (Or.inl hseen))
    · cases hmatch : book.matchElement? parent attributes with
      | none => exact Or.inl (hends (Or.inr hmatch))
      | some next => exact Or.inr ⟨parent, next, hparent, hseen, hmatch⟩

theorem chainFrom_of_ends (h : book.Ends attributes seen r) (steps : Nat) :
    book.chainFrom attributes steps seen r = [] := by
  cases steps with
  | zero => rfl
  | succ steps =>
    rw [chainFrom]
    cases hparent : r.parent with
    | none => rfl
    | some parent =>
      rcases h parent hparent with hseen | hmatch
      · simp [hseen]
      · simp [hmatch]

theorem chainFrom_of_leads (h : book.Leads attributes seen r parent next) (steps : Nat) :
    book.chainFrom attributes (steps + 1) seen r =
      next :: book.chainFrom attributes steps (parent :: seen) next := by
  rw [chainFrom, h.names]
  simp [h.new, h.found]

/-! ## Names that have not been met -/

/-- How many tags have not been met. -/
def unseen (book : RuleBook) (seen : List String) : Nat := (book.tags.filter (· ∉ seen)).length

theorem unseen_le_size (book : RuleBook) (seen : List String) :
    book.unseen seen ≤ book.elements.size := by
  refine Nat.le_trans (List.length_filter_le _ _) (Nat.le_of_eq ?_)
  exact List.length_map ..

/-- Each rule that a chain goes on with uses up a tag. -/
theorem unseen_lt_of_leads (h : book.Leads attributes seen r parent next) :
    book.unseen (parent :: seen) < book.unseen seen := by
  have hsplit : book.tags.filter (· ∉ parent :: seen) =
      (book.tags.filter (· ∉ seen)).filter (· ≠ parent) := by
    rw [List.filter_filter]
    refine List.filter_congr fun tag _ => ?_
    by_cases htag : tag = parent <;> simp [htag]
  unfold unseen
  rw [hsplit, List.length_filter_lt_length_iff_exists]
  exact ⟨parent, by simp [mem_tags_of_matchElement? h.found, h.new], by simp⟩

/-! ## Whole chains -/

/-- A bound that leaves room for all names that have not been met cuts no chain off. -/
theorem chainFrom_eq_of_le {more : Nat} (hroom : book.unseen seen ≤ steps) (hle : steps ≤ more) :
    book.chainFrom attributes more seen r = book.chainFrom attributes steps seen r := by
  induction steps generalizing more seen r with
  | zero =>
    rcases book.ends_or_leads attributes seen r with hends | ⟨parent, next, hleads⟩
    · rw [chainFrom_of_ends hends, chainFrom_of_ends hends]
    · have hlt := unseen_lt_of_leads hleads
      omega
  | succ steps ih =>
    rcases book.ends_or_leads attributes seen r with hends | ⟨parent, next, hleads⟩
    · rw [chainFrom_of_ends hends, chainFrom_of_ends hends]
    · have hlt := unseen_lt_of_leads hleads
      obtain ⟨more, rfl⟩ := Nat.exists_eq_add_of_le' (Nat.le_trans (Nat.succ_pos steps) hle)
      rw [chainFrom_of_leads hleads, chainFrom_of_leads hleads,
        ih (by omega) (Nat.le_of_succ_le_succ hle)]

/-- What follows a rule in a chain, with the names that have been met before. -/
structure Succession (book : RuleBook) (attributes : Attributes) (seen : List String)
    (r : ElementRule) (rest : List ElementRule) : Prop where
  /-- Each entry is found for the parent of the one before it. -/
  linked : (r :: rest).IsChain fun q next => ∃ parent, q.parent = some parent ∧
    book.matchElement? parent attributes = some next
  distinct : (rest.map (·.id)).Nodup
  new : ∀ q ∈ rest, q.id ∉ seen
  /-- The last entry has no parent, or one that has been met, or one for which there is no rule. -/
  ends : ∀ last ∈ (r :: rest).getLast?,
    book.Ends attributes (rest.map (·.id) ++ seen) last

theorem succession_of_ends (h : book.Ends attributes seen r) :
    book.Succession attributes seen r [] where
  linked := List.IsChain.singleton r
  distinct := List.nodup_nil
  new := by simp
  ends last hlast := by
    rw [List.getLast?_singleton, Option.mem_some] at hlast
    exact hlast ▸ h

/-- A rule that is found for a name begins what follows, if it is filed under this name. -/
theorem Succession.cons {rest : List ElementRule} (hid : next.id = parent)
    (hleads : book.Leads attributes seen r parent next)
    (h : book.Succession attributes (parent :: seen) next rest) :
    book.Succession attributes seen r (next :: rest) where
  linked := List.isChain_cons_cons.2 ⟨⟨parent, hleads.names, hleads.found⟩, h.linked⟩
  distinct := by
    rw [List.map_cons, List.nodup_cons]
    -- its own name is among those seen when the rest is walked
    refine ⟨fun hmem => ?_, h.distinct⟩
    obtain ⟨q, hq, hqid⟩ := List.mem_map.1 hmem
    exact h.new q hq (hqid ▸ hid ▸ List.mem_cons_self)
  new q hq := by
    rcases List.mem_cons.1 hq with rfl | hq
    · exact hid ▸ hleads.new
    · exact fun hmem => h.new q hq (List.mem_cons_of_mem _ hmem)
  ends last hlast parent' hparent' := by
    rw [List.getLast?_cons_cons] at hlast
    rcases h.ends last hlast parent' hparent' with hmem | hnone
    · left
      simpa [hid, or_left_comm] using hmem
    · exact Or.inr hnone

theorem succession_chainFrom (hnamed : book.Named) (hroom : book.unseen seen ≤ steps) :
    book.Succession attributes seen r (book.chainFrom attributes steps seen r) := by
  induction steps generalizing seen r with
  | zero =>
    rcases book.ends_or_leads attributes seen r with hends | ⟨parent, next, hleads⟩
    · rw [chainFrom_of_ends hends]
      exact succession_of_ends hends
    · have hlt := unseen_lt_of_leads hleads
      omega
  | succ steps ih =>
    rcases book.ends_or_leads attributes seen r with hends | ⟨parent, next, hleads⟩
    · rw [chainFrom_of_ends hends]
      exact succession_of_ends hends
    · have hlt := unseen_lt_of_leads hleads
      rw [chainFrom_of_leads hleads]
      exact (ih (by omega)).cons (hnamed parent attributes next hleads.found) hleads

/-! ## Main statement -/

/-- Whatever has been added to a book: a chain begins with its rule, each further entry is what is
found for the parent of the one before it, and no two entries have the same name. It ends at a rule
without a parent, or whose parent has no rule for these attributes or is the name of an entry; the
bound on its length has no part in it, as any other one that is not smaller gives the same chain. -/
theorem succession_of_chain (history : List Addition) (r : ElementRule) (attributes : Attributes) :
    let book := ofHistory history
    let chain := book.chain r attributes
    chain.head? = some r ∧
    (chain.IsChain fun q next => ∃ parent, q.parent = some parent ∧
      book.matchElement? parent attributes = some next) ∧
    (chain.map (·.id)).Nodup ∧
    (∀ last, chain.getLast? = some last → last.parent = none ∨ ∃ parent,
      last.parent = some parent ∧
        (book.matchElement? parent attributes = none ∨ parent ∈ chain.map (·.id))) ∧
    ∀ steps, book.elements.size ≤ steps →
      r :: book.chainFrom attributes steps [r.id] r = chain := by
  intro book chain
  -- a step for each shelf is enough, as no shelf is visited twice
  have hroom : book.unseen [r.id] ≤ book.elements.size := unseen_le_size book [r.id]
  have h : book.Succession attributes [r.id] r
      (book.chainFrom attributes book.elements.size [r.id] r) :=
    succession_chainFrom (named_ofHistory history) hroom
  refine ⟨rfl, h.linked, ?distinct, fun last hlast => ?ends, fun steps hsteps => ?bound⟩
  case distinct =>
    refine List.nodup_cons.2 ⟨fun hmem => ?_, h.distinct⟩
    obtain ⟨q, hq, hqid⟩ := List.mem_map.1 hmem
    exact h.new q hq (hqid ▸ List.mem_singleton_self _)
  case ends =>
    cases hparent : last.parent with
    | none => exact Or.inl rfl
    | some parent =>
      refine Or.inr ⟨parent, rfl, ?_⟩
      rcases h.ends last hlast parent hparent with hmem | hnone
      · right
        rw [List.mem_append, List.mem_singleton] at hmem
        exact List.mem_cons.2 hmem.symm
      · exact Or.inl hnone
  case bound =>
    exact congrArg (r :: ·) (chainFrom_eq_of_le hroom hsteps)

end LayoutCompiler.RuleBook
