import LayoutCompiler.Proofs.Compilation.Outlets
/-!
# Variants of a layout

What a compilation becomes when other variants of its layout are merged into it, all at once or one
list after another.

* `newOutlets_append`: outlets of two lists of variants are new one list after the other.
* `merge_merge`: merging twice is merging once.
* `variants_of_merge`: which outlets there are, which of them are optional and which have no node.
-/

namespace LayoutCompiler

/-! ## A layout in three variants -/

namespace Sample

/-- A stack with two outlets. -/
def form : Element :=
  { tag := "LinearLayout"
    children := [view [("android:id", "@+id/title")], view [("android:id", "@+id/note")]] }

/-- The stack without the second outlet. -/
def shortForm : Element :=
  { tag := "LinearLayout", children := [view [("android:id", "@+id/title")]] }

/-- The stack with another outlet, twice. -/
def longForm : Element :=
  { tag := "LinearLayout"
    children := [view [("android:id", "@+id/hint")], view [("android:id", "@+id/title")],
      view [("android:id", "@+id/hint")]] }

end Sample

namespace TextSet

/-- The members of a union are those of either set. -/
theorem contains_union {s t : TextSet} {key : String} :
    (s.union t).contains key = true ↔ s.contains key = true ∨ t.contains key = true := by
  unfold union SortedMap.contains
  rw [SortedMap.get?_layered, Option.isSome_or, Bool.or_eq_true]

theorem contains_foldl_union {β : Type} (part : β → TextSet) {xs : List β} {s : TextSet}
    {key : String} :
    (xs.foldl (fun s x => s.union (part x)) s).contains key = true ↔
      s.contains key = true ∨ ∃ x ∈ xs, (part x).contains key = true := by
  induction xs generalizing s with
  | nil => simp
  | cons x xs ih => rw [List.foldl_cons, ih, contains_union]; simp [or_assoc]

end TextSet

namespace Compilation

variable {α : Type} {o : Outlet} {outlets : List Outlet} {known known' : List String}
  {primary : Compilation α} {others : List (Compilation α)}

/-- The names of the outlets. -/
def outletNames (c : Compilation α) : List String := c.outlets.map (·.name)

theorem outlet?_isSome_iff {c : Compilation α} {name : String} :
    (c.outlet? name).isSome = true ↔ name ∈ c.outletNames := by
  unfold outlet? outletNames
  simp only [List.find?_isSome, beq_iff_eq, List.mem_map]

/-! ## New outlets -/

/-- Which outlets are new depends on which names are known, and on nothing else about them. -/
theorem newOutlets_congr (h : ∀ name, name ∈ known ↔ name ∈ known') :
    newOutlets known outlets = newOutlets known' outlets := by
  induction outlets generalizing known known' with
  | nil => rfl
  | cons first rest ih =>
    have hfirst : known.contains first.name = known'.contains first.name := by
      rw [Bool.eq_iff_iff, List.contains_iff_mem, List.contains_iff_mem]
      exact h first.name
    have hrest : ∀ name, name ∈ first.name :: known ↔ name ∈ first.name :: known' := by
      intro name
      rw [List.mem_cons, List.mem_cons, h name]
    unfold newOutlets
    rw [hfirst, ih h, ih hrest]

/-- What is new in two lists is what is new in the first one, and then what is new in the second one
once the names of the first one are known. -/
theorem newOutlets_append (known : List String) (outlets others : List Outlet) :
    newOutlets known (outlets ++ others) = newOutlets known outlets ++
      newOutlets ((newOutlets known outlets).map (·.name) ++ known) others := by
  induction outlets generalizing known with
  | nil => rfl
  | cons first rest ih =>
    rw [List.cons_append, newOutlets, newOutlets]
    split
    · exact ih known
    · rw [ih, List.cons_append, List.map_cons, List.cons_append]
      -- the name of the first one is known in both, though not at the same place
      congr 2
      refine newOutlets_congr fun name => ?_
      simp only [List.mem_append, List.mem_cons]
      tauto

/-- The new names are those that are not known, each where it comes first. -/
theorem names_newOutlets (known : List String) (outlets : List Outlet) :
    (newOutlets known outlets).map (·.name) =
      ((outlets.map (·.name)).filter fun name => !known.contains name).eraseDups := by
  induction outlets generalizing known with
  | nil => rfl
  | cons first rest ih =>
    unfold newOutlets
    by_cases hknown : known.contains first.name = true
    · rw [if_pos hknown, ih, List.map_cons, List.filter_cons_of_neg (by rw [hknown]; decide)]
    · rw [if_neg hknown, List.map_cons, ih, List.map_cons,
        List.filter_cons_of_pos (by rw [Bool.eq_false_iff.2 hknown]; rfl), List.eraseDups_cons,
        List.filter_filter]
      congr 3
      funext name
      rw [List.contains_cons, Bool.not_or]

/-- A new outlet is the first one of its name, but for its having no node. -/
theorem mem_newOutlets (h : o ∈ newOutlets known outlets) :
    o.name ∉ known ∧ ∃ declared, outlets.find? (fun d => d.name == o.name) = some declared ∧
      o = { declared with node := none, isOptional := true } := by
  induction outlets generalizing known with
  | nil => cases h
  | cons first rest ih =>
    -- the first declaration of a name is the one that counts
    have hskip : first.name ≠ o.name →
        (first :: rest).find? (fun d => d.name == o.name) =
          rest.find? fun d => d.name == o.name :=
      fun hne => List.find?_cons_of_neg (by simpa using hne)
    unfold newOutlets at h
    split at h
    · rename_i hknown
      obtain ⟨hnew, declared, hfind, ho⟩ := ih h
      have hne : first.name ≠ o.name := by
        rintro heq
        rw [heq, List.contains_iff_mem] at hknown
        exact hnew hknown
      exact ⟨hnew, declared, (hskip hne).trans hfind, ho⟩
    · rename_i hknown
      rcases List.mem_cons.1 h with rfl | h
      · rw [List.contains_iff_mem] at hknown
        exact ⟨hknown, first, List.find?_cons_of_pos (by simp), rfl⟩
      · obtain ⟨hnew, declared, hfind, ho⟩ := ih h
        rw [List.mem_cons, not_or] at hnew
        exact ⟨hnew.2, declared, (hskip (Ne.symm hnew.1)).trans hfind, ho⟩

/-! ## Merging -/

@[simp] theorem tree_merge (primary : Compilation α) (others : List (Compilation α)) :
    (primary.merge others).tree = primary.tree := by
  unfold merge
  split <;> rfl

/-- Whether all of some compilations have an outlet of a name. -/
def declaredByAll (others : List (Compilation α)) (name : String) : Bool :=
  others.all fun v => (v.outlet? name).isSome

theorem declaredByAll_eq_false_iff {name : String} :
    declaredByAll others name = false ↔ ∃ v ∈ others, name ∉ v.outletNames := by
  unfold declaredByAll
  simp only [List.all_eq_false, ← outlet?_isSome_iff]

/-- What becomes of an outlet: it is optional unless all of some compilations have it. -/
def ownOutlet (others : List (Compilation α)) (o : Outlet) : Outlet :=
  if declaredByAll others o.name then o else { o with isOptional := true }

@[simp] theorem name_ownOutlet (others : List (Compilation α)) (o : Outlet) :
    (ownOutlet others o).name = o.name := by
  unfold ownOutlet
  split <;> rfl

@[simp] theorem node_ownOutlet (others : List (Compilation α)) (o : Outlet) :
    (ownOutlet others o).node = o.node := by
  unfold ownOutlet
  split <;> rfl

theorem isOptional_ownOutlet (h : o.isOptional = false) :
    (ownOutlet others o).isOptional = true ↔ ∃ v ∈ others, o.name ∉ v.outletNames := by
  rw [← declaredByAll_eq_false_iff]
  unfold ownOutlet
  cases hall : declaredByAll others o.name with
  | true =>
    rw [if_pos rfl, h]
    exact iff_of_false Bool.false_ne_true fun h => nomatch h
  | false => exact iff_of_true rfl rfl

theorem ownOutlet_of_isOptional (others : List (Compilation α)) (h : o.isOptional = true) :
    ownOutlet others o = o := by
  unfold ownOutlet
  split
  · rfl
  · rw [← h]

/-- An outlet that is marked for some compilations and then for others is marked for all. -/
theorem ownOutlet_ownOutlet (others more : List (Compilation α)) (o : Outlet) :
    ownOutlet more (ownOutlet others o) = ownOutlet (others ++ more) o := by
  have hall : declaredByAll (others ++ more) o.name =
      (declaredByAll others o.name && declaredByAll more o.name) := List.all_append
  -- an outlet that is optional once stays so whatever the later variants declare
  cases hothers : declaredByAll others o.name with
  | true =>
    have hsame : ownOutlet others o = o := if_pos hothers
    unfold ownOutlet at hsame ⊢
    rw [hsame, hall, hothers, Bool.true_and]
  | false =>
    have hmarked : ownOutlet others o = { o with isOptional := true } := by
      unfold ownOutlet
      rw [hothers]
      rfl
    rw [hmarked, ownOutlet_of_isOptional more rfl]
    unfold ownOutlet
    rw [hall, hothers]
    rfl

/-- Merging in one equation, which also holds without variants. -/
theorem merge_eq (primary : Compilation α) (others : List (Compilation α)) :
    primary.merge others =
      { primary with
        outlets := primary.outlets.map (ownOutlet others) ++
          newOutlets primary.outletNames (others.flatMap (·.outlets))
        used := others.foldl (fun used v => used.union v.used) primary.used } := by
  have hnames : (primary.outlets.map (ownOutlet others)).map (·.name) = primary.outletNames := by
    rw [List.map_map]
    exact List.map_congr_left fun o _ => name_ownOutlet others o
  -- merging nothing changes nothing, which the equation has to say as well
  cases others with
  | nil =>
    have hown : primary.outlets.map (ownOutlet ([] : List (Compilation α))) = primary.outlets :=
      List.map_id'' (fun _ => rfl) _
    rw [hown]
    show primary = { primary with outlets := primary.outlets ++ [], used := primary.used }
    rw [List.append_nil]
  | cons v rest =>
    rw [← hnames]
    rfl

theorem outlets_merge (primary : Compilation α) (others : List (Compilation α)) :
    (primary.merge others).outlets = primary.outlets.map (ownOutlet others) ++
      newOutlets primary.outletNames (others.flatMap (·.outlets)) := by
  rw [merge_eq]

/-- Merging in one list of variants and then another one is merging in both at once. -/
theorem merge_merge (primary : Compilation α) (others more : List (Compilation α)) :
    (primary.merge others).merge more = primary.merge (others ++ more) := by
  -- the second merge knows the names of the primary and those that the first one has added
  have hknown : (primary.merge others).outletNames = primary.outletNames ++
      (newOutlets primary.outletNames (others.flatMap (·.outlets))).map (·.name) := by
    unfold outletNames
    rw [outlets_merge, List.map_append, List.map_map]
    congr 1
    exact List.map_congr_left fun o _ => name_ownOutlet others o
  have hown : (primary.merge others).outlets.map (ownOutlet more) =
      primary.outlets.map (ownOutlet (others ++ more)) ++
        newOutlets primary.outletNames (others.flatMap (·.outlets)) := by
    rw [outlets_merge, List.map_append, List.map_map]
    congr 1
    · exact List.map_congr_left fun o _ => ownOutlet_ownOutlet others more o
    · -- what the first variants have added is optional already
      refine (List.map_congr_left fun o ho => ?_).trans (List.map_id _)
      obtain ⟨-, declared, -, rfl⟩ := mem_newOutlets ho
      exact ownOutlet_of_isOptional more rfl
  rw [merge_eq (primary.merge others), hown, hknown, merge_eq primary others,
    merge_eq primary (others ++ more), List.flatMap_append, newOutlets_append, List.foldl_append,
    List.append_assoc]
  congr 3
  refine newOutlets_congr fun name => ?_
  rw [List.mem_append, List.mem_append, or_comm]

/-! ## The outlets of a merged compilation -/

/-- As long as no variant is known every outlet has a node, and none is optional. -/
def Unmerged (c : Compilation α) : Prop :=
  ∀ o ∈ c.outlets, o.node.isSome = true ∧ o.isOptional = false

/-- What a compilation becomes when other variants are merged into it. -/
structure Merged (primary : Compilation α) (others : List (Compilation α))
    (merged : Compilation α) : Prop where
  /-- Nothing but the outlets and the used resources is touched. -/
  kept : merged = { primary with outlets := merged.outlets, used := merged.used }
  /-- The own outlets come first, in order and as they are but for being optional. Behind them there
  is one outlet for each name that only variants have, in order of first appearance, with the type
  that it has there. -/
  outlets : ∃ own added, merged.outlets = own ++ added ∧
    own.map (fun o => { o with isOptional := false }) = primary.outlets ∧
    added.map (·.name) = ((others.flatMap outletNames).filter fun name =>
      !primary.outletNames.contains name).eraseDups ∧
    ∀ o ∈ added, ∃ declared, (others.flatMap (·.outlets)).find? (fun d => d.name == o.name) =
      some declared ∧ o.typeName = declared.typeName
  optional_iff : ∀ o ∈ merged.outlets, o.isOptional = true ↔
    o.name ∉ primary.outletNames ∨ ∃ v ∈ others, o.name ∉ v.outletNames
  node_iff : ∀ o ∈ merged.outlets, o.node = none ↔ o.name ∉ primary.outletNames
  used_iff : ∀ key, merged.used.contains key = true ↔
    primary.used.contains key = true ∨ ∃ v ∈ others, v.used.contains key = true

/-- A merged outlet is an own one, marked for the variants, or a new one. -/
theorem mem_outlets_merge (h : o ∈ (primary.merge others).outlets) :
    (∃ own ∈ primary.outlets, o = ownOutlet others own) ∨
      o.name ∉ primary.outletNames ∧ o.isOptional = true ∧ o.node = none := by
  rw [outlets_merge] at h
  rcases List.mem_append.1 h with h | h
  · obtain ⟨own, hown, rfl⟩ := List.mem_map.1 h
    exact Or.inl ⟨own, hown, rfl⟩
  · obtain ⟨hnew, declared, -, rfl⟩ := mem_newOutlets h
    exact Or.inr ⟨hnew, rfl, rfl⟩

theorem name_mem_outletNames {c : Compilation α} (h : o ∈ c.outlets) : o.name ∈ c.outletNames :=
  List.mem_map_of_mem h

theorem Merged.of_unmerged (h : primary.Unmerged) (others : List (Compilation α)) :
    Merged primary others (primary.merge others) where
  kept := by rw [merge_eq]
  outlets := by
    refine ⟨_, _, outlets_merge primary others, ?_, ?_, fun o ho => ?_⟩
    · rw [List.map_map]
      refine (List.map_congr_left fun o ho => ?_).trans (List.map_id _)
      -- no outlet is optional before a merge, so marking it tells that some variant leaves it out
      have hopt := (h o ho).2
      unfold ownOutlet
      rw [Function.comp_apply]
      split
      · rw [← hopt]
        rfl
      · rw [← hopt]
        rfl
    · rw [names_newOutlets, List.map_flatMap]
      rfl
    · obtain ⟨-, declared, hfind, rfl⟩ := mem_newOutlets ho
      exact ⟨declared, hfind, rfl⟩
  optional_iff := by
    intro o ho
    rcases mem_outlets_merge ho with ⟨own, hown, rfl⟩ | ⟨hnew, hoptional, -⟩
    · have hname : own.name ∈ primary.outletNames := name_mem_outletNames hown
      rw [isOptional_ownOutlet (h own hown).2, name_ownOutlet]
      exact (or_iff_right (not_not_intro hname)).symm
    · exact iff_of_true hoptional (Or.inl hnew)
  node_iff := by
    intro o ho
    rcases mem_outlets_merge ho with ⟨own, hown, rfl⟩ | ⟨hnew, -, hnode⟩
    · rw [node_ownOutlet, name_ownOutlet]
      refine iff_of_false (fun hnone => ?_) (not_not_intro (name_mem_outletNames hown))
      have hsome := (h own hown).1
      rw [hnone] at hsome
      cases hsome
    · exact iff_of_true hnode hnew
  used_iff := by
    intro key
    rw [merge_eq]
    exact TextSet.contains_foldl_union fun v : Compilation α => v.used

/-- Variants may be merged in one list after another. The outlets of a compilation that nothing has
been merged into, such as every compilation of a layout, stay in front, in order; those that only
variants have follow, one for each name. Optional is what some variant lacks, and without a node
what the first one lacks. -/
theorem variants_of_merge [Scalar α] (primary : Compilation α)
    (others more : List (Compilation α)) :
    (primary.merge others).merge more = primary.merge (others ++ more) ∧
      (primary.Unmerged → Merged primary others (primary.merge others)) ∧
      ∀ (setting : Setting α) (file : String) (root : Element),
        ofElement setting file root = .ok primary → primary.Unmerged := by
  refine ⟨merge_merge primary others more, fun h => .of_unmerged h others, ?_⟩
  intro setting file root h o ho
  obtain ⟨hopt, n, hn, -⟩ := served_of_ofElement h o ho
  exact ⟨by rw [hn]; rfl, hopt⟩

theorem variants_of_sample : ∃ primary short long : Compilation ℚ,
    ofElement Sample.setting Sample.file Sample.form = .ok primary ∧
    ofElement Sample.setting Sample.file Sample.shortForm = .ok short ∧
    ofElement Sample.setting Sample.file Sample.longForm = .ok long ∧
    (primary.merge [short]).merge [long] = primary.merge [short, long] ∧
    Merged primary [short, long] (primary.merge [short, long]) ∧
    (primary.merge [short, long]).outlets.map (fun o => (o.name, o.node.isSome, o.isOptional)) =
      [("title", true, false), ("note", true, true), ("hint", false, true)] := by
  have hmerged : (do
      let primary ← ofElement Sample.setting Sample.file Sample.form
      let short ← ofElement Sample.setting Sample.file Sample.shortForm
      let long ← ofElement Sample.setting Sample.file Sample.longForm
      pure ((primary.merge [short, long]).outlets.map fun o =>
        (o.name, o.node.isSome, o.isOptional)) :
        Outcome (List (String × Bool × Bool))).toOption =
      some [("title", true, false), ("note", true, true), ("hint", false, true)] := by
    decide +kernel
  cases h : ofElement Sample.setting Sample.file Sample.form with
  | error e =>
    rw [h] at hmerged
    cases hmerged
  | ok primary =>
    cases h' : ofElement Sample.setting Sample.file Sample.shortForm with
    | error e =>
      rw [h, h'] at hmerged
      cases hmerged
    | ok short =>
      cases h'' : ofElement Sample.setting Sample.file Sample.longForm with
      | error e =>
        rw [h, h', h''] at hmerged
        cases hmerged
      | ok long =>
        rw [h, h', h''] at hmerged
        obtain ⟨honce, -, hunmerged⟩ := variants_of_merge primary [short] [long]
        have hplain := hunmerged Sample.setting Sample.file Sample.form h
        have hall := (variants_of_merge primary [short, long] []).2.1 hplain
        exact ⟨primary, short, long, rfl, rfl, rfl, honce, hall, Option.some.inj hmerged⟩

end Compilation

end LayoutCompiler
