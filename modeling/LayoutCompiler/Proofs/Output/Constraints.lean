import LayoutCompiler.Proofs.Number.Written
import LayoutCompiler.Proofs.Output.Skeleton
import Std.Data.String.ToNat
/-!
# Constraints in documents

What a document says about constraints, read back. A written constraint leaves out what is
understood and names nodes by their identifiers; a `Reading` is what it says with all of that filled
in again.

* `Reading.read?_constraintAttributes`: a written constraint reads as what has been recorded.
* `Tree.perm_own`: sharing the constraints out to their hosts loses none and doubles none.
* `constraints_of_ofElement`: the document of a compilation has every recorded constraint once, in
  the element of its host, and every one of them reads back.
-/

namespace LayoutCompiler

open Markup (Fragment)

variable {α : Type}

/-- A constraint as far as it is written: without its identifier, and with texts for magnitudes. -/
def Constraint.written [Scalar α] (c : Constraint α) : Constraint String :=
  { c with
    multiplier := Scalar.text c.multiplier, constant := Scalar.text c.constant, ident := "" }

/-- No two nodes share an identifier. -/
def Tree.Distinct (t : Tree α) : Prop :=
  ∀ m n ident, (t.node m).ident = some ident → (t.node n).ident = some ident → m = n

/-! ## Attributes that may be left out -/

namespace InterfaceDocument

/-- Attributes by name, without those that are left out. -/
def given (fields : List (String × Option String)) : List (String × String) :=
  fields.flatMap fun (name, value) => (value.map fun v => (name, v)).toList

theorem lookup_toList (key name : String) (value : Option String) :
    ((value.map fun v => (name, v)).toList).lookup key = if key = name then value else none := by
  by_cases hkey : key = name
  · cases value <;> simp [hkey]
  · cases value <;> simp [hkey, List.lookup_cons, beq_eq_false_iff_ne.2 hkey]

theorem lookup_given {fields : List (String × Option String)}
    (hnames : (fields.map (·.1)).Nodup) (key : String) :
    (given fields).lookup key = (fields.lookup key).join := by
  induction fields with
  | nil => rfl
  | cons field fields ih =>
    obtain ⟨name, value⟩ := field
    obtain ⟨hnew, hrest⟩ := List.nodup_cons.1 hnames
    have happend : (given ((name, value) :: fields)).lookup key =
        (if key = name then value else none).or ((given fields).lookup key) := by
      rw [given, List.flatMap_cons, List.lookup_append, lookup_toList, given]
    rw [happend, ih hrest, List.lookup_cons]
    by_cases hkey : key = name
    · -- a name that is left out does not come again
      subst hkey
      have hnone : fields.lookup key = none := by
        rw [List.lookup_eq_none_iff]
        rintro ⟨name, v⟩ hfield
        rw [bne_iff_ne]
        rintro rfl
        exact hnew (List.mem_map.2 ⟨_, hfield, rfl⟩)
      rw [hnone, beq_self_eq_true, if_pos rfl]
      exact Option.or_none
    · rw [if_neg hkey, beq_eq_false_iff_ne.2 hkey, Option.none_or]

section

variable [Scalar α] (tree : Tree α) (host : Nat) (c : Constraint α)

/-- The attributes of a constraint, those that are left out among them. -/
def constraintFields : List (String × Option String) :=
  [("firstItem", if c.first.node = host then none else some (identOf tree c.first.node)),
   ("firstAttribute", some c.first.facet.name),
   ("relation", relationName? c.relation),
   ("secondItem", c.second.map fun a => identOf tree a.node),
   ("secondAttribute", c.second.map fun a => a.facet.name),
   ("multiplier", if c.multiplier == 1 then none else some (Scalar.text c.multiplier)),
   ("constant", if c.constant == 0 then none else some (Scalar.text c.constant)),
   ("priority", if c.priority = Priority.required then none else some (toString c.priority)),
   ("id", some c.ident)]

theorem constraintAttributes_eq :
    constraintAttributes tree host c = given (constraintFields tree host c) := by
  have hunless (p : Prop) [Decidable p] (name value : String) :
      (if p then [] else [(name, value)]) =
        ((if p then none else some value).map fun v => (name, v)).toList := by
    split <;> rfl
  unfold constraintAttributes given constraintFields
  simp only [hunless, List.flatMap_cons, List.flatMap_nil, List.append_nil, List.append_assoc]
  cases c.second <;> rfl

theorem lookup_constraintAttributes (key : String) :
    (constraintAttributes tree host c).lookup key =
      ((constraintFields tree host c).lookup key).join := by
  have hnames : ((constraintFields tree host c).map (·.1)).Nodup := by
    simp [constraintFields]
  rw [constraintAttributes_eq, lookup_given hnames]

end

/-! ## Reading a written constraint -/

/-- What a written constraint says: nodes by their identifiers, magnitudes by their texts. -/
structure Reading where
  firstItem : String
  firstFacet : Facet
  second : Option (String × Facet)
  relation : Relation
  multiplier : String
  constant : String
  priority : Nat
deriving Repr, DecidableEq

/-- The facet with a name. -/
def facet? (name : String) : Option Facet := Facet.all.find? fun f => f.name == name

/-- The relation with a name. -/
def relation? : String → Option Relation
  | "equal" => some .equal
  | "greaterThanOrEqual" => some .atLeast
  | "lessThanOrEqual" => some .atMost
  | _ => none

theorem facet?_name (f : Facet) : facet? f.name = some f := by
  cases f <;> rfl

namespace Reading

/-- The second anchor of a written constraint, if it has one. -/
def second? (written : List (String × String)) : Option (Option (String × Facet)) :=
  match written.lookup "secondItem", written.lookup "secondAttribute" with
  | none, none => some none
  | some item, some name => (facet? name).map fun facet => some (item, facet)
  | _, _ => none

/-- What the attributes of a written constraint say inside an element with some attributes. Without
a first item that element is meant; without a relation, a factor, an addend or a priority these are
equality, one, zero and 1000. -/
def read? (enclosing written : List (String × String)) : Option Reading := do
  let firstItem ← (written.lookup "firstItem").or (enclosing.lookup "id")
  let firstFacet ← (written.lookup "firstAttribute").bind facet?
  let second ← second? written
  let relation ← relation? ((written.lookup "relation").getD "equal")
  let priority ← ((written.lookup "priority").getD "1000").toNat?
  pure
    { firstItem, firstFacet, second, relation, priority
      multiplier := (written.lookup "multiplier").getD "1"
      constant := (written.lookup "constant").getD "0" }

variable [Scalar α]

/-- A reading says what has been recorded: its identifiers are those of the nodes, its texts those
of the magnitudes. -/
structure Means (t : Tree α) (r : Reading) (c : Constraint α) : Prop where
  firstItem : (t.node c.first.node).ident = some r.firstItem
  firstFacet : r.firstFacet = c.first.facet
  second : Option.Rel (fun (said : String × Facet) a =>
    (t.node a.node).ident = some said.1 ∧ said.2 = a.facet) r.second c.second
  relation : r.relation = c.relation
  multiplier : r.multiplier = Scalar.text c.multiplier
  constant : r.constant = Scalar.text c.constant
  priority : r.priority = c.priority

/-- What is left out where it is understood is no loss. -/
theorem getD_unless {p : Prop} [Decidable p] {text understood : String}
    (h : p → text = understood) :
    (if p then none else some text).getD understood = text := by
  split
  · exact (h ‹p›).symm
  · rfl

/-- The first item may be left out in the element of its own node. -/
theorem firstItem_constraintAttributes (tree : Tree α) (host : Nat) (c : Constraint α)
    {enclosing : List (String × String)}
    (henclosing : enclosing.lookup "id" = some (identOf tree host)) :
    ((constraintAttributes tree host c).lookup "firstItem").or (enclosing.lookup "id") =
      some (identOf tree c.first.node) := by
  rw [lookup_constraintAttributes, henclosing]
  show (if c.first.node = host then none else some (identOf tree c.first.node)).or _ = _
  split
  · rw [‹c.first.node = host›]
    rfl
  · rfl

theorem second?_constraintAttributes (tree : Tree α) (host : Nat) (c : Constraint α) :
    second? (constraintAttributes tree host c) =
      some (c.second.map fun a => (identOf tree a.node, a.facet)) := by
  unfold second?
  rw [lookup_constraintAttributes, lookup_constraintAttributes]
  show (match c.second.map fun a => identOf tree a.node, c.second.map fun a => a.facet.name with
    | none, none => some none
    | some item, some name => (facet? name).map fun facet => some (item, facet)
    | _, _ => none) = _
  cases c.second with
  | none => rfl
  | some a =>
    simp only [Option.map_some, facet?_name]

theorem priority_constraintAttributes (tree : Tree α) (host : Nat) (c : Constraint α) :
    (((constraintAttributes tree host c).lookup "priority").getD "1000").toNat? =
      some c.priority := by
  have htext : ((constraintAttributes tree host c).lookup "priority").getD "1000" =
      toString c.priority := by
    rw [lookup_constraintAttributes]
    exact getD_unless fun hrequired => by rw [hrequired]; rfl
  rw [htext]
  exact Nat.toNat?_repr c.priority

/-- A written constraint reads as what has been recorded, in the element of a node under whose
identifier it may leave out its first item. -/
theorem read?_constraintAttributes [LawfulText α] (tree : Tree α) (host : Nat) (c : Constraint α)
    {enclosing : List (String × String)}
    (henclosing : enclosing.lookup "id" = some (identOf tree host)) :
    read? enclosing (constraintAttributes tree host c) =
      some
        { firstItem := identOf tree c.first.node, firstFacet := c.first.facet
          second := c.second.map fun a => (identOf tree a.node, a.facet)
          relation := c.relation, multiplier := Scalar.text c.multiplier
          constant := Scalar.text c.constant, priority := c.priority } := by
  -- what is left out stands for its default, which is what the reader falls back on
  have hlookup := lookup_constraintAttributes tree host c
  have hfacet : ((constraintAttributes tree host c).lookup "firstAttribute").bind facet? =
      some c.first.facet := by
    rw [hlookup]
    exact facet?_name c.first.facet
  have hrelation : relation? (((constraintAttributes tree host c).lookup "relation").getD "equal") =
      some c.relation := by
    rw [hlookup]
    show relation? ((relationName? c.relation).getD "equal") = some c.relation
    cases c.relation <;> rfl
  have hmultiplier : ((constraintAttributes tree host c).lookup "multiplier").getD "1" =
      Scalar.text c.multiplier := by
    rw [hlookup]
    exact getD_unless (LawfulText.text_of_one c.multiplier)
  have hconstant : ((constraintAttributes tree host c).lookup "constant").getD "0" =
      Scalar.text c.constant := by
    rw [hlookup]
    exact getD_unless (LawfulText.text_of_zero c.constant)
  unfold read?
  rw [firstItem_constraintAttributes tree host c henclosing, hfacet,
    second?_constraintAttributes, hrelation, priority_constraintAttributes, hmultiplier, hconstant]
  rfl

/-- What is written under the host of a constraint reads as what has been recorded. -/
theorem exists_means [LawfulText α] {t : Tree α} {host : Nat} {c : Constraint α}
    (hhost : (t.node host).ident.isSome) (hnamed : ∀ m ∈ c.participants, (t.node m).ident.isSome) :
    ∃ r, read? (attributes (t.node host)) (constraintAttributes t host c) = some r ∧
      r.Means t c := by
  have hident {m : Nat} (hm : (t.node m).ident.isSome) :
      (t.node m).ident = some (identOf t m) := by
    obtain ⟨ident, h⟩ := Option.isSome_iff_exists.1 hm
    rw [identOf, h]
    rfl
  -- the enclosing element is the host's, which says which item is meant when none is named
  have henclosing : (attributes (t.node host)).lookup "id" = some (identOf t host) := by
    rw [attributes, hident hhost]
    rfl
  refine ⟨_, read?_constraintAttributes t host c henclosing, ?_⟩
  refine ⟨hident (hnamed _ List.mem_cons_self), rfl, ?_, rfl, rfl, rfl, rfl⟩
  cases hsecond : c.second with
  | none => exact .none
  | some a =>
    have ha : a.node ∈ c.participants := by
      simp [Constraint.participants, hsecond]
    exact .some ⟨hident (hnamed _ ha), rfl⟩

/-- Where no two nodes share an identifier, a reading has one meaning. -/
theorem Means.written {t : Tree α} {r : Reading} {c c' : Constraint α} (hd : t.Distinct)
    (h : r.Means t c) (h' : r.Means t c') : c.written = c'.written := by
  -- identifiers are distinct, so the same one means the same node
  have hanchor {a a' : Anchor} {ident : String} {facet : Facet}
      (ha : (t.node a.node).ident = some ident ∧ facet = a.facet)
      (ha' : (t.node a'.node).ident = some ident ∧ facet = a'.facet) : a = a' := by
    obtain ⟨node, f⟩ := a
    obtain ⟨node', f'⟩ := a'
    obtain rfl : node = node' := hd _ _ _ ha.1 ha'.1
    obtain rfl : f = f' := ha.2.symm.trans ha'.2
    rfl
  have hfirst : c.first = c'.first :=
    hanchor ⟨h.firstItem, h.firstFacet⟩ ⟨h'.firstItem, h'.firstFacet⟩
  have hsecond : c.second = c'.second := by
    have hs := h.second
    have hs' := h'.second
    generalize r.second = said at hs hs'
    generalize c.second = a at hs ⊢
    generalize c'.second = a' at hs' ⊢
    cases hs with
    | none =>
      cases hs'
      rfl
    | some ha =>
      cases hs' with
      | some ha' => exact congrArg some (hanchor ha ha')
  simp only [Constraint.written, hfirst, hsecond, ← h.relation, ← h'.relation, ← h.multiplier,
    ← h'.multiplier, ← h.constant, ← h'.constant, ← h.priority, ← h'.priority]

end Reading

end InterfaceDocument

/-! ## Hosts -/

/-- Elements shared out by a number each: sharing them out loses none and doubles none. -/
theorem perm_flatMap_filter {β : Type} (number : β → Option Nat) {numbers : List Nat}
    (hnodup : numbers.Nodup) (xs : List β) (h : ∀ x ∈ xs, ∃ n ∈ numbers, number x = some n) :
    (numbers.flatMap fun n => xs.filter fun x => number x == some n).Perm xs := by
  induction numbers generalizing xs with
  | nil =>
    cases xs with
    | nil => exact List.Perm.refl _
    | cons x xs =>
      obtain ⟨n, hn, -⟩ := h x List.mem_cons_self
      cases hn
  | cons n numbers ih =>
    obtain ⟨hnew, hrest⟩ := List.nodup_cons.1 hnodup
    -- what is not under the first number is shared out among the others
    have hothers := ih hrest (xs.filter fun x => !(number x == some n)) fun x hx => by
      obtain ⟨hmem, hne⟩ := List.mem_filter.1 hx
      obtain ⟨m, hm, hnumber⟩ := h x hmem
      rcases List.mem_cons.1 hm with rfl | hm
      · simp [hnumber] at hne
      · exact ⟨m, hm, hnumber⟩
    have hsame : ∀ m ∈ numbers, (xs.filter fun x => !(number x == some n)).filter
        (fun x => number x == some m) = xs.filter fun x => number x == some m := by
      intro m hm
      rw [List.filter_filter]
      refine List.filter_congr fun x _ => ?_
      by_cases hx : number x = some m
      · have hmn : m ≠ n := fun heq => hnew (heq ▸ hm)
        simp [hx, hmn]
      · simp [hx]
    rw [List.flatMap_cons]
    rw [List.flatMap_congr hsame] at hothers
    exact (List.Perm.append_left _ hothers).trans (List.filter_append_perm _ xs)

namespace Tree

variable [Scalar α] {t : Tree α} {x : Nat}

/-- The constraints that belong to a node, as recorded. -/
def own (t : Tree α) (x : Nat) : List (Constraint α) :=
  t.constraints.filter fun c => (t.host c).toOption == some x

theorem host_of_mem_own {c : Constraint α} (h : c ∈ t.own x) :
    c ∈ t.constraints ∧ t.host c = .ok x := by
  obtain ⟨hmem, hhost⟩ := List.mem_filter.1 h
  refine ⟨hmem, ?_⟩
  cases hc : t.host c with
  | error e =>
    rw [hc] at hhost
    cases hhost
  | ok y =>
    rw [hc] at hhost
    exact congrArg Except.ok (Option.some.inj (eq_of_beq hhost))

/-- The nodes of a tree share its constraints out among them. -/
theorem perm_own {nodes : List Nat} (hnodup : nodes.Nodup)
    (h : ∀ c ∈ t.constraints, ∃ x ∈ nodes, t.host c = .ok x) :
    (nodes.flatMap t.own).Perm t.constraints := by
  refine perm_flatMap_filter (fun c => (t.host c).toOption) hnodup t.constraints fun c hc => ?_
  obtain ⟨x, hx, hhost⟩ := h c hc
  exact ⟨x, hx, by rw [hhost]; rfl⟩

/-- The constraints that have been given a node are those that belong to it. -/
theorem filter_hosted {entries : List (Nat × Constraint α)} (h : t.hosted = .ok entries) (x : Nat) :
    (entries.filter fun entry => entry.1 == x) = (t.own x).map fun c => (x, c) := by
  unfold hosted at h
  unfold own
  generalize t.constraints = constraints at h
  induction constraints generalizing entries with
  | nil =>
    obtain rfl := Except.ok.inj h
    rfl
  | cons c cs ih =>
    rw [List.mapM_cons] at h
    cases hc : t.host c with
    | error e =>
      rw [hc] at h
      cases h
    | ok y =>
      cases hcs : cs.mapM fun c => (t.host c).map fun id => (id, c) with
      | error e =>
        rw [hc, hcs] at h
        cases h
      | ok rest =>
        rw [hc, hcs] at h
        -- the entry of this constraint is kept just if its host is the node
        obtain rfl := Except.ok.inj h
        rw [List.filter_cons, List.filter_cons, hc, ih hcs]
        by_cases hyx : y = x
        · simp [hyx, Except.toOption]
        · simp [hyx, Except.toOption]

end Tree

/-! ## Documents -/

namespace InterfaceDocument

variable [Scalar α] {c : Compilation α} {skeleton : Skeleton}

/-- What the element of a node says about some constraints. -/
def constraintsElement (tree : Tree α) (x : Nat) : List (Constraint α) → List Fragment
  | [] => []
  | own =>
    [.element "constraints" []
      (own.map fun k => .void "constraint" (constraintAttributes tree x k))]

theorem constraintsOf_eq {tree : Tree α} {entries : List (Nat × Constraint α)}
    (h : tree.hosted = .ok entries) :
    constraintsOf tree entries = fun x => constraintsElement tree x (tree.own x) := by
  funext x
  unfold constraintsOf
  rw [Tree.filter_hosted h x]
  cases tree.own x with
  | nil => rfl
  | cons k own =>
    simp only [List.map_cons, List.map_map, constraintsElement]
    rfl

/-- The element of a skeleton, with the constraints of a tree in the elements of their hosts. -/
def viewElement (tree : Tree α) (skeleton : Skeleton) : Fragment :=
  skeleton.element tree fun x => constraintsElement tree x (tree.own x)

/-- The document of a compilation with the elements of a skeleton. -/
def documentOf (c : Compilation α) (resources : ResourceTable α) (skeleton : Skeleton) : Fragment :=
  .element "document" documentAttributes <|
    [dependencies, .element "objects" [] [owner c, firstResponder, viewElement c.tree skeleton]] ++
      resourceFragments resources c.used

/-- A compilation is written, with an element for each of its nodes. -/
structure Shows (c : Compilation α) (resources : ResourceTable α) (skeleton : Skeleton) : Prop where
  written : write c resources =
    .ok (Markup.write width (.declaration :: (documentOf c resources skeleton).pieces) ++ "\n")
  nodes : skeleton.ids.Perm (List.range c.tree.size)

/-- A linked tree whose constraints have hosts is written. -/
theorem exists_shows (hl : c.tree.Linked) (hsize : 0 < c.tree.size)
    (hhosts : ∀ k ∈ c.tree.constraints, ∃ x, c.tree.host k = .ok x) (resources : ResourceTable α) :
    ∃ skeleton, Shows c resources skeleton := by
  obtain ⟨entries, hentries⟩ := Compilation.hosted_of_hosts hhosts
  obtain ⟨skeleton, hnodes, helements⟩ := exists_skeleton hl hsize
  refine ⟨skeleton, ?_, hnodes⟩
  have hdocument : document c resources entries = documentOf c resources skeleton := by
    rw [document, documentOf, viewElement, helements, constraintsOf_eq hentries]
  rw [write, hentries, ← hdocument]
  rfl

/-- A node with constraints has an element in which these stand. -/
theorem Shows.constraints_mem_parts {resources : ResourceTable α} (h : Shows c resources skeleton)
    {x : Nat} (hx : x < c.tree.size) (hne : c.tree.own x ≠ []) : ∃ content,
    .element (c.tree.node x).name (attributes (c.tree.node x)) content ∈
        (viewElement c.tree skeleton).parts ∧
      .element "constraints" []
          ((c.tree.own x).map fun k => .void "constraint" (constraintAttributes c.tree x k)) ∈
        content := by
  have hown : constraintsElement c.tree x (c.tree.own x) = [.element "constraints" []
      ((c.tree.own x).map fun k => .void "constraint" (constraintAttributes c.tree x k))] := by
    cases hlist : c.tree.own x with
    | nil => exact absurd hlist hne
    | cons k own => rfl
  have hmem : x ∈ skeleton.ids := h.nodes.mem_iff.2 (List.mem_range.2 hx)
  obtain ⟨content, hcontent, hsub⟩ := Skeleton.host_mem_parts
    (fun x => constraintsElement c.tree x (c.tree.own x)) hmem (by rw [hown]; exact nofun)
  exact ⟨content, hcontent, hsub (hown ▸ List.mem_singleton_self _)⟩

/-- The constraints of a compilation stand where they belong in its document, and can be read back
from there. -/
structure ShowsConstraints (c : Compilation α) (skeleton : Skeleton) : Prop where
  /-- Those that the elements of all nodes state are those recorded. -/
  once : (skeleton.ids.flatMap c.tree.own).Perm c.tree.constraints
  /-- An element states those whose host is its node. -/
  hosts : ∀ x, ∀ k ∈ c.tree.own x, c.tree.host k = .ok x
  /-- They stand in order in the element that is written for the node. -/
  stands : ∀ x, c.tree.own x ≠ [] → ∃ content,
    .element (c.tree.node x).name (attributes (c.tree.node x)) content ∈
        (viewElement c.tree skeleton).parts ∧
      .element "constraints" []
          ((c.tree.own x).map fun k => .void "constraint" (constraintAttributes c.tree x k)) ∈
        content
  /-- What is read is what has been recorded, and nothing else once identifiers tell nodes apart. -/
  reads : ∀ x, ∀ k ∈ c.tree.own x, ∃ r : Reading,
    Reading.read? (attributes (c.tree.node x)) (constraintAttributes c.tree x k) = some r ∧
      r.Means c.tree k ∧ (c.tree.Distinct → ∀ k', r.Means c.tree k' → k'.written = k.written)

variable {setting : Setting α} {file : String} {root : Element}

/-- Every compilation can be written, for whatever resources; its document has every constraint that
has been recorded once, in order of recording, in the element of its host; and what is written
there reads as what has been recorded. -/
theorem constraints_of_ofElement [LawfulText α]
    (h : Compilation.ofElement setting file root = .ok c) (resources : ResourceTable α) :
    ∃ skeleton, Shows c resources skeleton ∧ ShowsConstraints c skeleton := by
  rcases Compilation.ofElement_cases setting file root with
    ⟨child, s, -, hadded, hok⟩ | ⟨e, herror, -⟩
  · rw [hok] at h
    obtain rfl := Except.ok.inj h
    have hl := hadded.compiled.linked
    -- in a compiled tree every constraint is settled, and so has a host
    have hanchored : ∀ k ∈ s.tree.constraints, ∃ x, s.tree.Anchored k x := by
      intro k hk
      obtain ⟨x, ha, -⟩ := hadded.compiled.settled k hk
      exact ⟨x, ha⟩
    obtain ⟨skeleton, hshows⟩ := exists_shows (c := Compilation.ended file s) hl
      (Nat.zero_lt_of_lt (Tree.lt_size_of_ident hadded.named))
      (fun k hk => by
        obtain ⟨x, ha⟩ := hanchored k hk
        exact ⟨x, ha.host_eq hl⟩) resources
    have hown : ∀ x, ∀ k ∈ s.tree.own x, s.tree.Anchored k x := by
      intro x k hk
      obtain ⟨hmem, hhost⟩ := Tree.host_of_mem_own hk
      obtain ⟨y, ha⟩ := hanchored k hmem
      obtain rfl : y = x := Except.ok.inj ((ha.host_eq hl).symm.trans hhost)
      exact ha
    refine ⟨skeleton, hshows, ?_⟩
    constructor
    case once =>
      refine Tree.perm_own (hshows.nodes.nodup_iff.2 List.nodup_range) fun k hk => ?_
      obtain ⟨x, ha⟩ := hanchored k hk
      refine ⟨x, hshows.nodes.mem_iff.2 (List.mem_range.2 ?_), ha.host_eq hl⟩
      exact Tree.lt_size_of_ident ha.host_named
    case hosts => exact fun x k hk => (Tree.host_of_mem_own hk).2
    case stands =>
      intro x hne
      obtain ⟨k, hk⟩ := List.exists_mem_of_ne_nil _ hne
      exact hshows.constraints_mem_parts (Tree.lt_size_of_ident (hown x k hk).host_named) hne
    case reads =>
      intro x k hk
      obtain ⟨r, hread, hmeans⟩ := Reading.exists_means (hown x k hk).host_named (hown x k hk).named
      exact ⟨r, hread, hmeans, fun hd k' hk' => hk'.written hd hmeans⟩
  · rw [herror] at h
    cases h

theorem constraints_of_sample : ∃ c skeleton,
    Compilation.ofElement Sample.setting Sample.file Sample.stack = .ok c ∧
    c.tree.constraints ≠ [] ∧ Shows c {} skeleton ∧ ShowsConstraints c skeleton := by
  have hsome : (Compilation.ofElement Sample.setting Sample.file Sample.stack).toOption.any
      (fun c => !c.tree.constraints.isEmpty) = true := by
    decide +kernel
  cases h : Compilation.ofElement Sample.setting Sample.file Sample.stack with
  | error e =>
    rw [h] at hsome
    cases hsome
  | ok c =>
    obtain ⟨skeleton, hshows, hconstraints⟩ := constraints_of_ofElement h {}
    refine ⟨c, skeleton, rfl, fun hnil => ?_, hshows, hconstraints⟩
    simp [h, Except.toOption, hnil] at hsome

end InterfaceDocument

end LayoutCompiler
