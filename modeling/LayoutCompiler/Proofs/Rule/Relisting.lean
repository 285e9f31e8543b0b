import LayoutCompiler.Proofs.Rule.Rereading
/-!
# Loading a listing

The rules of a book can be listed in order of their names and ranks, and a listing can be loaded as
a document. Since rules of one rank are listed in the order in which they were added, the book that
comes about has the rules of the first one in the same places, and answers every question as the
first one did, with the rule as it is read back.

* `foldl_shelve_values`: lists by name are built again from their members in order.
* `load_listed`: the book of a listing.
* `answers_of_listing`: its answers.
-/

namespace LayoutCompiler

variable {format : DataFormat}

/-! ## Building lists by name again -/

section Shelves

variable {β : Type} {rank : β → Nat} {name : β → String} {P : β → Prop}

/-- A member that ranks no higher than any other is put at the end. -/
theorem insertRanked_of_le {x : β} {ys : List β} (h : ∀ y ∈ ys, rank x ≤ rank y) :
    insertRanked rank x ys = ys ++ [x] := by
  induction ys with
  | nil => rfl
  | cons y ys ih =>
    have hy : ¬ rank y < rank x := Nat.not_lt.2 (h y List.mem_cons_self)
    rw [insertRanked, if_neg hy, ih fun z hz => h z (List.mem_cons_of_mem y hz), List.cons_append]

/-- Members of one name that come in descending order of rank are added at the end of their list,
one after the other. -/
theorem foldl_shelve_of_descending {shelves : SortedMap (List β)} {key : String} (xs : List β)
    {ys : List β} (hne : ys ≠ []) (hname : ∀ y ∈ ys, name y = key)
    (hrank : Descending rank (xs ++ ys)) (hlist : (shelves.get? key).getD [] = xs) :
    ys.foldl (shelve rank name) shelves = shelves.insert key (xs ++ ys) := by
  induction ys generalizing shelves xs with
  | nil => exact absurd rfl hne
  | cons y ys ih =>
    have hbefore : ∀ x ∈ xs, rank y ≤ rank x := by
      intro x hx
      exact (List.pairwise_append.1 hrank).2.2 x hx y List.mem_cons_self
    -- members of the same rank stay in the order in which they are added
    have hstep : shelve rank name shelves y = shelves.insert key (xs ++ [y]) := by
      unfold shelve
      rw [hname y List.mem_cons_self, hlist, insertRanked_of_le hbefore]
    rw [List.foldl_cons, hstep]
    cases ys with
    | nil => rfl
    | cons z zs =>
      have hsplit : (xs ++ [y]) ++ z :: zs = xs ++ y :: z :: zs := by simp
      rw [ih (xs ++ [y]) (List.cons_ne_nil z zs) (fun w hw => hname w (List.mem_cons_of_mem y hw))
        (hsplit ▸ hrank) (by simp), hsplit]
      apply SortedMap.ext_get?
      intro key'
      by_cases hkey : key = key' <;> simp [hkey]

/-- Images of the members of some of the lists by name, taken in order, are put at the keys of those
lists, when there is nothing at these keys yet. -/
theorem foldl_shelve_entries {shelves : SortedMap (List β)} (h : Arranged rank name P shelves)
    {f : β → β} (hname : ∀ x, name (f x) = name x) (hrank : ∀ x, rank (f x) = rank x)
    {entries : List (String × List β)} (hentries : ∀ e ∈ entries, shelves.get? e.1 = some e.2)
    (hnodup : (entries.map Prod.fst).Nodup) {base : SortedMap (List β)}
    (hbase : ∀ e ∈ entries, base.get? e.1 = none) :
    ((entries.map Prod.snd).flatten.map f).foldl (shelve rank name) base =
      (entries.map fun e => (e.1, e.2.map f)).foldl (fun m e => m.insert e.1 e.2) base := by
  induction entries generalizing base with
  | nil => rfl
  | cons e rest ih =>
    obtain ⟨hfresh, hrest⟩ := List.nodup_cons.1 hnodup
    have he := hentries e List.mem_cons_self
    have hfirst : (e.2.map f).foldl (shelve rank name) base = base.insert e.1 (e.2.map f) := by
      refine foldl_shelve_of_descending [] ?_ ?_ ?_ ?_
      · exact mt List.map_eq_nil_iff.1 (h.inhabited he)
      · intro y hy
        obtain ⟨x, hx, rfl⟩ := List.mem_map.1 hy
        rw [hname, h.named he x hx]
      · refine List.pairwise_map.2 ((h.descending he).imp fun hle => ?_)
        rwa [hrank, hrank]
      · rw [hbase e List.mem_cons_self, Option.getD_none]
    rw [List.map_cons, List.flatten_cons, List.map_append, List.foldl_append, hfirst]
    refine ih (fun x hx => hentries x (List.mem_cons_of_mem e hx)) hrest fun x hx => ?_
    -- no key comes twice, so the keys of the other lists are still free
    have hne : e.1 ≠ x.1 := fun heq => hfresh (heq ▸ List.mem_map_of_mem hx)
    rw [SortedMap.get?_insert, if_neg hne, hbase x (List.mem_cons_of_mem e hx)]

/-- Lists by name are built again from images of their members that keep names and ranks, taken in
order. -/
theorem foldl_shelve_values {shelves : SortedMap (List β)} (h : Arranged rank name P shelves)
    {f : β → β} (hname : ∀ x, name (f x) = name x) (hrank : ∀ x, rank (f x) = rank x) :
    (shelves.values.flatten.map f).foldl (shelve rank name) SortedMap.empty =
      shelves.mapValues (List.map f) := by
  have hentries : ∀ e ∈ shelves.entries, shelves.get? e.1 = some e.2 := by
    intro e he
    exact SortedMap.get?_eq_some_iff.2 he
  have hkeys : (shelves.entries.map Prod.fst).Nodup := shelves.nodup_keys
  exact (foldl_shelve_entries h hname hrank hentries hkeys fun _ _ => rfl).trans
    (SortedMap.foldl_entries (shelves.mapValues (List.map f)))

end Shelves

/-! ## Books -/

namespace RuleBook

/-- The rules of a book as one document, in the order in which they are listed. -/
def listed (book : RuleBook) : RuleDocument :=
  { elements := book.elementRules, attributes := book.attributeRules }

/-- The book with its rules as they are read back from a listing. -/
def reread (origin : String) (book : RuleBook) : RuleBook :=
  { elements := book.elements.mapValues (List.map (ElementRule.reread origin))
    attributes := book.attributes.mapValues (List.map (AttributeRule.reread origin)) }

variable (origin : String) (book : RuleBook)

theorem matchElement?_reread (tag : String) (attributes : Attributes) :
    (book.reread origin).matchElement? tag attributes =
      (book.matchElement? tag attributes).map (ElementRule.reread origin) := by
  unfold matchElement? reread
  rw [SortedMap.get?_mapValues]
  cases book.elements.get? tag with
  | none => rfl
  | some rules => exact List.find?_map

theorem matchAttribute?_reread (element name : String) (kind : ValueKind) (raw : String) :
    (book.reread origin).matchAttribute? element name kind raw =
      (book.matchAttribute? element name kind raw).map (AttributeRule.reread origin) := by
  unfold matchAttribute? reread
  rw [SortedMap.get?_mapValues]
  cases book.attributes.get? name with
  | none => rfl
  | some rules => exact List.find?_map

theorem chainFrom_reread (attributes : Attributes) (steps : Nat) (seen : List String)
    (r : ElementRule) :
    (book.reread origin).chainFrom attributes steps seen (r.reread origin) =
      (book.chainFrom attributes steps seen r).map (ElementRule.reread origin) := by
  induction steps generalizing seen r with
  | zero => rfl
  | succ steps ih =>
    have hparent : (r.reread origin).parent = r.parent := rfl
    unfold chainFrom
    rw [hparent]
    -- a rule keeps its name and its parent, so the walk takes the same turns
    cases r.parent with
    | none => rfl
    | some parent =>
      simp only [matchElement?_reread]
      split
      · rfl
      · cases book.matchElement? parent attributes with
        | none => rfl
        | some next => exact congrArg (_ :: ·) (ih _ next)

theorem chain_reread (r : ElementRule) (attributes : Attributes) :
    (book.reread origin).chain (r.reread origin) attributes =
      (book.chain r attributes).map (ElementRule.reread origin) := by
  have hsize : (book.reread origin).elements.size = book.elements.size := List.length_map _
  unfold chain
  rw [hsize, List.map_cons]
  exact congrArg (_ :: ·) (chainFrom_reread origin book attributes _ _ r)

theorem knows_reread (name : String) : (book.reread origin).knows name = book.knows name := by
  unfold knows SortedMap.contains reread
  rw [SortedMap.get?_mapValues, Option.isSome_map]

theorem isPlainStyle_reread (r : AttributeRule) :
    (r.reread origin).isPlainStyle = r.isPlainStyle := by
  have hemission : ∀ e : Emission,
      (e.reread.kind == .style && e.reread.hasSimplePath &&
        !e.reread.template.refersTo elementSegments) =
      (e.kind == .style && e.hasSimplePath && !e.template.refersTo elementSegments) := by
    intro e
    simp only [Emission.reread, Emission.hasSimplePath, Template.refersTo, Template.holes_joined,
      Template.isLiteral_joined, Template.display_joined]
  unfold AttributeRule.isPlainStyle AttributeRule.reread
  simp only [List.all_map, Function.comp_def, hemission]

theorem isStyleOnly_reread (element name : String) :
    (book.reread origin).isStyleOnly element name = book.isStyleOnly element name := by
  have hrules : ((((book.reread origin).attributes.get? name).getD []).filter
        fun r => r.element == element) =
      (((book.attributes.get? name).getD []).filter fun r => r.element == element).map
        (AttributeRule.reread origin) := by
    unfold reread
    rw [SortedMap.get?_mapValues]
    cases book.attributes.get? name with
    | none => rfl
    | some rules => exact List.filter_map
  unfold isStyleOnly
  rw [hrules]
  cases ((book.attributes.get? name).getD []).filter fun r => r.element == element with
  | nil => rfl
  | cons r rules =>
    simp only [List.map_cons, List.all_cons, List.all_map, Function.comp_def, isPlainStyle_reread]

/-- A listing is accepted, and its book is that of the rules as they are read back. -/
theorem load_listed (texts : List (DataFormat × String × String)) {text : String}
    (htext : RuleDocument.parse format text = some (ofTexts texts).listed.toDatum) :
    RuleBook.load {} format origin text =
      .ok ((ofTexts texts).listed.size, (ofTexts texts).reread origin) := by
  have helements := arranged_ofTexts_elements texts
  have hattributes := arranged_ofTexts_attributes texts
  have hsize : ((ofTexts texts).listed.reread "").size = (ofTexts texts).listed.size := by
    simp only [RuleDocument.size, RuleDocument.reread, List.length_map]
  -- the listing has the rules in the order of the shelves, so shelving them again gives the same
  -- shelves
  have hbook : RuleBook.add {} ((ofTexts texts).listed.reread origin) =
      (ofTexts texts).reread origin := by
    have hshelves : (RuleBook.add {} ((ofTexts texts).listed.reread origin)).elements =
        (ofTexts texts).elements.mapValues (List.map (ElementRule.reread origin)) :=
      (elements_add _ _).trans (foldl_shelve_values helements (fun _ => rfl) fun _ => rfl)
    have hshelves' : (RuleBook.add {} ((ofTexts texts).listed.reread origin)).attributes =
        (ofTexts texts).attributes.mapValues (List.map (AttributeRule.reread origin)) :=
      (attributes_add _ _).trans (foldl_shelve_values hattributes (fun _ => rfl) fun _ => rfl)
    unfold reread
    rw [← hshelves, ← hshelves']
  rw [load_eq, RuleDocument.read_toDatum helements.forall_mem hattributes.forall_mem origin htext]
  simp only [Except.map, hsize, RuleDocument.withOrigin_reread, hbook]

/-! ## Main statement -/

/-- The listing of a book that texts have been loaded into is accepted as a document, with as many
rules as there are. Whatever is asked of the book of that document, the answer is the one that the
first book gives: the rule that has been written, as it is read back, with neighbouring stretches of
text joined in its templates. -/
theorem answers_of_listing (texts : List (DataFormat × String × String)) (origin text : String)
    (htext : Json.read? text = some (ofTexts texts).listed.toDatum) :
    ∃ book, RuleBook.load {} .json origin text =
        .ok ((ofTexts texts).elementRules.length + (ofTexts texts).attributeRules.length, book) ∧
      (∀ tag attributes, book.matchElement? tag attributes =
        ((ofTexts texts).matchElement? tag attributes).map (ElementRule.reread origin)) ∧
      (∀ r attributes, book.chain (ElementRule.reread origin r) attributes =
        ((ofTexts texts).chain r attributes).map (ElementRule.reread origin)) ∧
      (∀ element name kind raw, book.matchAttribute? element name kind raw =
        ((ofTexts texts).matchAttribute? element name kind raw).map
          (AttributeRule.reread origin)) ∧
      (∀ name, book.knows name = (ofTexts texts).knows name) ∧
      ∀ element name, book.isStyleOnly element name = (ofTexts texts).isStyleOnly element name := by
  refine ⟨(ofTexts texts).reread origin, load_listed origin texts htext, ?_, ?_, ?_, ?_, ?_⟩
  · exact matchElement?_reread origin (ofTexts texts)
  · exact chain_reread origin (ofTexts texts)
  · exact matchAttribute?_reread origin (ofTexts texts)
  · exact knows_reread origin (ofTexts texts)
  · exact isStyleOnly_reread origin (ofTexts texts)

namespace Sample

/-- A rule whose template has a hole that is not closed, so that it is two stretches. -/
def texts : List (DataFormat × String × String) :=
  [(.json, "a.json",
    "\x7b\"attribute\":[\x7b\"id\":\"a\",\"element\":\"V\"," ++
    "\"emit\":[\x7b\"template\":\"a~b\"\x7d]\x7d]\x7d")]

/-- The listing of that rule. -/
def listing : String :=
  "\x7b\"attribute\":[\x7b\"element\":\"V\",\"emit\":[\x7b\"kind\":\"attribute\",\"path\":\"\"," ++
  "\"runtime-type\":null,\"template\":\"a~~b\"\x7d],\"equals\":null,\"id\":\"a\"," ++
  "\"type\":\"value\"\x7d],\"element\":[]\x7d"

end Sample

theorem answers_of_listing_unclosed :
    Json.read? Sample.listing = some (ofTexts Sample.texts).listed.toDatum ∧
    ∃ book, RuleBook.load {} .json "b.json" Sample.listing = .ok (1, book) ∧
      (ofTexts Sample.texts).matchAttribute? "V" "a" .color "#fff" =
        some { id := "a", element := "V", emit := [{ template := ⟨[.literal "a", .literal "~b"]⟩ }],
               origin := "a.json" } ∧
      book.matchAttribute? "V" "a" .color "#fff" =
        some { id := "a", element := "V", emit := [{ template := ⟨[.literal "a~b"]⟩ }],
               origin := "b.json" } := by
  have hread : Json.read? Sample.listing = some (ofTexts Sample.texts).listed.toDatum := by
    decide +kernel
  have hfound : (ofTexts Sample.texts).matchAttribute? "V" "a" .color "#fff" =
      some { id := "a", element := "V", emit := [{ template := ⟨[.literal "a", .literal "~b"]⟩ }],
             origin := "a.json" } := by decide +kernel
  have hcount : (ofTexts Sample.texts).elementRules.length +
      (ofTexts Sample.texts).attributeRules.length = 1 := by decide +kernel
  obtain ⟨book, hload, -, -, hmatch, -⟩ :=
    answers_of_listing Sample.texts "b.json" Sample.listing hread
  rw [hcount] at hload
  refine ⟨hread, book, hload, hfound, ?_⟩
  rw [hmatch, hfound]
  decide

end RuleBook

end LayoutCompiler
