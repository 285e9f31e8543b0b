import LayoutCompiler.Markup.Event
import LayoutCompiler.Proofs.Data.Records
import Mathlib.Data.List.Forall2
/-!
# Tags in a text

The tags that open elements stand in a document one behind the other (`Scattered`), and each event
of reading that opens an element has the name and the attributes that are written in its tag
(`Spells`): all but the declarations of namespaces, with their references decoded, and no others.

* `exists_lists`: by induction over what is left of a tag, the attributes that are read.
* `located_events`: by induction over the text, the tags of a document.
-/

namespace LayoutCompiler.Markup

/-- The tag that an event opens an element with. -/
def Event.opening? : Event → Option (String × Attributes)
  | .start tag attributes | .void tag attributes => some (tag, attributes)
  | .finish _ | .text _ | .verbatim _ => none

/-- The tags that open elements. -/
def openings (events : List Event) : List (String × Attributes) := events.filterMap Event.opening?

theorem openings_append (events events' : List Event) :
    openings (events ++ events') = openings events ++ openings events' := List.filterMap_append

/-! ## What is written in a tag -/

/-- The attributes in the rest of a tag, as they are written. -/
inductive Lists : List Char → List WrittenAttribute → Prop
  | nil {cs : List Char} (h : nextAttribute cs = .ok none) : Lists cs []
  | cons {cs : List Char} {a : WrittenAttribute} {as : List WrittenAttribute}
      (h : nextAttribute cs = .ok (some a)) (hrest : Lists a.rest as) : Lists cs (a :: as)

/-- A written attribute gives a name a value; declarations of namespaces give none. -/
def WrittenAttribute.Says (a : WrittenAttribute) (name value : String) : Prop :=
  a.name = name ∧ declaresNamespace name = false ∧ decode a.value = some value.toList

/-- Attributes are those that are written: no name is written twice, each attribute that declares no
namespace has the value that is written, and there are no others. -/
structure Written (as : List WrittenAttribute) (attributes : Attributes) : Prop where
  distinct : (as.map (·.name)).Nodup
  complete : ∀ a ∈ as, declaresNamespace a.name = false →
    ∃ value, attributes.get? a.name = some value ∧ decode a.value = some value.toList
  sound : ∀ name value, attributes.get? name = some value → ∃ a ∈ as, a.Says name value

/-- The content of a tag without the slash at its end. -/
def unslashed (content : List Char) : List Char :=
  if content.getLast? == some '/' then content.dropLast else content

/-- The content of a tag gives its name up to the first blank, and then its attributes. -/
def Spells (content : List Char) (opening : String × Attributes) : Prop :=
  opening.1 = String.ofList ((unslashed content).takeWhile fun c => !Text.isMarkupBlank c) ∧
    ∃ as, Lists ((unslashed content).dropWhile fun c => !Text.isMarkupBlank c) as ∧
      Written as opening.2

/-- What follows an attribute is shorter than what it was read from. -/
theorem length_rest_lt {cs : List Char} {a : WrittenAttribute}
    (h : nextAttribute cs = .ok (some a)) : a.rest.length < cs.length := by
  unfold nextAttribute at h
  split at h
  · cases h
  -- each part that is skipped leaves a suffix, and the first letter at least is taken
  · rename_i c cs' hcs
    have hstart : (c :: cs').length ≤ cs.length := hcs ▸ (List.dropWhile_suffix _).length_le
    dsimp only at h
    split at h
    · rename_i value hvalue
      have hequals : ('=' :: value).length ≤ cs'.length := by
        rw [← hvalue]
        exact ((List.dropWhile_suffix _).trans (List.dropWhile_suffix _)).length_le
      split at h
      · cases h
      · rename_i quote value' hvalue'
        have hquote : (quote :: value').length ≤ value.length :=
          hvalue' ▸ (List.dropWhile_suffix _).length_le
        split at h
        · split at h
          · cases h
          · rename_i d rest hrest
            have hclose : (d :: rest).length ≤ value'.length :=
              hrest ▸ (List.dropWhile_suffix _).length_le
            cases h
            simp only [List.length_cons] at hstart hequals hquote hclose ⊢
            omega
        · cases h
    · cases h

/-- The attributes that are read behind others: those have other names, and keep their values. -/
structure Continues (seen : List String) (read : Attributes) (as : List WrittenAttribute)
    (attributes : Attributes) : Prop where
  distinct : (as.map (·.name)).Nodup
  fresh : ∀ a ∈ as, a.name ∉ seen
  kept : ∀ name ∈ seen, attributes.get? name = read.get? name
  complete : ∀ a ∈ as, declaresNamespace a.name = false →
    ∃ value, attributes.get? a.name = some value ∧ decode a.value = some value.toList
  sound : ∀ name value, attributes.get? name = some value →
    name ∈ seen ∨ ∃ a ∈ as, a.Says name value

namespace Continues

variable {seen : List String} {read read' attributes : Attributes} {a : WrittenAttribute}
  {as : List WrittenAttribute}

theorem written (h : Continues [] read as attributes) : Written as attributes where
  distinct := h.distinct
  complete := h.complete
  sound name value hget := (h.sound name value hget).resolve_left List.not_mem_nil

/-- Where no attribute is left, what has been read is all. -/
theorem nil (hseen : ∀ name ∉ seen, read.get? name = none) : Continues seen read [] read where
  distinct := List.nodup_nil
  fresh := nofun
  kept _ _ := rfl
  complete := nofun
  sound name value hget := by
    by_contra hnot
    rw [hseen name fun hmem => hnot (Or.inl hmem)] at hget
    cases hget

/-- An attribute with a new name is read before those that follow it. -/
theorem cons (h : Continues (a.name :: seen) read' as attributes) (hfresh : a.name ∉ seen)
    (hothers : ∀ name ≠ a.name, read'.get? name = read.get? name)
    (hown : ∀ value, read'.get? a.name = some value → a.Says a.name value)
    (hplain : declaresNamespace a.name = false →
      ∃ value, read'.get? a.name = some value ∧ decode a.value = some value.toList) :
    Continues seen read (a :: as) attributes := by
  have hkept := h.kept a.name List.mem_cons_self
  refine
    { distinct := List.nodup_cons.2 ⟨fun hmem => ?_, h.distinct⟩
      fresh := List.forall_mem_cons.2 ⟨hfresh, fun b hb hmem =>
        h.fresh b hb (List.mem_cons_of_mem _ hmem)⟩
      kept := fun name hname => ?_
      complete := List.forall_mem_cons.2 ⟨hkept ▸ hplain, h.complete⟩
      sound := fun name value hget => ?_ }
  -- the first name counts as seen for all behind it, so it does not come again
  · obtain ⟨b, hb, hname⟩ := List.mem_map.1 hmem
    exact h.fresh b hb (hname ▸ List.mem_cons_self)
  · rw [h.kept name (List.mem_cons_of_mem _ hname)]
    exact hothers name fun heq => hfresh (heq ▸ hname)
  · rcases h.sound name value hget with hmem | ⟨b, hb, hsays⟩
    · rcases List.mem_cons.1 hmem with rfl | hmem
      · exact Or.inr ⟨a, List.mem_cons_self, hown value (hkept ▸ hget)⟩
      · exact Or.inl hmem
    · exact Or.inr ⟨b, List.mem_cons_of_mem _ hb, hsays⟩

/-- The declaration of a namespace is skipped. -/
theorem skip (h : Continues (a.name :: seen) read as attributes) (hfresh : a.name ∉ seen)
    (hunread : read.get? a.name = none) (hdeclares : declaresNamespace a.name = true) :
    Continues seen read (a :: as) attributes := by
  refine h.cons hfresh (fun _ _ => rfl) (fun value hget => ?_) fun hplain => ?_
  · rw [hunread] at hget
    cases hget
  · rw [hdeclares] at hplain
    cases hplain

/-- Any other attribute is taken, with its value decoded. -/
theorem take {value : List Char}
    (h : Continues (a.name :: seen) (read.insert a.name (String.ofList value)) as attributes)
    (hfresh : a.name ∉ seen) (hdeclares : declaresNamespace a.name = false)
    (hvalue : decode a.value = some value) : Continues seen read (a :: as) attributes := by
  have hdecode : decode a.value = some (String.ofList value).toList := by
    rw [hvalue, String.toList_ofList]
  have hown : (read.insert a.name (String.ofList value)).get? a.name =
      some (String.ofList value) := by
    rw [SortedMap.get?_insert, if_pos rfl]
  refine h.cons hfresh (fun name hne => ?_) (fun text hget => ?_) fun _ => ⟨_, hown, hdecode⟩
  · rw [SortedMap.get?_insert, if_neg (Ne.symm hne)]
  · rw [hown] at hget
    cases hget
    exact ⟨rfl, hdeclares, hdecode⟩

end Continues

/-- The attributes that are read behind others are those that are written. -/
theorem exists_lists {steps : Nat} {seen : List String} {read attributes : Attributes}
    {cs : List Char} (h : readAttributes steps seen read cs = .ok attributes)
    (hsteps : cs.length < steps) (hseen : ∀ name ∉ seen, read.get? name = none) :
    ∃ as, Lists cs as ∧ Continues seen read as attributes := by
  induction steps generalizing seen read cs with
  | zero => omega
  | succ steps ih =>
    unfold readAttributes at h
    split at h
    · cases h
    · rename_i hnone
      cases h
      exact ⟨[], .nil hnone, .nil hseen⟩
    · rename_i a hsome
      have hrest : a.rest.length < steps := by
        have := length_rest_lt hsome
        omega
      split at h
      · cases h
      · rename_i hcontains
        have hfresh : a.name ∉ seen := fun hmem => hcontains (List.contains_iff_mem.2 hmem)
        split at h
        · rename_i hdeclares
          obtain ⟨as, hlists, has⟩ := ih h hrest fun name hname =>
            hseen name (List.not_mem_of_not_mem_cons hname)
          exact ⟨a :: as, .cons hsome hlists, has.skip hfresh (hseen a.name hfresh) hdeclares⟩
        · rename_i hdeclares
          split at h
          · cases h
          · rename_i value hvalue
            obtain ⟨as, hlists, has⟩ := ih h hrest fun name hname => by
              obtain ⟨hne, hmem⟩ := not_or.1 fun h => hname (List.mem_cons.2 h)
              rw [SortedMap.get?_insert, if_neg (Ne.symm hne), hseen name hmem]
            exact ⟨a :: as, .cons hsome hlists,
              has.take hfresh (Bool.eq_false_iff.2 hdeclares) hvalue⟩

/-- The event of a tag is that the tag is opened which its content spells. -/
theorem spells_of_tagEvent {content : List Char} {event : Event}
    (h : tagEvent content = .ok event) :
    ∃ opening, event.opening? = some opening ∧ Spells content opening := by
  have hevent : tagEvent content = (readAttributes ((unslashed content).length + 1) []
      SortedMap.empty ((unslashed content).dropWhile fun c => !Text.isMarkupBlank c)).map
      fun attributes =>
        let tag := String.ofList ((unslashed content).takeWhile fun c => !Text.isMarkupBlank c)
        if content.getLast? == some '/' then .void tag attributes else .start tag attributes := rfl
  rw [hevent] at h
  have hlength := (List.dropWhile_suffix (l := unslashed content)
    fun c => !Text.isMarkupBlank c).length_le
  cases hread : readAttributes ((unslashed content).length + 1) [] SortedMap.empty
      ((unslashed content).dropWhile fun c => !Text.isMarkupBlank c) with
  | error detail =>
    rw [hread] at h
    cases h
  | ok attributes =>
    obtain ⟨as, hlists, has⟩ := exists_lists hread (Nat.lt_succ_of_le hlength) fun _ _ => rfl
    rw [hread] at h
    refine ⟨(String.ofList ((unslashed content).takeWhile fun c => !Text.isMarkupBlank c),
      attributes), ?_, rfl, as, hlists, has.written⟩
    obtain rfl := Except.ok.inj h
    dsimp only
    split <;> rfl

/-! ## Where the tags of a document stand -/

/-- Tags with some contents stand in a text, one behind the other. -/
inductive Scattered : List (List Char) → List Char → Prop
  | nil (cs : List Char) : Scattered [] cs
  | cons {contents : List (List Char)} {cs : List Char} (before content : List Char)
      (h : Scattered contents cs) :
      Scattered (content :: contents) (before ++ '<' :: content ++ '>' :: cs)

theorem Scattered.of_suffix {contents : List (List Char)} {cs cs' : List Char}
    (h : Scattered contents cs) (hsuffix : cs <:+ cs') : Scattered contents cs' := by
  obtain ⟨before', rfl⟩ := hsuffix
  cases h with
  | nil => exact .nil _
  | @cons contents cs before content h =>
    have hcons := Scattered.cons (before' ++ before) content h
    rwa [List.append_assoc, List.append_assoc, ← List.append_assoc before] at hcons

theorem tagContent_eq {quote : Option Char} {begun cs content rest : List Char}
    (h : tagContent quote begun cs = .ok (content, rest)) :
    begun.reverse ++ cs = content ++ '>' :: rest := by
  induction cs generalizing quote begun with
  | nil => cases quote <;> cases h
  | cons c cs ih =>
    have hnext : (c :: begun).reverse ++ cs = begun.reverse ++ c :: cs := by
      rw [List.reverse_cons, List.append_assoc, List.singleton_append]
    -- what has been read is kept turned around, and each letter moves over to it
    cases quote with
    | none =>
      unfold tagContent at h
      split at h
      · rename_i hc
        cases h
        rw [hc]
      · split at h
        · rw [← hnext, ih h]
        · rw [← hnext, ih h]
    | some quote =>
      unfold tagContent at h
      rw [← hnext, ih h]

theorem suffix_of_sectionContent {closes : List Char → Bool} {begun cs content rest : List Char}
    (h : sectionContent closes begun cs = .ok (content, rest)) : rest <:+ cs := by
  induction cs generalizing begun with
  | nil => cases h
  | cons c cs ih =>
    unfold sectionContent at h
    split at h
    · cases h
      exact List.suffix_cons _ _
    · exact (ih h).trans (List.suffix_cons _ _)

/-- A step of reading goes on behind what it has read, which is a tag or opens no element. -/
inductive Passes (cs : List Char) : Option Event → List Char → Prop
  | tag {content rest : List Char} {event : Event} (h : cs = content ++ '>' :: rest)
      (hevent : tagEvent content = .ok event) : Passes cs (some event) rest
  | other {event : Option Event} {rest : List Char} (h : rest <:+ cs)
      (hevent : event.bind Event.opening? = none) : Passes cs event rest

/-- A section is closed in front of the rest, and leaves what is made of its content. -/
theorem suffix_of_section (good : List Char → Bool) (made : List Char → Option Event)
    (hmade : ∀ content, (made content).bind Event.opening? = none) {closes : List Char → Bool}
    {detail : String} {cs rest : List Char} {event : Option Event}
    (h : (do
      let (content, rest) ← sectionContent closes [] cs
      if good content then pure (made content, rest) else throw detail) = .ok (event, rest)) :
    rest <:+ cs ∧ event.bind Event.opening? = none := by
  obtain ⟨⟨content, rest'⟩, hcontent, h⟩ := bind_eq_ok_iff.1 h
  dsimp only at h
  split at h
  · cases h
    exact ⟨suffix_of_sectionContent hcontent, hmade _⟩
  · cases h

theorem suffix_of_bang {cs rest : List Char} {event : Option Event}
    (h : bang cs = .ok (event, rest)) : rest <:+ cs ∧ event.bind Event.opening? = none := by
  unfold bang at h
  split at h
  · exact suffix_of_section (fun content => content.take 2 == ['-', '-']) (fun _ => none)
      (fun _ => rfl) h
  · exact suffix_of_section (leadsAnyCase "[CDATA[") (fun content =>
      some (.verbatim (String.ofList ((content.drop 7).dropLast.dropLast)))) (fun _ => rfl) h
  · split at h
    · exact suffix_of_section (fun content =>
        leadsAnyCase "DOCTYPE" content && !(content.drop 7).all Text.isMarkupBlank) (fun _ => none)
        (fun _ => rfl) h
    · cases h
  · cases h

theorem suffix_beforeClose (cs : List Char) : (beforeClose cs).2 <:+ cs :=
  (List.drop_suffix _ _).trans (List.dropWhile_suffix _)

theorem passes_markup {cs rest : List Char} {event : Option Event}
    (h : markup cs = .ok (event, rest)) : Passes cs event rest := by
  unfold markup at h
  split at h
  -- the first four shapes open no element: the end of the text, what begins with a bang, an end
  -- tag and an instruction
  · cases h
    exact .other (List.suffix_refl _) rfl
  · obtain ⟨hrest, hevent⟩ := suffix_of_bang h
    exact .other (hrest.trans (List.suffix_cons _ _)) hevent
  · rename_i cs
    cases h
    exact .other ((suffix_beforeClose cs).trans (List.suffix_cons _ _)) rfl
  · rename_i cs
    dsimp only at h
    split at h
    · cases h
      exact .other ((suffix_beforeClose cs).trans (List.suffix_cons _ _)) rfl
    · cases h
  · obtain ⟨⟨content, rest'⟩, hcontent, h⟩ := bind_eq_ok_iff.1 h
    obtain ⟨event', htag, h⟩ := bind_eq_ok_iff.1 h
    cases h
    exact .tag (tagContent_eq hcontent) htag

/-- Where the tags stand that open the elements of a text, and what they spell. -/
def Located (cs : List Char) (events : List Event) : Prop :=
  ∃ contents, Scattered contents cs ∧ List.Forall₂ Spells contents (openings events)

theorem Located.of_suffix {cs cs' : List Char} {events : List Event} (h : Located cs events)
    (hsuffix : cs <:+ cs') : Located cs' events := by
  obtain ⟨contents, hscattered, hspells⟩ := h
  exact ⟨contents, hscattered.of_suffix hsuffix, hspells⟩

theorem Located.pass {cs rest : List Char} {event : Option Event} {events : List Event}
    (h : Located rest events) (hpasses : Passes cs event rest) :
    Located ('<' :: cs) (event.toList ++ events) := by
  cases hpasses with
  | @tag content rest event hcs hevent =>
    obtain ⟨contents, hscattered, hspells⟩ := h
    obtain ⟨opening, hopening, hspelled⟩ := spells_of_tagEvent hevent
    refine ⟨content :: contents, ?_, ?_⟩
    · rw [hcs]
      exact .cons [] content hscattered
    · rw [Option.toList_some, List.singleton_append, openings, List.filterMap_cons_some hopening]
      exact .cons hspelled hspells
  | other hrest hevent =>
    -- what opens no element adds nothing to the tags that are asked for
    have hopenings : openings (event.toList ++ events) = openings events := by
      cases event with
      | none => rfl
      | some event => exact List.filterMap_cons_none hevent
    unfold Located
    rw [hopenings]
    exact h.of_suffix (hrest.trans (List.suffix_cons _ _))

theorem located_eventsFrom {steps : Nat} {cs : List Char} {events : List Event}
    (h : eventsFrom steps cs = .ok events) : Located cs events := by
  induction steps generalizing cs events with
  | zero =>
    cases h
    exact ⟨[], .nil cs, .nil⟩
  | succ steps ih =>
    have hblank := List.dropWhile_suffix (l := cs) Text.isMarkupBlank
    unfold eventsFrom at h
    split at h
    · cases h
      exact ⟨[], .nil cs, .nil⟩
    · rename_i cs' hcs
      rw [hcs] at hblank
      obtain ⟨⟨event, rest⟩, hmarkup, h⟩ := bind_eq_ok_iff.1 h
      obtain ⟨events', hrest, h⟩ := bind_eq_ok_iff.1 h
      cases h
      -- markup, and then what is behind it
      exact ((ih hrest).pass (passes_markup hmarkup)).of_suffix hblank
    · obtain ⟨events', hrest, h⟩ := bind_eq_ok_iff.1 h
      cases h
      exact (ih hrest).of_suffix ((List.dropWhile_suffix _).trans hblank)

/-- The tags that open the elements of a document stand in it one behind the other. -/
theorem located_events {document : String} {es : List Event} (h : events document = .ok es) :
    Located document.toList es := by
  unfold events at h
  refine (located_eventsFrom h).of_suffix ?_
  split
  · exact List.drop_suffix _ _
  · exact List.suffix_refl _

end LayoutCompiler.Markup
