import LayoutCompiler.Compilation.Elements
import LayoutCompiler.Proofs.Data.Maps
import LayoutCompiler.Proofs.Rule.Loading
import Mathlib.Data.List.Find
/-!
# Attributes that nothing reads

What is known about an element before anything is made of it does not depend on an attribute that no
part of the compiler asks for by name: not the styles, not the box of the element, and no condition
and no template of a rule. Attributes that agree but for such a name are told apart by nothing but
that name (`SortedMap.AgreeOff`).

* `RuleBook.Ignores`: a book does not mention an attribute.
* `merge_agreeOff`, `Params.read_congr`, `rulesFor_congr`: the parts that are read.
* `prepare_alike`: what is known about an element.
-/

namespace LayoutCompiler

variable {α β γ : Type} {k : String}

/-! ## Maps that agree but for a key -/

namespace SortedMap

variable {a b : SortedMap β}

/-- Two maps have the same at all keys but one. -/
def AgreeOff (k : String) (a b : SortedMap β) : Prop := ∀ key, key ≠ k → a.get? key = b.get? key

theorem AgreeOff.refl (a : SortedMap β) : AgreeOff k a a := fun _ _ => rfl

theorem agreeOff_insert (a : SortedMap β) (v : β) : AgreeOff k a (a.insert k v) := by
  intro key hkey
  rw [get?_insert, if_neg (Ne.symm hkey)]

theorem AgreeOff.layered (h : AgreeOff k a b) (base : SortedMap β) :
    AgreeOff k (a.layered base) (b.layered base) := by
  intro key hkey
  rw [get?_layered, get?_layered, h key hkey]

theorem AgreeOff.filter (h : AgreeOff k a b) (p : String → Bool) :
    AgreeOff k (a.filter fun name _ => p name) (b.filter fun name _ => p name) := by
  intro key hkey
  rw [get?_filter, get?_filter, h key hkey]

/-- What does not have the key is the same in both maps. -/
theorem AgreeOff.filter_eq (h : AgreeOff k a b) (p : String → Bool) (hp : p k = false) :
    (a.filter fun name _ => p name) = b.filter fun name _ => p name := by
  apply ext_get?
  intro key
  rw [get?_filter, get?_filter]
  by_cases hkey : key = k
  · subst hkey
    have hnone : ∀ found : Option β, found.filter (fun _ => p key) = none := by
      intro found
      cases found <;> simp [hp]
    rw [hnone, hnone]
  · rw [h key hkey]

end SortedMap

open SortedMap

/-! ## Related results -/

/-- Two results are the same failure, or values that are related. -/
inductive Outcome.Rel (R : β → γ → Prop) : Outcome β → Outcome γ → Prop where
  | ok {b : β} {c : γ} (h : R b c) : Outcome.Rel R (.ok b) (.ok c)
  | error (e : Failure) : Outcome.Rel R (.error e) (.error e)

namespace Outcome.Rel

variable {δ ε : Type} {R : β → γ → Prop} {R' : δ → ε → Prop} {x : Outcome β} {y : Outcome γ}

theorem bind (h : Rel R x y) {f : β → Outcome δ} {g : γ → Outcome ε}
    (hnext : ∀ b c, R b c → Rel R' (f b) (g c)) : Rel R' (x >>= f) (y >>= g) := by
  cases h with
  | ok h => exact hnext _ _ h
  | error e => exact .error e

theorem mapError (h : Rel R x y) (f : Failure → Failure) :
    Rel R (x.mapError f) (y.mapError f) := by
  cases h with
  | ok h => exact .ok h
  | error e => exact .error (f e)

end Outcome.Rel

/-! ## Styles -/

/-- Attributes that agree but for a name still do so after the styles were added. -/
theorem merge_agreeOff (sheet : StyleSheet) {a b : Attributes} (hstyle : k ≠ Attributes.styleName)
    (h : AgreeOff k a b) : Outcome.Rel (AgreeOff k) (sheet.merge a) (sheet.merge b) := by
  unfold StyleSheet.merge
  rw [h Attributes.styleName hstyle.symm]
  cases b.get? Attributes.styleName with
  | none => exact .ok h
  | some reference =>
    dsimp only
    cases sheet.chain reference with
    | error e => exact .error e
    | ok chain => exact .ok (h.layered chain.flatten)

/-! ## Boxes -/

namespace Params

/-- The endings of the names of a family of insets. -/
def insetEndings : List String :=
  ["Horizontal", "Vertical", "Left", "Start", "Right", "End", "Top", "Bottom"]

/-- The names of a family of insets. -/
def insetNames (name : String) : List String := name :: insetEndings.map (name ++ ·)

/-- All attributes that say something about the box of an element. -/
def names : List String :=
  ["android:layout_width", "android:layout_height", "android:minWidth", "android:minHeight",
   "android:gravity", "android:layout_gravity", "android:layout_weight", "android:orientation"] ++
  insetNames "android:layout_margin" ++ insetNames "android:padding"

variable [Scalar α] (resources : ResourceTable α) {a b : Attributes} {name : String}

theorem readLength_congr (h : a.get? name = b.get? name) :
    readLength resources a name = readLength resources b name := by
  unfold readLength
  rw [h]

theorem readSize_congr (h : a.get? name = b.get? name) :
    readSize resources a name = readSize resources b name := by
  unfold readSize
  rw [h]

theorem readInsets_congr (h : ∀ part ∈ insetNames name, a.get? part = b.get? part) :
    readInsets resources a name = readInsets resources b name := by
  have hname : readLength resources a name = readLength resources b name :=
    readLength_congr resources (h name List.mem_cons_self)
  have hparts : ∀ part ∈ (insetParts : List (String × (Insets α → α → Insets α))),
      readLength resources a (name ++ part.1) = readLength resources b (name ++ part.1) := by
    intro part hpart
    have hending : part.1 ∈ insetEndings := List.mem_map_of_mem hpart
    exact readLength_congr resources (h _ (List.mem_cons_of_mem _ (List.mem_map_of_mem hending)))
  unfold readInsets
  rw [hname]
  refine bind_congr fun all => ?_
  -- the parts are read one after the other, each changing the insets so far
  generalize (insetParts : List (String × (Insets α → α → Insets α))) = parts at hparts
  generalize Insets.uniform (all.getD 0) = insets
  induction parts generalizing insets with
  | nil => rfl
  | cons part parts ih =>
    rw [List.foldlM_cons, List.foldlM_cons]
    simp only [hparts part List.mem_cons_self]
    refine bind_congr fun next => ?_
    exact ih (fun x hx => hparts x (List.mem_cons_of_mem part hx)) next

/-- The box of an element does not depend on other attributes. -/
theorem read_congr (hk : k ∉ names) (h : AgreeOff k a b) :
    Params.read resources a = Params.read resources b := by
  have hget : ∀ name ∈ names, a.get? name = b.get? name := by
    intro name hname
    exact h name fun heq => hk (heq ▸ hname)
  have hmargin : readInsets resources a "android:layout_margin" =
      readInsets resources b "android:layout_margin" :=
    readInsets_congr resources fun part hpart => hget part (by simp [names, hpart])
  have hpadding : readInsets resources a "android:padding" =
      readInsets resources b "android:padding" :=
    readInsets_congr resources fun part hpart => hget part (by simp [names, hpart])
  -- every attribute that is asked for is one of the names, so that it is the same
  unfold read readGravity readWeight readOrientation
  rw [readSize_congr resources (hget "android:layout_width" (by simp [names])),
    readSize_congr resources (hget "android:layout_height" (by simp [names])),
    readLength_congr resources (hget "android:minWidth" (by simp [names])),
    readLength_congr resources (hget "android:minHeight" (by simp [names])), hmargin, hpadding,
    hget "android:gravity" (by simp [names]), hget "android:layout_gravity" (by simp [names]),
    hget "android:layout_weight" (by simp [names]), hget "android:orientation" (by simp [names])]

end Params

/-! ## Rules -/

/-- No segment of a path in the template is an attribute, with or without the platform's lead. -/
def Template.Avoids (k : String) (t : Template) : Prop :=
  ∀ path ∈ t.holes, ∀ s ∈ segments path, k ≠ s ∧ k ≠ Attributes.platform s

instance (k : String) (t : Template) : Decidable (t.Avoids k) :=
  inferInstanceAs (Decidable (∀ path ∈ t.holes, ∀ s ∈ Template.segments path,
    k ≠ s ∧ k ≠ Attributes.platform s))

/-- A book has no rule for an attribute, no condition on it, no wrapper for it, and no template that
mentions it. -/
structure RuleBook.Ignores (book : RuleBook) (k : String) : Prop where
  unknown : book.knows k = false
  unconditional : ∀ r ∈ book.elementRules, r.attributes.contains k = false
  unwrapped : ∀ r ∈ book.elementRules, k ∉ r.autoWrapFor
  elements : ∀ r ∈ book.elementRules, ∀ t ∈ r.templates, t.Avoids k
  attributes : ∀ r ∈ book.attributeRules, ∀ t ∈ r.templates, t.Avoids k

variable {a b : Attributes}

/-- A rule without a condition on an attribute does not depend on it. -/
theorem ElementRule.accepts_congr {r : ElementRule} (hr : r.attributes.contains k = false)
    (h : AgreeOff k a b) : r.accepts a = r.accepts b := by
  have hname : ∀ {name raw : String}, r.attributes.get? name = some raw →
      a.get? name = b.get? name := by
    intro name raw hraw
    refine h name fun heq => ?_
    rw [← heq, SortedMap.contains, hraw] at hr
    cases hr
  rw [Bool.eq_iff_iff, accepts_iff, accepts_iff]
  constructor
  · intro hmeets name raw hraw predicate hpredicate
    rw [← hname hraw]
    exact hmeets name raw hraw predicate hpredicate
  · intro hmeets name raw hraw predicate hpredicate
    rw [hname hraw]
    exact hmeets name raw hraw predicate hpredicate

namespace RuleBook

variable {book : RuleBook}

theorem mem_elementRules {tag : String} {rules : List ElementRule} {r : ElementRule}
    (hrules : book.elements.get? tag = some rules) (hr : r ∈ rules) : r ∈ book.elementRules :=
  List.mem_flatten.2 ⟨rules, mem_values_of_get? hrules, hr⟩

theorem mem_of_matchElement? {tag : String} {r : ElementRule}
    (h : book.matchElement? tag a = some r) : r ∈ book.elementRules := by
  obtain ⟨rules, hrules, hfind⟩ := Option.bind_eq_some_iff.1 h
  exact mem_elementRules hrules (List.mem_of_find?_eq_some hfind)

theorem mem_of_matchAttribute? {element name raw : String} {kind : ValueKind}
    {rule : AttributeRule} (h : book.matchAttribute? element name kind raw = some rule) :
    rule ∈ book.attributeRules := by
  obtain ⟨rules, hrules, hfind⟩ := Option.bind_eq_some_iff.1 h
  exact List.mem_flatten.2 ⟨rules, mem_values_of_get? hrules, List.mem_of_find?_eq_some hfind⟩

theorem matchElement?_congr (hbook : book.Ignores k) (h : AgreeOff k a b) (tag : String) :
    book.matchElement? tag a = book.matchElement? tag b := by
  unfold matchElement?
  cases hrules : book.elements.get? tag with
  | none => rfl
  | some rules =>
    refine List.find?_congr fun r hr => ?_
    exact ElementRule.accepts_congr (hbook.unconditional r (mem_elementRules hrules hr)) h

theorem chainFrom_congr (hbook : book.Ignores k) (h : AgreeOff k a b) (steps : Nat)
    (seen : List String) (r : ElementRule) :
    book.chainFrom a steps seen r = book.chainFrom b steps seen r := by
  induction steps generalizing seen r with
  | zero => rfl
  | succ steps ih =>
    unfold chainFrom
    simp only [matchElement?_congr hbook h, ih]

/-- All rules of a chain are rules of the book. -/
theorem mem_of_mem_chainFrom {steps : Nat} {seen : List String} {r q : ElementRule}
    (hq : q ∈ book.chainFrom a steps seen r) : q ∈ book.elementRules := by
  induction steps generalizing seen r with
  | zero => cases hq
  | succ steps ih =>
    unfold chainFrom at hq
    split at hq
    · cases hq
    · split at hq
      · cases hq
      · split at hq
        · cases hq
        · rename_i next hnext
          rcases List.mem_cons.1 hq with rfl | hq
          · exact mem_of_matchElement? hnext
          · exact ih hq

end RuleBook

namespace Compile

variable {setting : Setting α}

/-- The rules for a tag do not depend on an attribute that the book ignores. -/
theorem rulesFor_congr (hbook : setting.book.Ignores k) (h : AgreeOff k a b) (file tag : String) :
    rulesFor setting file tag a = rulesFor setting file tag b := by
  unfold rulesFor RuleBook.chain
  simp only [RuleBook.matchElement?_congr hbook h, RuleBook.chainFrom_congr hbook h]

/-- The rules for a tag are rules of the book, and the blueprint is that of one of them. -/
theorem mem_of_rulesFor {file tag : String} {chain : List ElementRule} {blueprint : Blueprint}
    (h : rulesFor setting file tag a = .ok (chain, blueprint)) :
    (∀ r ∈ chain, r ∈ setting.book.elementRules) ∧
    ∃ r ∈ setting.book.elementRules, r.template = some blueprint := by
  unfold rulesFor at h
  split at h
  · cases h
  · rename_i rule hrule
    dsimp only at h
    split at h
    · cases h
    · rename_i found hfound
      cases h
      -- the chain is the rule that matched and those that it continues
      have hall : ∀ r ∈ setting.book.chain rule a, r ∈ setting.book.elementRules := by
        intro r hr
        rcases List.mem_cons.1 hr with rfl | hr
        · exact RuleBook.mem_of_matchElement? hrule
        · exact RuleBook.mem_of_mem_chainFrom hr
      obtain ⟨r, hr, htemplate⟩ := List.exists_of_findSome?_eq_some hfound
      exact ⟨hall, r, hall r hr, htemplate⟩

theorem avoids_of_rulesFor (hbook : setting.book.Ignores k) {file tag : String}
    {chain : List ElementRule} {blueprint : Blueprint}
    (h : rulesFor setting file tag a = .ok (chain, blueprint)) :
    ∀ t ∈ blueprint.allTemplates, t.Avoids k := by
  obtain ⟨-, r, hr, htemplate⟩ := mem_of_rulesFor h
  intro t ht
  refine hbook.elements r hr t ?_
  unfold ElementRule.templates
  rw [htemplate]
  exact ht

end Compile

/-! ## Elements -/

/-- Two elements have the same tag and id, and attributes that agree but for a name. -/
structure Frame.Alike (k : String) (f f' : Frame) : Prop where
  tag : f.element.tag = f'.element.tag
  id : f.element.id? = f'.element.id?
  attributes : AgreeOff k f.attributes f'.attributes

/-- Two elements are alike, and so are those around them, one by one. -/
structure Scope.Alike (k : String) (s s' : Scope) : Prop where
  here : s.here.Alike k s'.here
  around : List.Forall₂ (Frame.Alike k) s.around s'.around

theorem Scope.Alike.enter {around around' : Option Scope} (h : Option.Rel (Alike k) around around')
    {f f' : Frame} (hf : f.Alike k f') :
    (Scope.enter around f).Alike k (Scope.enter around' f') := by
  cases h with
  | none => exact ⟨hf, .nil⟩
  | some h => exact ⟨hf, .cons h.here h.around⟩

/-- The same is known about two elements, but for an attribute that the blueprint of neither asks
for. -/
structure Prepared.Alike (k : String) (p p' : Prepared α) : Prop where
  scope : p.scope.Alike k p'.scope
  chain : p.chain = p'.chain
  blueprint : p.blueprint = p'.blueprint
  avoids : ∀ t ∈ p.blueprint.allTemplates, t.Avoids k
  forcing : p.forcing = p'.forcing
  rest : AgreeOff k p.rest p'.rest
  params : p.params = p'.params

/-- Nothing asks for an attribute: it is neither an id nor a style, it says nothing about boxes, and
the rules ignore it. -/
structure Setting.Unread (setting : Setting α) (k : String) : Prop where
  id : k ≠ Attributes.idName
  style : k ≠ Attributes.styleName
  params : k ∉ Params.names
  book : setting.book.Ignores k

variable [Scalar α]

/-- What is known about an element does not depend on an attribute that nothing asks for. -/
theorem Compile.prepare_alike {setting : Setting α} (hk : setting.Unread k) (file : String)
    {e e' : Element} (htag : e.tag = e'.tag) (hattributes : AgreeOff k e.attributes e'.attributes)
    {around around' : Option Scope} (haround : Option.Rel (Scope.Alike k) around around') :
    Outcome.Rel (Prepared.Alike k) (prepare setting file e around)
      (prepare setting file e' around') := by
  have hid : e.id? = e'.id? := by
    unfold Element.id?
    rw [hattributes _ hk.id.symm]
  unfold prepare
  rw [htag]
  refine ((merge_agreeOff _ hk.style hattributes).mapError _).bind fun merged merged' hmerged => ?_
  rw [rulesFor_congr hk.book hmerged, Params.read_congr _ hk.params hmerged]
  cases hrules : rulesFor setting file e'.tag merged' with
  | error failure => exact .error failure
  | ok found =>
    obtain ⟨chain, blueprint⟩ := found
    cases (Params.read setting.resources merged').mapError (Failure.within file e'.tag none) with
    | error failure => exact .error failure
    | ok params =>
      -- no rule of the chain wraps an element for the attribute
      let forces (name : String) : Bool := chain.any fun r => r.autoWrapFor.contains name
      have hforces : forces k = false := by
        rw [List.any_eq_false]
        intro r hr
        rw [List.contains_iff_mem]
        exact hk.book.unwrapped r ((mem_of_rulesFor hrules).1 r hr)
      refine .ok ⟨?_, rfl, rfl, avoids_of_rulesFor hk.book hrules, ?_, ?_, rfl⟩
      · exact Scope.Alike.enter haround ⟨htag, hid, hmerged⟩
      · exact hmerged.filter_eq forces hforces
      · exact hmerged.filter fun name => !forces name

end LayoutCompiler
