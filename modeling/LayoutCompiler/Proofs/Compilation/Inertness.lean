import LayoutCompiler.Proofs.Compilation.Alike
import LayoutCompiler.Proofs.Number.Rational
/-!
# Attributes that do nothing

An attribute that nothing asks for changes nothing: a layout with it, on whichever elements and with
whatever values, is compiled to the same tree with the same constraints, outlets, resources and
counts as without it, or fails in the same way. The two compilations are run side by side. What they
know about elements is alike, and from there every step does the same to the same tree
(`Compile.Related`).

* `applyAttributes_alike`, `make_alike`: the steps for one element.
* `element_related`: elements with and without the attribute, by induction on where it was added.
* `ofElement_of_adds`: attributes that nothing asks for do nothing.
-/

namespace LayoutCompiler

open SortedMap

variable {α β γ : Type} {k : String}

namespace Compile

/-! ## Steps side by side -/

/-- Two steps fail in the same way, or leave the same behind and hand back what is related. -/
def Related (R : β → γ → Prop) (x : Compile α β) (y : Compile α γ) : Prop :=
  ∀ s, Outcome.Rel (fun r r' => R r.1 r'.1 ∧ r.2 = r'.2) (x s) (y s)

namespace Related

variable {δ ε : Type} {R : β → γ → Prop} {R' : δ → ε → Prop}

theorem refl (x : Compile α β) : Related Eq x x := by
  intro s
  cases x s with
  | error e => exact .error e
  | ok r => exact .ok ⟨rfl, rfl⟩

theorem pure {b : β} {c : γ} (h : R b c) :
    Related R (Pure.pure b : Compile α β) (Pure.pure c : Compile α γ) := by
  intro s
  exact .ok ⟨h, rfl⟩

theorem lift {x : Outcome β} {y : Outcome γ} (h : Outcome.Rel R x y) :
    Related R (liftM x : Compile α β) (liftM y : Compile α γ) := by
  intro s
  cases h with
  | error e => exact .error e
  | ok h => exact .ok ⟨h, rfl⟩

theorem bind {x : Compile α β} {y : Compile α γ} (h : Related R x y) {f : β → Compile α δ}
    {g : γ → Compile α ε} (hnext : ∀ b c, R b c → Related R' (f b) (g c)) :
    Related R' (x >>= f) (y >>= g) := by
  intro s
  refine (h s).bind fun r r' hr => ?_
  obtain ⟨b, left⟩ := r
  obtain ⟨c, right⟩ := r'
  obtain ⟨hvalue, rfl⟩ := hr
  exact hnext b c hvalue left

/-- Steps that hand back the same are the same. -/
theorem eq {x y : Compile α β} (h : Related Eq x y) : x = y := by
  funext s
  have hs := h s
  generalize x s = left at hs
  generalize y s = right at hs
  cases hs with
  | error e => rfl
  | ok h => exact congrArg Except.ok (Prod.ext h.1 h.2)

end Related

/-- A loop does the same when each of its rounds does. -/
theorem forM_congr {xs : List γ} {f g : γ → Compile α Unit} (h : ∀ x ∈ xs, f x = g x) :
    xs.forM f = xs.forM g := by
  induction xs with
  | nil => rfl
  | cons x xs ih =>
    refine congrArg₂ Bind.bind (h x List.mem_cons_self) (funext fun _ => ?_)
    exact ih fun y hy => h y (List.mem_cons_of_mem x hy)

/-- Rounds of a loop that do nothing can be left out. -/
theorem forM_filter {xs : List γ} {f : γ → Compile α Unit} (p : γ → Bool)
    (h : ∀ x, p x = false → f x = pure ()) : xs.forM f = (xs.filter p).forM f := by
  induction xs with
  | nil => rfl
  | cons x xs ih =>
    cases hx : p x with
    | true =>
      rw [List.filter_cons_of_pos hx]
      exact bind_congr fun _ => ih
    | false =>
      rw [List.filter_cons_of_neg (by simp [hx])]
      calc (x :: xs).forM f = (f x >>= fun _ => xs.forM f) := rfl
        _ = xs.forM f := by rw [h x hx, pure_bind]
        _ = (xs.filter p).forM f := ih

/-- After a result that is no failure, only what goes on from that result counts. -/
theorem lift_bind_congr {x : Outcome β} {f g : β → Compile α γ} (h : ∀ b, x = .ok b → f b = g b) :
    ((liftM x : Compile α β) >>= f) = (liftM x >>= g) := by
  cases x with
  | error e => rfl
  | ok b => exact h b rfl

/-! ## Emissions -/

variable [Scalar α] {setting : Setting α} {scope scope' : Scope} {a b : Attributes}

theorem emitOne_alike (hk : setting.Unread k) (h : scope.Alike k scope') {e : Emission}
    (hpath : e.path.Avoids k) (htemplate : e.template.Avoids k) (node : Nat)
    (extras : SortedMap String) (v : Value α) :
    emitOne setting node scope extras v e = emitOne setting node scope' extras v e := by
  unfold emitOne valueRendering
  dsimp only
  rw [Rendering.render_value_alike hk.params h v extras hpath,
    Rendering.render_value_alike hk.params h v extras htemplate]

theorem emit_alike (hk : setting.Unread k) (h : scope.Alike k scope') {e : Emission}
    (hpath : e.path.Avoids k) (htemplate : e.template.Avoids k) (node : Nat) (v : Value α) :
    emit setting node scope v e = emit setting node scope' v e := by
  unfold emit
  simp only [emitOne_alike hk h hpath htemplate]

/-- An attribute is applied the same to elements that are alike. -/
theorem applyAttribute_alike (hk : setting.Unread k) (h : scope.Alike k scope') (file : String)
    (chain : List ElementRule) (node : Nat) (name raw : String) :
    applyAttribute setting file chain node scope name raw =
      applyAttribute setting file chain node scope' name raw := by
  unfold applyAttribute
  rw [h.here.tag]
  split
  · refine bind_congr fun v => ?_
    cases hrule : ruleFor? setting.book chain name v.kind raw with
    | none => rfl
    | some rule =>
      obtain ⟨r, -, hmatch⟩ := List.exists_of_findSome?_eq_some hrule
      have hmem := RuleBook.mem_of_matchAttribute? hmatch
      -- the key is in none of the templates of a rule, so both scopes emit alike
      have havoids : ∀ e ∈ rule.emit, ∀ t ∈ [e.path, e.template], t.Avoids k := by
        intro e he t ht
        exact hk.book.attributes rule hmem t (List.mem_flatMap.2 ⟨e, he, ht⟩)
      have hemit : rule.emit.forM (emit setting node scope v) =
          rule.emit.forM (emit setting node scope' v) :=
        forM_congr fun e he => emit_alike hk h (havoids e he e.path (by simp))
          (havoids e he e.template (by simp)) node v
      simp only [hemit]
  · rfl

/-- An attribute that the book does not know is not applied. -/
theorem applyAttribute_unknown (hk : setting.book.knows k = false) (file : String)
    (chain : List ElementRule) (node : Nat) (raw : String) :
    applyAttribute setting file chain node scope k raw = pure () := by
  unfold applyAttribute
  rw [if_neg]
  rintro ⟨-, hknows⟩
  rw [hk] at hknows
  cases hknows

theorem applyAttributes_alike (hk : setting.Unread k) (h : scope.Alike k scope')
    (ha : AgreeOff k a b) (file : String) (chain : List ElementRule) (node : Nat) :
    applyAttributes setting file chain node scope a =
      applyAttributes setting file chain node scope' b := by
  let step (scope : Scope) (e : String × String) : Compile α Unit :=
    applyAttribute setting file chain node scope e.1 e.2
  have hknown : ∀ e : String × String, (e.1 != k) = false → step scope e = pure () := by
    rintro ⟨name, raw⟩ hname
    obtain rfl : name = k := by simpa using hname
    exact applyAttribute_unknown hk.book.unknown file chain node raw
  have hsame : (a.entries.filter fun e => e.1 != k) = b.entries.filter fun e => e.1 != k :=
    congrArg SortedMap.entries (ha.filter_eq (· != k) (by simp))
  -- the attribute itself is not applied, and all others are the same
  calc a.entries.forM (step scope)
      = (a.entries.filter fun e => e.1 != k).forM (step scope) := forM_filter _ hknown
    _ = b.entries.forM (step scope) := by rw [hsame, ← forM_filter _ hknown]
    _ = b.entries.forM (step scope') :=
        forM_congr fun e _ => applyAttribute_alike hk h file chain node e.1 e.2

/-! ## The nodes of an element -/

variable {p p' : Prepared α}

theorem instantiate_alike (hk : setting.Unread k) (h : scope.Alike k scope') {blueprint : Blueprint}
    (havoids : ∀ t ∈ blueprint.allTemplates, t.Avoids k) (parent : Option Nat) :
    (Tree.instantiate blueprint parent (elementRender setting scope) : Edit α Nat) =
      Tree.instantiate blueprint parent (elementRender setting scope') :=
  Tree.instantiate_congr
    (fun t ht => Rendering.render_element_alike hk.params h (havoids t ht)) parent

theorem makeOne_alike (hk : setting.Unread k) (h : p.Alike k p') (file : String)
    (parent : Option Nat) :
    makeOne setting file p parent = makeOne setting file p' parent := by
  unfold makeOne
  dsimp only
  rw [instantiate_alike hk h.scope h.avoids, h.blueprint]
  refine bind_congr fun node => ?_
  rw [applyAttributes_alike hk h.scope h.scope.here.attributes, h.chain]

theorem makeTwo_alike (hk : setting.Unread k) (h : p.Alike k p') (file : String)
    (parent : Option Nat) :
    makeTwo setting file p parent = makeTwo setting file p' parent := by
  unfold makeTwo
  dsimp only
  rw [h.forcing]
  refine lift_bind_congr fun found hfound => ?_
  obtain ⟨outerChain, outerBlueprint⟩ := found
  dsimp only
  rw [instantiate_alike hk h.scope (avoids_of_rulesFor hk.book hfound)]
  refine bind_congr fun outer => ?_
  rw [instantiate_alike hk h.scope h.avoids, h.blueprint]
  refine bind_congr fun inner => ?_
  refine bind_congr fun _ => ?_
  rw [applyAttributes_alike hk h.scope (AgreeOff.refl p'.forcing)]
  refine bind_congr fun _ => ?_
  rw [applyAttributes_alike hk h.scope h.rest, h.chain, h.scope.here.tag]

theorem make_alike (hk : setting.Unread k) (h : p.Alike k p') (file : String)
    (parent : Option Nat) : make setting file p parent = make setting file p' parent := by
  unfold make
  rw [h.forcing, makeOne_alike hk h, makeTwo_alike hk h]

omit [Scalar α] in
theorem declareOutlet_alike (h : p.Alike k p') (placed : Placed) :
    (declareOutlet p placed : Compile α Unit) = declareOutlet p' placed := by
  unfold declareOutlet
  rw [h.scope.here.id, h.chain, h.blueprint]

omit [Scalar α] in
theorem holdContent_alike (h : p.Alike k p') (placed : Placed) (depth : WrapDepth) :
    holdContent setting p placed depth = holdContent setting p' placed depth := by
  unfold holdContent
  rw [h.params]

theorem arrangeChildren_alike (h : p.Alike k p') (placed : Placed) (children : List (Child α)) :
    arrangeChildren setting p placed children = arrangeChildren setting p' placed children := by
  unfold arrangeChildren
  rw [h.chain, h.params]

theorem opening_related (hk : setting.Unread k) {e e' : Element} (htag : e.tag = e'.tag)
    (hattributes : AgreeOff k e.attributes e'.attributes) {around around' : Option Scope}
    (haround : Option.Rel (Scope.Alike k) around around') (file : String) (parent : Option Nat)
    (depth : WrapDepth) :
    Related (fun x x' => x.1.Alike k x'.1 ∧ x.2 = x'.2)
      (opening setting file e around parent depth)
      (opening setting file e' around' parent depth) := by
  unfold opening
  refine (Related.refl _).bind fun _ _ _ => ?_
  refine (Related.lift (prepare_alike hk file htag hattributes haround)).bind fun p p' hp => ?_
  rw [make_alike hk hp]
  refine (Related.refl _).bind ?_
  rintro placed _ rfl
  rw [declareOutlet_alike hp, holdContent_alike hp]
  refine (Related.refl _).bind fun _ _ _ => ?_
  refine (Related.refl _).bind fun _ _ _ => ?_
  exact Related.pure ⟨hp, rfl⟩

end Compile

/-! ## Layouts with one more attribute -/

mutual

/-- An element has come about from another one by adding an attribute, with any values, to some of
its elements. -/
inductive Element.Adds (k : String) : Element → Element → Prop where
  | same (tag text : String) (attributes : Attributes) {children children' : List Element}
    (h : Element.AddsAll k children children') :
    Element.Adds k ⟨tag, attributes, children, text⟩ ⟨tag, attributes, children', text⟩
  | added (tag text : String) (attributes : Attributes) (value : String)
    {children children' : List Element} (h : Element.AddsAll k children children') :
    Element.Adds k ⟨tag, attributes, children, text⟩
      ⟨tag, attributes.insert k value, children', text⟩

/-- The elements of a list have come about from those of another one, one by one. -/
inductive Element.AddsAll (k : String) : List Element → List Element → Prop where
  | nil : Element.AddsAll k [] []
  | cons {e e' : Element} {es es' : List Element} (h : Element.Adds k e e')
    (hs : Element.AddsAll k es es') : Element.AddsAll k (e :: es) (e' :: es')

end

namespace Compile

variable [Scalar α] {setting : Setting α}

/-- Elements that are alike are compiled alike, given that their children are. -/
theorem element_step (hk : setting.Unread k) (file : String) {tag text : String}
    {attributes attributes' : Attributes} (hattributes : AgreeOff k attributes attributes')
    {children children' : List Element}
    (hchildren : ∀ {scope scope' : Scope}, scope.Alike k scope' → ∀ parent depth,
      Related Eq (elements setting file children scope parent depth)
        (elements setting file children' scope' parent depth))
    {around around' : Option Scope} (haround : Option.Rel (Scope.Alike k) around around')
    (parent : Option Nat) (depth : WrapDepth) :
    Related Eq (element setting file ⟨tag, attributes, children, text⟩ around parent depth)
      (element setting file ⟨tag, attributes', children', text⟩ around' parent depth) := by
  have htag : (⟨tag, attributes, children, text⟩ : Element).tag =
      (⟨tag, attributes', children', text⟩ : Element).tag := rfl
  -- after its start an element is compiled from what is known about it, which is alike
  unfold element
  refine (opening_related hk htag hattributes haround file parent depth).bind ?_
  rintro ⟨p, placed⟩ ⟨p', _⟩ ⟨hp, rfl⟩
  dsimp only
  rw [hp.params]
  refine (hchildren hp.scope placed.inner (depth.inside p'.params)).bind ?_
  rintro inside _ rfl
  rw [arrangeChildren_alike hp]
  exact (Related.refl _).bind fun _ _ _ => .pure rfl

mutual

/-- An element is compiled the same with the attribute as without it. -/
theorem element_related (hk : setting.Unread k) (file : String) :
    ∀ {e e' : Element}, e.Adds k e' → ∀ {around around' : Option Scope},
      Option.Rel (Scope.Alike k) around around' → ∀ parent depth,
      Related Eq (element setting file e around parent depth)
        (element setting file e' around' parent depth)
  | _, _, .same _ _ attributes h, _, _, haround, parent, depth =>
    element_step hk file (AgreeOff.refl attributes) (elements_related hk file h) haround parent
      depth
  | _, _, .added _ _ attributes value h, _, _, haround, parent, depth =>
    element_step hk file (agreeOff_insert attributes value) (elements_related hk file h) haround
      parent depth

/-- The elements of a list are compiled the same with the attribute as without it. -/
theorem elements_related (hk : setting.Unread k) (file : String) :
    ∀ {es es' : List Element}, Element.AddsAll k es es' → ∀ {scope scope' : Scope},
      scope.Alike k scope' → ∀ parent depth,
      Related Eq (elements setting file es scope parent depth)
        (elements setting file es' scope' parent depth)
  | _, _, .nil, _, _, _, _, _ => .pure rfl
  | _, _, .cons h hs, _, _, hscope, parent, depth => by
    unfold elements
    refine (element_related hk file h (.some hscope) (some parent) depth).bind ?_
    rintro child _ rfl
    refine (elements_related hk file hs hscope parent depth).bind ?_
    rintro rest _ rfl
    exact .pure rfl

end

end Compile

namespace Compilation

variable [Scalar α]

/-! ## Main statement -/

/-- An attribute that is neither an id nor a style and says nothing about boxes, for which there is
no rule, and which the other rules name in no condition, in no wrapping and in no path of a
template, does nothing: a layout that has it on some more elements, with any values, fails in the
same way as before, or has the same tree with its constraints, and the same outlets, resources and
counts. -/
theorem ofElement_of_adds (setting : Setting α) (file : String) {root root' : Element}
    (hid : k ≠ Attributes.idName) (hstyle : k ≠ Attributes.styleName) (hparams : k ∉ Params.names)
    (hbook : setting.book.Ignores k) (hadds : root.Adds k root') :
    ofElement setting file root' = ofElement setting file root := by
  have hk : setting.Unread k := ⟨hid, hstyle, hparams, hbook⟩
  have hroot : Compile.element setting file root none none {} =
      Compile.element setting file root' none none {} :=
    (Compile.element_related hk file hadds .none none {}).eq
  unfold ofElement
  rw [hroot]

namespace Sample

/-- Rules for labels, with a condition and with templates that ask for other attributes. -/
def labels : RuleBook :=
  (RuleBook.addElement {}
    { id := "TextView", attributes := .ofList [("android:enabled", "not:false")]
      template := some
        { name := "label"
          attributes := .ofList [("hint", "~hint~ in ~parent.id~")] } }).addAttribute
    { id := "android:text", element := "TextView"
      emit := [{ path := "text", template := "~value~" }] }

def setting : Setting ℚ := { book := labels, resources := {}, options := {} }

/-- The attributes of a label. -/
def attributes : Attributes := .ofList [("android:hint", "Name"), ("android:text", "Hello")]

def label : Element := { tag := "TextView", attributes }

/-- The label with a note that refers to nothing. -/
def noted : Element :=
  { tag := "TextView", attributes := attributes.insert "tools:note" "@string/missing" }

theorem ofElement_of_noted :
    ("tools:note" ≠ Attributes.idName ∧ "tools:note" ≠ Attributes.styleName ∧
      "tools:note" ∉ Params.names) ∧
    setting.book.Ignores "tools:note" ∧ label.Adds "tools:note" noted ∧
    ofElement setting "a.xml" noted = ofElement setting "a.xml" label ∧
    (ofElement setting "a.xml" label).toOption.isSome = true := by
  have hnames : "tools:note" ≠ Attributes.idName ∧ "tools:note" ≠ Attributes.styleName ∧
      "tools:note" ∉ Params.names := by decide
  have hbook : setting.book.Ignores "tools:note" := by
    constructor <;> decide +kernel
  have hadds : label.Adds "tools:note" noted := .added _ _ attributes _ .nil
  refine ⟨hnames, hbook, hadds, ?_, by decide +kernel⟩
  exact ofElement_of_adds setting "a.xml" hnames.1 hnames.2.1 hnames.2.2 hbook hadds

end Sample

end Compilation

end LayoutCompiler
