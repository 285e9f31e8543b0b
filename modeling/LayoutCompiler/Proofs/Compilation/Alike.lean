import LayoutCompiler.Proofs.Compilation.Unread
import LayoutCompiler.Proofs.Text.Renderings
/-!
# Elements that are alike

Elements that differ in an attribute that no template mentions make the same nodes. From one of them
no path of such a template leads anywhere that it does not lead from the other (`Stop.Alike`), so
that each template is written the same, and each blueprint makes the same node.

* `render_element_alike`, `render_value_alike`: templates that avoid the attribute.
* `Tree.instantiate_congr`: nodes whose templates are written the same.
-/

namespace LayoutCompiler

open SortedMap

variable {α β γ : Type} {k : String}

/-! ## Templates -/

section Renderings

variable [Scalar α]

/-- Two walks are at elements that are alike, or at the same value or text. -/
inductive Stop.Alike (k : String) : Stop α → Stop α → Prop where
  | value (v : Value α) : Alike k (.value v) (.value v)
  | element {s s' : Scope} (h : s.Alike k s') : Alike k (.element s) (.element s')
  | text (s : String) : Alike k (.text s) (.text s)

namespace Scope.Alike

variable {s s' : Scope}

theorem parent? (h : s.Alike k s') : Option.Rel (Scope.Alike k) s.parent? s'.parent? := by
  obtain ⟨here, around⟩ := s
  obtain ⟨here', around'⟩ := s'
  obtain ⟨-, haround⟩ := h
  cases haround with
  | nil => exact .none
  | cons hhead htail => exact .some ⟨hhead, htail⟩

theorem frames (h : s.Alike k s') : List.Forall₂ (Frame.Alike k) s.frames s'.frames :=
  .cons h.here h.around

theorem halfSize? (h : s.Alike k s') (hk : k ∉ Params.names) (resources : ResourceTable α) :
    LayoutCompiler.halfSize? resources s = LayoutCompiler.halfSize? resources s' := by
  -- half a size is found from the two lengths of a frame, neither of which the key is
  have hsmaller : ∀ f f' : Frame, f.Alike k f' →
      smallerSize? resources f = smallerSize? resources f' := by
    intro f f' hf
    have hsize : ∀ name ∈ Params.names,
        explicitSize? resources f name = explicitSize? resources f' name := by
      intro name hname
      unfold explicitSize?
      rw [hf.attributes name fun heq => hk (heq ▸ hname)]
    unfold smallerSize?
    rw [hsize "android:layout_width" (by simp [Params.names]),
      hsize "android:layout_height" (by simp [Params.names])]
  have hfirst : ∀ fs fs' : List Frame, List.Forall₂ (Frame.Alike k) fs fs' →
      fs.findSome? (smallerSize? resources) = fs'.findSome? (smallerSize? resources) := by
    intro fs fs' hfs
    induction hfs with
    | nil => rfl
    | cons hhead _ ih => rw [List.findSome?_cons, List.findSome?_cons, hsmaller _ _ hhead, ih]
  unfold LayoutCompiler.halfSize?
  rw [hfirst _ _ h.frames]

theorem namedAttribute? (h : s.Alike k s') {name : String}
    (hname : k ≠ name ∧ k ≠ Attributes.platform name) :
    Rendering.namedAttribute? s name = Rendering.namedAttribute? s' name := by
  unfold Rendering.namedAttribute?
  rw [h.here.attributes name hname.1.symm, h.here.attributes _ hname.2.symm]

end Scope.Alike

namespace Rendering

variable {resources : ResourceTable α} {overrides : SortedMap String} {s s' : Scope}

omit [Scalar α] in
theorem rel_ofField (found : Option (Field α)) :
    Option.Rel (Stop.Alike k) (found.map ofField) (found.map ofField) := by
  cases found with
  | none => exact .none
  | some f =>
    cases f with
    | value v => exact .some (.value v)
    | text s => exact .some (.text s)

omit [Scalar α] in
theorem rel_parent? (h : s.Alike k s') : Option.Rel (Stop.Alike k)
    (s.parent?.map (Stop.element : Scope → Stop α)) (s'.parent?.map .element) :=
  rel_map_map (fun _ _ => .element) h.parent?

/-- From stops that are alike, a segment that does not lead to the attribute leads to stops that are
alike. -/
theorem rel_step? (hk : k ∉ Params.names) {origin origin' : Origin α} {stop stop' : Stop α}
    {segment : String} (hstop : stop.Alike k stop')
    (hsegment : k ≠ segment ∧ k ≠ Attributes.platform segment) :
    Option.Rel (Stop.Alike k) (step? { resources, overrides, origin } stop segment)
      (step? { resources, overrides, origin := origin' } stop' segment) := by
  cases hstop with
  | value v => exact rel_ofField (v.get? segment)
  | text s => exact .none
  | element h =>
    simp only [step?]
    split
    · exact rel_parent? h
    -- a segment computed from the frames does not see the key, and a named one is another name
    · rw [h.halfSize? hk]
      cases LayoutCompiler.halfSize? resources _ with
      | none => exact .none
      | some x => exact .some (.value _)
    · rw [h.here.id]
      cases Element.id? _ with
      | none => exact .none
      | some id => exact .some (.text id)
    · rw [h.here.tag]
      exact .some (.text _)
    · rw [h.namedAttribute? hsegment]
      cases namedAttribute? _ segment with
      | none => exact .none
      | some raw =>
        simp only [Option.bind_some]
        cases resources.read raw with
        | error e => exact .none
        | ok v => exact .some (.value v)

theorem display_alike {stop stop' : Stop α} (h : stop.Alike k stop') :
    stop.display = stop'.display := by
  cases h with
  | value v => rfl
  | text s => rfl
  | element h => exact congrArg (·.getD "") h.here.id

/-- For elements that are alike, a template of an element that avoids the attribute is written the
same. -/
theorem render_element_alike (hk : k ∉ Params.names) (h : s.Alike k s') {t : Template}
    (ht : t.Avoids k) :
    ({ resources, overrides, origin := .element s } : Rendering α).render t =
      ({ resources, overrides, origin := .element s' } : Rendering α).render t := by
  have hfollows : Follows (fun segment => k ≠ segment ∧ k ≠ Attributes.platform segment)
      (Stop.Alike k) { resources, overrides, origin := .element s }
      { resources, overrides, origin := .element s' } := by
    refine ⟨rfl, ?_, ?_, fun _ _ => display_alike⟩
    · intro segment hsegment
      simp only [enter?]
      exact rel_step? hk (.element h) hsegment
    · intro stop stop' segment hstop hsegment
      exact rel_step? hk hstop hsegment
  exact hfollows.render_eq ht

/-- For elements that are alike, a template for a value that avoids the attribute is written the
same. -/
theorem render_value_alike (hk : k ∉ Params.names) (h : s.Alike k s') (v : Value α)
    (extras : SortedMap String) {t : Template} (ht : t.Avoids k) :
    ({ resources, overrides, origin := .value v s extras } : Rendering α).render t =
      ({ resources, overrides, origin := .value v s' extras } : Rendering α).render t := by
  have hfollows : Follows (fun segment => k ≠ segment ∧ k ≠ Attributes.platform segment)
      (Stop.Alike k) { resources, overrides, origin := .value v s extras }
      { resources, overrides, origin := .value v s' extras } := by
    -- the two renderings enter a path alike and stay alike at each step of it
    refine ⟨rfl, ?_, ?_, fun _ _ => display_alike⟩
    · intro segment _
      simp only [enter?]
      split
      · exact .some (.element h)
      · exact rel_parent? h
      · exact .some (.value v)
      · cases extras.get? segment with
        | some text => exact .some (.text text)
        | none => exact rel_ofField (v.get? segment)
    · intro stop stop' segment hstop hsegment
      exact rel_step? hk hstop hsegment
  exact hfollows.render_eq ht

end Rendering

end Renderings

/-! ## Nodes -/

namespace Tree

variable {render render' : Template → String}

/-- A loop does the same when each of its rounds does. -/
theorem forIn_congr {m : Type → Type} [Monad m] {σ : Type} {xs : List γ}
    {f g : γ → σ → m (ForInStep σ)} (h : ∀ x ∈ xs, ∀ r, f x r = g x r) (init : σ) :
    forIn xs init f = forIn xs init g := by
  induction xs generalizing init with
  | nil => rfl
  | cons x xs ih =>
    rw [List.forIn_cons, List.forIn_cons, h x List.mem_cons_self]
    refine bind_congr fun step => ?_
    cases step with
    | done r => rfl
    | yield r => exact ih (fun y hy => h y (List.mem_cons_of_mem x hy)) r

mutual

/-- A node is filled the same when all templates of its blueprint are written the same. -/
theorem fill_congr (id : Nat) : ∀ b : Blueprint, (∀ t ∈ b.allTemplates, render t = render' t) →
    (fill render id b : Edit α Unit) = fill render' id b
  | ⟨name, attributes, style, text, children, holder⟩, h => by
    simp only [Blueprint.allTemplates, List.mem_append] at h
    -- each text written is rendered from one of the templates, the children's by the induction
    have hattributes : ∀ e ∈ attributes.entries, render e.2 = render' e.2 := by
      intro e he
      exact h e.2 (Or.inl (Or.inl (Or.inl (List.mem_map_of_mem he))))
    have hstyle : ∀ e ∈ style.entries, render e.2 = render' e.2 := by
      intro e he
      exact h e.2 (Or.inl (Or.inl (Or.inr (List.mem_map_of_mem he))))
    have hchildren := fillChildren_congr id children fun t ht => h t (Or.inr ht)
    unfold fill
    refine congrArg₂ Bind.bind (forIn_congr (fun e he r => ?_) _) (funext fun _ => ?_)
    · have hrender : render e.2 = render' e.2 := hattributes e he
      obtain ⟨key, t⟩ := e
      simp only [hrender]
    refine congrArg₂ Bind.bind (forIn_congr (fun e he r => ?_) _) (funext fun _ => ?_)
    · have hrender : render e.2 = render' e.2 := hstyle e he
      obtain ⟨key, t⟩ := e
      simp only [hrender]
    cases text with
    | none => rw [hchildren]
    | some t =>
      have ht : render t = render' t := h t (Or.inl (Or.inr (by simp)))
      simp only [ht, hchildren]

/-- Fixed children are the same when all templates of their blueprints are written the same. -/
theorem fillChildren_congr (id : Nat) : ∀ bs : List Blueprint,
    (∀ t ∈ Blueprint.allTemplatesOf bs, render t = render' t) →
    (fillChildren render id bs : Edit α Unit) = fillChildren render' id bs
  | [], _ => rfl
  | b :: bs, h => by
    simp only [Blueprint.allTemplatesOf, List.mem_append] at h
    unfold fillChildren
    refine bind_congr fun child => ?_
    rw [fill_congr child b fun t ht => h t (Or.inl ht),
      fillChildren_congr id bs fun t ht => h t (Or.inr ht)]

end

theorem instantiate_congr {b : Blueprint} (h : ∀ t ∈ b.allTemplates, render t = render' t)
    (parent : Option Nat) :
    (instantiate b parent render : Edit α Nat) = instantiate b parent render' := by
  unfold instantiate
  refine bind_congr fun id => ?_
  rw [fill_congr id b h]

end Tree

end LayoutCompiler
