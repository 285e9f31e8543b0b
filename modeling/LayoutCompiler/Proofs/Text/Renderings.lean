import LayoutCompiler.Rendering
import LayoutCompiler.Rule.Basic
import LayoutCompiler.Proofs.Data.Relation
/-!
# What a rendering depends on

A template is written from the texts that the paths of its holes lead to, and a path is walked from
stop to stop. So two renderings write a template alike when, along the segments of its paths, they
walk through stops that look alike.

* `Template.write_congr`: a template depends on the paths of its holes only.
* `Rendering.Follows.render_eq`: renderings that walk alike write alike.
* `Rendering.render_detached`: what does not ask for the element is the same for all elements.
-/

namespace LayoutCompiler

namespace Template

variable {t : Template} {resolve resolve' : String → Option String}

theorem mem_holes {path : String} : path ∈ t.holes ↔ Part.hole path ∈ t.parts := by
  unfold holes
  rw [List.mem_filterMap]
  constructor
  · rintro ⟨p, hp, heq⟩
    cases p with
    | literal text => cases heq
    | hole other =>
      cases heq
      exact hp
  · intro h
    exact ⟨.hole path, h, rfl⟩

/-- A template depends on the paths of its holes only. -/
theorem write_congr (h : ∀ path ∈ t.holes, resolve path = resolve' path) :
    t.write resolve = t.write resolve' := by
  unfold write
  refine congrArg String.join (List.map_congr_left fun p hp => ?_)
  cases p with
  | literal text => rfl
  | hole path => exact congrArg (·.getD "") (h path (mem_holes.2 hp))

/-- A template without holes is always written the same. -/
theorem write_of_isLiteral (h : t.isLiteral = true) (resolve resolve' : String → Option String) :
    t.write resolve = t.write resolve' := by
  refine write_congr fun path hpath => ?_
  rw [List.isEmpty_iff.1 h] at hpath
  cases hpath

end Template

namespace Rendering

variable {α : Type} [Scalar α] {r r' : Rendering α} {allowed : String → Prop}
  {alike : Stop α → Stop α → Prop}

/-- One rendering follows another one along the allowed segments: from stops that are alike it goes
on to stops that are alike, and such stops are displayed as the same text. -/
structure Follows (allowed : String → Prop) (alike : Stop α → Stop α → Prop)
    (r r' : Rendering α) : Prop where
  overrides : r.overrides = r'.overrides
  enter : ∀ segment, allowed segment → Option.Rel alike (r.enter? segment) (r'.enter? segment)
  step : ∀ stop stop' segment, alike stop stop' → allowed segment →
    Option.Rel alike (r.step? stop segment) (r'.step? stop' segment)
  display : ∀ stop stop', alike stop stop' → stop.display = stop'.display

namespace Follows

theorem foldlM_step (h : Follows allowed alike r r') {segments : List String}
    (hsegments : ∀ s ∈ segments, allowed s) {stop stop' : Stop α} (hstop : alike stop stop') :
    Option.Rel alike (segments.foldlM r.step? stop) (segments.foldlM r'.step? stop') := by
  induction segments generalizing stop stop' with
  | nil => exact .some hstop
  | cons s segments ih =>
    have hstep := h.step stop stop' s hstop (hsegments s List.mem_cons_self)
    rw [List.foldlM_cons, List.foldlM_cons]
    refine rel_bind (fun next next' hnext => ?_) hstep
    exact ih (fun t ht => hsegments t (List.mem_cons_of_mem s ht)) hnext

theorem walk (h : Follows allowed alike r r') {segments : List String}
    (hsegments : ∀ s ∈ segments, allowed s) :
    Option.Rel alike (r.walk? segments) (r'.walk? segments) := by
  cases segments with
  | nil => exact .none
  | cons first rest =>
    have henter := h.enter first (hsegments first List.mem_cons_self)
    refine rel_bind (fun next next' hnext => ?_) henter
    exact h.foldlM_step (fun t ht => hsegments t (List.mem_cons_of_mem first ht)) hnext

theorem resolve_eq (h : Follows allowed alike r r') {path : String}
    (hpath : ∀ s ∈ Template.segments path, allowed s) : r.resolve? path = r'.resolve? path := by
  have hwalk : (r.walk? (Template.segments path)).map Stop.display =
      (r'.walk? (Template.segments path)).map Stop.display :=
    map_eq_of_rel h.display (h.walk hpath)
  unfold resolve?
  rw [h.overrides, hwalk]

/-- Renderings that walk alike write alike. -/
theorem render_eq (h : Follows allowed alike r r') {t : Template}
    (ht : ∀ path ∈ t.holes, ∀ s ∈ Template.segments path, allowed s) :
    r.render t = r'.render t :=
  Template.write_congr fun path hpath => h.resolve_eq (ht path hpath)

end Follows

/-! ## Without the element -/

/-- The walk is at no element. -/
def Detached : Stop α → Prop
  | .element _ => False
  | _ => True

omit [Scalar α] in
theorem detached_ofField (f : Field α) : Detached (ofField f) := by
  cases f <;> exact True.intro

/-- From the value of an attribute, no path leads to the element unless it asks for it. -/
theorem follows_value (resources : ResourceTable α) (overrides extras : SortedMap String)
    (v : Value α) (s s' : Scope) :
    Follows (· ∉ elementSegments) (fun stop stop' => stop = stop' ∧ Detached stop)
      { resources, overrides, origin := .value v s extras }
      { resources, overrides, origin := .value v s' extras } := by
  have hfield : ∀ found : Option (Field α),
      Option.Rel (fun stop stop' => stop = stop' ∧ Detached stop) (found.map ofField)
        (found.map ofField) := by
    intro found
    cases found with
    | none => exact .none
    | some f => exact .some ⟨rfl, detached_ofField f⟩
  constructor
  · rfl
  · intro segment hsegment
    -- only the first segment can lead to the element, and it is not one that does
    simp only [enter?]
    simp only [elementSegments, List.mem_cons, not_or] at hsegment
    split
    · exact absurd rfl hsegment.1
    · exact absurd rfl hsegment.2.1
    · exact .some ⟨rfl, True.intro⟩
    · cases extras.get? segment with
      | some text => exact .some ⟨rfl, True.intro⟩
      | none => exact hfield (v.get? segment)
  · rintro stop _ segment ⟨rfl, hstop⟩ -
    cases stop with
    | value v => exact hfield (v.get? segment)
    | element s => exact False.elim hstop
    | text s => exact .none
  · rintro stop _ ⟨rfl, -⟩
    rfl

/-- What does not ask for the element is the same for all elements. -/
theorem render_detached (resources : ResourceTable α) (overrides extras : SortedMap String)
    (v : Value α) (s s' : Scope) {t : Template} (ht : t.refersTo elementSegments = false) :
    ({ resources, overrides, origin := .value v s extras } : Rendering α).render t =
      ({ resources, overrides, origin := .value v s' extras } : Rendering α).render t := by
  refine (follows_value resources overrides extras v s s').render_eq fun path hpath => ?_
  have hnone := List.any_eq_false.1 ht path hpath
  intro segment hsegment hmem
  exact hnone (List.any_eq_true.2 ⟨segment, hsegment, List.contains_iff_mem.2 hmem⟩)

end Rendering

end LayoutCompiler
