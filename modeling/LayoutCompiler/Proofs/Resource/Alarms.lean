import LayoutCompiler.Proofs.Resource.Progress
import LayoutCompiler.Proofs.Resource.Runs
/-!
# Alarms

Resources that all denote values may be refused all the same: a text through the theme has the key
that is left of it without its mark, and this may be the key of a resource, which then seems to come
back to itself. There is no other reason for refusing such resources.

* `Tracked.guards`: a key that comes again raises a false alarm.
* `lookUp_yields`: a look-up comes to what it denotes, unless it raises a false alarm.
* `resolve_of_denotes`: resolution fails only where a definition and a text share a key.
-/

open Relation (ReflTransGen TransGen)

namespace LayoutCompiler

namespace RawResources

variable {α : Type} {raw : RawResources α} {l l' : Lookup} {stack stack' : List String}

/-! ## What is looked up -/

variable (raw) in
/-- A look-up is for a definition, or is made on account of one that is. -/
def Reached (l : Lookup) : Prop := ∃ first ∈ raw.lookups, ReflTransGen raw.Refers first l

theorem Reached.refers (h : raw.Reached l) (hrefers : raw.Refers l l') : raw.Reached l' := by
  obtain ⟨first, hfirst, hway⟩ := h
  exact ⟨first, hfirst, hway.tail hrefers⟩

theorem Reached.knows (h : raw.Reached l) : raw.Knows l := by
  obtain ⟨first, hfirst, hway⟩ := h
  induction hway with
  | refl => exact knows_of_mem_lookups raw first hfirst
  | tail _ hrefers ih => exact hrefers.knows ih

/-- Every definition is looked up, and each plain color that a state list hides. -/
theorem declares_of_mem_lookups (h : l ∈ raw.lookups) :
    raw.Declares l ∨ ∃ name, l = .color name ∧ raw.colorStates.contains name = true := by
  simp only [lookups, List.mem_append, List.mem_map, SortedMap.mem_keys_iff] at h
  rcases h with ((((⟨name, hname, rfl⟩ | ⟨name, hname, rfl⟩) | ⟨name, hname, rfl⟩) |
    ⟨name, hname, rfl⟩) | ⟨name, hname, rfl⟩) | ⟨name, hname, rfl⟩
  · cases hhidden : raw.colorStates.contains name with
    | true => exact Or.inr ⟨name, rfl, hhidden⟩
    | false => exact Or.inl ⟨hname, hhidden⟩
  all_goals exact Or.inl hname

/-! ## False alarms -/

variable (raw) in
/-- A definition and a text through the theme have one key, and one of the two depends on the
other. -/
structure Clash (l : Lookup) (need : Need) (text key : String) : Prop where
  declares : raw.Declares l
  reached : raw.Reached (.text need text)
  keyOfDefinition : key ∈ raw.pushed l
  keyOfText : key ∈ raw.pushed (.text need text)
  depends : TransGen raw.Refers l (.text need text) ∨ TransGen raw.Refers (.text need text) l

variable (raw) in
/-- A failure that reports a cycle, where there is only a key that a definition and a text
share. -/
def FalseAlarm (e : Failure) : Prop :=
  ∃ l need text key stack, raw.Clash l need text key ∧ key ∈ stack ∧
    e = .reference ("@" ++ key) (.circular (stack ++ [key]))

variable (raw) in
/-- Every key on the stack was put there by a look-up that depends on the one that is made. -/
def Tracked (stack : List String) (l : Lookup) : Prop :=
  ∀ key ∈ stack, ∃ before, raw.Reached before ∧ key ∈ raw.pushed before ∧
    TransGen raw.Refers before l

theorem tracked_nil : raw.Tracked [] l := nofun

theorem Tracked.calls (h : raw.Tracked stack l) (hreached : raw.Reached l)
    (hcall : raw.Calls l stack l' stack') : raw.Tracked stack' l' := by
  intro key hkey
  rw [hcall.pushes] at hkey
  rcases List.mem_append.1 hkey with hkey | hkey
  · obtain ⟨before, hbefore, hpushed, hway⟩ := h key hkey
    exact ⟨before, hbefore, hpushed, hway.tail hcall.refers⟩
  · exact ⟨l, hreached, hkey, .single hcall.refers⟩

variable [Scalar α]

/-- When all definitions denote values, so does all that is looked up. -/
theorem Reached.denotes (hall : ∀ l, raw.Declares l → ∃ v, raw.Denotes l v) (h : raw.Reached l) :
    ∃ v, raw.Denotes l v := by
  obtain ⟨first, hfirst, hway⟩ := h
  induction hway with
  | refl =>
    rcases declares_of_mem_lookups hfirst with hdeclares | ⟨name, rfl, hhidden⟩
    · exact hall first hdeclares
    · obtain ⟨states, hstates⟩ := hall (.colorState name) hhidden
      exact ⟨states.normal, Unfolds.denotes (.hidden hhidden hstates)⟩
  | tail _ hrefers ih =>
    obtain ⟨v, hv⟩ := ih
    exact hv.unfolds.answers hrefers

/-- A key that comes again raises a false alarm: it is that of a definition, and of a text. -/
theorem Tracked.guards (hall : ∀ l, raw.Declares l → ∃ v, raw.Denotes l v)
    (h : raw.Tracked stack l) (hreached : raw.Reached l) :
    Resolve.Guards raw raw.FalseAlarm l stack := by
  intro key hkey hstack
  obtain ⟨before, hbefore, hkey', hway⟩ := h key hstack
  obtain ⟨v, hv⟩ := hreached.denotes hall
  obtain ⟨w, hw⟩ := hbefore.denotes hall
  -- of two look-ups of one key, one on account of the other, both denote a value, so that one is
  -- for a definition and the other for a text
  have hdiffer := hw.isNamed_ne hv hway hkey' hkey
  cases hnamed : l.isNamed with
  | true =>
    cases before with
    | text need text =>
      have hdeclares := hv.declares_of_mem_pushed hnamed hkey
      have hclash : raw.Clash l need text key :=
        ⟨hdeclares, hbefore, hkey, hkey', Or.inr hway⟩
      exact ⟨l, need, text, key, stack, hclash, hstack, rfl⟩
    | _ => exact absurd hnamed.symm hdiffer
  | false =>
    cases l with
    | text need text =>
      rw [hnamed] at hdiffer
      have hdeclares := hw.declares_of_mem_pushed (by simpa using hdiffer) hkey'
      have hclash : raw.Clash before need text key :=
        ⟨hdeclares, hreached, hkey', hkey, Or.inl hway⟩
      exact ⟨before, need, text, key, stack, hclash, hstack, rfl⟩
    | _ => cases hnamed

end RawResources

/-! ## Runs -/

namespace Resolve

open RawResources

variable {α : Type} [Scalar α] {raw : RawResources α} {l : Lookup} {stack : List String}

/-- What comes to the same yields the same. -/
theorem Yields.of_eq {β : Type} {alarm : Failure → Prop} {x y : Resolve α β} {v : β}
    (hsame : ∀ s, Valid raw s → s.visiting = stack → y s = x s)
    (h : Yields raw alarm stack v x) : Yields raw alarm stack v y where
  alike s hvalid hstack := by
    rw [hsame s hvalid hstack]
    exact ⟨rfl, (h.alike s hvalid hstack).2⟩
  alarms s e hvalid hstack he := by
    rw [hsame s hvalid hstack] at he
    exact h.alarms s e hvalid hstack he

/-- A look-up comes to what it denotes, unless it raises a false alarm. -/
theorem lookUp_yields (hall : ∀ l, raw.Declares l → ∃ v, raw.Denotes l v) {v : l.Answer α}
    (h : raw.Denotes l v) (hreached : raw.Reached l) (htracked : raw.Tracked stack l) :
    Yields raw raw.FalseAlarm stack v (lookUp raw l) := by
  -- by induction on what is denoted; the stack tells which look-ups have led here
  induction h generalizing stack with
  | @unfold R l v hR h ih =>
    have hbelow : YieldsBelow raw raw.FalseAlarm l stack (lookUp raw) := by
      intro l' stack' hcall answer hanswer
      obtain ⟨w, hw⟩ := h.answers hcall.refers
      obtain rfl := (hR l' w hw).unique hanswer
      exact ih l' w hw (hreached.refers hcall.refers) (htracked.calls hreached hcall)
    have hstep := step_yields hreached.knows (.unfold hR h) (htracked.guards hall hreached) hbelow
    exact hstep.of_eq fun s hvalid _ => lookUp_eq_step hreached.knows hvalid

theorem lookUpAll_yields (hall : ∀ l, raw.Declares l → ∃ v, raw.Denotes l v) {ls : List Lookup}
    (hls : ∀ l ∈ ls, raw.Reached l) :
    Yields raw raw.FalseAlarm [] () (lookUpAll (lookUp raw) ls) := by
  induction ls with
  | nil => exact .pure ()
  | cons l ls ih =>
    obtain ⟨hl, hls⟩ := List.forall_mem_cons.1 hls
    obtain ⟨v, hv⟩ := hl.denotes hall
    rw [lookUpAll_cons]
    exact .bind (lookUp_yields hall hv hl tracked_nil) (ih hls)

end Resolve

namespace RawResources

open Resolve

variable {α : Type} [Scalar α] {raw : RawResources α}

/-- Resources that all denote values are refused only with a false alarm. -/
theorem falseAlarm_of_resolve (hall : ∀ l, raw.Declares l → ∃ v, raw.Denotes l v) {e : Failure}
    (h : raw.resolve = .error e) : raw.FalseAlarm e := by
  obtain ⟨s, hrun⟩ := resolve_eq_error_iff.1 h
  have hyields := lookUpAll_yields hall fun l hl => ⟨l, hl, .refl⟩
  exact hyields.alarms raw.start e (start_valid raw) rfl (by rw [hrun])

/-- Where every definition denotes a value, resolution fails only with a false alarm: it reports a
cycle, but a definition and a text through the theme have one key. It does not fail at all where no
such text is spelled like the key of a definition. -/
theorem resolve_of_denotes (hall : ∀ l, raw.Declares l → ∃ v, raw.Denotes l v) :
    (∀ e, raw.resolve = .error e → raw.FalseAlarm e) ∧
    ((∀ text ∈ raw.texts, Text.leads "?" (Text.trim text) = true →
        ∀ l, raw.Declares l → Text.dropLeading '?' (Text.trim text) ∉ raw.pushed l) →
      ∃ table, raw.resolve = .ok table) := by
  constructor
  · intro e h
    exact falseAlarm_of_resolve hall h
  · intro hapart
    cases hresolve : raw.resolve with
    | ok table => exact ⟨table, rfl⟩
    | error e =>
      obtain ⟨l, need, text, key, stack, hclash, -⟩ := falseAlarm_of_resolve hall hresolve
      -- a false alarm needs a text that follows a theme under the key of a definition
      obtain ⟨htheme, rfl⟩ := theme_of_mem_pushed_text hclash.keyOfText
      obtain ⟨text', hmem, htrim⟩ := hclash.reached.knows
      rw [← htrim] at htheme
      have hkey := hclash.keyOfDefinition
      rw [← htrim] at hkey
      exact absurd hkey (hapart text' hmem htheme l hclash.declares)

end RawResources

namespace Sample

open RawResources

/-- A color that stands for an item of the theme. -/
def themed (item : String) : RawResources ℚ where
  colors := .singleton "accent" ("?" ++ item)
  styles := .singleton "AppTheme" { items := .singleton item "#FF0000" }

theorem declares_themed {item : String} {l : Lookup} (h : (themed item).Declares l) :
    l = .color "accent" := by
  cases l with
  | color name =>
    have hname : (SortedMap.singleton "accent" ("?" ++ item)).contains name = true := h.1
    by_cases heq : "accent" = name
    · rw [← heq]
    · rw [SortedMap.contains, SortedMap.singleton, SortedMap.get?_insert, if_neg heq] at hname
      cases hname
  | _ => cases h

theorem denotes_themed (item : String) (hitem : (themed item).Follows ("?" ++ item) "#FF0000")
    (l : Lookup) (h : (themed item).Declares l) : ∃ v, (themed item).Denotes l v := by
  obtain rfl := declares_themed h
  have hred : (themed item).Denotes (.text .color "#FF0000") ⟨0xff, 0, 0, 0xff⟩ :=
    Unfolds.denotes (.constant (Or.inl rfl))
  have htext := Unfolds.denotes (.theme hitem hred)
  exact ⟨_, Unfolds.denotes (.color rfl rfl htext)⟩

/-- An item that is spelled like the key of the color makes resolution fail, another one does
not. -/
theorem resolve_of_denotes_themed :
    (∃ e, (themed "color/accent").resolve = .error e ∧ (themed "color/accent").FalseAlarm e) ∧
      ∃ table, (themed "colorAccent").resolve = .ok table := by
  constructor
  · obtain ⟨halarm, -⟩ := resolve_of_denotes (denotes_themed "color/accent" ⟨rfl, rfl⟩)
    have hfails : (themed "color/accent").resolve.toOption.isNone = true := by decide +kernel
    cases hresolve : (themed "color/accent").resolve with
    | ok table =>
      rw [hresolve] at hfails
      cases hfails
    | error e => exact ⟨e, rfl, halarm e hresolve⟩
  · refine (resolve_of_denotes (denotes_themed "colorAccent" ⟨rfl, rfl⟩)).2 ?_
    intro text hmem htheme l hdeclares
    obtain rfl := declares_themed hdeclares
    have htexts : (themed "colorAccent").texts = ["?colorAccent", "#FF0000"] := rfl
    rw [htexts] at hmem
    rcases List.mem_cons.1 hmem with rfl | hmem
    · decide
    · obtain rfl := List.mem_singleton.1 hmem
      cases htheme

end Sample

end LayoutCompiler
