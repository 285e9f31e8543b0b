import LayoutCompiler.Proofs.Number.Rational
import LayoutCompiler.Proofs.Resource.Steps
/-!
# Runs of resolution

Look-ups are nested no deeper than there can be keys on the stack, so the bound on nested steps is
never met: a look-up is answered by one step, from the answers to the look-ups that this step makes.
What all of them leave behind is the table of the values that the definitions denote.

* `lookUp_eq_step`: a look-up comes to what one step comes to, with look-ups for the answers.
* `Arises.valid`: whenever a look-up is made, the table and the stack are as they should be.
* `resolve_ends`: resolution ends, with the stack restored, and finds every cycle.
* `resolve_denotes`: the table has one entry for each definition, the value that it denotes.
-/

namespace LayoutCompiler

/-! ## The look-ups of all definitions -/

namespace RawResources

variable {α : Type} {raw : RawResources α} {l : Lookup}

variable (raw) in
theorem knows_of_mem_lookups : ∀ l ∈ raw.lookups, raw.Knows l := by
  intro l h
  cases l with
  | text need text => simp [lookups] at h
  | _ => trivial

theorem mem_lookups_of_declares (h : raw.Declares l) : l ∈ raw.lookups := by
  cases l with
  | color name =>
    have hkey := SortedMap.mem_keys_iff.2 h.1
    simp [lookups, hkey]
  | text => cases h
  | _ =>
    have hkey := SortedMap.mem_keys_iff.2 h
    simp [lookups, hkey]

end RawResources

namespace Resolve

open RawResources

/-- Look-ups, one after the other. -/
def lookUpAll {α : Type} (ask : Answers α) (ls : List Lookup) : Resolve α Unit :=
  ls.forM fun l => discard (ask l)

theorem lookUpAll_cons {α : Type} (ask : Answers α) (l : Lookup) (ls : List Lookup) :
    lookUpAll ask (l :: ls) = ask l >>= fun _ => lookUpAll ask ls := by
  have hdiscard : (discard (ask l) : Resolve α Unit) = ask l >>= fun _ => pure () := by
    unfold Functor.discard
    rw [LawfulFunctor.map_const, bind_pure_comp]
    rfl
  change (discard (ask l) >>= fun _ => lookUpAll ask ls) = _
  rw [hdiscard, bind_assoc]
  rfl

variable {α : Type} [Scalar α] {raw : RawResources α} {l l' : Lookup} {stack : List String}
  {s s' : Resolution α}

/-! ## Nested steps -/

/-- With headroom below it, a look-up does not depend on how deeply steps may be nested. -/
theorem lookUpWithin_alike {steps steps' : Nat} (hknows : raw.Knows l)
    (hstack : raw.Stacked stack) (hsteps : raw.headroom l stack ≤ steps)
    (hsteps' : raw.headroom l stack ≤ steps') :
    Alike raw stack (raw.Denotes l) (lookUpWithin raw steps l) (lookUpWithin raw steps' l) := by
  induction steps generalizing steps' l stack with
  | zero => exact absurd hsteps (Nat.not_succ_le_zero _)
  | succ steps ih =>
    cases steps' with
    | zero => exact absurd hsteps' (Nat.not_succ_le_zero _)
    | succ steps' =>
      -- the look-ups below have less headroom, as they have one step less
      refine step_alike hknows fun l' stack' hcall => ?_
      have hlt := hcall.headroom_lt hknows hstack
      exact ih (hcall.refers.knows hknows) (hcall.stacked hknows hstack) (by omega) (by omega)

variable (raw) in
/-- The answers to look-ups. -/
def lookUp : Answers α := lookUpWithin raw raw.stepCount

theorem lookUp_alike {steps : Nat} (hknows : raw.Knows l) (hstack : raw.Stacked stack)
    (hsteps : 4 * (raw.keyCount + 1) ≤ steps) :
    Alike raw stack (raw.Denotes l) (lookUp raw l) (lookUpWithin raw steps l) := by
  have hle := headroom_le raw l stack
  exact lookUpWithin_alike hknows hstack (by unfold stepCount; omega) (by omega)

theorem lookUp_settled (hknows : raw.Knows l) (hvalid : Valid raw s) :
    Settled raw (raw.Denotes l) s (lookUp raw l s) :=
  (lookUp_alike hknows hvalid.stacked (Nat.le_refl _) s hvalid rfl).2

/-- A look-up comes to what one step comes to, with look-ups for the answers. -/
theorem lookUp_eq_step (hknows : raw.Knows l) (hvalid : Valid raw s) :
    lookUp raw l s = step raw (lookUp raw) l s := by
  obtain ⟨steps, hsteps, hcount⟩ :
      ∃ steps, 4 * (raw.keyCount + 1) ≤ steps ∧ raw.stepCount = steps + 1 :=
    ⟨raw.stepCount - 1, by unfold stepCount; omega, by unfold stepCount; omega⟩
  have hbelow : AlikeBelow raw l s.visiting (lookUp raw) (lookUpWithin raw steps) :=
    fun l' stack' hcall =>
      lookUp_alike (hcall.refers.knows hknows) (hcall.stacked hknows hvalid.stacked) hsteps
  have hstep : lookUp raw l = step raw (lookUpWithin raw steps) l := by
    unfold lookUp
    rw [hcount]
    rfl
  rw [hstep]
  exact (step_alike hknows hbelow s hvalid rfl).1

/-! ## The look-ups that are made -/

/-- A step makes a look-up in a state: with another answer there, it would come to something
else. -/
def Asks (raw : RawResources α) (ask : Answers α) (l : Lookup) (s : Resolution α) (l' : Lookup)
    (s' : Resolution α) : Prop :=
  ∃ ask' : Answers α, (∀ m t, (m, t) ≠ (l', s') → ask' m t = ask m t) ∧
    step raw ask' l s ≠ step raw ask l s

/-- A look-up is made only for what another one refers to, with its key on the stack. -/
theorem Asks.calls (h : Asks raw (lookUp raw) l s l' s') (hknows : raw.Knows l)
    (hvalid : Valid raw s) : raw.Calls l s.visiting l' s'.visiting ∧ Valid raw s' := by
  obtain ⟨ask', hsame, hdiffer⟩ := h
  by_contra hnot
  -- otherwise the other answer stands where the step does not make a look-up
  have hbelow : AlikeBelow raw l s.visiting (lookUp raw) ask' := by
    intro m stack hcall t ht hstack
    have hother : (m, t) ≠ (l', s') := by
      rintro ⟨⟩
      exact hnot ⟨hstack ▸ hcall, ht⟩
    exact ⟨hsame m t hother, lookUp_settled (hcall.refers.knows hknows) ht⟩
  exact hdiffer (step_alike hknows hbelow s hvalid rfl).1

/-! ## Look-ups one after the other -/

variable (raw) in
theorem start_valid : Valid raw raw.start where
  theme := rfl
  declares l v h := by cases l <;> cases h
  denotes l v h := by cases l <;> cases h
  stacked := ⟨.nil, nofun⟩

/-- With headroom, the look-ups do not depend on how deeply steps may be nested. -/
theorem lookUpAll_alike {steps : Nat} (hsteps : 4 * (raw.keyCount + 1) ≤ steps) {ls : List Lookup}
    (hknows : ∀ l ∈ ls, raw.Knows l) :
    Alike raw [] (fun _ => True) (lookUpAll (lookUp raw) ls)
      (lookUpAll (lookUpWithin raw steps) ls) := by
  induction ls with
  | nil => exact .pure trivial
  | cons l ls ih =>
    rw [lookUpAll_cons, lookUpAll_cons]
    exact .bind (lookUp_alike (hknows l List.mem_cons_self) ⟨.nil, nofun⟩ hsteps) fun _ _ =>
      ih fun l hl => hknows l (List.mem_cons_of_mem _ hl)

theorem lookUpAll_settled {ls : List Lookup} (hknows : ∀ l ∈ ls, raw.Knows l) (hvalid : Valid raw s)
    (hstack : s.visiting = []) : Settled raw (fun _ => True) s (lookUpAll (lookUp raw) ls s) :=
  (lookUpAll_alike (Nat.le_refl _) hknows s hvalid hstack).2

/-- Each of the look-ups has an answer, and those for definitions are in the table. -/
theorem answered_of_lookUpAll {ls : List Lookup} (hknows : ∀ l ∈ ls, raw.Knows l)
    (hvalid : Valid raw s) (hstack : s.visiting = [])
    (h : lookUpAll (lookUp raw) ls s = (.ok (), s')) :
    ∀ l ∈ ls, (∃ v, raw.Denotes l v) ∧ (raw.Declares l → (s'.table.answer? l).isSome = true) := by
  -- by induction on the look-ups, from any table that the ones before have left
  induction ls generalizing s with
  | nil => nofun
  | cons l ls ih =>
    have hsettled := lookUp_settled (hknows l List.mem_cons_self) hvalid
    have hstep := lookUp_eq_step (hknows l List.mem_cons_self) hvalid
    have hknows' : ∀ l ∈ ls, raw.Knows l := fun l hl => hknows l (List.mem_cons_of_mem _ hl)
    rw [lookUpAll_cons, bind_apply] at h
    rcases hout : lookUp raw l s with ⟨e | v, t⟩
    · rw [hout] at h
      cases h
    rw [hout] at h hsettled
    have hrest := lookUpAll_settled hknows' hsettled.valid (hsettled.visiting.trans hstack)
    dsimp only at h
    rw [h] at hrest
    intro m hm
    rcases List.mem_cons.1 hm with rfl | hm
    · refine ⟨⟨v, hsettled.answer v rfl⟩, fun hdeclares => ?_⟩
      have hkept := answer?_of_step hdeclares (hstep.symm.trans hout)
      exact Option.isSome_iff_exists.2 ⟨v, hrest.keeps m v hkept⟩
    · exact ih hknows' hsettled.valid (hsettled.visiting.trans hstack) h m hm

/-! ## The look-ups that are made -/

/-- The look-ups that are made while resources are resolved, with the states that they are made
in. -/
inductive Arises (raw : RawResources α) : Lookup → Resolution α → Prop
  | first {before after : List Lookup} {l : Lookup} {s : Resolution α}
    (hlookups : raw.lookups = before ++ l :: after)
    (hrun : lookUpAll (lookUp raw) before raw.start = (.ok (), s)) : Arises raw l s
  | nested {l l' : Lookup} {s s' : Resolution α} (h : Arises raw l s)
    (hasks : Asks raw (lookUp raw) l s l' s') : Arises raw l' s'

/-- Whenever a look-up is made, the table and the stack are as they should be. -/
theorem Arises.valid (h : Arises raw l s) : raw.Knows l ∧ Valid raw s := by
  induction h with
  | @first before _ _ _ hlookups hrun =>
    have hknows := knows_of_mem_lookups raw
    rw [hlookups] at hknows
    have hbefore : ∀ m ∈ before, raw.Knows m := fun m hm => hknows m (List.mem_append_left _ hm)
    have hsettled := lookUpAll_settled hbefore (start_valid raw) rfl
    rw [hrun] at hsettled
    exact ⟨hknows _ (by simp), hsettled.valid⟩
  | nested _ hasks ih =>
    obtain ⟨hcall, hvalid⟩ := hasks.calls ih.1 ih.2
    exact ⟨hcall.refers.knows ih.1, hvalid⟩

/-- Look-ups cannot be nested for ever. -/
theorem not_forall_asks {calls : Nat → Lookup × Resolution α}
    (h : raw.Knows (calls 0).1 ∧ Valid raw (calls 0).2) :
    ¬ ∀ n, Asks raw (lookUp raw) (calls n).1 (calls n).2 (calls (n + 1)).1 (calls (n + 1)).2 := by
  intro hasks
  have hvalid : ∀ n, raw.Knows (calls n).1 ∧ Valid raw (calls n).2 := by
    intro n
    induction n with
    | zero => exact h
    | succ n ih =>
      obtain ⟨hcall, hvalid⟩ := (hasks n).calls ih.1 ih.2
      exact ⟨hcall.refers.knows ih.1, hvalid⟩
  -- the headroom goes down with every look-up, but it is a number
  have hheadroom : ∀ n, raw.headroom (calls n).1 (calls n).2.visiting + n ≤
      raw.headroom (calls 0).1 (calls 0).2.visiting := by
    intro n
    induction n with
    | zero => exact Nat.le_refl _
    | succ n ih =>
      have hlt := ((hasks n).calls (hvalid n).1 (hvalid n).2).1.headroom_lt (hvalid n).1
        (hvalid n).2.stacked
      omega
  have hlast := hheadroom (raw.headroom (calls 0).1 (calls 0).2.visiting + 1)
  omega

end Resolve

namespace RawResources

open Resolve

variable {α : Type} [Scalar α] {raw : RawResources α} {table : ResourceTable α}

theorem resolveWithin_eq {steps : Nat} (hsteps : 4 * (raw.keyCount + 1) ≤ steps) :
    raw.resolveWithin steps = (lookUpAll (lookUp raw) raw.lookups raw.start).1.map fun _ =>
      { (lookUpAll (lookUp raw) raw.lookups raw.start).2.table with styles := raw.styles } := by
  have halike := lookUpAll_alike hsteps (knows_of_mem_lookups raw)
  rw [← (halike raw.start (start_valid raw) rfl).1]
  rfl

/-- Whatever all look-ups come to, it is settled. -/
theorem settled_of_run {result : Except Failure Unit} {s : Resolution α}
    (h : lookUpAll (lookUp raw) raw.lookups raw.start = (result, s)) :
    Settled raw (fun _ => True) raw.start (result, s) := by
  rw [← h]
  exact lookUpAll_settled (knows_of_mem_lookups raw) (start_valid raw) rfl

/-- A table is what all look-ups have left behind. -/
theorem resolve_eq_ok_iff : raw.resolve = .ok table ↔
    ∃ s, lookUpAll (lookUp raw) raw.lookups raw.start = (.ok (), s) ∧
      table = { s.table with styles := raw.styles } := by
  rw [resolve, resolveWithin_eq (by unfold stepCount; omega)]
  rcases lookUpAll (lookUp raw) raw.lookups raw.start with ⟨e | ⟨⟩, s⟩
  · exact ⟨nofun, nofun⟩
  · constructor
    · intro h
      exact ⟨s, rfl, (Except.ok.inj h).symm⟩
    · rintro ⟨s', ⟨⟩, rfl⟩
      rfl

theorem resolve_eq_error_iff {e : Failure} : raw.resolve = .error e ↔
    ∃ s, lookUpAll (lookUp raw) raw.lookups raw.start = (.error e, s) := by
  rw [resolve, resolveWithin_eq (by unfold stepCount; omega)]
  rcases lookUpAll (lookUp raw) raw.lookups raw.start with ⟨e | ⟨⟩, s⟩
  · constructor
    · intro h
      exact ⟨s, by rw [Except.error.inj h]⟩
    · rintro ⟨s', ⟨⟩⟩
      rfl
  · exact ⟨nofun, nofun⟩

/-- With a table, every definition, and all that it refers to, denotes a value. -/
theorem exists_denotes_of_resolve (h : raw.resolve = .ok table) {l l' : Lookup}
    (hl : l ∈ raw.lookups) (hrefers : Relation.ReflTransGen raw.Refers l l') :
    ∃ v, raw.Denotes l' v := by
  obtain ⟨s, hrun, -⟩ := resolve_eq_ok_iff.1 h
  induction hrefers with
  | refl =>
    exact (answered_of_lookUpAll (knows_of_mem_lookups raw) (start_valid raw) rfl hrun l hl).1
  | tail _ hstep ih =>
    obtain ⟨v, hv⟩ := ih
    exact hv.unfolds.answers hstep

/-- A table has entries for the definitions, and the values that they denote. -/
theorem answer?_eq_some_iff (h : raw.resolve = .ok table) {l : Lookup} {v : l.Answer α} :
    table.answer? l = some v ↔ raw.Declares l ∧ raw.Denotes l v := by
  obtain ⟨s, hrun, rfl⟩ := resolve_eq_ok_iff.1 h
  have hvalid : Valid raw s := (settled_of_run hrun).valid
  have hanswer : ({ s.table with styles := raw.styles } : ResourceTable α).answer? l =
      s.table.answer? l := by
    cases l <;> rfl
  rw [hanswer]
  constructor
  · intro hv
    exact ⟨hvalid.declares l v hv, hvalid.denotes l v hv⟩
  · rintro ⟨hdeclares, hv⟩
    have hanswered := answered_of_lookUpAll (knows_of_mem_lookups raw) (start_valid raw) rfl hrun
    obtain ⟨w, hw⟩ := Option.isSome_iff_exists.1
      ((hanswered l (mem_lookups_of_declares hdeclares)).2 hdeclares)
    rw [hw, (hvalid.denotes l w hw).unique hv]

theorem theme_of_resolve (h : raw.resolve = .ok table) : table.theme = raw.themeName := by
  obtain ⟨s, hrun, rfl⟩ := resolve_eq_ok_iff.1 h
  exact (settled_of_run hrun).valid.theme

theorem styles_of_resolve (h : raw.resolve = .ok table) : table.styles = raw.styles := by
  obtain ⟨s, -, rfl⟩ := resolve_eq_ok_iff.1 h
  rfl

/-! ## Main statements -/

/-- Resolution comes to an end, and leaves nothing behind but its table. -/
structure Ends (raw : RawResources α) : Prop where
  /-- The bound on nested steps does not matter. -/
  bounded : ∀ steps, raw.stepCount ≤ steps → raw.resolveWithin steps = raw.resolve
  /-- Every look-up comes to what a step comes to that is answered by look-ups. -/
  unbounded : ∀ l s, Arises raw l s → lookUp raw l s = step raw (lookUp raw) l s
  /-- Look-ups are not nested for ever. -/
  finite : ∀ calls : Nat → Lookup × Resolution α, Arises raw (calls 0).1 (calls 0).2 →
    ¬ ∀ n, Asks raw (lookUp raw) (calls n).1 (calls n).2 (calls (n + 1)).1 (calls (n + 1)).2
  /-- No key is on the stack twice when a look-up is made. -/
  distinct : ∀ l s, Arises raw l s → s.visiting.Nodup
  /-- Nor is one put there twice: what is done under a key is done with a stack of different
  keys. -/
  guarded : ∀ l s, Arises raw l s → ∀ {β : Type} (key : String) (x x' : Resolve α β),
    (∀ t, t.visiting.Nodup → x t = x' t) → under key x s = under key x' s
  /-- A look-up leaves the stack as it was, whether it is answered or fails. -/
  restored : ∀ l s, Arises raw l s → (lookUp raw l s).2.visiting = s.visiting
  /-- Nothing that a definition refers to may depend on itself, nor the definition. -/
  acyclic : ∀ l l', l ∈ raw.lookups → Relation.ReflTransGen raw.Refers l l' →
    Relation.TransGen raw.Refers l' l' → ∃ e, raw.resolve = .error e
  /-- A failure names a reference that stands for nothing. -/
  failure : ∀ e, raw.resolve = .error e → e.IsUnresolved

/-- Resolution ends, whatever refers to whatever. -/
theorem resolve_ends (raw : RawResources α) : raw.Ends where
  bounded steps hsteps := by
    rw [resolve, resolveWithin_eq (by unfold stepCount at hsteps; omega),
      resolveWithin_eq (by unfold stepCount; omega)]
  unbounded l s h := lookUp_eq_step h.valid.1 h.valid.2
  finite calls h := not_forall_asks h.valid
  distinct l s h := h.valid.2.stacked.nodup
  guarded l s h _ key x x' hsame := under_eq_of_nodup key h.valid.2.stacked.nodup hsame
  restored l s h := (lookUp_settled h.valid.1 h.valid.2).visiting
  acyclic l l' hl hrefers hcycle := by
    -- with a table, all that the definition refers to denotes a value
    cases hresult : raw.resolve with
    | error e => exact ⟨e, rfl⟩
    | ok table =>
      obtain ⟨v, hv⟩ := exists_denotes_of_resolve hresult hl hrefers
      exact absurd hcycle hv.not_cyclic
  failure e h := by
    obtain ⟨s, hrun⟩ := resolve_eq_error_iff.1 h
    exact (settled_of_run hrun).failure e rfl

/-- The table has one entry for each definition, the value that it denotes. What else was in the
table when it was looked up does not matter. -/
theorem resolve_denotes (h : raw.resolve = .ok table) :
    (∀ l, (table.answer? l).isSome = true ↔ raw.Declares l) ∧
    (∀ l v, table.answer? l = some v → ∀ v', raw.Denotes l v' ↔ v' = v) ∧
    ∀ l s v, raw.Declares l → Valid raw s → (lookUp raw l s).1 = .ok v →
      table.answer? l = some v := by
  refine ⟨?_, ?_, ?_⟩
  · intro l
    rw [Option.isSome_iff_exists]
    constructor
    · rintro ⟨v, hv⟩
      exact ((answer?_eq_some_iff h).1 hv).1
    · intro hdeclares
      -- a table is only made when all that is declared has an answer
      obtain ⟨v, hv⟩ := exists_denotes_of_resolve h (mem_lookups_of_declares hdeclares) .refl
      exact ⟨v, (answer?_eq_some_iff h).2 ⟨hdeclares, hv⟩⟩
  · intro l v hv v'
    have hdenotes := ((answer?_eq_some_iff h).1 hv).2
    constructor
    · intro hv'
      exact hv'.unique hdenotes
    · rintro rfl
      exact hdenotes
  · intro l s v hdeclares hvalid hv
    have hknows := knows_of_mem_lookups raw l (mem_lookups_of_declares hdeclares)
    exact (answer?_eq_some_iff h).2 ⟨hdeclares, (lookUp_settled hknows hvalid).answer v hv⟩

end RawResources

namespace Sample

open RawResources

/-- References forward and backward, through the theme, and to a color that a state list hides. -/
def palette : RawResources ℚ where
  colors := .ofList [("accent", "@color/base"), ("base", "#102030"), ("surface", "?colorAccent"),
    ("tint", "#000000")]
  colorStates := .ofList [("tint", [(.highlighted, "?colorAccent"), (.normal, "@color/accent")])]
  dimens := .ofList [("gap", "@dimen/unit"), ("unit", "8dp")]
  styles := .singleton "AppTheme" { items := .singleton "colorAccent" "@color/base" }
  drawables := .ofList
    [("back", .layers ["@color/tint", "?colorAccent"]), ("card", .link "@drawable/back")]

theorem resolve_denotes_palette : ∃ table, palette.resolve = .ok table ∧
    (∀ c, palette.Denotes (.color "accent") c ↔ c = ⟨0x10, 0x20, 0x30, 0xff⟩) ∧
    ¬ palette.Declares (.color "tint") := by
  have hrun : palette.resolve.toOption.map (fun table => (table.colors.get? "accent",
      table.colors.get? "tint")) = some (some ⟨0x10, 0x20, 0x30, 0xff⟩, none) := by
    decide +kernel
  cases hresolve : palette.resolve with
  | error e =>
    rw [hresolve] at hrun
    cases hrun
  | ok table =>
    rw [hresolve] at hrun
    obtain ⟨haccent, htint⟩ := Prod.mk.inj (Option.some.inj hrun)
    obtain ⟨hentries, hvalues, -⟩ := resolve_denotes hresolve
    refine ⟨table, rfl, hvalues (.color "accent") _ haccent, fun hdeclares => ?_⟩
    have hsome := (hentries (.color "tint")).2 hdeclares
    rw [show table.answer? (.color "tint") = none from htint] at hsome
    cases hsome

/-- Two colors that refer to each other, once through the theme. -/
def circle : RawResources ℚ where
  colors := .ofList [("back", "@color/front"), ("front", "?attr/surface")]
  styles := .singleton "AppTheme" { items := .singleton "surface" "@color/back" }

theorem resolve_ends_circle : ∃ e, circle.resolve = .error e := by
  have hback : circle.Refers (.color "back") (.text .color "@color/front") := .color rfl rfl
  have hfront : circle.Refers (.text .color "@color/front") (.color "front") :=
    .toColor (ResourceTable.Lead.names_color.2 rfl)
  have hsurface : circle.Refers (.color "front") (.text .color "?attr/surface") := .color rfl rfl
  have htheme : circle.Refers (.text .color "?attr/surface") (.text .color "@color/back") :=
    .theme ⟨rfl, rfl⟩
  have hagain : circle.Refers (.text .color "@color/back") (.color "back") :=
    .toColor (ResourceTable.Lead.names_color.2 rfl)
  refine (resolve_ends circle).acyclic (.color "back") (.color "back") (by decide) .refl ?_
  exact .head hback (.head hfront (.head hsurface (.head htheme (.single hagain))))

end Sample

end LayoutCompiler
