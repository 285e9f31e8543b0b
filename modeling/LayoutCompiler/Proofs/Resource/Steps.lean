import LayoutCompiler.Proofs.Resource.Keys
import LayoutCompiler.Resource.Resolve
/-!
# Steps of resolution

A step starts from a table that holds only values that definitions denote, and from a stack of
keys; it leaves such a table and the same stack, and its answer is a denoted value. That, and what
it comes to, depends on nothing but the answers to the look-ups that it makes. `Alike` says both at
once, of two steps that come to the same, and has a rule for each way of putting steps together.

* `step_alike`: a step comes to the same for answers that agree where it makes look-ups.
* `answer?_of_step`: the answer for a definition is in the table afterwards.
-/

namespace LayoutCompiler

open RawResources ResourceTable.Lead

/-- A failure to find what a reference stands for, other than for want of steps. -/
def Failure.IsUnresolved (e : Failure) : Prop :=
  ∃ text fault, e = .reference text fault ∧ fault ≠ .circular []

theorem ResourceTable.isUnresolved_missing (kind : ResourceKind) (name : String) :
    (ResourceTable.missing kind name).IsUnresolved :=
  ⟨_, _, rfl, by simp⟩

theorem Theme.isUnresolved_of_attribute? {sheet : StyleSheet} {theme reference : String}
    {e : Failure} (h : Theme.attribute? sheet theme reference = .error e) : e.IsUnresolved := by
  unfold Theme.attribute? at h
  split at h
  · cases h
    exact ⟨_, _, rfl, by simp⟩
  · dsimp only at h
    split at h
    · cases h
    · cases h
      exact ⟨_, _, rfl, by simp⟩

namespace Resolve

variable {α β γ δ : Type}

/-! ## What steps come to -/

theorem bind_apply (x : Resolve α β) (f : β → Resolve α γ) (s : Resolution α) :
    (x >>= f) s = match x s with
      | (.ok v, s') => f v s'
      | (.error e, s') => (.error e, s') := by
  have hbind : (x >>= f) s = ExceptT.bindCont f (x s).1 (x s).2 := rfl
  rw [hbind]
  rcases x s with ⟨_ | _, s'⟩ <;> rfl

theorem get_apply (s : Resolution α) : (get : Resolve α (Resolution α)) s = (.ok s, s) := rfl

theorem liftM_apply (x : Outcome β) (s : Resolution α) : (liftM x : Resolve α β) s = (x, s) := by
  cases x <;> rfl

theorem throughTheme_apply (raw : RawResources α) (text : String) (follow : String → Resolve α β)
    (s : Resolution α) : throughTheme raw text follow s =
      match Theme.attribute? raw.styles s.table.theme text with
      | .ok target => under (Text.dropLeading '?' text) (follow target) s
      | .error e => (.error e, s) := by
  unfold throughTheme
  rw [bind_apply, get_apply]
  dsimp only
  rw [bind_apply, liftM_apply]
  cases Theme.attribute? raw.styles s.table.theme text <;> rfl

theorem recalled_apply (l : Lookup) (otherwise : Resolve α (l.Answer α)) (s : Resolution α) :
    recalled l otherwise s = match s.table.answer? l with
      | some v => (.ok v, s)
      | none => otherwise s := by
  unfold recalled
  rw [bind_apply, get_apply]
  dsimp only
  cases s.table.answer? l <;> rfl

/-- The state that a step starts in under a key. -/
def entered (key : String) (s : Resolution α) : Resolution α :=
  { s with visiting := s.visiting ++ [key] }

theorem under_apply (key : String) (step : Resolve α β) (s : Resolution α) :
    under key step s =
      if s.visiting.contains key then
        (.error (.reference ("@" ++ key) (.circular (s.visiting ++ [key]))), s)
      else
        ((step (entered key s)).1,
          { (step (entered key s)).2 with
            visiting := (step (entered key s)).2.visiting.dropLast }) :=
  rfl

/-- What is done under a key matters only with a stack of different keys. -/
theorem under_eq_of_nodup (key : String) {x x' : Resolve α β} {s : Resolution α}
    (hstack : s.visiting.Nodup) (h : ∀ t, t.visiting.Nodup → x t = x' t) :
    under key x s = under key x' s := by
  rw [under_apply, under_apply]
  split
  · rfl
  · rename_i hfresh
    have hentered : (entered key s).visiting.Nodup := by
      have hfresh : key ∉ s.visiting := by simpa using hfresh
      refine List.nodup_append.2 ⟨hstack, by simp, ?_⟩
      rintro key' hkey' _ hkey rfl
      exact hfresh (List.mem_singleton.1 hkey ▸ hkey')
    rw [h _ hentered]

/-! ## What stays in the table -/

theorem answer?_of_recalled {l : Lookup} {otherwise : Resolve α (l.Answer α)} {v : l.Answer α}
    {s s' : Resolution α} (h : recalled l otherwise s = (.ok v, s'))
    (hkept : otherwise s = (.ok v, s') → s'.table.answer? l = some v) :
    s'.table.answer? l = some v := by
  rw [recalled_apply] at h
  cases hanswer : s.table.answer? l with
  | none =>
    rw [hanswer] at h
    exact hkept h
  | some w =>
    rw [hanswer] at h
    cases h
    exact hanswer

theorem answer?_of_defined {l : Lookup} {kind : ResourceKind} {name : String}
    {definition : Option δ} {resolve : δ → Resolve α (l.Answer α)} {v : l.Answer α}
    {s s' : Resolution α} (hnamed : l.isNamed = true)
    (h : defined l kind name definition resolve s = (.ok v, s')) :
    s'.table.answer? l = some v := by
  cases definition with
  | none => cases h
  | some d =>
    unfold defined at h
    dsimp only at h
    rw [bind_apply] at h
    rcases hout : Resolve.under (kind.key name) (resolve d) s with ⟨e | w, s''⟩
    · rw [hout] at h
      cases h
    · rw [hout] at h
      cases h
      exact ResourceTable.answer?_store_self _ _ hnamed

/-! ## The rules -/

variable [Scalar α] {raw : RawResources α} {stack : List String} {s : Resolution α}

variable (raw) in
/-- The table holds only values that definitions denote, and the stack only keys of the
resources, each of them once. -/
structure Valid (s : Resolution α) : Prop where
  theme : s.table.theme = raw.themeName
  declares : ∀ l v, s.table.answer? l = some v → raw.Declares l
  denotes : ∀ l v, s.table.answer? l = some v → raw.Denotes l v
  stacked : raw.Stacked s.visiting

theorem Valid.entered {key : String} (h : Valid raw s) (hkey : key ∈ raw.stackKeys)
    (hfresh : key ∉ s.visiting) : Valid raw (entered key s) :=
  { h with stacked := h.stacked.append (RawResources.stacked_singleton hkey) (by simpa) }

variable (raw) in
/-- A step from a state leaves the stack as it was, and a table with no fewer entries; its answer
is as is wanted, and its failure names a reference. -/
structure Settled (wanted : β → Prop) (s : Resolution α)
    (out : Except Failure β × Resolution α) : Prop where
  visiting : out.2.visiting = s.visiting
  valid : Valid raw out.2
  keeps : ∀ l v, s.table.answer? l = some v → out.2.table.answer? l = some v
  answer : ∀ v, out.1 = .ok v → wanted v
  failure : ∀ e, out.1 = .error e → e.IsUnresolved

variable {wanted : β → Prop} {wanted' : γ → Prop} {x x' : Resolve α β} {f f' : β → Resolve α γ}

/-- An answer that leaves the state as it was. -/
theorem Settled.answered {v : β} (hvalid : Valid raw s) (h : wanted v) :
    Settled raw wanted s (.ok v, s) where
  visiting := rfl
  valid := hvalid
  keeps _ _ hanswer := hanswer
  answer _ heq := Except.ok.inj heq ▸ h
  failure := nofun

/-- A failure that leaves the state as it was. -/
theorem Settled.failed {e : Failure} (hvalid : Valid raw s) (h : e.IsUnresolved) :
    Settled raw wanted s (.error e, s) where
  visiting := rfl
  valid := hvalid
  keeps _ _ hanswer := hanswer
  answer := nofun
  failure _ heq := Except.error.inj heq ▸ h

theorem Settled.trans {result : Except Failure β} {s' : Resolution α}
    {out : Except Failure γ × Resolution α} (h : Settled raw wanted s (result, s'))
    (h' : Settled raw wanted' s' out) : Settled raw wanted' s out where
  visiting := h'.visiting.trans h.visiting
  valid := h'.valid
  keeps l v hanswer := h'.keeps l v (h.keeps l v hanswer)
  answer := h'.answer
  failure := h'.failure

variable (raw stack) in
/-- Two steps come to the same, and settle, from every valid state with the given stack. -/
def Alike (wanted : β → Prop) (x x' : Resolve α β) : Prop :=
  ∀ s, Valid raw s → s.visiting = stack → x' s = x s ∧ Settled raw wanted s (x s)

theorem Alike.pure {v : β} (h : wanted v) : Alike raw stack wanted (pure v) (pure v) := by
  intro s hvalid _
  exact ⟨rfl, .answered hvalid h⟩

theorem Alike.throw {e : Failure} (h : e.IsUnresolved) :
    Alike raw stack wanted (throw e) (throw e) := by
  intro s hvalid _
  exact ⟨rfl, .failed hvalid h⟩

theorem Alike.bind (hx : Alike raw stack wanted x x')
    (hf : ∀ v, wanted v → Alike raw stack wanted' (f v) (f' v)) :
    Alike raw stack wanted' (x >>= f) (x' >>= f') := by
  -- the second step starts from what the first one leaves, which is valid with the same stack
  intro s hvalid hstack
  obtain ⟨hsame, hsettled⟩ := hx s hvalid hstack
  rw [bind_apply, bind_apply, hsame]
  rcases hout : x s with ⟨e | v, s'⟩ <;> rw [hout] at hsettled
  · exact ⟨rfl, hsettled.trans (.failed hsettled.valid (hsettled.failure e rfl))⟩
  · have hstack' : s'.visiting = stack := hsettled.visiting.trans hstack
    obtain ⟨hsame', hsettled'⟩ := hf v (hsettled.answer v rfl) s' hsettled.valid hstack'
    exact ⟨hsame', hsettled.trans hsettled'⟩

theorem Alike.mono {wanted' : β → Prop} (hle : ∀ v, wanted v → wanted' v)
    (h : Alike raw stack wanted x x') : Alike raw stack wanted' x x' := by
  intro s hvalid hstack
  obtain ⟨hsame, hsettled⟩ := h s hvalid hstack
  exact ⟨hsame, { hsettled with answer := fun v heq => hle v (hsettled.answer v heq) }⟩

/-- A step under a key has to be looked at only where the key is not on the stack. -/
theorem Alike.under {key : String} (hkey : key ∈ raw.stackKeys)
    (h : key ∉ stack → Alike raw (stack ++ [key]) wanted x x') :
    Alike raw stack wanted (under key x) (under key x') := by
  intro s hvalid hstack
  rw [under_apply, under_apply]
  split
  · exact ⟨rfl, .failed hvalid ⟨_, _, rfl, by simp⟩⟩
  · rename_i hfresh
    have hfresh : key ∉ s.visiting := by simpa using hfresh
    have hentered := hvalid.entered hkey hfresh
    have hvisited : (entered key s).visiting = stack ++ [key] := by rw [entered, hstack]
    -- the step leaves the stack as it found it, so what is taken off is the key
    obtain ⟨hsame, hsettled⟩ := h (hstack ▸ hfresh) (entered key s) hentered hvisited
    rw [hsame]
    have hvisiting : (x (entered key s)).2.visiting.dropLast = s.visiting := by
      rw [hsettled.visiting, entered, List.dropLast_concat]
    refine ⟨rfl, hvisiting, ?_, hsettled.keeps, hsettled.answer, hsettled.failure⟩
    exact { hsettled.valid with stacked := hvisiting ▸ hvalid.stacked }

theorem Alike.throughTheme {text : String} {follow follow' : String → Resolve α β}
    (hkey : Text.dropLeading '?' text ∈ raw.stackKeys)
    (h : ∀ target, Theme.attribute? raw.styles raw.themeName text = .ok target →
      Text.dropLeading '?' text ∉ stack →
        Alike raw (stack ++ [Text.dropLeading '?' text]) wanted (follow target) (follow' target)) :
    Alike raw stack wanted (throughTheme raw text follow) (throughTheme raw text follow') := by
  intro s hvalid hstack
  rw [throughTheme_apply, throughTheme_apply, hvalid.theme]
  cases hfollows : Theme.attribute? raw.styles raw.themeName text with
  | error e => exact ⟨rfl, .failed hvalid (Theme.isUnresolved_of_attribute? hfollows)⟩
  | ok target => exact Alike.under hkey (h target hfollows) s hvalid hstack

variable {l : Lookup}

theorem Alike.recalled {x x' : Resolve α (l.Answer α)}
    (h : Alike raw stack (raw.Denotes l) x x') :
    Alike raw stack (raw.Denotes l) (recalled l x) (recalled l x') := by
  intro s hvalid hstack
  rw [recalled_apply, recalled_apply]
  cases hanswer : s.table.answer? l with
  | none => exact h s hvalid hstack
  | some v => exact ⟨rfl, .answered hvalid (hvalid.denotes l v hanswer)⟩

theorem Alike.keep {v : l.Answer α} (hnamed : l.isNamed = true) (hdeclares : raw.Declares l)
    (h : raw.Denotes l v) : Alike raw stack (fun _ => True) (keep l v) (keep l v) := by
  intro s hvalid _
  -- every entry of the new table is one of the old table, or the value that is kept
  have hentry : ∀ l' v', (s.table.store l v).answer? l' = some v' →
      s.table.answer? l' = some v' ∨ l' = l ∧ HEq v' v := by
    intro l' v' hanswer
    by_cases hl : l = l'
    · subst hl
      rw [ResourceTable.answer?_store_self _ _ hnamed] at hanswer
      exact Or.inr ⟨rfl, heq_of_eq (Option.some.inj hanswer).symm⟩
    · rw [ResourceTable.answer?_store_of_ne _ _ hl] at hanswer
      exact Or.inl hanswer
  refine ⟨rfl, rfl, ⟨(ResourceTable.theme_store _ _ _).trans hvalid.theme, ?_, ?_,
    hvalid.stacked⟩, ?_, fun _ _ => trivial, nofun⟩
  · intro l' v' hanswer
    rcases hentry l' v' hanswer with hold | ⟨rfl, -⟩
    · exact hvalid.declares l' v' hold
    · exact hdeclares
  · intro l' v' hanswer
    rcases hentry l' v' hanswer with hold | ⟨rfl, hv⟩
    · exact hvalid.denotes l' v' hold
    · exact eq_of_heq hv ▸ h
  · intro l' v' hanswer
    by_cases hl : l = l'
    · subst hl
      -- an entry is written again with the one value that it can have
      rw [(hvalid.denotes l v' hanswer).unique h]
      exact ResourceTable.answer?_store_self _ _ hnamed
    · exact (ResourceTable.answer?_store_of_ne _ _ hl).trans hanswer

theorem Alike.defined {kind : ResourceKind} {name : String} {definition : Option δ}
    {resolve resolve' : δ → Resolve α (l.Answer α)} (hnamed : l.isNamed = true)
    (hdeclares : ∀ d, definition = some d → raw.Declares l)
    (hkey : ∀ d, definition = some d → kind.key name ∈ raw.stackKeys)
    (h : ∀ d, definition = some d → kind.key name ∉ stack →
      Alike raw (stack ++ [kind.key name]) (raw.Denotes l) (resolve d) (resolve' d)) :
    Alike raw stack (raw.Denotes l) (defined l kind name definition resolve)
      (defined l kind name definition resolve') := by
  cases definition with
  | none => exact .throw (ResourceTable.isUnresolved_missing kind name)
  | some d =>
    refine .bind (.under (hkey d rfl) (h d rfl)) fun v hv => ?_
    exact .bind (.keep hnamed (hdeclares d rfl) hv) fun _ _ => .pure hv

/-- Steps for the members of a list give the list of their answers. -/
theorem Alike.mapM {r : δ → β → Prop} {f f' : δ → Resolve α β} {ds : List δ}
    (h : ∀ d ∈ ds, Alike raw stack (r d) (f d) (f' d)) :
    Alike raw stack (List.Forall₂ r ds) (ds.mapM f) (ds.mapM f') := by
  induction ds with
  | nil => exact .pure .nil
  | cons d ds ih =>
    rw [List.mapM_cons, List.mapM_cons]
    refine .bind (h d List.mem_cons_self) fun v hv => ?_
    exact .bind (ih fun d hd => h d (List.mem_cons_of_mem _ hd)) fun vs hvs => .pure (.cons hv hvs)

/-- A step for a part that may be missing. -/
theorem Alike.mapM? {r : δ → β → Prop} {f f' : δ → Resolve α β} {d : Option δ}
    (h : ∀ d', d = some d' → Alike raw stack (r d') (f d') (f' d')) :
    Alike raw stack (Option.Rel r d) (d.mapM f) (d.mapM f') := by
  cases d with
  | none => exact .pure .none
  | some d => exact .bind (h d rfl) fun v hv => .pure (.some hv)

/-! ## Steps for names -/

variable (raw) in
/-- Answers agree, and settle, wherever a look-up makes others. -/
def AlikeBelow (l : Lookup) (stack : List String) (ask ask' : Answers α) : Prop :=
  ∀ l' stack', raw.Calls l stack l' stack' → Alike raw stack' (raw.Denotes l') (ask l') (ask' l')

variable {ask ask' : Answers α}

theorem selector_alike {need : Need} {kind : ResourceKind} {name : String} {items : RawSelector}
    (h : ∀ item ∈ items, Alike raw stack (raw.Denotes (.text need item.2))
      (ask (.text need item.2)) (ask' (.text need item.2))) :
    Alike raw stack
      (fun states => ∃ values, List.Forall₂
        (fun item value => value.1 = item.1 ∧ raw.Denotes (.text need item.2) value.2)
        items values ∧ Selector.ofItems? values = some states)
      (selector ask need kind name items) (selector ask' need kind name items) := by
  refine .bind (?_ : Alike raw stack (List.Forall₂ (fun item value =>
    value.1 = item.1 ∧ raw.Denotes (.text need item.2) value.2) items) _ _) fun values hvalues => ?_
  · exact .mapM fun item hmem => .bind (h item hmem) fun v hv => .pure ⟨rfl, hv⟩
  · cases hstates : Selector.ofItems? values with
    | none => exact .throw ⟨_, _, rfl, by simp⟩
    | some states => exact .pure ⟨values, hvalues, hstates⟩

theorem color_alike {name : String} (h : AlikeBelow raw (.color name) stack ask ask') :
    Alike raw stack (raw.Denotes (.color name)) (color raw ask name) (color raw ask' name) := by
  refine .recalled ?_
  split
  · rename_i hhidden
    refine .bind (h _ stack ((Refers.hidden hhidden).calls (by simp [pushed, hhidden])))
      fun states hstates => ?_
    exact .pure (Unfolds.denotes (.hidden hhidden hstates))
  · rename_i hplain
    rw [Bool.not_eq_true] at hplain
    refine .defined rfl (fun text htext => ?_) (fun text htext => ?_) fun text htext hfresh => ?_
    · exact ⟨SortedMap.contains_iff.2 ⟨text, htext⟩, hplain⟩
    · exact key_mem_stackKeys .color htext (by simp [keyLists])
    · have hcall :=
        (Refers.color hplain htext).calls_under (by simp [pushed, hplain]) hfresh
      exact .mono (fun c hc => Unfolds.denotes (.color hplain htext hc)) (h _ _ hcall)

theorem colorState_alike {name : String} (h : AlikeBelow raw (.colorState name) stack ask ask') :
    Alike raw stack (raw.Denotes (.colorState name)) (colorState raw ask name)
      (colorState raw ask' name) := by
  refine .recalled (.defined rfl (fun items hitems => ?_) (fun items hitems => ?_)
    fun items hitems hfresh => ?_)
  · exact SortedMap.contains_iff.2 ⟨items, hitems⟩
  · exact key_mem_stackKeys .color hitems (by simp [keyLists])
  · refine .mono ?_ (selector_alike fun item hmem =>
      h _ _ ((Refers.item hitems hmem).calls_under rfl hfresh))
    rintro states ⟨values, hvalues, hstates⟩
    exact Unfolds.denotes (.colorState hitems hvalues hstates)

theorem dimen_alike {name : String} (h : AlikeBelow raw (.dimen name) stack ask ask') :
    Alike raw stack (raw.Denotes (.dimen name)) (dimen raw ask name) (dimen raw ask' name) := by
  refine .recalled (.defined rfl (fun text htext => ?_) (fun text htext => ?_)
    fun text htext hfresh => ?_)
  · exact SortedMap.contains_iff.2 ⟨text, htext⟩
  · exact key_mem_stackKeys .dimen htext (by simp [keyLists])
  · exact .mono (fun d hd => Unfolds.denotes (.dimen htext hd))
      (h _ _ ((Refers.dimen htext).calls_under rfl hfresh))

theorem string_alike {name : String} (h : AlikeBelow raw (.string name) stack ask ask') :
    Alike raw stack (raw.Denotes (.string name)) (string raw ask name) (string raw ask' name) := by
  refine .recalled (.defined rfl (fun text htext => ?_) (fun text htext => ?_)
    fun text htext hfresh => ?_)
  · exact SortedMap.contains_iff.2 ⟨text, htext⟩
  · exact key_mem_stackKeys .string htext (by simp [keyLists])
  · cases htarget : Text.stripLead? "@string/" text with
    | none =>
      refine .pure (Unfolds.denotes (.string htext fun target hnames => ?_))
      exact Text.stripLead?_eq_none_iff.1 htarget target (names_string.1 hnames)
    | some target =>
      have hnames := names_string.2 (Text.stripLead?_eq_some_iff.1 htarget)
      exact .mono (fun s hs => Unfolds.denotes (.toString htext hnames hs))
        (h _ _ ((Refers.string htext hnames).calls_under rfl hfresh))

theorem face_alike {m : RawMember}
    (h : Alike raw stack (raw.Denotes (.font m.target)) (ask (.font m.target))
      (ask' (.font m.target))) :
    Alike raw stack (fun face => ∃ f, raw.Denotes (.font m.target) (.face f) ∧ face = m.face f)
      (face ask m) (face ask' m) := by
  refine .bind h fun font hfont => ?_
  cases font with
  | face f => exact .pure ⟨f, hfont, rfl⟩
  | family => exact .throw ⟨_, _, rfl, by simp⟩

theorem font_alike {name : String} (h : AlikeBelow raw (.font name) stack ask ask') :
    Alike raw stack (raw.Denotes (.font name)) (font raw ask name) (font raw ask' name) := by
  refine .recalled (.defined rfl (fun d hdef => ?_) (fun d hdef => ?_) fun d hdef hfresh => ?_)
  · exact SortedMap.contains_iff.2 ⟨d, hdef⟩
  · exact key_mem_stackKeys .font hdef (by simp [keyLists])
  · cases d with
    | file file => exact .pure (Unfolds.denotes (.file hdef))
    | family members =>
      refine .bind (.mapM fun m hmem => face_alike (h _ _ ?_)) fun faces hfaces =>
        .pure (Unfolds.denotes (.family hdef hfaces))
      exact (Refers.member hdef hmem).calls_under rfl hfresh

theorem build_alike {name : String} {d : RawDrawable α}
    (hdef : raw.drawables.get? name = some d)
    (hpaint : ∀ text ∈ d.paints, Alike raw stack (raw.Denotes (.text .paint text))
      (ask (.text .paint text)) (ask' (.text .paint text)))
    (hlength : ∀ text ∈ d.lengths, Alike raw stack (raw.Denotes (.text .length text))
      (ask (.text .length text)) (ask' (.text .length text))) :
    Alike raw stack (raw.Denotes (.drawable name)) (build ask name d) (build ask' name d) := by
  cases d with
  | image file => exact .pure (Unfolds.denotes (.image hdef))
  | vector file => exact .pure (Unfolds.denotes (.vector hdef))
  | shape form =>
    -- the parts in the order in which they are resolved
    refine .bind (.mapM? fun text htext => hpaint text ?_) fun solid hsolid => ?_
    · simp [RawDrawable.paints, RawShape.paints, htext]
    refine .bind (.mapM? fun text htext => hpaint text ?_) fun strokeColor hstrokeColor => ?_
    · simp [RawDrawable.paints, RawShape.paints, htext]
    refine .bind (.mapM? fun text htext => hlength text ?_) fun strokeWidth hstrokeWidth => ?_
    · simp [RawDrawable.lengths, RawShape.lengths, htext]
    refine .bind (.mapM? fun text htext => hlength text ?_) fun cornerRadius hcornerRadius => ?_
    · simp [RawDrawable.lengths, RawShape.lengths, htext]
    refine .bind (?_ : Alike raw stack (Option.Rel (fun g g' =>
      raw.Denotes (.text .paint g.start) g'.start ∧
        raw.Denotes (.text .paint g.finish) g'.finish ∧ g'.angle = g.angle) form.gradient) _ _)
      fun gradient hgradient => ?_
    · refine .mapM? fun g hg => .bind (hpaint g.start ?_) fun start hstart => ?_
      · simp [RawDrawable.paints, RawShape.paints, hg]
      refine .bind (hpaint g.finish ?_) fun finish hfinish => .pure ⟨hstart, hfinish, rfl⟩
      simp [RawDrawable.paints, RawShape.paints, hg]
    · have hmagnitude : ∀ text (d : Dimension α), raw.Denotes (.text .length text) d →
          ∃ d', raw.Denotes (.text .length text) d' ∧ d.magnitude = d'.magnitude :=
        fun _ d hd => ⟨d, hd, rfl⟩
      exact .pure (Unfolds.denotes (.shape hdef
        { outline := rfl
          solid := hsolid
          strokeColor := hstrokeColor
          strokeWidth := rel_map hmagnitude hstrokeWidth
          cornerRadius := rel_map hmagnitude hcornerRadius
          gradient := hgradient }))
  | layers texts =>
    exact .bind (.mapM hpaint) fun ds hds => .pure (Unfolds.denotes (.layers hdef hds))
  | selector items =>
    refine .bind (selector_alike fun item hmem => hpaint _ (List.mem_map_of_mem hmem)) ?_
    rintro states ⟨values, hvalues, hstates⟩
    exact .pure (Unfolds.denotes (.selector hdef hvalues hstates))
  | link target =>
    exact .bind (hpaint _ List.mem_cons_self) fun d hd => .pure (Unfolds.denotes (.link hdef hd))

theorem drawable_alike {name : String} (h : AlikeBelow raw (.drawable name) stack ask ask') :
    Alike raw stack (raw.Denotes (.drawable name)) (drawable raw ask name)
      (drawable raw ask' name) := by
  refine .recalled (.defined rfl (fun d hdef => ?_) (fun d hdef => ?_) fun d hdef hfresh => ?_)
  · exact SortedMap.contains_iff.2 ⟨d, hdef⟩
  · exact key_mem_stackKeys .drawable hdef (by simp [keyLists])
  · apply build_alike hdef
    · intro text hmem
      exact h _ _ ((Refers.paint hdef hmem).calls_under rfl hfresh)
    · intro text hmem
      exact h _ _ ((Refers.length hdef hmem).calls_under rfl hfresh)

/-! ## Steps for texts -/

theorem throughTheme_alike {need : Need} {text : String} (hknows : raw.Knows (.text need text))
    (htheme : Text.leads "?" (Text.trim text) = true)
    (h : AlikeBelow raw (.text need text) stack ask ask') :
    Alike raw stack (raw.Denotes (.text need text))
      (throughTheme raw (Text.trim text) fun target => ask (.text need target))
      (throughTheme raw (Text.trim text) fun target => ask' (.text need target)) := by
  have hpushed : raw.pushed (.text need text) = [Text.dropLeading '?' (Text.trim text)] :=
    pushed_of_theme htheme
  refine .throughTheme (themeKey_mem_stackKeys hknows (by simp [hpushed]))
    fun target htarget hfresh => ?_
  have hfollows : raw.Follows text target := ⟨htheme, htarget⟩
  exact .mono (fun v hv => Unfolds.denotes (.theme hfollows hv))
    (h _ _ ((Refers.theme hfollows).calls_under hpushed hfresh))

theorem colorText_alike {text : String} (hknows : raw.Knows (.text .color text))
    (h : AlikeBelow raw (.text .color text) stack ask ask') :
    Alike raw stack (raw.Denotes (.text .color text)) (colorText raw ask text)
      (colorText raw ask' text) := by
  -- as the text is told apart: the theme, a literal, the platform, a name
  unfold colorText
  dsimp only
  split
  · rename_i htheme
    exact throughTheme_alike hknows htheme h
  · rename_i htheme
    rw [Bool.not_eq_true] at htheme
    split
    · cases hread : Color.read? (Text.trim text) with
      | none => exact .throw ⟨_, _, rfl, by simp⟩
      | some c => exact .pure (Unfolds.denotes (.constant (Or.inl hread)))
    · split
      · rename_i name hname
        cases hplatform : Color.platform? name with
        | none => exact .throw ⟨_, _, rfl, by simp⟩
        | some c =>
          have hnames := names_platformColor.2 (Text.stripLead?_eq_some_iff.1 hname)
          exact .pure (Unfolds.denotes (.constant (Or.inr ⟨name, hnames, hplatform⟩)))
      · split
        · rename_i name hname
          have hnames := names_color.2 (Text.stripLead?_eq_some_iff.1 hname)
          exact .mono (fun c hc => Unfolds.denotes (.toColor hnames hc))
            (h _ _ ((Refers.toColor hnames).calls (pushed_of_not_theme htheme)))
        · exact .throw ⟨_, _, rfl, by simp⟩

theorem lengthText_alike {text : String} (hknows : raw.Knows (.text .length text))
    (h : AlikeBelow raw (.text .length text) stack ask ask') :
    Alike raw stack (raw.Denotes (.text .length text)) (lengthText raw ask text)
      (lengthText raw ask' text) := by
  unfold lengthText
  dsimp only
  split
  · rename_i name hname
    have hnames := names_dimen.2 (Text.stripLead?_eq_some_iff.1 hname)
    exact .mono (fun d hd => Unfolds.denotes (.toDimen hnames hd))
      (h _ _ ((Refers.toDimen hnames).calls (pushed_of_not_theme hnames.not_theme)))
  · split
    · rename_i htheme
      exact throughTheme_alike hknows htheme h
    · cases hliteral : (Dimension.literal? (Text.trim text) : Option (Dimension α)) with
      | none => exact .throw ⟨_, _, rfl, by simp⟩
      | some d => exact .pure (Unfolds.denotes (.literal hliteral))

theorem paint_alike {text : String} (hknows : raw.Knows (.text .paint text))
    (h : AlikeBelow raw (.text .paint text) stack ask ask') :
    Alike raw stack (raw.Denotes (.text .paint text)) (paint raw ask text)
      (paint raw ask' text) := by
  unfold paint
  dsimp only
  split
  · rename_i htheme
    exact throughTheme_alike hknows htheme h
  · rename_i htheme
    rw [Bool.not_eq_true] at htheme
    have hpushed : raw.pushed (.text .paint text) = [] := pushed_of_not_theme htheme
    split
    · rename_i name hname
      have hnames : Names (Text.trim text) .drawable name := by
        rw [names_drawable]
        rcases Option.or_eq_some_iff.1 hname with hname | ⟨-, hname⟩
        · exact Or.inl (Text.stripLead?_eq_some_iff.1 hname)
        · exact Or.inr (Text.stripLead?_eq_some_iff.1 hname)
      exact .mono (fun d hd => Unfolds.denotes (.toDrawable hnames hd))
        (h _ _ ((Refers.toDrawable hnames).calls hpushed))
    · rename_i hdrawable
      split
      · rename_i name hname
        have hnames := names_color.2 (Text.stripLead?_eq_some_iff.1 hname)
        split
        · rename_i hstates
          refine .bind (h _ _ ((Refers.paintState hnames hstates).calls hpushed))
            fun states hv => ?_
          exact .pure (Unfolds.denotes (.paintState hnames hstates hv))
        · rename_i hstates
          rw [Bool.not_eq_true] at hstates
          refine .bind (h _ _ ((Refers.paintColor hnames hstates).calls hpushed)) fun c hc => ?_
          exact .pure (Unfolds.denotes (.paintColor hnames hstates hc))
      · rename_i hcolor
        -- all leads of drawables and colors have been tried
        have hplain : IsPlainPaint (Text.trim text) := by
          refine ⟨htheme, fun name hnames => ?_, fun name hnames => ?_⟩
          · obtain ⟨hnone, hnone'⟩ := Option.or_eq_none_iff.1 hdrawable
            rcases names_drawable.1 hnames with hname | hname
            · exact Text.stripLead?_eq_none_iff.1 hnone name hname
            · exact Text.stripLead?_eq_none_iff.1 hnone' name hname
          · exact Text.stripLead?_eq_none_iff.1 hcolor name (names_color.1 hnames)
        refine .bind (h _ _ ((Refers.paintPlain hplain).calls hpushed)) fun c hc => ?_
        exact .pure (Unfolds.denotes (.paintPlain hplain hc))

/-- A step comes to the same, and settles, for answers that do so where it makes look-ups. -/
theorem step_alike {l : Lookup} (hknows : raw.Knows l) (h : AlikeBelow raw l stack ask ask') :
    Alike raw stack (raw.Denotes l) (step raw ask l) (step raw ask' l) := by
  cases l with
  | color name => exact color_alike h
  | colorState name => exact colorState_alike h
  | dimen name => exact dimen_alike h
  | string name => exact string_alike h
  | drawable name => exact drawable_alike h
  | font name => exact font_alike h
  | text need text =>
    cases need with
    | color =>
      rw [step, step]
      exact colorText_alike hknows h
    | length =>
      rw [step, step]
      exact lengthText_alike hknows h
    | paint =>
      rw [step, step]
      exact paint_alike hknows h

/-- The answer for a definition is in the table afterwards. -/
theorem answer?_of_step {l : Lookup} {v : l.Answer α} {s s' : Resolution α}
    (hdeclares : raw.Declares l) (h : step raw ask l s = (.ok v, s')) :
    s'.table.answer? l = some v := by
  cases l with
  | color name =>
    refine answer?_of_recalled h fun h => ?_
    rw [if_neg (by simp [hdeclares.2])] at h
    exact answer?_of_defined rfl h
  | text => cases hdeclares
  | _ => exact answer?_of_recalled h fun h => answer?_of_defined rfl h

end Resolve

end LayoutCompiler
