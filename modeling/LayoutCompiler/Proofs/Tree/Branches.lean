import LayoutCompiler.Proofs.Tree.Entries
import Mathlib.Data.List.Induction
/-!
# Branches

What stands below a node, taken without links, is a branch. Writing at the end of a path is a
function of branches: on each level the first branch that the step leads to is changed, and there is
a new one when there is none.

* `Branch.write`: writing at the end of a path.
* `Branch.mem_entries_after`, `Branch.mem_entries_after_of_last`: which entries come of writing.
* `Branch.read?_after_of_last`: where they are found.
* `Branch.foldl_graft`: branches that are found by different steps do not mix.
-/

namespace LayoutCompiler

/-- What stands below a node, without links. -/
structure Branch where
  name : String
  attributes : List (String × String)
  children : List Branch

/-- A text that is written under a key, where the steps of a path lead. -/
structure Writing where
  steps : List PathStep
  key : String
  text : String

/-- Whether no branch is what both steps lead to. -/
def PathStep.parts (step step' : PathStep) : Bool :=
  step.name != step'.name ||
    match step.key, step'.key with
    | some (key, value), some (key', value') => key == key' && value != value'
    | _, _ => false

/-- Whether paths go apart at some step. -/
def PathStep.diverge (steps steps' : List PathStep) : Bool :=
  (steps.zip steps').any fun x => x.1.parts x.2

namespace Branch

/-- Whether a branch is what a step of a path leads to. -/
def fits (b : Branch) (step : PathStep) : Bool :=
  Tree.fits { name := b.name, attributes := b.attributes } step

/-- The branch that a step creates. -/
def fresh (step : PathStep) : Branch :=
  { name := step.name, attributes := step.key.toList, children := [] }

/-- Branches of which the first one that a step leads to is changed: a new one at the end when
there is none. -/
def graft (step : PathStep) (f : Branch → Branch) : List Branch → List Branch
  | [] => [f (fresh step)]
  | b :: bs => if b.fits step then f b :: bs else b :: graft step f bs

/-- A branch with a text written under a key where steps lead. -/
def write (key text : String) : List PathStep → Branch → Branch
  | [], b => { b with attributes := setEntry key text b.attributes }
  | step :: steps, b => { b with children := graft step (write key text steps) b.children }

/-- A branch after several writings, one after the other. -/
def after (b : Branch) (ws : List Writing) : Branch :=
  ws.foldl (fun b w => b.write w.key w.text w.steps) b

/-- The text under a key where steps lead: each to the first branch that fits. -/
def read? (key : String) : List PathStep → Branch → Option String
  | [], b => b.attributes.lookup key
  | step :: steps, b => (b.children.find? (·.fits step)).bind (read? key steps)

mutual

/-- All attributes in a branch. -/
def entries : Branch → List (String × String)
  | ⟨_, attributes, children⟩ => attributes ++ entriesOf children

/-- All attributes in several branches. -/
def entriesOf : List Branch → List (String × String)
  | [] => []
  | b :: bs => b.entries ++ entriesOf bs

end

variable {b : Branch} {bs : List Branch} {step step' : PathStep} {steps : List PathStep}
  {f : Branch → Branch} {key text : String} {entry : String × String}

theorem entries_eq (b : Branch) : b.entries = b.attributes ++ entriesOf b.children := by
  cases b
  rfl

theorem mem_entriesOf : entry ∈ entriesOf bs ↔ ∃ b ∈ bs, entry ∈ b.entries := by
  induction bs with
  | nil => simp [entriesOf]
  | cons b bs ih => simp [entriesOf, ih]

theorem mem_entries_fresh : entry ∈ (fresh step).entries ↔ step.key = some entry := by
  simp [entries_eq, fresh, entriesOf]

/-! ## Grafting -/

/-- A step passes the branches that it does not lead to. -/
theorem graft_append {passed : List Branch} (h : ∀ b ∈ passed, b.fits step = false)
    (f : Branch → Branch) (bs : List Branch) :
    graft step f (passed ++ bs) = passed ++ graft step f bs := by
  induction passed with
  | nil => rfl
  | cons b passed ih =>
    obtain ⟨hb, hpassed⟩ := List.forall_mem_cons.1 h
    rw [List.cons_append, graft, hb, if_neg Bool.false_ne_true, ih hpassed]
    rfl

/-- What is there afterwards was there, or comes of one branch. -/
theorem mem_graft (h : b ∈ graft step f bs) :
    b ∈ bs ∨ ∃ b', (b' ∈ bs ∨ b' = fresh step) ∧ b = f b' := by
  induction bs with
  | nil => exact Or.inr ⟨_, Or.inr rfl, List.mem_singleton.1 h⟩
  | cons first bs ih =>
    unfold graft at h
    split at h
    · rcases List.mem_cons.1 h with rfl | h
      · exact Or.inr ⟨first, Or.inl List.mem_cons_self, rfl⟩
      · exact Or.inl (List.mem_cons_of_mem _ h)
    · rcases List.mem_cons.1 h with rfl | h
      · exact Or.inl List.mem_cons_self
      · rcases ih h with h | ⟨b', hb', rfl⟩
        · exact Or.inl (List.mem_cons_of_mem _ h)
        · exact Or.inr ⟨b', hb'.imp_left (List.mem_cons_of_mem _), rfl⟩

theorem exists_mem_graft (step : PathStep) (f : Branch → Branch) (bs : List Branch) :
    ∃ b, f b ∈ graft step f bs := by
  induction bs with
  | nil => exact ⟨_, List.mem_cons_self⟩
  | cons first bs ih =>
    unfold graft
    split
    · exact ⟨first, List.mem_cons_self⟩
    · obtain ⟨b, hb⟩ := ih
      exact ⟨b, List.mem_cons_of_mem _ hb⟩

theorem mem_graft_of_mem (step : PathStep) (f : Branch → Branch) (h : b ∈ bs) :
    b ∈ graft step f bs ∨ f b ∈ graft step f bs := by
  induction bs with
  | nil => cases h
  | cons first bs ih =>
    unfold graft
    rcases List.mem_cons.1 h with rfl | h
    · split
      · exact Or.inr List.mem_cons_self
      · exact Or.inl List.mem_cons_self
    · split
      · exact Or.inl (List.mem_cons_of_mem _ h)
      · exact (ih h).imp (List.mem_cons_of_mem _) (List.mem_cons_of_mem _)

/-! ## Writing -/

/-- Writing does not change what leads to a branch, unless it is written at the branch itself under
the key by which it is found. -/
theorem fits_write (h : steps = [] → ∀ entry ∈ step.key, entry.1 ≠ key) :
    (b.write key text steps).fits step = b.fits step := by
  cases steps with
  | cons => rfl
  | nil =>
    unfold write fits Tree.fits
    cases hkey : step.key with
    | none => rfl
    | some entry =>
      simp only [lookup_setEntry, if_neg (h rfl entry hkey)]

/-- What is there after writing has been written, is said by a step, or was there. -/
theorem mem_entries_write (h : entry ∈ (b.write key text steps).entries) :
    entry = (key, text) ∨ (∃ step ∈ steps, step.key = some entry) ∨ entry ∈ b.entries := by
  induction steps generalizing b with
  | nil =>
    rw [entries_eq, List.mem_append] at h
    rcases h with h | h
    · refine (mem_setEntry h).imp_right fun hmem => Or.inr ?_
      rw [entries_eq]
      exact List.mem_append_left _ hmem
    · refine Or.inr (Or.inr ?_)
      rw [entries_eq]
      exact List.mem_append_right _ h
  | cons step steps ih =>
    -- what a branch further down has is an entry of the whole branch as well
    have hold : ∀ {b'}, b' ∈ b.children → entry ∈ b'.entries → entry ∈ b.entries := by
      intro b' hb' hentry
      rw [entries_eq]
      exact List.mem_append_right _ (mem_entriesOf.2 ⟨b', hb', hentry⟩)
    rw [entries_eq, List.mem_append] at h
    rcases h with h | h
    · refine Or.inr (Or.inr ?_)
      rw [entries_eq]
      exact List.mem_append_left _ h
    · obtain ⟨found, hfound, hentry⟩ := mem_entriesOf.1 h
      rcases mem_graft hfound with hmem | ⟨b', hb', rfl⟩
      · exact Or.inr (Or.inr (hold hmem hentry))
      -- the branch below is an old one, or it was made for the step and has only the entry of that
      · rcases ih hentry with hwritten | ⟨step', hstep', hkey⟩ | hbelow
        · exact Or.inl hwritten
        · exact Or.inr (Or.inl ⟨step', List.mem_cons_of_mem _ hstep', hkey⟩)
        · rcases hb' with hb' | rfl
          · exact Or.inr (Or.inr (hold hb' hbelow))
          · exact Or.inr (Or.inl ⟨step, List.mem_cons_self, mem_entries_fresh.1 hbelow⟩)

theorem mem_entries_write_self : (key, text) ∈ (b.write key text steps).entries := by
  induction steps generalizing b with
  | nil =>
    rw [entries_eq]
    exact List.mem_append_left _ (mem_setEntry_self _ _ _)
  | cons step steps ih =>
    obtain ⟨b', hb'⟩ := exists_mem_graft step (write key text steps) b.children
    rw [entries_eq]
    exact List.mem_append_right _ (mem_entriesOf.2 ⟨_, hb', ih⟩)

/-- Writing leaves the attributes under other keys. -/
theorem mem_entries_write_of_ne (h : entry ∈ b.entries) (hne : entry.1 ≠ key) :
    entry ∈ (b.write key text steps).entries := by
  induction steps generalizing b with
  | nil =>
    rw [entries_eq, List.mem_append] at h ⊢
    exact h.imp_left fun hmem => mem_setEntry_of_ne hmem hne
  | cons step steps ih =>
    rw [entries_eq, List.mem_append] at h ⊢
    refine h.imp_right fun hmem => ?_
    obtain ⟨b', hb', hentry⟩ := mem_entriesOf.1 hmem
    rcases mem_graft_of_mem step (write key text steps) hb' with hkept | hchanged
    · exact mem_entriesOf.2 ⟨b', hkept, hentry⟩
    · exact mem_entriesOf.2 ⟨_, hchanged, ih hentry⟩

/-! ## Reading -/

/-- The branch that a step creates is what the step leads to. -/
theorem fits_fresh (step : PathStep) : (fresh step).fits step = true := by
  obtain ⟨name, _ | ⟨key, value⟩⟩ := step <;> simp [fits, Tree.fits, fresh]

theorem fits_of_parts (h : step.parts step' = true) (hfits : b.fits step = true) :
    b.fits step' = false := by
  obtain ⟨name, key⟩ := step
  obtain ⟨name', key'⟩ := step'
  cases key <;> cases key' <;> grind [PathStep.parts, fits, Tree.fits]

/-- A step leads to the branch that it has grafted. -/
theorem find?_graft_self (h : ∀ b, (f b).fits step = b.fits step) (bs : List Branch) :
    (graft step f bs).find? (·.fits step) =
      some (f ((bs.find? (·.fits step)).getD (fresh step))) := by
  induction bs with
  | nil =>
    have hfits := (h (fresh step)).trans (fits_fresh step)
    simp [graft, hfits]
  | cons b bs ih =>
    unfold graft
    cases hb : b.fits step with
    | true => simp [h, hb]
    | false => simp [hb, ih]

/-- Another step leads where it has led, though what is there is changed when both lead there. -/
theorem find?_graft (h : ∀ b, (f b).fits step' = b.fits step')
    (hfound : bs.find? (·.fits step') = some b) :
    (graft step f bs).find? (·.fits step') = some b ∨
      b.fits step = true ∧ (graft step f bs).find? (·.fits step') = some (f b) := by
  -- the first branch that fits the one step comes before, at or behind the one that is changed
  induction bs with
  | nil => cases hfound
  | cons first bs ih =>
    unfold graft
    cases hfirst : first.fits step' with
    | true =>
      simp only [List.find?_cons, hfirst, Option.some.injEq] at hfound
      subst hfound
      cases hfits : first.fits step with
      | true => simp [h, hfirst]
      | false => simp [hfirst]
    | false =>
      simp only [List.find?_cons, hfirst] at hfound
      cases hfits : first.fits step with
      | true => simp [h, hfirst, hfound]
      | false => simpa [hfirst] using ih hfound

theorem read?_write_self (h : ∀ step ∈ steps, ∀ entry ∈ step.key, entry.1 ≠ key) :
    (b.write key text steps).read? key steps = some text := by
  induction steps generalizing b with
  | nil =>
    unfold write read?
    rw [lookup_setEntry, if_pos rfl]
  | cons step steps ih =>
    obtain ⟨hstep, hsteps⟩ := List.forall_mem_cons.1 h
    unfold write read?
    dsimp only
    rw [find?_graft_self fun b => fits_write fun _ => hstep, Option.bind_some, ih hsteps]

/-- What is written elsewhere, or under another key, changes nothing. -/
theorem read?_write {key' text' : String} {steps' : List PathStep}
    (hkeys : ∀ step ∈ steps, ∀ entry ∈ step.key, entry.1 ≠ key')
    (hapart : key' ≠ key ∨ PathStep.diverge steps steps' = true)
    (h : b.read? key steps = some text) :
    (b.write key' text' steps').read? key steps = some text := by
  induction steps generalizing b steps' with
  | nil =>
    cases steps' with
    | nil =>
      -- both paths end here, so they have to part by the keys
      have hne : key' ≠ key := hapart.resolve_right Bool.false_ne_true
      unfold write read?
      rw [lookup_setEntry, if_neg hne.symm]
      exact h
    | cons => exact h
  | cons step steps ih =>
    obtain ⟨hstep, hsteps⟩ := List.forall_mem_cons.1 hkeys
    cases steps' with
    | nil => exact h
    | cons step' steps' =>
      obtain ⟨c, hc, hread⟩ := Option.bind_eq_some_iff.1 h
      have hleads := List.find?_some (p := fun c : Branch => c.fits step) hc
      have hfits : ∀ b, (write key' text' steps' b).fits step = b.fits step :=
        fun b => fits_write fun _ => hstep
      unfold write read?
      dsimp only
      rcases find?_graft hfits hc with hkept | ⟨hfits', hchanged⟩
      · rw [hkept]
        exact hread
      · -- both steps lead to the same branch, so that the paths part below it
        have hbelow : key' ≠ key ∨ PathStep.diverge steps steps' = true := by
          refine hapart.imp_right fun hparts => ?_
          unfold PathStep.diverge at hparts
          rw [List.zip_cons_cons, List.any_cons, Bool.or_eq_true] at hparts
          refine hparts.resolve_left fun hhere => ?_
          have hnot := fits_of_parts hhere hleads
          rw [hfits'] at hnot
          cases hnot
        rw [hchanged]
        exact ih hsteps hbelow hread

/-! ## Writing several times -/

theorem fits_after {ws : List Writing}
    (h : ∀ w ∈ ws, w.steps = [] → ∀ entry ∈ step.key, entry.1 ≠ w.key) :
    (b.after ws).fits step = b.fits step := by
  induction ws generalizing b with
  | nil => rfl
  | cons w ws ih =>
    obtain ⟨hw, hws⟩ := List.forall_mem_cons.1 h
    exact (ih hws).trans (fits_write hw)

theorem after_append (b : Branch) (ws ws' : List Writing) :
    b.after (ws ++ ws') = (b.after ws).after ws' := List.foldl_append

/-- What is there after all has been written, is said by a step, or was there. -/
theorem mem_entries_after {ws : List Writing} (h : entry ∈ (b.after ws).entries) :
    (∃ w ∈ ws, entry = (w.key, w.text) ∨ ∃ step ∈ w.steps, step.key = some entry) ∨
      entry ∈ b.entries := by
  induction ws using List.reverseRecOn with
  | nil => exact Or.inr h
  | append_singleton ws w ih =>
    rw [after_append] at h
    rcases mem_entries_write h with hwritten | hstep | hbefore
    · exact Or.inl ⟨w, List.mem_append_right _ List.mem_cons_self, Or.inl hwritten⟩
    · exact Or.inl ⟨w, List.mem_append_right _ List.mem_cons_self, Or.inr hstep⟩
    · refine (ih hbefore).imp_left ?_
      rintro ⟨w', hw', hentry⟩
      exact ⟨w', List.mem_append_left _ hw', hentry⟩

/-- A text that is written last under its key is there afterwards. -/
theorem mem_entries_after_of_last {before behind : List Writing} {w : Writing}
    (h : ∀ w' ∈ behind, w'.key ≠ w.key) :
    (w.key, w.text) ∈ (b.after (before ++ w :: behind)).entries := by
  rw [after_append]
  induction behind using List.reverseRecOn with
  | nil => exact mem_entries_write_self
  | append_singleton behind w' ih =>
    rw [← List.cons_append, after_append]
    refine mem_entries_write_of_ne (ih fun w'' hw'' => ?_) ?_
    · exact h w'' (List.mem_append_left _ hw'')
    · exact Ne.symm (h w' (List.mem_append_right _ List.mem_cons_self))

/-- A text that is written is found where it was written, unless a later one may be written there,
too, or the branches on the way are found by other keys since. -/
theorem read?_after_of_last {before behind : List Writing} {w : Writing}
    (hkeys : ∀ w' ∈ w :: behind, ∀ step ∈ w.steps, ∀ entry ∈ step.key, entry.1 ≠ w'.key)
    (h : ∀ w' ∈ behind, w'.key ≠ w.key ∨ PathStep.diverge w.steps w'.steps = true) :
    (b.after (before ++ w :: behind)).read? w.key w.steps = some w.text := by
  rw [after_append]
  induction behind using List.reverseRecOn with
  | nil => exact read?_write_self (hkeys w List.mem_cons_self)
  | append_singleton behind w' ih =>
    rw [← List.cons_append, after_append]
    have hlast : w' ∈ behind ++ [w'] := List.mem_append_right _ List.mem_cons_self
    refine read?_write (hkeys w' (List.mem_cons_of_mem _ hlast)) (h w' hlast) (ih ?_ ?_)
    · intro w'' hw''
      exact hkeys w'' (List.cons_subset_cons w (List.subset_append_left _ _) hw'')
    · exact fun w'' hw'' => h w'' (List.mem_append_left _ hw'')

/-! ## Branches that are found by different steps -/

section Apart

variable {ι : Type} {lead : ι → PathStep} {xs : List ι}

/-- Each of several branches is changed where its step leads to it and to none in front of it. -/
theorem foldl_graft_map (change : ι → Branch → Branch) (of : ι → Branch)
    (hself : ∀ x ∈ xs, (of x).fits (lead x) = true)
    (hapart : xs.Pairwise fun x y => (change x (of x)).fits (lead y) = false)
    (rest : List Branch) :
    xs.foldl (fun bs x => graft (lead x) (change x) bs) (xs.map of ++ rest) =
      xs.map (fun x => change x (of x)) ++ rest := by
  -- from the end: the last graft passes all branches that have been changed before it
  induction xs using List.reverseRecOn generalizing rest with
  | nil => rfl
  | append_singleton xs x ih =>
    obtain ⟨hxs, -, hx⟩ := List.pairwise_append.1 hapart
    have hpassed : ∀ b ∈ xs.map (fun x => change x (of x)), b.fits (lead x) = false := by
      intro b hb
      obtain ⟨y, hy, rfl⟩ := List.mem_map.1 hb
      exact hx y hy x List.mem_cons_self
    rw [List.foldl_append, List.map_append, List.append_assoc,
      ih (fun y hy => hself y (List.mem_append_left _ hy)) hxs, List.map_append, List.append_assoc]
    show graft (lead x) (change x) (_ ++ ([of x] ++ rest)) = _
    rw [graft_append hpassed, List.singleton_append, graft,
      if_pos (hself x (List.mem_append_right _ List.mem_cons_self))]
    rfl

/-- Each of several steps creates a branch when it leads to none of those in front of it. -/
theorem foldl_graft_nil {change : ι → Branch → Branch}
    (hapart : xs.Pairwise fun x y => (change x (fresh (lead x))).fits (lead y) = false) :
    xs.foldl (fun bs x => graft (lead x) (change x) bs) [] =
      xs.map fun x => change x (fresh (lead x)) := by
  induction xs using List.reverseRecOn with
  | nil => rfl
  | append_singleton xs x ih =>
    obtain ⟨hxs, -, hx⟩ := List.pairwise_append.1 hapart
    have hpassed : ∀ b ∈ xs.map (fun x => change x (fresh (lead x))), b.fits (lead x) = false := by
      intro b hb
      obtain ⟨y, hy, rfl⟩ := List.mem_map.1 hb
      exact hx y hy x List.mem_cons_self
    rw [List.foldl_append, ih hxs, List.map_append]
    have hnew := graft_append hpassed (change x) []
    rwa [List.append_nil] at hnew

/-- Branches that are found by different steps are changed each on its own, in whatever order they
are gone through. -/
theorem foldl_graft {σ : Type} {es : List σ} (hne : es ≠ []) {change : σ → ι → Branch → Branch}
    (hkeeps : ∀ e ∈ es, ∀ x b y, (change e x b).fits (lead y) = b.fits (lead y))
    (hapart : xs.Pairwise fun x y => (fresh (lead x)).fits (lead y) = false) :
    es.foldl (fun bs e => xs.foldl (fun bs x => graft (lead x) (change e x) bs) bs) [] =
      xs.map fun x => es.foldl (fun b e => change e x b) (fresh (lead x)) := by
  obtain ⟨e, es, rfl⟩ := List.exists_cons_of_ne_nil hne
  obtain ⟨he, hes⟩ := List.forall_mem_cons.1 hkeeps
  -- after the first round there is a branch for each step, and it is found by no other one
  suffices hrounds : ∀ of : ι → Branch,
      (∀ x y, (of x).fits (lead y) = (fresh (lead x)).fits (lead y)) →
      es.foldl (fun bs e => xs.foldl (fun bs x => graft (lead x) (change e x) bs) bs) (xs.map of) =
        xs.map fun x => es.foldl (fun b e => change e x b) (of x) by
    have hfirst : xs.Pairwise fun x y => (change e x (fresh (lead x))).fits (lead y) = false :=
      hapart.imp fun {x y} h => (he x _ y).trans h
    rw [List.foldl_cons, foldl_graft_nil hfirst]
    exact hrounds _ fun x y => he x _ y
  induction es with
  | nil => exact fun of _ => rfl
  | cons e es ih =>
    intro of hof
    obtain ⟨he', hes⟩ := List.forall_mem_cons.1 hes
    have hround := foldl_graft_map (change e) of
      (fun x _ => (hof x x).trans (fits_fresh _))
      (hapart.imp fun {x y} h => ((he' x _ y).trans (hof x y)).trans h) []
    rw [List.append_nil, List.append_nil] at hround
    rw [List.foldl_cons, hround]
    refine ih (List.cons_ne_nil _ _) ?_ hes _ fun x y => (he' x _ y).trans (hof x y)
    exact List.forall_mem_cons.2 ⟨he, hes⟩

end Apart

end Branch

end LayoutCompiler
