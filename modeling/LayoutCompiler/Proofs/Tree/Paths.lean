import LayoutCompiler.Proofs.Text.Pieces
import LayoutCompiler.Tree.Path
import Mathlib.Data.List.Forall2
/-!
# How paths are spelled

The text of a path says all there is to it: a path is read from one text only, the one that spells
its steps, each with a slash behind it, and then the name of the attribute.

* `PathStep.read?_eq_some_iff`: the segments that are read as steps.
* `AttributePath.read_exact`: the texts that are read as paths, and what they are read as.
* `AttributePath.read_text`: a path that is written down is read as it was.
-/

namespace LayoutCompiler

variable {step step' : PathStep} {steps : List PathStep} {segment p q : String}

/-! ## Steps -/

/-- A segment spells a step: the name alone, without brackets, or the name and in brackets the
key with its value. The value may be any text. -/
inductive PathStep.Spells : PathStep → String → Prop
  | plain {name : String} (hname : name ≠ "") (hopen : '[' ∉ name.toList)
    (hclose : ']' ∉ name.toList) : Spells ⟨name, none⟩ name
  | keyed {name key value : String} (hname : name ≠ "") (hopen : '[' ∉ name.toList)
    (hkey : key ≠ "") (hequals : '=' ∉ key.toList) :
    Spells ⟨name, some (key, value)⟩ (name ++ "[" ++ key ++ "=" ++ value ++ "]")

namespace PathStep

theorem Spells.text_eq (h : step.Spells segment) : step.text = segment := by
  cases h <;> rfl

/-- A segment that spells a step is read as the step, and no other segment is. -/
theorem read?_eq_some_iff : read? segment = some step ↔ step.Spells segment := by
  constructor
  · intro h
    unfold read? at h
    split at h
    · rename_i hopen
      split at h
      · cases h
      · rename_i hplain
        cases h
        rw [Bool.or_eq_true, not_or, Text.holds, List.contains_iff_mem, String.isEmpty_iff]
          at hplain
        exact .plain hplain.2 (Text.splitOnce_eq_none_iff.1 hopen) hplain.1
    · rename_i name rest hopen
      -- each cut is at the first separator, which the part in front of it does not have
      obtain ⟨hname, rfl⟩ := Text.splitOnce_eq_some_iff.1 hopen
      obtain ⟨selector, htail, hselector⟩ := Option.bind_eq_some_iff.1 h
      obtain ⟨⟨key, value⟩, hentry, hstep⟩ := Option.bind_eq_some_iff.1 hselector
      obtain ⟨hkey, hselects⟩ := Text.splitOnce_eq_some_iff.1 hentry
      rw [Text.stripTail?_eq_some_iff.1 htail, hselects]
      dsimp only at hstep
      split at hstep
      · cases hstep
      · rename_i hfilled
        cases hstep
        rw [Bool.or_eq_true, not_or, String.isEmpty_iff, String.isEmpty_iff] at hfilled
        have hspelled : Spells ⟨name, some (key, value)⟩ _ :=
          .keyed hfilled.1 hname hfilled.2 hkey
        simp only [String.append_assoc] at hspelled ⊢
        exact hspelled
  · intro h
    unfold read?
    cases h with
    | plain hname hopen hclose =>
      rw [Text.splitOnce_eq_none_iff.2 hopen]
      have hplain : (Text.holds ']' segment || segment.isEmpty) = false := by
        rw [Bool.eq_false_iff, Ne, Bool.or_eq_true, not_or, Text.holds, List.contains_iff_mem,
          String.isEmpty_iff]
        exact ⟨hclose, hname⟩
      simp only [hplain, Bool.false_eq_true, if_false]
    | @keyed name key value hname hopen hkey hequals =>
      have hsplit : Text.splitOnce '[' (name ++ "[" ++ key ++ "=" ++ value ++ "]") =
          some (name, key ++ "=" ++ value ++ "]") :=
        Text.splitOnce_eq_some_iff.2 ⟨hopen, by simp only [String.append_assoc]; rfl⟩
      have htail : Text.stripTail? "]" (key ++ "=" ++ value ++ "]") = some (key ++ "=" ++ value) :=
        Text.stripTail?_eq_some_iff.2 rfl
      have hentry : Text.splitOnce '=' (key ++ "=" ++ value) = some (key, value) :=
        Text.splitOnce_eq_some_iff.2 ⟨hequals, rfl⟩
      have hfilled : (name.isEmpty || key.isEmpty) = false := by
        rw [Bool.eq_false_iff, Ne, Bool.or_eq_true, not_or, String.isEmpty_iff, String.isEmpty_iff]
        exact ⟨hname, hkey⟩
      simp only [hsplit, htail, hentry, Option.bind_some, hfilled, Bool.false_eq_true, if_false]

theorem mapM_read?_eq_some_iff {segments : List String} :
    segments.mapM read? = some steps ↔ List.Forall₂ Spells steps segments := by
  -- the reader stops at the first segment that spells no step, the relation has no pair for it
  induction segments generalizing steps with
  | nil =>
    rw [List.mapM_nil]
    constructor
    · intro h
      cases h
      exact .nil
    · intro h
      cases h
      rfl
  | cons segment segments ih =>
    rw [List.mapM_cons]
    constructor
    · intro h
      obtain ⟨step, hstep, h⟩ := Option.bind_eq_some_iff.1 h
      obtain ⟨rest, hrest, h⟩ := Option.bind_eq_some_iff.1 h
      cases h
      exact .cons (read?_eq_some_iff.1 hstep) (ih.1 hrest)
    · intro h
      cases h with
      | cons hstep hrest =>
        rw [read?_eq_some_iff.2 hstep, ih.2 hrest]
        rfl

/-- The segments that are read are those of the steps. -/
theorem map_text_of_spells {segments : List String} (h : List.Forall₂ Spells steps segments) :
    steps.map text = segments := by
  induction h with
  | nil => rfl
  | cons hstep _ ih => rw [List.map_cons, hstep.text_eq, ih]

theorem exists_spells_iff {segments : List String} :
    (∃ steps, List.Forall₂ Spells steps segments) ↔
      ∀ segment ∈ segments, ∃ step : PathStep, step.Spells segment := by
  induction segments with
  | nil => exact ⟨fun _ _ h => (List.not_mem_nil h).elim, fun _ => ⟨[], .nil⟩⟩
  | cons segment segments ih =>
    rw [List.forall_mem_cons, ← ih]
    constructor
    · rintro ⟨_, _ | ⟨hstep, hrest⟩⟩
      exact ⟨⟨_, hstep⟩, _, hrest⟩
    · rintro ⟨⟨step, hstep⟩, steps, hrest⟩
      exact ⟨step :: steps, .cons hstep hrest⟩

end PathStep

/-! ## Paths -/

namespace AttributePath

/-- The text of steps, each with a slash behind it. -/
def stepsText (steps : List PathStep) : String := Text.closed '/' (steps.map PathStep.text)

/-- The text of a path: the steps, and behind them the name of the attribute, if there is one. -/
def text (path : AttributePath) : String := stepsText path.steps ++ path.name.getD ""

theorem read_eq_ok_iff {path : AttributePath} : read p = .ok path ↔
    List.Forall₂ PathStep.Spells path.steps (Text.split '/' p).dropLast ∧
      path.name = (Text.split '/' p).getLast?.filter fun name => !name.isEmpty := by
  obtain ⟨steps, name⟩ := path
  unfold read
  dsimp only
  rw [← PathStep.mapM_read?_eq_some_iff]
  cases (Text.split '/' p).dropLast.mapM PathStep.read? with
  | none => simp
  | some found =>
    simp only [Except.ok.injEq, mk.injEq, Option.some.injEq]
    exact and_congr_right' eq_comm

theorem readNode_eq_ok_iff : readNode p = .ok steps ↔
    List.Forall₂ PathStep.Spells steps ((Text.split '/' p).filter fun s => !s.isEmpty) := by
  unfold readNode
  rw [← PathStep.mapM_read?_eq_some_iff]
  cases ((Text.split '/' p).filter fun s => !s.isEmpty).mapM PathStep.read? <;> simp

/-- A path is spelled by the text from which it was read. -/
theorem text_of_read {path : AttributePath} (h : read p = .ok path) : path.text = p := by
  obtain ⟨hsteps, hname⟩ := read_eq_ok_iff.1 h
  unfold text stepsText
  rw [PathStep.map_text_of_spells hsteps, hname,
    List.getLast?_eq_some_getLast (Text.split_ne_nil '/' p)]
  conv_rhs => rw [← Text.closed_split '/' p]
  rw [Option.filter_some]
  split
  · rfl
  · rename_i hempty
    rw [Bool.not_eq_true', Bool.not_eq_false, String.isEmpty_iff] at hempty
    rw [hempty]
    rfl

theorem split_text {name : String} (hplain : ∀ step ∈ steps, '/' ∉ step.text.toList)
    (hend : '/' ∉ name.toList) :
    Text.split '/' (stepsText steps ++ name) = steps.map PathStep.text ++ [name] := by
  refine Text.split_closed (fun piece hpiece => ?_) hend
  obtain ⟨step, hstep, rfl⟩ := List.mem_map.1 hpiece
  exact hplain step hstep

theorem spells_map_text (h : ∀ step ∈ steps, step.Spells step.text) :
    List.Forall₂ PathStep.Spells steps (steps.map PathStep.text) :=
  List.forall₂_map_right_iff.2 (List.forall₂_same.2 h)

/-- The text of steps without slashes and of a name without one is read as they are. -/
theorem read_text {name : String} (hsteps : ∀ step ∈ steps, step.Spells step.text)
    (hplain : ∀ step ∈ steps, '/' ∉ step.text.toList) (hname : name ≠ "")
    (hend : '/' ∉ name.toList) : read (text ⟨steps, some name⟩) = .ok ⟨steps, some name⟩ := by
  have hsplit : Text.split '/' (text ⟨steps, some name⟩) = steps.map PathStep.text ++ [name] :=
    split_text hplain hend
  rw [read_eq_ok_iff, hsplit, List.dropLast_concat, List.getLast?_concat, Option.filter_some,
    if_pos]
  · exact ⟨spells_map_text hsteps, rfl⟩
  · rw [Bool.not_eq_true', Bool.eq_false_iff, Ne, String.isEmpty_iff]
    exact hname

/-- The text of steps that were read is read as the same steps. -/
theorem readNode_stepsText (h : readNode p = .ok steps) :
    readNode (stepsText steps) = .ok steps := by
  have hspells := readNode_eq_ok_iff.1 h
  have htexts := PathStep.map_text_of_spells hspells
  -- the segments that were read are pieces of a text, and none of them is empty
  have hsegment : ∀ step ∈ steps, '/' ∉ step.text.toList ∧ (!step.text.isEmpty) = true := by
    intro step hstep
    have hmem : step.text ∈ (Text.split '/' p).filter fun s => !s.isEmpty := by
      rw [← htexts]
      exact List.mem_map_of_mem hstep
    obtain ⟨hpiece, hfilled⟩ := List.mem_filter.1 hmem
    exact ⟨Text.notMem_of_mem_split hpiece, hfilled⟩
  have hsplit : Text.split '/' (stepsText steps) = steps.map PathStep.text ++ [""] := by
    have hend : '/' ∉ "".toList := by decide
    have hlast := split_text (fun step hstep => (hsegment step hstep).1) hend
    rwa [String.append_empty] at hlast
  have hkept : (steps.map PathStep.text ++ [""]).filter (fun s => !s.isEmpty) =
      steps.map PathStep.text := by
    rw [List.filter_append, List.filter_eq_self.2]
    · exact List.append_nil _
    · intro piece hpiece
      obtain ⟨step, hstep, rfl⟩ := List.mem_map.1 hpiece
      exact (hsegment step hstep).2
  rw [readNode_eq_ok_iff, hsplit, hkept, htexts]
  exact hspells

/-- A text is read as a path when all of its segments but the last one spell steps. Reading loses
nothing: what was read spells the text, which no other text is read as. A text is read as steps
when all of its segments that are not empty spell steps, and the text of the steps is read again
as the same steps. -/
theorem read_exact :
    (∀ p, (∃ path, read p = .ok path) ↔
      ∀ segment ∈ (Text.split '/' p).dropLast, ∃ step : PathStep, step.Spells segment) ∧
    (∀ p path, read p = .ok path →
      List.Forall₂ PathStep.Spells path.steps (Text.split '/' p).dropLast ∧
      path.name ≠ some "" ∧ path.text = p) ∧
    (∀ p q path, read p = .ok path → read q = .ok path → p = q) ∧
    (∀ p, (∃ steps, readNode p = .ok steps) ↔
      ∀ segment ∈ Text.split '/' p, segment ≠ "" → ∃ step : PathStep, step.Spells segment) ∧
    ∀ p steps, readNode p = .ok steps →
      List.Forall₂ PathStep.Spells steps ((Text.split '/' p).filter fun s => !s.isEmpty) ∧
      readNode (stepsText steps) = .ok steps := by
  -- all parts rest on one equivalence, of what a path is read as with what its segments spell
  refine ⟨fun p => ?_, fun p path h => ?_, fun p q path hp hq => ?_, fun p => ?_,
    fun p steps h => ⟨readNode_eq_ok_iff.1 h, readNode_stepsText h⟩⟩
  · rw [← PathStep.exists_spells_iff]
    constructor
    · rintro ⟨path, hpath⟩
      exact ⟨path.steps, (read_eq_ok_iff.1 hpath).1⟩
    · rintro ⟨steps, hsteps⟩
      exact ⟨⟨steps, _⟩, read_eq_ok_iff.2 ⟨hsteps, rfl⟩⟩
  · obtain ⟨hsteps, hname⟩ := read_eq_ok_iff.1 h
    refine ⟨hsteps, fun hempty => ?_, text_of_read h⟩
    rw [hname, Option.filter_eq_some_iff] at hempty
    exact absurd hempty.2 (by decide)
  · rw [← text_of_read hp, text_of_read hq]
  · simp only [readNode_eq_ok_iff, PathStep.exists_spells_iff, List.mem_filter, Bool.not_eq_true',
      Bool.eq_false_iff, Ne, String.isEmpty_iff, and_imp]

/-- What stands in the brackets ends with the last one of them. -/
example : read "state[key=a[0]=1]/title" =
    .ok ⟨[⟨"state", some ("key", "a[0]=1")⟩], some "title"⟩ := rfl

end AttributePath

end LayoutCompiler
