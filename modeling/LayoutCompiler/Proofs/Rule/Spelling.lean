import LayoutCompiler.Proofs.Compilation.Places
import LayoutCompiler.Proofs.Text.Templates
/-!
# Paths that are spelled out

What a rule says about its paths is decided by taking texts apart. That is quick on lists of
characters only, so the operations on texts are carried over to lists: a template is cut into its
stretches and holes, a path into its steps.

* `Template.parts_spelled`, `AttributePath.read_spelled`, `AttributePath.readNode_spelled`: the
  operations on lists are those on texts.
* `Emission.Keeps.of_passes`: what is found out about the letters of a path is true of the emission.
-/

namespace LayoutCompiler

/-! ## Templates -/

namespace Template

mutual

/-- The parts of a template in letters, the holes marked, after the letters of a stretch that has
begun, the last one first. -/
def letters (begun : List Char) : List Char → List (Bool × List Char)
  | [] => [(false, begun.reverse)]
  | c :: cs =>
    if c = delimiter then
      match cs with
      | d :: ds =>
        if d = delimiter then letters (delimiter :: begun) ds
        else (false, begun.reverse) :: holeLetters [d] ds
      | [] => [(false, begun.reverse), (false, [delimiter])]
    else letters (c :: begun) cs

/-- The same after the letters of a hole that is open. -/
def holeLetters (begun : List Char) : List Char → List (Bool × List Char)
  | [] => [(false, delimiter :: begun.reverse)]
  | c :: cs =>
    if c = delimiter then (true, begun.reverse) :: letters [] cs
    else holeLetters (c :: begun) cs

end

/-- A part in letters; a stretch of none is no part. -/
def ofLetters : Bool × List Char → List Part
  | (false, cs) => stretch cs.reverse
  | (true, cs) => [.hole (String.ofList cs)]

theorem parts_letters :
    (∀ begun cs, literalParts begun cs = (letters begun cs).flatMap ofLetters) ∧
      ∀ begun cs, holeParts begun cs = (holeLetters begun cs).flatMap ofLetters := by
  refine literalParts.mutual_induct
    (fun begun cs => literalParts begun cs = (letters begun cs).flatMap ofLetters)
    (fun begun cs => holeParts begun cs = (holeLetters begun cs).flatMap ofLetters)
    ?_ ?_ ?_ ?_ ?_ ?_ ?_ ?_
  -- five cases of a stretch: its end, a doubled delimiter, the start of a hole, a delimiter at the
  -- very end, any other letter; then three of a hole: left open, closed, any other letter
  · intro begun
    simp [literalParts, letters, ofLetters]
  · intro begun ds ih
    rw [literalParts_doubled, ih]
    simp [letters]
  · intro begun d ds hd ih
    rw [literalParts_opening hd, ih]
    simp [letters, hd, ofLetters]
  · intro begun
    simp [literalParts, letters, ofLetters]
  · intro begun c cs hc ih
    rw [literalParts_cons hc, ih]
    conv_rhs => unfold letters
    rw [if_neg hc]
  · intro begun
    simp [holeParts, holeLetters, ofLetters, stretch]
  · intro begun cs ih
    simp [holeParts, holeLetters, ofLetters, ih]
  · intro begun c cs hc ih
    simp [holeParts, holeLetters, hc, ih]

/-- The parts of a text that is spelled out. -/
theorem parts_spelled (cs : List Char) :
    (parse (String.ofList cs)).parts = (letters [] cs).flatMap ofLetters := by
  rw [parse, String.toList_ofList]
  exact parts_letters.1 [] cs

/-- What is written of parts in letters, every hole alike. -/
def fill (text : List Char) (parts : List (Bool × List Char)) : List Char :=
  parts.flatMap fun (isHole, cs) => if isHole then text else cs

theorem toList_write_spelled (cs : List Char) (text : Option String) :
    ((parse (String.ofList cs)).write fun _ => text).toList =
      fill (text.getD "").toList (letters [] cs) := by
  rw [toList_write, parts_spelled, fill, List.flatMap_assoc]
  refine congrArg (List.flatMap · _) (funext fun part => ?_)
  obtain ⟨isHole, cs⟩ := part
  cases isHole with
  | true => simp [ofLetters, Part.written]
  | false =>
    cases cs with
    | nil => rfl
    | cons c cs => simp [ofLetters, stretch, Part.written]

theorem mem_holes_spelled {cs : List Char} {hole : String}
    (h : hole ∈ (parse (String.ofList cs)).holes) : (true, hole.toList) ∈ letters [] cs := by
  rw [mem_holes, parts_spelled, List.mem_flatMap] at h
  obtain ⟨⟨isHole, hs⟩, hmem, hpart⟩ := h
  cases isHole with
  | true =>
    obtain rfl := Part.hole.inj (List.mem_singleton.1 hpart)
    rwa [String.toList_ofList]
  | false =>
    simp only [ofLetters, stretch] at hpart
    split at hpart
    · cases hpart
    · cases List.mem_singleton.1 hpart

end Template

/-! ## Paths -/

theorem isEmpty_ofList (cs : List Char) : (String.ofList cs).isEmpty = cs.isEmpty := by
  rw [Bool.eq_iff_iff, String.isEmpty_iff, List.isEmpty_iff]
  simp

/-- A step in letters: the name, and the key and the value by which the node is found. -/
abbrev StepLetters := List Char × Option (List Char × List Char)

namespace PathStep

/-- The step that a segment in letters denotes. -/
def letters? (segment : List Char) : Option StepLetters :=
  match Text.cutOnce '[' segment with
  | none => if segment.contains ']' || segment.isEmpty then none else some (segment, none)
  | some (name, rest) =>
    (List.isPrefixOf? [']'] rest.reverse).bind fun selector =>
      (Text.cutOnce '=' selector.reverse).bind fun (key, value) =>
        if name.isEmpty || key.isEmpty then none else some (name, some (key, value))

def ofLetters (step : StepLetters) : PathStep :=
  { name := String.ofList step.1
    key := step.2.map fun entry => (String.ofList entry.1, String.ofList entry.2) }

theorem read?_spelled (segment : List Char) :
    read? (String.ofList segment) = (letters? segment).map ofLetters := by
  unfold read? letters? Text.splitOnce Text.holds
  rw [String.toList_ofList, isEmpty_ofList]
  cases Text.cutOnce '[' segment with
  | none =>
    simp only [Option.map_none]
    split <;> rfl
  | some halves =>
    obtain ⟨name, rest⟩ := halves
    -- what stands in brackets is found from behind
    have htail : Text.stripTail? "]" (String.ofList rest) =
        (List.isPrefixOf? [']'] rest.reverse).map fun cs => String.ofList cs.reverse := by
      unfold Text.stripTail?
      rw [String.toList_ofList, String.toList_ofList]
      rfl
    simp only [Option.map_some, htail]
    cases List.isPrefixOf? [']'] rest.reverse with
    | none => rfl
    | some selector =>
      simp only [Option.map_some, Option.bind_some, String.toList_ofList]
      cases Text.cutOnce '=' selector.reverse with
      | none => rfl
      | some entry =>
        simp only [Option.map_some, Option.bind_some, isEmpty_ofList]
        split <;> rfl

/-- The steps of a path are read one by one. -/
theorem mapM_read?_spelled (segments : List (List Char)) :
    (segments.map String.ofList).mapM read? = (segments.mapM letters?).map (·.map ofLetters) := by
  induction segments with
  | nil => rfl
  | cons segment segments ih =>
    rw [List.map_cons, List.mapM_cons, List.mapM_cons, read?_spelled, ih]
    cases letters? segment with
    | none => rfl
    | some step => cases segments.mapM letters? <;> rfl

end PathStep

namespace AttributePath

/-- The segments of a path in letters. -/
def segments (path : List Char) : List (List Char) := Text.cut (· == '/') path

theorem split_spelled (path : List Char) :
    Text.split '/' (String.ofList path) = (segments path).map String.ofList := by
  rw [Text.split, String.toList_ofList, segments]

theorem read_spelled (path : List Char) : read (String.ofList path) =
    match (segments path).dropLast.mapM PathStep.letters? with
    | none => .error (malformed (String.ofList path))
    | some steps => .ok ⟨steps.map PathStep.ofLetters,
        ((segments path).getLast?.filter fun name => !name.isEmpty).map String.ofList⟩ := by
  unfold read
  dsimp only
  rw [split_spelled, ← List.map_dropLast, PathStep.mapM_read?_spelled, List.getLast?_map,
    Option.filter_map]
  simp only [Function.comp_def, isEmpty_ofList]
  cases (segments path).dropLast.mapM PathStep.letters? <;> rfl

theorem readNode_spelled (path : List Char) : readNode (String.ofList path) =
    match ((segments path).filter fun s => !s.isEmpty).mapM PathStep.letters? with
    | none => .error (malformed (String.ofList path))
    | some steps => .ok (steps.map PathStep.ofLetters) := by
  unfold readNode
  rw [split_spelled, List.filter_map, PathStep.mapM_read?_spelled]
  simp only [Function.comp_def, isEmpty_ofList]
  cases ((segments path).filter fun s => !s.isEmpty).mapM PathStep.letters? <;> rfl

end AttributePath

/-! ## Places -/

namespace EmissionKind

/-- The keys of the steps of a path in letters. -/
def stepKeysIn (kind : EmissionKind) (path : List Char) : List (List Char) :=
  let segments := if kind = .text then (AttributePath.segments path).filter fun s => !s.isEmpty
    else (AttributePath.segments path).dropLast
  match segments.mapM PathStep.letters? with
  | some steps => steps.filterMap fun step => step.2.map Prod.fst
  | none => []

theorem stepKeys_spelled (kind : EmissionKind) (path : List Char) :
    kind.stepKeys (String.ofList path) = (kind.stepKeysIn path).map String.ofList := by
  -- the keys of the steps are texts of the same letters
  have hkeys : ∀ steps : List StepLetters,
      (steps.map PathStep.ofLetters).filterMap (fun step => step.key.map Prod.fst) =
        (steps.filterMap fun step => step.2.map Prod.fst).map String.ofList := by
    intro steps
    rw [List.filterMap_map, List.map_filterMap]
    refine congrArg (List.filterMap · steps) (funext fun step => ?_)
    simp [PathStep.ofLetters, Function.comp_def]
  unfold stepKeys stepKeysIn
  rw [AttributePath.read_spelled, AttributePath.readNode_spelled]
  by_cases hkind : kind = .text
  · simp only [hkind, if_true]
    cases ((AttributePath.segments path).filter fun s => !s.isEmpty).mapM PathStep.letters? with
    | none => rfl
    | some steps => exact hkeys steps
  · simp only [hkind, if_false]
    cases (AttributePath.segments path).dropLast.mapM PathStep.letters? with
    | none => rfl
    | some steps => exact hkeys steps

/-- The end of a path in letters. -/
def targetIn? (kind : EmissionKind) (path : List Char) : Option (Option (List Char) × List Char) :=
  if kind ∈ [.text, .style, .runtime] then none
  else ((AttributePath.segments path).dropLast.mapM PathStep.letters?).bind fun steps =>
    ((AttributePath.segments path).getLast?.filter fun name => !name.isEmpty).map fun key =>
      ((steps.map Prod.fst).getLast?, key)

theorem target?_spelled (kind : EmissionKind) (path : List Char) :
    kind.target? (String.ofList path) = (kind.targetIn? path).map fun place =>
      (place.1.map String.ofList, String.ofList place.2) := by
  unfold target? targetIn?
  rw [AttributePath.read_spelled]
  split
  · rfl
  · cases (AttributePath.segments path).dropLast.mapM PathStep.letters? with
    | none => rfl
    | some steps =>
      have hplace : (((steps.map PathStep.ofLetters).map PathStep.name).getLast?) =
          ((steps.map Prod.fst).getLast?).map String.ofList := by
        rw [← List.getLast?_map, List.map_map, List.map_map]
        rfl
      simp only [Option.bind_some, hplace]
      cases (AttributePath.segments path).getLast?.filter fun name => !name.isEmpty <;> rfl

end EmissionKind

/-! ## Emissions -/

/-- The name of a state in letters. -/
def Interaction.letters : Interaction → List Char
  | normal => ['n', 'o', 'r', 'm', 'a', 'l']
  | selected => ['s', 'e', 'l', 'e', 'c', 't', 'e', 'd']
  | highlighted => ['h', 'i', 'g', 'h', 'l', 'i', 'g', 'h', 't', 'e', 'd']
  | disabled => ['d', 'i', 's', 'a', 'b', 'l', 'e', 'd']
  | focused => ['f', 'o', 'c', 'u', 's', 'e', 'd']

theorem Interaction.name_spelled (state : Interaction) :
    state.name = String.ofList state.letters := by
  cases state <;> rfl

namespace Emission

/-- The letters that the path of an emission of a kind is written as, for a template in letters. -/
def routesIn (kind : EmissionKind) (parts : List (Bool × List Char)) : List (List Char) :=
  if kind = .state then Interaction.all.map fun state => Template.fill state.letters parts
  else [Template.fill [] parts]

/-- Whether the path of an emission of a kind has no hole but for the name of the state, all keys
of its steps pass a test, and so does the end of it, on whatever route. -/
def passes (kind : EmissionKind) (step : List Char → Bool)
    (target : Option (List Char) → List Char → Bool) (path : List Char) : Bool :=
  let parts := Template.letters [] path
  (parts.all fun (isHole, hole) =>
      !isHole || kind == .state && hole == ['s', 't', 'a', 't', 'e']) &&
    (routesIn kind parts).all fun route =>
      (kind.stepKeysIn route).all step && (kind.targetIn? route).all fun (place, key) =>
        target place key

variable {e : Emission} {path : List Char} {step : List Char → Bool}
  {target : Option (List Char) → List Char → Bool}

theorem routes_spelled (hpath : e.path = Template.parse (String.ofList path)) :
    e.routes = (routesIn e.kind (Template.letters [] path)).map String.ofList := by
  have hroute : ∀ text : Option String,
      (Template.parse (String.ofList path)).write (fun _ => text) =
        String.ofList (Template.fill (text.getD "").toList (Template.letters [] path)) := by
    intro text
    rw [← Template.toList_write_spelled, String.ofList_toList]
  unfold routes routesIn
  rw [hpath]
  split
  · rw [List.map_map]
    refine List.map_congr_left fun state _ => ?_
    rw [hroute, Option.getD_some, Interaction.name_spelled, String.toList_ofList]
    rfl
  · rw [hroute]
    rfl

/-- What is found out about the letters of a path is true of the emission. -/
theorem Keeps.of_passes {keeps : String → Prop} {ends : Option String → String → Prop}
    (hstep : ∀ key, step key.toList = true → keeps key)
    (htarget : ∀ place key, target (place.map String.toList) key.toList = true → ends place key)
    (hpath : e.path = Template.parse (String.ofList path))
    (h : passes e.kind step target path = true) : e.Keeps keeps ends := by
  unfold passes at h
  simp only [Bool.and_eq_true, List.all_eq_true] at h
  obtain ⟨hholes, hroutes⟩ := h
  -- a route is judged by its letters, each of the three properties for all routes at once
  have hspelled : ∀ route ∈ e.routes, ∃ letters, route = String.ofList letters ∧
      letters ∈ routesIn e.kind (Template.letters [] path) := by
    intro route hroute
    rw [routes_spelled hpath] at hroute
    obtain ⟨letters, hletters, rfl⟩ := List.mem_map.1 hroute
    exact ⟨letters, rfl, hletters⟩
  constructor
  · intro hole hhole
    rw [hpath] at hhole
    have hmarked := hholes _ (Template.mem_holes_spelled hhole)
    simp only [Bool.not_true, Bool.false_or, Bool.and_eq_true, beq_iff_eq] at hmarked
    exact ⟨hmarked.1, String.toList_inj.1 hmarked.2⟩
  · intro route hroute key hkey
    obtain ⟨letters, rfl, hletters⟩ := hspelled route hroute
    rw [EmissionKind.stepKeys_spelled] at hkey
    obtain ⟨cs, hcs, rfl⟩ := List.mem_map.1 hkey
    refine hstep _ ?_
    rw [String.toList_ofList]
    exact (hroutes letters hletters).1 cs hcs
  · intro route hroute place hplace
    obtain ⟨letters, rfl, hletters⟩ := hspelled route hroute
    rw [EmissionKind.target?_spelled] at hplace
    obtain ⟨⟨name, key⟩, hends, rfl⟩ := Option.map_eq_some_iff.1 hplace
    have hpassed := (hroutes letters hletters).2
    rw [hends] at hpassed
    refine htarget _ _ ?_
    simpa [Option.map_map, Function.comp_def] using hpassed

/-- An emission spares some keys if the letters of its path spell none of them. -/
theorem Spares.of_letters {keys : List String} {letters : List (List Char)}
    (hkeys : keys = letters.map String.ofList)
    (hpath : e.path = Template.parse (String.ofList path))
    (h : passes e.kind (!letters.contains ·) (fun _ key => !letters.contains key) path = true) :
    e.Spares keys := by
  have hspelled : ∀ key : String, (!letters.contains key.toList) = true → key ∉ keys := by
    intro key hkey hmem
    rw [hkeys] at hmem
    obtain ⟨cs, hcs, rfl⟩ := List.mem_map.1 hmem
    rw [String.toList_ofList, List.contains_iff_mem.2 hcs] at hkey
    cases hkey
  exact .of_passes hspelled (fun _ => hspelled) hpath h

end Emission

end LayoutCompiler
