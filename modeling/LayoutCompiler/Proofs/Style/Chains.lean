import LayoutCompiler.Proofs.Style.Inheritance
import Mathlib.Logic.Relation
/-!
# How chains end

Following parents from a style either ends at a style without a parent in the sheet, or comes back
to a style that it has passed (`ComesBack`), which need not be the first one. A chain is refused in
the second case, and for a name that no style has.

* `Lineage.not_comesBack`, `Loop.comesBack`: a way up that ends, and one that does not.
* `climb_steady`: more steps than the sheet has styles make no difference to a climb.
* `chain_outcomes`: which outcome a chain has, and what it tells.
-/

open Relation (ReflTransGen TransGen)

namespace LayoutCompiler

namespace StyleSheet

variable {sheet : StyleSheet}

/-! ## The way up -/

/-- A style is the parent of another one. -/
def Above (sheet : StyleSheet) (layer above : String × Style) : Prop :=
  sheet.parent? layer.2 = some above

/-- Following parents from a style comes back to a style that has been passed. -/
def ComesBack (sheet : StyleSheet) (layer : String × Style) : Prop :=
  ∃ passed, ReflTransGen sheet.Above layer passed ∧ TransGen sheet.Above passed passed

theorem ComesBack.of_above {layer above : String × Style} (hparent : sheet.Above layer above)
    (h : sheet.ComesBack layer) : sheet.ComesBack above := by
  obtain ⟨passed, hto, hround⟩ := h
  rcases hto.cases_head with rfl | ⟨next, hnext, hrest⟩
  · -- the way round starts at the parent as well, which is on it
    obtain ⟨next, hnext, hrest⟩ := TransGen.head'_iff.1 hround
    obtain rfl : above = next := Option.some.inj (hparent.symm.trans hnext)
    exact ⟨above, .refl, TransGen.tail' hrest hparent⟩
  · obtain rfl : above = next := Option.some.inj (hparent.symm.trans hnext)
    exact ⟨passed, hrest, hround⟩

/-- A way up that ends does not come back. -/
theorem Lineage.not_comesBack {layer : String × Style} {layers : List (String × Style)}
    (h : Lineage sheet layer layers) : ¬ sheet.ComesBack layer := by
  induction h with
  | @last layer hnone =>
    rintro ⟨passed, hto, hround⟩
    have hstuck : ∀ above, ¬ sheet.Above layer above := by
      intro above habove
      have hsome := hnone.symm.trans habove
      cases hsome
    rcases hto.cases_head with rfl | ⟨above, habove, -⟩
    · obtain ⟨above, habove, -⟩ := TransGen.head'_iff.1 hround
      exact hstuck above habove
    · exact hstuck above habove
  | next hparent _ ih =>
    intro hback
    exact ih (hback.of_above hparent)

theorem Lineage.unique {layer : String × Style} {layers others : List (String × Style)}
    (h : Lineage sheet layer layers) (h' : Lineage sheet layer others) : layers = others := by
  induction h generalizing others with
  | last hnone =>
    -- whether there is a parent, and which, is decided by the style alone
    cases h' with
    | last => rfl
    | next hparent _ =>
      rw [hnone] at hparent
      cases hparent
  | next hparent _ ih =>
    cases h' with
    | last hnone =>
      rw [hnone] at hparent
      cases hparent
    | next hparent' hrest =>
      rw [hparent] at hparent'
      cases hparent'
      rw [ih hrest]

theorem Ascent.reaches {layer last : String × Style} {layers : List (String × Style)}
    (h : Ascent sheet layer layers last) : ReflTransGen sheet.Above layer last := by
  induction h with
  | here => exact .refl
  | up hparent _ ih => exact .head hparent ih

/-- The styles passed on the way to a style lie between the two. -/
theorem Ascent.between {layer last passed : String × Style} {layers : List (String × Style)}
    (h : Ascent sheet layer layers last) (hmem : passed ∈ layers) :
    ReflTransGen sheet.Above layer passed ∧ ReflTransGen sheet.Above passed last := by
  induction h with
  | here =>
    rw [List.mem_singleton.1 hmem]
    exact ⟨.refl, .refl⟩
  | up hparent hrest ih =>
    rcases List.mem_cons.1 hmem with rfl | hmem
    · exact ⟨.refl, .head hparent hrest.reaches⟩
    · obtain ⟨hto, hfrom⟩ := ih hmem
      exact ⟨.head hparent hto, hfrom⟩

/-- Different styles on the way up from one of them, and that one of them which is the parent of the
last one. -/
structure Loop (sheet : StyleSheet) (layer : String × Style) (layers : List (String × Style))
    (back : String × Style) : Prop where
  path : Path sheet layers
  closes : ∃ last, Ascent sheet layer layers last ∧ sheet.Above last back
  passed : back ∈ layers

theorem Loop.comesBack {layer back : String × Style} {layers : List (String × Style)}
    (h : Loop sheet layer layers back) : sheet.ComesBack layer := by
  obtain ⟨last, hascent, hback⟩ := h.closes
  obtain ⟨hto, hfrom⟩ := hascent.between h.passed
  exact ⟨back, hto, TransGen.tail' hfrom hback⟩

/-! ## The bound on the steps -/

/-- More steps than the sheet has styles make no difference to a climb. -/
theorem climb_steady {steps more : Nat} {before : List (String × Style)} {layer : String × Style}
    (hpath : Path sheet (before ++ [layer])) (hsteps : sheet.size < before.length + 1 + steps)
    (hmore : steps ≤ more) :
    sheet.climb more (before ++ [layer]) layer.2 =
      sheet.climb steps (before ++ [layer]) layer.2 := by
  induction steps generalizing before layer more with
  | zero =>
    -- no path is longer than the sheet, so the steps cannot run out before it ends
    have hlength := hpath.length_le
    rw [List.length_append, List.length_singleton] at hlength
    omega
  | succ steps ih =>
    obtain ⟨more, rfl⟩ : ∃ fewer, more = fewer + 1 := ⟨more - 1, by omega⟩
    rw [hpath.climb_succ, hpath.climb_succ]
    cases hparent : sheet.parent? layer.2 with
    | none => rfl
    | some above =>
      dsimp only
      by_cases hmem : above.1 ∈ (before ++ [layer]).map Prod.fst
      · rw [if_pos hmem, if_pos hmem]
      · rw [if_neg hmem, if_neg hmem]
        have hleft : sheet.size < (before ++ [layer]).length + 1 + steps := by
          rw [List.length_append, List.length_singleton]
          omega
        exact ih (hpath.append (get?_of_parent? hparent) hmem) hleft (by omega)

/-- The bound on its steps makes no difference to a chain. -/
theorem climb_eq_chain {reference : String} {style : Style} {steps : Nat}
    (hfind : sheet.find? reference = some style) (hsteps : sheet.size ≤ steps) :
    sheet.climb steps [(bareName reference, style)] style = sheet.chain reference := by
  have hpath : Path sheet ([] ++ [(bareName reference, style)]) := Path.singleton hfind
  have hchain : sheet.chain reference =
      sheet.climb sheet.size [(bareName reference, style)] style := by
    unfold find? at hfind
    unfold StyleSheet.chain
    dsimp only
    rw [hfind]
  rw [hchain]
  exact climb_steady hpath (by simp) hsteps

/-! ## Outcomes -/

/-- The chain of a style of the sheet is what there is from the style up, if that ends. If it comes
back, the failure tells the styles on the way and which of them comes again. -/
theorem chain_of_found {reference : String} {style : Style}
    (hfind : sheet.find? reference = some style) :
    (∃ layers, Lineage sheet (bareName reference, style) layers ∧ Path sheet layers ∧
      sheet.chain reference = .ok ⟨layers⟩) ∨
    (∃ layers back, Loop sheet (bareName reference, style) layers back ∧
      sheet.chain reference = .error (.styleCycle (layers.map Prod.fst) back.1)) := by
  rcases sheet.chain_cases reference with ⟨hnone, -⟩ | ⟨other, hother, hcases⟩
  · rw [hfind] at hnone
    cases hnone
  · rw [hfind] at hother
    cases hother
    rcases hcases with hends | ⟨layers, last, back, hascent, hback, hpath, hpassed, hchain⟩
    · left
      exact hends
    · right
      exact ⟨layers, back, ⟨hpath, ⟨last, hascent, hback⟩, hpassed⟩, hchain⟩

theorem chain_of_missing {reference : String} (hfind : sheet.find? reference = none) :
    sheet.chain reference = .error (.reference (ResourceKind.style.reference (bareName reference))
      (.missing .style)) := by
  unfold find? at hfind
  unfold StyleSheet.chain
  dsimp only
  rw [hfind]

/-- A chain fails for want of the style if no style has the name. It fails as circular if following
parents from the style comes back to one that has been passed, and tells the different styles on the
way and which of them comes again. Otherwise it is what there is from the style up to the first one
without a parent in the sheet. No way is longer than the sheet is large, whatever the bound on its
steps. -/
theorem chain_outcomes (sheet : StyleSheet) (reference : String) :
    ((∃ text fault, sheet.chain reference = .error (.reference text fault)) ↔
      sheet.find? reference = none) ∧
    ((∃ names again, sheet.chain reference = .error (.styleCycle names again)) ↔
      ∃ style, sheet.find? reference = some style ∧
        sheet.ComesBack (bareName reference, style)) ∧
    ((∃ layers, sheet.chain reference = .ok ⟨layers⟩) ↔
      ∃ style, sheet.find? reference = some style ∧
        ¬ sheet.ComesBack (bareName reference, style)) ∧
    (∀ layers, sheet.chain reference = .ok ⟨layers⟩ ↔
      ∃ style, sheet.find? reference = some style ∧
        Lineage sheet (bareName reference, style) layers) ∧
    (∀ text fault, sheet.chain reference = .error (.reference text fault) →
      text = ResourceKind.style.reference (bareName reference) ∧ fault = .missing .style) ∧
    (∀ names again, sheet.chain reference = .error (.styleCycle names again) →
      ∃ style layers back, sheet.find? reference = some style ∧
        Loop sheet (bareName reference, style) layers back ∧
        names = layers.map Prod.fst ∧ again = back.1 ∧ layers.length ≤ sheet.size) ∧
    (∀ layers, sheet.chain reference = .ok ⟨layers⟩ → layers.length ≤ sheet.size) ∧
    (∀ style steps, sheet.find? reference = some style → sheet.size ≤ steps →
      sheet.climb steps [(bareName reference, style)] style = sheet.chain reference) := by
  have hsteady : ∀ style steps, sheet.find? reference = some style → sheet.size ≤ steps →
      sheet.climb steps [(bareName reference, style)] style = sheet.chain reference := by
    intro style steps hfind hsteps
    exact climb_eq_chain hfind hsteps
  cases hfind : sheet.find? reference with
  | none =>
    rw [chain_of_missing hfind]
    simp
  | some style =>
    rw [hfind] at hsteady
    rcases chain_of_found hfind with ⟨layers, hlineage, hpath, hchain⟩ |
      ⟨layers, back, hloop, hchain⟩
    -- the climb ends: the layers are the one lineage of the style
    · have hends := hlineage.not_comesBack
      rw [hchain] at hsteady ⊢
      refine ⟨by simp, by simpa using hends, by simpa using hends, ?_, by simp, by simp, ?_,
        hsteady⟩
      · intro others
        constructor
        · intro heq
          cases heq
          exact ⟨style, rfl, hlineage⟩
        · rintro ⟨other, hother, hothers⟩
          cases hother
          rw [hlineage.unique hothers]
      · intro others heq
        cases heq
        exact hpath.length_le
    -- the climb comes back: no lineage exists, and the fault names the loop
    · have hback := hloop.comesBack
      rw [hchain] at hsteady ⊢
      refine ⟨by simp, by simpa using hback, by simpa using hback, ?_, by simp, ?_, by simp,
        hsteady⟩
      · intro others
        constructor
        · intro heq
          cases heq
        · rintro ⟨other, hother, hothers⟩
          cases hother
          exact absurd hback hothers.not_comesBack
      · intro names again heq
        cases heq
        exact ⟨style, layers, back, rfl, hloop, rfl, rfl, hloop.path.length_le⟩

/-- A style comes again that is not the one the chain starts from. -/
example : chain (.ofList [("Card", { parent := some "@style/Box" }),
    ("Box", { parent := some "Panel" }), ("Panel", { parent := some "android:Box" })]) "Card" =
    .error (.styleCycle ["Card", "Box", "Panel"] "Box") := rfl

end StyleSheet

end LayoutCompiler
