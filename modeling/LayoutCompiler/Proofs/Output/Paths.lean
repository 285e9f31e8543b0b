import LayoutCompiler.Output.Bundle
import LayoutCompiler.Project.Compile
import LayoutCompiler.Proofs.Compilation.Failures
import LayoutCompiler.Proofs.Text.Names
import Mathlib.Data.List.Nodup
/-!
# Where the files of a layout are written

The paths of a layout are made from its name. Documents and bindings, and the files that all
layouts of a project share, are told apart by their endings; the files of two layouts only by the
spelling that generated code gives to their names.
-/

namespace LayoutCompiler

/-- Texts with unlike endings are unlike. -/
theorem Text.append_ne_append {x y ending ending' : String}
    (h : ¬ ending.toList <:+ ending'.toList) (h' : ¬ ending'.toList <:+ ending.toList) :
    x ++ ending ≠ y ++ ending' := by
  intro heq
  have hlist := congrArg String.toList heq
  rw [String.toList_append, String.toList_append] at hlist
  have hleft : ending.toList <:+ x.toList ++ ending.toList := List.suffix_append _ _
  have hright : ending'.toList <:+ x.toList ++ ending.toList := hlist ▸ List.suffix_append _ _
  rcases List.suffix_or_suffix_of_suffix hleft hright with hs | hs
  · exact h hs
  · exact h' hs

namespace Compilation

/-- The paths of the files of a layout. -/
def paths (target : Target) (layout : String) : List String :=
  [documentPath target layout, bindingPath target layout]

theorem paths_of_files {α : Type} [Scalar α] {t : Compilation α} {target : Target}
    {resources : ResourceTable α} {files : List OutputFile}
    (h : t.files target resources = .ok files) : files.map (·.path) = paths target t.name := by
  cases target with
  | ios =>
    rw [Compilation.files] at h
    obtain ⟨⟨document, binding⟩, -, hfiles⟩ := bind_eq_ok_iff.1 h
    cases hfiles
    rfl
  | web =>
    cases h
    rfl

/-! ## Two layouts -/

variable {target : Target} {a b : String}

theorem bindingPath_inj :
    bindingPath target a = bindingPath target b ↔ Text.pascalCase a = Text.pascalCase b := by
  cases target <;> simp [bindingPath, bindingName, ← String.toList_inj]

theorem pascalCase_eq_of_documentPath (h : documentPath target a = documentPath target b) :
    Text.pascalCase a = Text.pascalCase b := by
  cases target with
  | ios => simpa [documentPath, ← String.toList_inj] using h
  | web =>
    have hab : a = b := by simpa [documentPath, ← String.toList_inj] using h
    rw [hab]

theorem documentPath_ne_bindingPath : documentPath target a ≠ bindingPath target b := by
  cases target
  · exact Text.append_ne_append (by decide) (by decide)
  · exact Text.append_ne_append (by decide) (by decide)

theorem nodup_paths (target : Target) (a : String) : (paths target a).Nodup := by
  simpa [paths] using documentPath_ne_bindingPath

/-- The files of two layouts are different ones exactly when generated code spells the names
differently. -/
theorem disjoint_paths_iff :
    (paths target a).Disjoint (paths target b) ↔ Text.pascalCase a ≠ Text.pascalCase b := by
  constructor
  · intro hd heq
    have hbinding : bindingPath target a = bindingPath target b := bindingPath_inj.2 heq
    exact hd (a := bindingPath target a) (by simp [paths]) (by simp [paths, hbinding])
  · intro hne path ha hb
    simp only [paths, List.mem_cons, List.not_mem_nil, or_false] at ha hb
    rcases ha with rfl | rfl <;> rcases hb with hb | hb
    · exact hne (pascalCase_eq_of_documentPath hb)
    · exact documentPath_ne_bindingPath hb
    · exact documentPath_ne_bindingPath hb.symm
    · exact hne (bindingPath_inj.1 hb)

end Compilation

/-! ## A project -/

namespace Project

/-- The paths of the files that a project has besides those of its layouts. -/
def sharedPaths : Target → List String
  | .ios => [usedFile]
  | .web => [styleSheetFile, usedFile]

theorem paths_sharedFiles {α : Type} [Scalar α] (setting : Setting α) (used : TextSet) :
    (sharedFiles setting used).map (·.path) = sharedPaths setting.options.target := by
  rw [sharedFiles]
  cases setting.options.target <;> rfl

/-- The paths of the files of a project with some layouts. -/
def paths (target : Target) (layouts : List String) : List String :=
  layouts.flatMap (Compilation.paths target) ++ sharedPaths target

theorem disjoint_sharedPaths (target : Target) (layout : String) :
    (Compilation.paths target layout).Disjoint (sharedPaths target) := by
  have hsheet : styleSheetFile = "styles" ++ ".css" := rfl
  have hused : usedFile = "used-resources" ++ ".json" := rfl
  cases target
  all_goals
    simp only [Compilation.paths, Compilation.documentPath, Compilation.bindingPath, sharedPaths,
      hsheet, hused, List.disjoint_cons_left, List.disjoint_nil_left, List.mem_cons,
      List.not_mem_nil, or_false, not_or, and_true]
    repeat' apply And.intro
  all_goals exact Text.append_ne_append (by decide) (by decide)

/-- The files of a project are different ones exactly when generated code spells the names of all
layouts differently. -/
theorem nodup_paths_iff {target : Target} {layouts : List String} :
    (paths target layouts).Nodup ↔ (layouts.map Text.pascalCase).Nodup := by
  have hshared : (sharedPaths target).Nodup := by cases target <;> decide
  have hdisjoint : (layouts.flatMap (Compilation.paths target)).Disjoint (sharedPaths target) := by
    intro path hpath
    obtain ⟨layout, -, hmem⟩ := List.mem_flatMap.1 hpath
    exact disjoint_sharedPaths target layout hmem
  rw [paths, List.nodup_append', and_iff_left hdisjoint, and_iff_left hshared, List.nodup_flatMap,
    and_iff_right fun layout _ => Compilation.nodup_paths target layout, List.Nodup,
    List.pairwise_map]
  constructor
  · intro h
    exact h.imp Compilation.disjoint_paths_iff.1
  · intro h
    exact h.imp Compilation.disjoint_paths_iff.2

end Project

end LayoutCompiler
