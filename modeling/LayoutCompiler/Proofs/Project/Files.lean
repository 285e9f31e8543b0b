import LayoutCompiler.Proofs.Number.Rational
import LayoutCompiler.Proofs.Output.Paths
import LayoutCompiler.Proofs.Storage.Journal
import LayoutCompiler.Storage.FileTree
import Mathlib.Data.Finset.Card
import Mathlib.Data.List.Forall2
/-!
# The files of a project

Which files a project writes, and how many of them it reports. A project counts what it writes, and
the count is that of the different files as long as generated code spells the names of its layouts
differently.
-/

namespace LayoutCompiler

variable {σ α : Type} [Storage (StateM σ)]

open Session

/-! ## Reading -/

namespace RuleBook

theorem reads_loadFile (book : RuleBook) (path : String) :
    Reads (σ := σ) (book.loadFile path) (book.loadFile path) := by
  unfold loadFile
  cases DataFormat.ofPath? path with
  | none => exact reads_throw _
  | some format => exact (reads_attempt _).bind fun _ => reads_ofOutcome _

theorem reads_loadFolder (book : RuleBook) (path : String) :
    Reads (σ := σ) (book.loadFolder path) (book.loadFolder path) :=
  (reads_attempt _).bind fun _ => Reads.foldlM reads_loadFile _ _

theorem reads_loadPath (book : RuleBook) (path : String) :
    Reads (σ := σ) (book.loadPath path) (book.loadPath path) := by
  refine (reads_perform _).bind fun isFolder => ?_
  cases isFolder
  · exact reads_loadFile book path
  · exact reads_loadFolder book path

theorem reads_ofOptions (options : Options) :
    Reads (σ := σ) (ofOptions options) (ofOptions options) :=
  Reads.foldlM reads_loadPath _ _

end RuleBook

variable [Scalar α]

namespace ResourceFolder

theorem reads_document (path : String) : Reads (σ := σ) (document path) (document path) :=
  (reads_attempt _).bind fun _ => reads_ofOutcome _

theorem reads_readDrawable (raw : RawResources α) (file path : String) :
    Reads (σ := σ) (readDrawable raw file path) (readDrawable raw file path) := by
  have hdocument := reads_document (σ := σ) path
  exact (reads_pure _).ite <| (reads_pure _).ite <|
    (hdocument.bind fun _ => reads_pure _).ite (reads_pure _)

omit [Scalar α] in
theorem reads_readFont (raw : RawResources α) (file path : String) :
    Reads (σ := σ) (readFont raw file path) (readFont raw file path) := by
  have hdocument := reads_document (σ := σ) path
  exact (reads_pure _).ite <| (hdocument.bind fun _ => reads_pure _).ite (reads_pure _)

theorem reads_readFile (d : ResourceFolder α) (role : ResourceRole) (file path : String) :
    Reads (σ := σ) (d.readFile role file path) (d.readFile role file path) := by
  cases role with
  | values => exact (reads_document path).bind fun _ => reads_pure _
  | colors => exact (reads_document path).bind fun _ => reads_pure _
  | drawables => exact (reads_readDrawable d.raw file path).bind fun _ => reads_pure _
  | fonts => exact (reads_readFont d.raw file path).bind fun _ => reads_pure _
  | layouts isDefault => exact (reads_pure _).ite (reads_pure _)
  | none => exact reads_pure d

theorem reads_read (root : String) :
    Reads (σ := σ) (read root : Session _ (ResourceFolder α)) (read root) := by
  have hread (d : ResourceFolder α) (folder : String × Bool) := (reads_attempt (σ := σ)
    (Storage.entries (Path.join root folder.1))).bind fun files =>
      Reads.foldlM (fun d (file : String × Bool) => reads_readFile d (.ofName folder.1) file.1
        (Path.join (Path.join root folder.1) file.1)) (files.filter fun entry => !entry.2) d
  have hall := (reads_attempt (σ := σ) (Storage.entries root)).bind fun folders =>
    Reads.foldlM hread (folders.filter (·.2)) ({} : ResourceFolder α)
  exact (reads_perform _).bind fun isFolder =>
    ((reads_throw _).bind fun _ => hall).ite hall

end ResourceFolder

namespace Project

/-! ## One layout -/

variable {setting : Setting α}

theorem reads_compileFile (path : String) :
    Reads (σ := σ) (compileFile setting path) (compileFile setting path) :=
  (reads_attempt _).bind fun _ => reads_ofOutcome _

theorem reads_compileVariant (setting : Setting α) (state : Statistics × List (Compilation α))
    (path : String) :
    Reads (σ := σ) (compileVariant setting state path) (compileVariant setting state path) := by
  refine (reads_compileFile path).outcome.bind fun outcome => ?_
  cases outcome with
  | ok t => exact reads_pure _
  | error e => exact (reads_pure _).ite (reads_throw e)

/-- A compilation is called after the file at one of some paths. -/
def IsCalledAfter (paths : List String) (t : Compilation α) : Prop :=
  ∃ path ∈ paths, t.name = Compilation.nameOf (label path)

theorem name_of_ofElement {file : String} {root : Element} {t : Compilation α}
    (h : Compilation.ofElement setting file root = .ok t) : t.name = Compilation.nameOf file := by
  rw [Compilation.ofElement] at h
  obtain ⟨⟨child, pass⟩, -, hrest⟩ := bind_eq_ok_iff.1 h
  by_cases hconstraints : setting.options.target.usesConstraints
  · simp only [hconstraints, if_true] at hrest
    obtain ⟨_, -, hpure⟩ := bind_eq_ok_iff.1 hrest
    cases hpure
    rfl
  · simp only [hconstraints] at hrest
    cases hrest
    rfl

theorem name_of_compileFile {path : String} {t : Compilation α}
    (h : Returned (compileFile setting path : Session (StateM σ) _) t) :
    t.name = Compilation.nameOf (label path) := by
  obtain ⟨text, -, hofText⟩ := returned_bind h
  have h := returned_ofOutcome hofText
  rw [Compilation.ofText] at h
  obtain ⟨root, -, hok⟩ := bind_eq_ok_iff.1 h
  exact name_of_ofElement hok

theorem returned_compileVariant {state state' : Statistics × List (Compilation α)} {path : String}
    (h : Returned (compileVariant setting state path : Session (StateM σ) _) state') :
    state'.1.layouts = state.1.layouts ∧ state'.1.files = state.1.files ∧
      ∀ t ∈ state'.2, t ∈ state.2 ∨ t.name = Compilation.nameOf (label path) := by
  obtain ⟨outcome, houtcome, hrest⟩ := returned_bind h
  cases outcome with
  | ok t =>
    obtain ⟨_, _, hpure⟩ := hrest
    cases hpure
    refine ⟨rfl, rfl, fun u hu => ?_⟩
    rcases List.mem_append.1 hu with hu | hu
    · exact Or.inl hu
    · obtain rfl := List.mem_singleton.1 hu
      exact Or.inr (name_of_compileFile (returned_of_outcome houtcome))
  | error e =>
    by_cases htolerated : isTolerated setting.options e
    -- a fault that is tolerated is noted, and the variant is left out
    · obtain ⟨_, _, hpure⟩ := hrest
      simp only [htolerated, if_true] at hpure
      cases hpure
      exact ⟨rfl, rfl, fun u hu => Or.inl hu⟩
    · obtain ⟨_, _, hthrow⟩ := hrest
      simp [htolerated] at hthrow

/-- The variants of a layout are called after its files, and do not touch the counts of layouts and
of files. -/
theorem returned_compileVariants {statistics : Statistics} {paths : List String}
    {state' : Statistics × List (Compilation α)}
    (h : Returned (paths.foldlM (compileVariant setting) (statistics, []) : Session (StateM σ) _)
      state') :
    state'.1.layouts = statistics.layouts ∧ state'.1.files = statistics.files ∧
      ∀ t ∈ state'.2, IsCalledAfter paths t := by
  refine returned_foldlM (I := fun state => state.1.layouts = statistics.layouts ∧
    state.1.files = statistics.files ∧ ∀ t ∈ state.2, IsCalledAfter paths t) ?_ ?_ h
  · intro path hpath state next ⟨hlayouts, hfiles, hcalled⟩ hstep
    obtain ⟨hlayouts', hfiles', hmem⟩ := returned_compileVariant hstep
    refine ⟨hlayouts'.trans hlayouts, hfiles'.trans hfiles, fun t ht => ?_⟩
    rcases hmem t ht with ht | hname
    · exact hcalled t ht
    · exact ⟨path, hpath, hname⟩
  · exact ⟨rfl, rfl, fun _ ht => absurd ht List.not_mem_nil⟩

/-- Paths in the folder to write to, if there is one. -/
def writtenTo (output : Option String) (paths : List String) : List String :=
  output.toList.flatMap fun folder => paths.map (Path.join folder)

theorem records_writeFiles (output : Option String) (files : List OutputFile) :
    Records (σ := σ) (writeFiles output files) (writeFiles output files) fun n written =>
      written = writtenTo output (files.map (·.path)) ∧ n = written.length := by
  cases output with
  | none => exact records_pure ⟨rfl, rfl⟩
  | some folder =>
    have hloop := Records.forIn (σ := σ)
      (fun file : OutputFile => records_write (Path.join folder file.path) file.contents) files
    refine hloop.bind fun _ written hwritten => records_pure ?_
    simp [hwritten, writtenTo]

theorem writtenTo_append (output : Option String) (paths paths' : List String) :
    writtenTo output (paths ++ paths') = writtenTo output paths ++ writtenTo output paths' := by
  cases output <;> simp [writtenTo]

/-- What the compilation of one layout adds to a project: nothing when no variant of it can be
compiled, and otherwise a layout with its files. -/
inductive Adds (setting : Setting α) (output : Option String) (paths : List String)
    (progress progress' : Progress) : List String → Prop
  | nothing (layouts : progress'.statistics.layouts = progress.statistics.layouts)
      (files : progress'.statistics.files = progress.statistics.files) :
      Adds setting output paths progress progress' []
  | layout (t : Compilation α) (name : IsCalledAfter paths t)
      (generated : ∃ files, t.files setting.options.target setting.resources = .ok files)
      (layouts : progress'.statistics.layouts = progress.statistics.layouts + 1)
      (files : progress'.statistics.files = progress.statistics.files +
        (writtenTo output (Compilation.paths setting.options.target t.name)).length) :
      Adds setting output paths progress progress'
        (writtenTo output (Compilation.paths setting.options.target t.name))

theorem records_compileLayout (output : Option String) (progress : Progress)
    (paths : List String) :
    Records (σ := σ) (compileLayout setting output progress paths)
      (compileLayout setting output progress paths) (Adds setting output paths progress) := by
  have hvariants := Reads.foldlM (σ := σ) (reads_compileVariant setting) paths
    (progress.statistics, [])
  refine hvariants.bind_records fun (statistics, variants) hreturned => ?_
  obtain ⟨hlayouts, hfiles, hnames⟩ := returned_compileVariants hreturned
  cases variants with
  | nil => exact records_pure (.nothing hlayouts hfiles)
  | cons primary others =>
    have hprimary := hnames primary List.mem_cons_self
    -- a merge is called like its primary variant
    have hname : (primary.merge others).name = primary.name := by
      unfold Compilation.merge
      split <;> rfl
    refine (reads_ofOutcome _).bind_records fun files hgenerated => ?_
    have hok := returned_ofOutcome hgenerated
    refine (records_writeFiles output files).bind fun n written hwritten => records_pure ?_
    obtain ⟨rfl, rfl⟩ := hwritten
    rw [List.append_nil, Compilation.paths_of_files hok]
    refine .layout (primary.merge others) ?_ ⟨files, hok⟩ ?_ ?_
    · obtain ⟨path, hpath, hcalled⟩ := hprimary
      exact ⟨path, hpath, hname.trans hcalled⟩
    · simpa [Statistics.addLayout] using hlayouts
    · simpa [Statistics.addLayout] using hfiles

/-! ## All layouts -/

/-- A project with layouts that are made of groups of files, and with other files that the layouts
share: what is written, and what is counted. -/
structure Delivers (setting : Setting α) (output : Option String) (groups : List (List String))
    (shared : List String) (layouts : List (Compilation α)) (statistics : Statistics)
    (written : List String) : Prop where
  /-- Each layout is called after a file of a group of its own. -/
  named : ∃ kept, kept.Sublist groups ∧ List.Forall₂ IsCalledAfter kept layouts
  generated : ∀ t ∈ layouts,
    ∃ files, t.files setting.options.target setting.resources = .ok files
  counted : statistics.layouts = layouts.length
  written_eq : written = writtenTo output
    (layouts.flatMap (fun t => Compilation.paths setting.options.target t.name) ++ shared)
  files : statistics.files = written.length

theorem delivers_nothing (setting : Setting α) (output : Option String) :
    Delivers setting output [] [] [] {} [] where
  named := ⟨[], .slnil, .nil⟩
  generated _ ht := absurd ht List.not_mem_nil
  counted := rfl
  written_eq := by cases output <;> rfl
  files := rfl

theorem Delivers.add {output : Option String} {groups : List (List String)}
    {layouts : List (Compilation α)} {progress progress' : Progress} {written more : List String}
    (h : Delivers setting output groups [] layouts progress.statistics written)
    {paths : List String} (hadds : Adds setting output paths progress progress' more) :
    ∃ layouts', Delivers setting output (groups ++ [paths]) [] layouts' progress'.statistics
      (written ++ more) := by
  obtain ⟨kept, hkept, hnamed⟩ := h.named
  cases hadds with
  -- no variant was compiled, so the group is passed over
  | nothing hlayouts hfiles =>
    refine ⟨layouts, ⟨kept, ?_, hnamed⟩, h.generated, hlayouts.trans h.counted, ?_, ?_⟩
    · exact hkept.trans (List.sublist_append_left groups [paths])
    · rw [List.append_nil, h.written_eq]
    · rw [List.append_nil, hfiles, h.files]
  | layout t hname hgenerated hlayouts hfiles =>
    refine ⟨layouts ++ [t], ⟨kept ++ [paths], ?_, ?_⟩, ?_, ?_, ?_, ?_⟩
    · exact hkept.append (List.Sublist.refl [paths])
    · exact List.rel_append hnamed (.cons hname .nil)
    · intro u hu
      rcases List.mem_append.1 hu with hu | hu
      · exact h.generated u hu
      · obtain rfl := List.mem_singleton.1 hu
        exact hgenerated
    · rw [hlayouts, h.counted, List.length_append, List.length_singleton]
    · rw [h.written_eq, ← writtenTo_append, List.append_nil, List.append_nil, List.flatMap_append,
        List.flatMap_singleton]
    · rw [hfiles, h.files, List.length_append]

theorem Delivers.share {output : Option String} {groups : List (List String)}
    {layouts : List (Compilation α)} {statistics statistics' : Statistics} {written : List String}
    (h : Delivers setting output groups [] layouts statistics written) {shared : List String}
    (hlayouts : statistics'.layouts = statistics.layouts)
    (hfiles : statistics'.files = statistics.files + (writtenTo output shared).length) :
    Delivers setting output groups shared layouts statistics'
      (written ++ writtenTo output shared) where
  named := h.named
  generated := h.generated
  counted := hlayouts.trans h.counted
  written_eq := by rw [h.written_eq, ← writtenTo_append, List.append_nil]
  files := by rw [hfiles, h.files, List.length_append]

theorem records_compileLayouts (setting : Setting α) (output : Option String)
    (groups : List (List String)) :
    Records (σ := σ) (groups.foldlM (compileLayout setting output) {})
      (groups.foldlM (compileLayout setting output) {}) fun progress written =>
        ∃ layouts, Delivers setting output groups [] layouts progress.statistics written := by
  have hstart : ∃ layouts, Delivers setting output [] [] layouts ({} : Progress).statistics [] :=
    ⟨[], delivers_nothing setting output⟩
  refine Records.foldlM
    (I := fun groups (progress : Progress) written =>
      ∃ layouts, Delivers setting output groups [] layouts progress.statistics written)
    ?_ groups hstart
  intro done progress paths written ⟨layouts, h⟩
  exact (records_compileLayout output progress paths).mono fun _ _ hadds => h.add hadds

variable [Clock (StateM σ)]

/-- A project delivers the layouts of its folder. -/
theorem records_compile (root : String) (output : Option String) (options : Options) :
    Records (σ := σ) (compile α root output options) (compile α root output options)
      fun statistics written => ∃ (folder : ResourceFolder α) (setting : Setting α)
        (layouts : List (Compilation α)),
        Returned (ResourceFolder.read root : Session (StateM σ) _) folder ∧
        setting.options = options ∧
        folder.raw.resolveWith options = .ok setting.resources ∧
        Delivers setting output folder.layouts.values (sharedPaths options.target) layouts
          statistics written := by
  refine (reads_perform _).bind_records fun begun _ => ?_
  refine (RuleBook.reads_ofOptions options).bind_records fun book _ => ?_
  refine (ResourceFolder.reads_read root).bind_records fun folder hfolder => ?_
  refine (reads_ofOutcome _).bind_records fun resources hresources => ?_
  let setting : Setting α := { book, resources, options }
  have hlayouts := records_compileLayouts (σ := σ) setting output folder.layouts.values
  -- making the folder is the only step that is there for some outputs and not for others
  cases output
  case' some path => refine (reads_attempt _).bind_records fun _ _ => ?_
  all_goals
    refine hlayouts.bind fun progress written hprogress => ?_
    refine (records_writeFiles _ (sharedFiles setting progress.used)).bind fun n more hmore => ?_
    refine (reads_perform _).bind_records fun ended _ => records_pure ?_
    obtain ⟨layouts, h⟩ := hprogress
    refine ⟨folder, setting, layouts, hfolder, rfl, returned_ofOutcome hresources, ?_⟩
    obtain ⟨rfl, rfl⟩ := hmore
    rw [List.append_nil, paths_sharedFiles]
    exact h.share rfl rfl

/-! ## Different files -/

theorem join_injective (folder : String) : Function.Injective (Path.join folder) := by
  intro a b h
  unfold Path.join at h
  split at h <;> simpa [← String.toList_inj] using h

theorem nodup_writtenTo {folder : String} {paths : List String} :
    (writtenTo (some folder) paths).Nodup ↔ paths.Nodup := by
  simp [writtenTo, List.nodup_map_iff (join_injective folder)]

/-- With a folder to write to, the count is that of the different files exactly when generated code
spells the names of all layouts differently. -/
theorem Delivers.files_eq_card_iff {folder : String} {groups : List (List String)}
    {layouts : List (Compilation α)} {statistics : Statistics} {written : List String}
    (h : Delivers setting (some folder) groups (sharedPaths setting.options.target) layouts
      statistics written) :
    statistics.files = written.toFinset.card ↔
      (layouts.map fun t => Text.pascalCase t.name).Nodup := by
  have hpaths : layouts.flatMap (fun t => Compilation.paths setting.options.target t.name) ++
      sharedPaths setting.options.target =
      paths setting.options.target (layouts.map (·.name)) := by
    rw [paths, List.flatMap_map]
  have hnodup : written.Nodup ↔ (layouts.map fun t => Text.pascalCase t.name).Nodup := by
    rw [h.written_eq, nodup_writtenTo, hpaths, nodup_paths_iff, List.map_map]
    rfl
  rw [← hnodup, h.files, eq_comm]
  exact Multiset.toFinset_card_eq_card_iff_nodup

/-- A project that ends delivers the layouts of its folder, and with a journal it ends in the same
way. The files of two layouts are different ones exactly when generated code spells their names
differently, and the project reports how many different files it writes exactly when that is so for
all its layouts, as it is when their names are different rows of words. -/
theorem delivers_of_compile {root : String} {output : Option String} {options : Options} {s s' : σ}
    {statistics : Statistics}
    (h : (compile α root output options : Session (StateM σ) Statistics).on s =
      (.ok statistics, s')) :
    ∃ (folder : ResourceFolder α) (setting : Setting α) (layouts : List (Compilation α))
      (written : List String),
      Returned (ResourceFolder.read root : Session (StateM σ) _) folder ∧
      setting.options = options ∧ folder.raw.resolveWith options = .ok setting.resources ∧
      Delivers setting output folder.layouts.values (sharedPaths options.target) layouts statistics
        written ∧
      (compile α root output options : Session (StateM (Journal σ)) Statistics).on ⟨s, []⟩ =
        (.ok statistics, ⟨s', written⟩) ∧
      (∀ t ∈ layouts, ∀ u ∈ layouts, ∀ files files',
        t.files options.target setting.resources = .ok files →
        u.files options.target setting.resources = .ok files' →
        ((files.map (·.path)).Disjoint (files'.map (·.path)) ↔
          Text.pascalCase t.name ≠ Text.pascalCase u.name)) ∧
      (statistics.files = written.toFinset.card ↔
        output = none ∨ (layouts.map fun t => Text.pascalCase t.name).Nodup) ∧
      ((∀ t ∈ layouts, Text.Conventional t.name) → (layouts.map (·.name)).Nodup →
        statistics.files = written.toFinset.card) := by
  obtain ⟨written, hjournal, folder, setting, layouts, hfolder, rfl, hresources, hdelivers⟩ :=
    records_compile root output options s [] statistics s' h
  rw [List.nil_append] at hjournal
  -- two layouts write one path just if their names agree in pascal case
  have hcount : statistics.files = written.toFinset.card ↔
      output = none ∨ (layouts.map fun t => Text.pascalCase t.name).Nodup := by
    cases output with
    | none => simp [hdelivers.files, hdelivers.written_eq, writtenTo]
    | some path => simpa using hdelivers.files_eq_card_iff
  refine ⟨folder, setting, layouts, written, hfolder, rfl, hresources, hdelivers, hjournal, ?_,
    hcount, ?_⟩
  · intro t _ u _ files files' hfiles hfiles'
    rw [Compilation.paths_of_files hfiles, Compilation.paths_of_files hfiles']
    exact Compilation.disjoint_paths_iff
  · intro hconventional hnames
    refine hcount.2 (Or.inr ?_)
    rw [List.Nodup, List.pairwise_map] at hnames ⊢
    exact hnames.imp_of_mem fun ht hu hne heq =>
      hne ((hconventional _ ht).eq_of_pascalCase (hconventional _ hu) heq)

end Project

namespace Sample

/-- A project with two layouts whose names generated code spells alike. -/
def clashing : FileTree :=
  .folder [("res", .folder [("layout",
    .folder [("item1.xml", .file "<View/>"), ("item_1.xml", .file "<View/>")])])]

end Sample

namespace Project

/-- Five files are reported, and three are different. -/
theorem delivers_of_clashing : ∃ statistics tree written,
    (compile ℚ "res" (some "out") {} : Session (StateM FileTree) Statistics).on Sample.clashing =
      (.ok statistics, tree) ∧
    (compile ℚ "res" (some "out") {} : Session (StateM (Journal FileTree)) Statistics).on
      ⟨Sample.clashing, []⟩ = (.ok statistics, ⟨tree, written⟩) ∧
    statistics.files = 5 ∧ written.toFinset.card = 3 := by
  have hfiles : ((compile ℚ "res" (some "out") {} : Session (StateM FileTree) Statistics).on
      Sample.clashing).1.toOption.map (·.files) = some 5 := by
    decide +kernel
  have hwritten : ((compile ℚ "res" (some "out") {} :
      Session (StateM (Journal FileTree)) Statistics).on
      ⟨Sample.clashing, []⟩).2.written.toFinset.card = 3 := by
    decide +kernel
  rcases h : (compile ℚ "res" (some "out") {} : Session (StateM FileTree) Statistics).on
    Sample.clashing with ⟨_ | statistics, tree⟩
  · rw [h] at hfiles
    cases hfiles
  · obtain ⟨-, -, -, written, -, -, -, -, hjournal, -⟩ := delivers_of_compile h
    rw [h] at hfiles
    rw [hjournal] at hwritten
    exact ⟨statistics, tree, written, rfl, hjournal, Option.some.inj hfiles, hwritten⟩

end Project

end LayoutCompiler
