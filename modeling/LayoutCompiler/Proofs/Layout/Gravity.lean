import LayoutCompiler.Layout.Axis
import LayoutCompiler.Proofs.Text.Pieces
/-!
# The order of gravity flags

On each axis a row of flags comes to the alignment that the last one of them asks for. A flag that
speaks of both axes takes the place of one before it that names a side, so that the flags of a row
are no set: their order makes no difference just when those for one axis ask for the same.

* `Gravity.on_ofFlags`: what a row of flags comes to.
* `Gravity.exists_flags_eq`: the flags of a text can be written in any order.
* `Gravity.read_of_orders`: when the order of the flags makes no difference.
-/

namespace LayoutCompiler

namespace Text

/-! ## Blanks -/

theorem mem_of_mem_trimBy {p : Char → Bool} {cs : List Char} {c : Char} (h : c ∈ trimBy p cs) :
    c ∈ cs := by
  have hdrop := List.dropWhile_suffix (l := cs) p
  rw [trimBy_eq] at h
  exact hdrop.subset ((List.rdropWhile_prefix p _).subset h)

end Text

namespace Gravity

variable {axis : Axis}

/-! ## Flags -/

/-- The flags of a text. -/
def flags (raw : String) : List String := (Text.split '|' raw).map Text.trim

/-- The alignment that a flag asks for on an axis. -/
def asks (axis : Axis) (name : String) : Option Align := (flag {} name).on axis

theorem ext_on {g h : Gravity} (heq : ∀ axis, g.on axis = h.on axis) : g = h := by
  obtain ⟨horizontal, vertical⟩ := g
  have hhorizontal : horizontal = h.horizontal := heq .horizontal
  have hvertical : vertical = h.vertical := heq .vertical
  rw [hhorizontal, hvertical]

/-- A flag takes the place of what has been asked for on its axes, and leaves the others alone. -/
theorem on_flag (g : Gravity) (name : String) :
    (g.flag name).on axis = (asks axis name).or (g.on axis) := by
  unfold asks flag
  split <;> cases axis <;> rfl

theorem ofFlags_append_singleton (names : List String) (name : String) :
    ofFlags (names ++ [name]) = (ofFlags names).flag name := by
  unfold ofFlags
  rw [List.foldl_append]
  rfl

/-- What a row of flags comes to is what the last one for an axis asks for. -/
theorem on_ofFlags (names : List String) :
    (ofFlags names).on axis = (names.filterMap (asks axis)).getLast? := by
  induction names using List.reverseRecOn with
  | nil => cases axis <;> rfl
  | append_singleton names name ih =>
    have hone : ([name].filterMap (asks axis)).getLast? = asks axis name := by
      cases hasks : asks axis name <;> simp [hasks]
    rw [ofFlags_append_singleton, on_flag, ih, List.filterMap_append, List.getLast?_append, hone]

/-! ## Orders of flags -/

/-- Flags of which no two ask for different alignments on one axis. -/
def Agree (names : List String) : Prop :=
  ∀ axis, ∀ name ∈ names, ∀ other ∈ names, ∀ align align',
    asks axis name = some align → asks axis other = some align' → align = align'

/-- Flags that agree come to whatever any of them asks for. -/
theorem Agree.on_eq_some_iff {names : List String} (h : Agree names) (align : Align) :
    (ofFlags names).on axis = some align ↔ ∃ name ∈ names, asks axis name = some align := by
  rw [on_ofFlags]
  constructor
  · intro hlast
    exact List.mem_filterMap.1 (List.mem_of_getLast? hlast)
  · intro hasked
    have hmem := List.mem_filterMap.2 hasked
    obtain ⟨last, hlast⟩ := Option.isSome_iff_exists.1
      (List.getLast?_isSome.2 (List.ne_nil_of_mem hmem))
    obtain ⟨name, hname, hasks⟩ := hasked
    obtain ⟨other, hother, hasks'⟩ := List.mem_filterMap.1 (List.mem_of_getLast? hlast)
    rw [hlast, h axis name hname other hother _ _ hasks hasks']

/-- Flags that agree come to the same as any others that are the same set. -/
theorem Agree.ofFlags_eq {names others : List String} (h : Agree names)
    (hsame : ∀ name, name ∈ others ↔ name ∈ names) : ofFlags others = ofFlags names := by
  have hothers : Agree others := by
    intro axis name hname other hother
    exact h axis name ((hsame name).1 hname) other ((hsame other).1 hother)
  apply ext_on
  intro axis
  apply Option.ext
  intro align
  rw [hothers.on_eq_some_iff, h.on_eq_some_iff]
  simp only [hsame]

/-- Flags that come to the same in any order agree: each of them can be the last one. -/
theorem agree_of_perm {names : List String}
    (h : ∀ others, others.Perm names → ofFlags others = ofFlags names) : Agree names := by
  have hdecides : ∀ axis, ∀ name ∈ names, ∀ align, asks axis name = some align →
      (ofFlags names).on axis = some align := by
    intro axis name hname align hasks
    have hperm : (names.erase name ++ [name]).Perm names :=
      (List.perm_append_singleton name _).trans (List.perm_cons_erase hname).symm
    rw [← h _ hperm, ofFlags_append_singleton, on_flag, hasks, Option.some_or]
  intro axis name hname other hother align align' hasks hasks'
  have hfirst := hdecides axis name hname align hasks
  have hsecond := hdecides axis other hother align' hasks'
  exact Option.some.inj (hfirst.symm.trans hsecond)

/-! ## Texts -/

theorem separator_notMem_of_mem_flags {raw name : String} (h : name ∈ flags raw) :
    '|' ∉ name.toList ∧ Text.trim name = name := by
  obtain ⟨piece, hpiece, rfl⟩ := List.mem_map.1 h
  refine ⟨?_, Text.trim_trim piece⟩
  obtain ⟨cs, hcs, rfl⟩ := List.mem_map.1 hpiece
  unfold Text.trim
  rw [String.toList_ofList, String.toList_ofList]
  intro hmem
  have hclear := Text.not_separates_of_mem_cut hcs (Text.mem_of_mem_trimBy hmem)
  rw [beq_self_eq_true] at hclear
  cases hclear

/-- The flags of a text can be written in any order. -/
theorem exists_flags_eq {raw : String} {names : List String} (h : names.Perm (flags raw)) :
    ∃ other, flags other = names := by
  have hmem : ∀ name ∈ names, '|' ∉ name.toList ∧ Text.trim name = name := by
    intro name hname
    exact separator_notMem_of_mem_flags (h.subset hname)
  have hne : names.map String.toList ≠ [] := by
    intro hnil
    rw [List.map_eq_nil_iff] at hnil
    rw [hnil, List.nil_perm] at h
    exact Text.cut_ne_nil _ _ (List.map_eq_nil_iff.1 (List.map_eq_nil_iff.1 h))
  have hpieces : ∀ piece ∈ names.map String.toList, '|' ∉ piece := by
    intro piece hpiece
    obtain ⟨name, hname, rfl⟩ := List.mem_map.1 hpiece
    exact (hmem name hname).1
  -- the names joined again: no name holds the separator and all are trimmed, so cutting the text
  -- and trimming its pieces gives them back
  refine ⟨String.ofList (Text.joinWith '|' (names.map String.toList)), ?_⟩
  unfold flags Text.split
  rw [String.toList_ofList, Text.cut_joinWith hne hpieces, List.map_map, List.map_map]
  conv_rhs => rw [← List.map_id names]
  apply List.map_congr_left
  intro name hname
  rw [Function.comp_apply, Function.comp_apply, String.ofList_toList]
  exact (hmem name hname).2

/-- On each axis a text asks for what the last of its flags for that axis does. Writing its flags in
another order, or any of them once more, makes no difference if and only if no two of them ask for
different alignments on one axis. -/
theorem read_of_orders (raw : String) :
    (∀ axis, (read raw).on axis = ((flags raw).filterMap (asks axis)).getLast?) ∧
    ((∀ other, (flags other).Perm (flags raw) → read other = read raw) ↔ Agree (flags raw)) ∧
    ((∀ other, (∀ name, name ∈ flags other ↔ name ∈ flags raw) → read other = read raw) ↔
      Agree (flags raw)) := by
  -- every order of the flags can be written, so that texts with the same flags speak for all orders
  -- of the names
  have hperm : (∀ other, (flags other).Perm (flags raw) → read other = read raw) →
      Agree (flags raw) := by
    intro h
    apply agree_of_perm
    intro names hnames
    obtain ⟨other, rfl⟩ := exists_flags_eq hnames
    exact h other hnames
  refine ⟨?_, ⟨hperm, ?_⟩, ?_, ?_⟩
  · intro axis
    exact on_ofFlags (flags raw)
  · intro hagree other hother
    exact hagree.ofFlags_eq fun name => hother.mem_iff
  · intro h
    apply hperm
    intro other hother
    exact h other fun name => hother.mem_iff
  · intro hagree other hother
    exact hagree.ofFlags_eq hother

/-- A flag for both axes takes the place of a side, so that the order of the two decides. -/
example : read "start|center" = ⟨some .center, some .center⟩ ∧
    read "center|start" = ⟨some .start, some .center⟩ := by decide

end Gravity

end LayoutCompiler
