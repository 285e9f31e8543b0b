import LayoutCompiler.Tree.Basic
import Mathlib.Data.List.Nodup
/-!
# Lists of entries

What `setEntry` makes of a list of entries: an entry is written in place, or at the end when it is
new, and all others are as they were.

* `lookup_setEntry`: what is found afterwards.
* `mem_setEntry`, `mem_setEntry_self`, `mem_setEntry_of_ne`: which entries there are.
-/

namespace LayoutCompiler

/-- An entry is written in place, or at the end when it is new. -/
theorem keys_setEntry (key value : String) (entries : List (String × String)) :
    (setEntry key value entries).map Prod.fst = entries.map Prod.fst ∨
      key ∉ entries.map Prod.fst ∧
        (setEntry key value entries).map Prod.fst = entries.map Prod.fst ++ [key] := by
  induction entries with
  | nil => exact Or.inr ⟨List.not_mem_nil, rfl⟩
  | cons entry rest ih =>
    obtain ⟨k, v⟩ := entry
    unfold setEntry
    -- the first entry under the key is overwritten where it stands; without one the key comes last
    by_cases hk : k = key
    · rw [if_pos hk]
      exact Or.inl rfl
    · rw [if_neg hk]
      rcases ih with hold | ⟨hfresh, hnew⟩
      · left
        rw [List.map_cons, hold, List.map_cons]
      · right
        rw [List.map_cons, List.map_cons, hnew, List.mem_cons, not_or]
        exact ⟨⟨Ne.symm hk, hfresh⟩, rfl⟩

theorem nodup_setEntry {key value : String} {entries : List (String × String)}
    (h : (entries.map Prod.fst).Nodup) : ((setEntry key value entries).map Prod.fst).Nodup := by
  rcases keys_setEntry key value entries with hold | ⟨hfresh, hnew⟩
  · rwa [hold]
  · rw [hnew, List.nodup_append']
    refine ⟨h, List.nodup_singleton key, fun k hk hself => ?_⟩
    rw [List.mem_singleton.1 hself] at hk
    exact hfresh hk

theorem mem_setEntry {key value : String} {entries : List (String × String)}
    {a : String × String} (h : a ∈ setEntry key value entries) :
    a = (key, value) ∨ a ∈ entries := by
  induction entries with
  | nil => exact Or.inl (List.mem_singleton.1 h)
  | cons entry rest ih =>
    obtain ⟨k, v⟩ := entry
    unfold setEntry at h
    split at h
    · rename_i hk
      rcases List.mem_cons.1 h with rfl | h
      · exact Or.inl (by rw [hk])
      · exact Or.inr (List.mem_cons_of_mem _ h)
    · rcases List.mem_cons.1 h with rfl | h
      · exact Or.inr List.mem_cons_self
      · exact (ih h).imp_right (List.mem_cons_of_mem _)

/-- An entry that has been written is found, and all others are found as before. -/
theorem lookup_setEntry (key value k : String) (entries : List (String × String)) :
    (setEntry key value entries).lookup k = if k = key then some value else entries.lookup k := by
  induction entries with
  | nil =>
    show List.lookup k [(key, value)] = _
    by_cases hk : k = key <;> simp [hk]
  | cons entry rest ih =>
    obtain ⟨k', v⟩ := entry
    unfold setEntry
    -- the entry is written over where the key is, or else further behind
    by_cases hk : k = k'
    · subst hk
      by_cases hkey : k = key <;> simp [hkey]
    · have hne : (k == k') = false := beq_false_of_ne hk
      by_cases hkey : k' = key
      · subst hkey
        simp [List.lookup_cons, hne, hk]
      · rw [if_neg hkey, List.lookup_cons, List.lookup_cons, hne]
        exact ih

theorem mem_setEntry_self (key value : String) (entries : List (String × String)) :
    (key, value) ∈ setEntry key value entries := by
  induction entries with
  | nil => exact List.mem_cons_self
  | cons entry rest ih =>
    obtain ⟨k, v⟩ := entry
    unfold setEntry
    split
    · rename_i hk
      rw [hk]
      exact List.mem_cons_self
    · exact List.mem_cons_of_mem _ ih

/-- Entries under other keys stay. -/
theorem mem_setEntry_of_ne {key value : String} {entries : List (String × String)}
    {a : String × String} (h : a ∈ entries) (hne : a.1 ≠ key) : a ∈ setEntry key value entries := by
  induction entries with
  | nil => cases h
  | cons entry rest ih =>
    obtain ⟨k, v⟩ := entry
    unfold setEntry
    rcases List.mem_cons.1 h with rfl | h
    · rw [if_neg hne]
      exact List.mem_cons_self
    · split
      · exact List.mem_cons_of_mem _ h
      · exact List.mem_cons_of_mem _ (ih h)

end LayoutCompiler
