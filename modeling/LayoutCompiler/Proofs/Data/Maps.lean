import LayoutCompiler.SortedMap
import Mathlib.Data.List.Basic
/-!
# Maps by their look-ups

What a map has at a key after its values were replaced, after some of its entries were left out, and
when it is made of a list of entries.

* `get?_mapValues`, `get?_filter`: the values and the entries that are left.
* `get?_ofList`: a list in which no key comes twice.
-/

namespace LayoutCompiler

namespace SortedMap

variable {β γ : Type}

theorem find?_eq_lookup (key : String) (entries : List (String × β)) :
    find? key entries = entries.lookup key := by
  induction entries with
  | nil => rfl
  | cons e rest ih =>
    obtain ⟨k, v⟩ := e
    by_cases hk : k = key
    · simp [find?, hk]
    · have hk' : (key == k) = false := beq_false_of_ne (Ne.symm hk)
      simp [find?, List.lookup_cons, hk, hk', ih]

theorem lookup_entries (m : SortedMap β) (key : String) : m.entries.lookup key = m.get? key :=
  (find?_eq_lookup key m.entries).symm

@[simp] theorem get?_mapValues (f : β → γ) (m : SortedMap β) (key : String) :
    (m.mapValues f).get? key = (m.get? key).map f := by
  have hall : ∀ entries : List (String × β),
      find? key (entries.map fun e => (e.1, f e.2)) = (find? key entries).map f := by
    intro entries
    induction entries with
    | nil => rfl
    | cons e rest ih =>
      by_cases hk : e.1 = key
      · simp [find?, hk]
      · simpa [find?, hk] using ih
  exact hall m.entries

theorem mapValues_id (m : SortedMap β) : m.mapValues id = m := by
  apply ext_get?
  intro key
  rw [get?_mapValues, Option.map_id, id]

theorem nodup_keys (m : SortedMap β) : m.keys.Nodup := by
  refine List.pairwise_map.2 (m.increasing.imp fun hlt heq => ?_)
  exact String.lt_irrefl _ (heq ▸ hlt)

theorem get?_filter (p : String → β → Bool) (m : SortedMap β) (key : String) :
    (m.filter p).get? key = (m.get? key).filter (p key) := by
  apply Option.ext
  intro v
  rw [Option.filter_eq_some_iff, get?_eq_some_iff, get?_eq_some_iff]
  exact List.mem_filter

/-- A map is made of its entries. -/
theorem foldl_entries (m : SortedMap β) :
    m.entries.foldl (fun m e => m.insert e.1 e.2) empty = m := by
  apply ext_get?
  intro key
  rw [get?_foldl_insert _ _ _ m.increasing, get?_empty, Option.or_none]
  rfl

/-- No key stands at two entries. -/
theorem length_filter_key (m : SortedMap β) (key : String) :
    (m.entries.filter fun e => e.1 == key).length ≤ 1 := by
  have hkeys : ∀ e ∈ m.entries.filter (fun e => e.1 == key), e.1 = key := by
    intro e he
    exact beq_iff_eq.1 (List.mem_filter.1 he).2
  have hincreasing := m.increasing.filter fun e => e.1 == key
  generalize m.entries.filter (fun e => e.1 == key) = found at hkeys hincreasing
  match found with
  | [] => exact Nat.zero_le 1
  | [_] => exact Nat.le_refl 1
  | a :: b :: rest =>
    -- two entries of one key would stand in increasing order
    have hlt : a.1 < b.1 := (List.pairwise_cons.1 hincreasing).1 b (by simp)
    rw [hkeys a (by simp), hkeys b (by simp)] at hlt
    exact absurd hlt (String.lt_irrefl key)

theorem get?_foldl_insert_of_nodup {entries : List (String × β)}
    (h : (entries.map Prod.fst).Nodup) (base : SortedMap β) (key : String) :
    (entries.foldl (fun m e => m.insert e.1 e.2) base).get? key =
      (entries.lookup key).or (base.get? key) := by
  induction entries generalizing base with
  | nil => rfl
  | cons e rest ih =>
    obtain ⟨hhead, hrest⟩ := List.nodup_cons.1 h
    rw [List.foldl_cons, ih hrest, get?_insert]
    obtain ⟨k, v⟩ := e
    by_cases hk : k = key
    · subst hk
      -- the key does not come again, so nothing behind it counts
      have hnone : rest.lookup k = none := by
        rw [List.lookup_eq_none_iff]
        intro e he
        have hmem : e.1 ∈ rest.map Prod.fst := List.mem_map_of_mem he
        have hne : k ≠ e.1 := fun heq => hhead (heq ▸ hmem)
        simpa using hne
      simp [hnone]
    · have hk' : (key == k) = false := beq_false_of_ne (Ne.symm hk)
      simp [List.lookup_cons, hk, hk']

/-- The map of a list in which no key comes twice has what the list has. -/
theorem get?_ofList {entries : List (String × β)} (h : (entries.map Prod.fst).Nodup)
    (key : String) : (ofList entries).get? key = entries.lookup key := by
  unfold ofList
  rw [get?_foldl_insert_of_nodup h, get?_empty, Option.or_none]

theorem mem_of_mem_ofList {entries : List (String × β)} (h : (entries.map Prod.fst).Nodup)
    {e : String × β} (he : e ∈ (ofList entries).entries) : e ∈ entries := by
  have hget : (ofList entries).get? e.1 = some e.2 := get?_eq_some_iff.2 he
  rw [get?_ofList h] at hget
  obtain ⟨before, behind, hsplit, -⟩ := List.lookup_eq_some_iff.1 hget
  rw [hsplit]
  exact List.mem_append_right before List.mem_cons_self

end SortedMap

end LayoutCompiler
