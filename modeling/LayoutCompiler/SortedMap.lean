/-!
# Sorted maps

A finite map from text keys whose entries stand in increasing order of their keys. The order is
part of the type, so two maps with the same look-ups are equal (`ext_get?`) and everything that
walks a map meets its keys in one fixed order, that of their code points.

* `get?_insert`: an insertion is seen at its key and nowhere else.
* `get?_layered`: a map layered over another wins wherever it has an entry.
-/

namespace LayoutCompiler

/-- A finite map with text keys, its entries in increasing order of their keys. -/
structure SortedMap (β : Type) where
  entries : List (String × β)
  increasing : entries.Pairwise (fun a b => a.1 < b.1)
deriving DecidableEq, Repr

namespace SortedMap

variable {β γ : Type}

/-- The map without entries. -/
def empty : SortedMap β := ⟨[], .nil⟩

instance : EmptyCollection (SortedMap β) := ⟨empty⟩

instance : Inhabited (SortedMap β) := ⟨empty⟩

/-! ## Look-up -/

/-- The value of the first entry with the key. -/
def find? (key : String) : List (String × β) → Option β
  | [] => none
  | (k, v) :: rest => if k = key then some v else find? key rest

/-- The value at a key. -/
def get? (m : SortedMap β) (key : String) : Option β := find? key m.entries

/-- Whether the map has an entry at the key. -/
def contains (m : SortedMap β) (key : String) : Bool := (m.get? key).isSome

/-- The keys, increasing. -/
def keys (m : SortedMap β) : List String := m.entries.map Prod.fst

/-- The values, in the order of their keys. -/
def values (m : SortedMap β) : List β := m.entries.map Prod.snd

/-- How many entries the map has. -/
def size (m : SortedMap β) : Nat := m.entries.length

/-- Whether the map has no entry. -/
def isEmpty (m : SortedMap β) : Bool := m.entries.isEmpty

/-! ## Insertion -/

/-- Writes one entry at its place, over an older one with the same key. -/
def insertEntry (key : String) (value : β) : List (String × β) → List (String × β)
  | [] => [(key, value)]
  | (k, v) :: rest =>
    if key < k then (key, value) :: (k, v) :: rest
    else if key = k then (key, value) :: rest
    else (k, v) :: insertEntry key value rest

theorem mem_insertEntry {key : String} {value : β} {entries : List (String × β)}
    {e : String × β} (h : e ∈ insertEntry key value entries) : e = (key, value) ∨ e ∈ entries := by
  induction entries with
  | nil => exact Or.inl (by simpa [insertEntry] using h)
  | cons x rest ih =>
    obtain ⟨k, v⟩ := x
    simp only [insertEntry] at h
    split at h
    · simpa using h
    · split at h
      · rcases List.mem_cons.1 h with h | h
        · exact Or.inl h
        · exact Or.inr (List.mem_cons_of_mem _ h)
      · rcases List.mem_cons.1 h with h | h
        · exact Or.inr (h ▸ List.mem_cons_self)
        · exact (ih h).imp_right (List.mem_cons_of_mem _)

/-- Two keys neither of which is smaller are equal. -/
theorem eq_of_not_lt {a b : String} (h : ¬ a < b) (h' : ¬ b < a) : a = b :=
  String.le_antisymm (String.not_lt.1 h') (String.not_lt.1 h)

theorem increasing_insertEntry {key : String} {value : β} {entries : List (String × β)}
    (h : entries.Pairwise (fun a b => a.1 < b.1)) :
    (insertEntry key value entries).Pairwise (fun a b => a.1 < b.1) := by
  induction entries with
  | nil => simp [insertEntry]
  | cons x rest ih =>
    obtain ⟨k, v⟩ := x
    have hd := (List.pairwise_cons.1 h).1
    have tl := (List.pairwise_cons.1 h).2
    simp only [insertEntry]
    split
    · rename_i lt
      refine List.pairwise_cons.2 ⟨fun e he => ?_, h⟩
      rcases List.mem_cons.1 he with rfl | he
      · exact lt
      · exact String.lt_trans lt (hd e he)
    · rename_i nlt
      split
      · rename_i eq
        subst eq
        exact List.pairwise_cons.2 ⟨hd, tl⟩
      · rename_i ne
        refine List.pairwise_cons.2 ⟨fun e he => ?_, ih tl⟩
        rcases mem_insertEntry he with rfl | he
        · exact Decidable.byContradiction fun hk => ne (eq_of_not_lt nlt hk)
        · exact hd e he

/-- The map with one entry written. -/
def insert (m : SortedMap β) (key : String) (value : β) : SortedMap β :=
  ⟨insertEntry key value m.entries, increasing_insertEntry m.increasing⟩

/-- The map with exactly one entry. -/
def singleton (key : String) (value : β) : SortedMap β := empty.insert key value

/-- The map of a list of entries; of two entries with one key the later counts. -/
def ofList (entries : List (String × β)) : SortedMap β :=
  entries.foldl (fun m e => m.insert e.1 e.2) empty

/-- The entries of `top` laid over those of `base`. -/
def layered (top base : SortedMap β) : SortedMap β :=
  top.entries.foldl (fun m e => m.insert e.1 e.2) base

/-- The map with every value replaced by its image. -/
def mapValues (f : β → γ) (m : SortedMap β) : SortedMap γ :=
  ⟨m.entries.map fun e => (e.1, f e.2), by
    simpa [List.pairwise_map] using m.increasing⟩

/-- The entries that pass a test. -/
def filter (p : String → β → Bool) (m : SortedMap β) : SortedMap β :=
  ⟨m.entries.filter fun e => p e.1 e.2, m.increasing.filter _⟩

/-! ## The view through look-ups -/

@[simp] theorem get?_empty (key : String) : (empty : SortedMap β).get? key = none := rfl

theorem find?_insertEntry (key key' : String) (value : β) (entries : List (String × β)) :
    find? key' (insertEntry key value entries) =
      if key = key' then some value else find? key' entries := by
  induction entries with
  | nil => simp [insertEntry, find?]
  | cons x rest ih =>
    obtain ⟨k, v⟩ := x
    simp only [insertEntry]
    split
    · simp [find?]
    · split
      · rename_i eq
        subst eq
        by_cases h : key = key' <;> simp [find?, h]
      · rename_i ne
        by_cases h : k = key'
        · subst h
          simp [find?, ne]
        · simp [find?, h, ih]

@[simp] theorem get?_insert (m : SortedMap β) (key key' : String) (value : β) :
    (m.insert key value).get? key' = if key = key' then some value else m.get? key' :=
  find?_insertEntry key key' value m.entries

theorem find?_eq_none_of_lt {key : String} {entries : List (String × β)}
    (h : ∀ e ∈ entries, key < e.1) : find? key entries = none := by
  induction entries with
  | nil => rfl
  | cons x rest ih =>
    have hx := h x List.mem_cons_self
    have ne : x.1 ≠ key := fun e => String.lt_irrefl key (e ▸ hx)
    simp [find?, ne, ih fun e he => h e (List.mem_cons_of_mem _ he)]

theorem find?_eq_some_iff {key : String} {value : β} {entries : List (String × β)}
    (h : entries.Pairwise (fun a b => a.1 < b.1)) :
    find? key entries = some value ↔ (key, value) ∈ entries := by
  induction entries with
  | nil => simp [find?]
  | cons x rest ih =>
    obtain ⟨k, v⟩ := x
    have hd := (List.pairwise_cons.1 h).1
    have tl := (List.pairwise_cons.1 h).2
    by_cases hk : k = key
    · subst hk
      simp only [find?, if_true, Option.some.injEq, List.mem_cons, Prod.mk.injEq, true_and]
      constructor
      · rintro rfl
        exact Or.inl rfl
      · rintro (rfl | hm)
        · rfl
        · exact absurd (hd _ hm) (String.lt_irrefl _)
    · have hk' : ¬ key = k := fun e => hk e.symm
      simp [find?, hk, hk', ih tl]

theorem get?_eq_some_iff {m : SortedMap β} {key : String} {value : β} :
    m.get? key = some value ↔ (key, value) ∈ m.entries :=
  find?_eq_some_iff m.increasing

theorem mem_values_of_get? {m : SortedMap β} {key : String} {value : β}
    (h : m.get? key = some value) : value ∈ m.values :=
  List.mem_map_of_mem (get?_eq_some_iff.1 h)

theorem contains_iff {m : SortedMap β} {key : String} :
    m.contains key = true ↔ ∃ value, m.get? key = some value :=
  Option.isSome_iff_exists

theorem mem_keys_iff {m : SortedMap β} {key : String} :
    key ∈ m.keys ↔ m.contains key = true := by
  rw [contains_iff]
  constructor
  · intro h
    obtain ⟨⟨key, value⟩, hmem, rfl⟩ := List.mem_map.1 h
    exact ⟨value, get?_eq_some_iff.2 hmem⟩
  · rintro ⟨value, h⟩
    exact List.mem_map_of_mem (get?_eq_some_iff.1 h)

theorem eq_of_find? {xs ys : List (String × β)} (hx : xs.Pairwise (fun a b => a.1 < b.1))
    (hy : ys.Pairwise (fun a b => a.1 < b.1)) (h : ∀ key, find? key xs = find? key ys) :
    xs = ys := by
  induction xs generalizing ys with
  | nil =>
    cases ys with
    | nil => rfl
    | cons y ys => simpa [find?] using h y.1
  | cons x xs ih =>
    cases ys with
    | nil => simpa [find?] using h x.1
    | cons y ys =>
      obtain ⟨hdx, tlx⟩ := List.pairwise_cons.1 hx
      obtain ⟨hdy, tly⟩ := List.pairwise_cons.1 hy
      have hkey : x.1 = y.1 := by
        refine eq_of_not_lt (fun lt => ?_) (fun lt => ?_)
        · have := h x.1
          rw [@find?_eq_none_of_lt _ x.1 (y :: ys)] at this
          · simp [find?] at this
          · intro e he
            rcases List.mem_cons.1 he with rfl | he
            · exact lt
            · exact String.lt_trans lt (hdy e he)
        · have := h y.1
          rw [@find?_eq_none_of_lt _ y.1 (x :: xs)] at this
          · simp [find?] at this
          · intro e he
            rcases List.mem_cons.1 he with rfl | he
            · exact lt
            · exact String.lt_trans lt (hdx e he)
      have hval : x.2 = y.2 := by simpa [find?, hkey] using h x.1
      have hxy : x = y := Prod.ext hkey hval
      subst hxy
      congr 1
      refine ih tlx tly fun key => ?_
      by_cases hk : x.1 = key
      · subst hk
        rw [find?_eq_none_of_lt hdx, find?_eq_none_of_lt hdy]
      · simpa [find?, hk] using h key

/-- Maps with the same look-ups are equal. -/
theorem ext_get? {m n : SortedMap β} (h : ∀ key, m.get? key = n.get? key) : m = n := by
  obtain ⟨xs, hx⟩ := m
  obtain ⟨ys, hy⟩ := n
  have : xs = ys := eq_of_find? hx hy h
  subst this
  rfl

theorem get?_foldl_insert (entries : List (String × β)) (base : SortedMap β) (key : String)
    (h : entries.Pairwise (fun a b => a.1 < b.1)) :
    (entries.foldl (fun m e => m.insert e.1 e.2) base).get? key =
      (find? key entries).or (base.get? key) := by
  induction entries generalizing base with
  | nil => simp [find?]
  | cons x rest ih =>
    obtain ⟨hd, tl⟩ := List.pairwise_cons.1 h
    rw [List.foldl_cons, ih _ tl, get?_insert]
    by_cases hk : x.1 = key
    · subst hk
      simp [find?, find?_eq_none_of_lt hd]
    · simp [find?, hk]

/-- The upper map wins wherever it has an entry. -/
theorem get?_layered (top base : SortedMap β) (key : String) :
    (top.layered base).get? key = (top.get? key).or (base.get? key) :=
  get?_foldl_insert top.entries base key top.increasing

end SortedMap

/-- A set of texts: a map that records only which keys are present. -/
abbrev TextSet := SortedMap Unit

namespace TextSet

/-- The members, increasing. -/
def toList (s : TextSet) : List String := s.keys

/-- The set of the texts of a list. -/
def ofList (members : List String) : TextSet := SortedMap.ofList (members.map fun m => (m, ()))

/-- The set with one more member. -/
def add (s : TextSet) (member : String) : TextSet := s.insert member ()

/-- The members of either set. -/
def union (s t : TextSet) : TextSet := SortedMap.layered s t

end TextSet

end LayoutCompiler
