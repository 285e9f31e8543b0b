import LayoutCompiler.Data.Record
import LayoutCompiler.Proofs.Data.Maps
/-!
# Reading back what is written

Data is read with a function for each kind of thing that it can hold, and written by putting the
same together. Reading undoes writing for lists, for maps and for records whenever it does so for
what is in them; a value that is written comes back as its image when that is how it is read.

* `asList_map`, `asMap_mapValues`: what is in a list or a map is read back one by one.
* `asFields_record`: a record has all its fields, and no others.
* `Gives`: what is known of everything that can be read.
-/

namespace LayoutCompiler

/-- A step after another one gives a result if both do. -/
theorem bind_eq_ok_iff {ε β γ : Type} {x : Except ε β} {f : β → Except ε γ} {c : γ} :
    (x >>= f) = .ok c ↔ ∃ b, x = .ok b ∧ f b = .ok c := by
  cases x with
  | error e => simp [bind, Except.bind]
  | ok b => simp [bind, Except.bind]

/-- A result that passes a test is one. -/
theorem exists_ok {ε β : Type} {x : Except ε β} {p : β → Bool} (h : x.toOption.any p = true) :
    ∃ b, x = .ok b ∧ p b = true := by
  cases x with
  | error e => cases h
  | ok b => exact ⟨b, rfl, h⟩

namespace Datum

/-! ## Comparing data -/

mutual

/-- Whether two pieces of data are the same. -/
def same : Datum → Datum → Bool
  | null, null => true
  | bool a, bool b => a == b
  | number a, number b => a == b
  | string a, string b => a == b
  | moment a, moment b => a == b
  | list as, list bs => sameItems as bs
  | table as, table bs => sameEntries as bs
  | _, _ => false

/-- Whether two lists have the same items. -/
def sameItems : List Datum → List Datum → Bool
  | [], [] => true
  | a :: as, b :: bs => a.same b && sameItems as bs
  | _, _ => false

/-- Whether two tables have the same entries in the same order. -/
def sameEntries : List (String × Datum) → List (String × Datum) → Bool
  | [], [] => true
  | (j, a) :: as, (k, b) :: bs => j == k && a.same b && sameEntries as bs
  | _, _ => false

end

mutual

theorem same_iff : ∀ a b : Datum, a.same b = true ↔ a = b
  | null, b => by cases b <;> simp [same]
  | bool a, b => by cases b <;> simp [same]
  | number a, b => by cases b <;> simp [same]
  | string a, b => by cases b <;> simp [same]
  | moment a, b => by cases b <;> simp [same]
  | list as, b => by cases b <;> simp [same, sameItems_iff]
  | table as, b => by cases b <;> simp [same, sameEntries_iff]

theorem sameItems_iff : ∀ as bs : List Datum, sameItems as bs = true ↔ as = bs
  | [], bs => by cases bs <;> simp [sameItems]
  | a :: as, bs => by cases bs <;> simp [sameItems, same_iff a, sameItems_iff as]

theorem sameEntries_iff : ∀ as bs : List (String × Datum), sameEntries as bs = true ↔ as = bs
  | [], bs => by cases bs <;> simp [sameEntries]
  | (j, a) :: as, bs => by
    cases bs <;> simp [sameEntries, same_iff a, sameEntries_iff as, Prod.ext_iff]

end

instance : DecidableEq Datum := fun a b => decidable_of_iff _ (same_iff a b)

variable {β γ : Type} {read : Datum → Decoding γ} {write : β → Datum} {back : β → γ}

/-! ## Lists and maps -/

/-- A list is read back if its members are. -/
theorem asList_map {xs : List β} (h : ∀ x ∈ xs, read (write x) = .ok (back x)) :
    (list (xs.map write)).asList read = .ok (xs.map back) := by
  have hall : (xs.map write).mapM read = .ok (xs.map back) := by
    induction xs with
    | nil => rfl
    | cons x xs ih =>
      have hhead : read (write x) = .ok (back x) := h x List.mem_cons_self
      have htail := ih fun y hy => h y (List.mem_cons_of_mem x hy)
      rw [List.map_cons, List.mapM_cons, hhead, htail]
      rfl
  exact hall

theorem foldlM_entries {entries : List (String × β)}
    (h : ∀ e ∈ entries, read (write e.2) = .ok (back e.2)) (base : SortedMap γ) :
    (entries.map fun e => (e.1, write e.2)).foldlM
        (fun m (key, d) => (read d).map fun v => m.insert key v) base =
      .ok ((entries.map fun e => (e.1, back e.2)).foldl (fun m e => m.insert e.1 e.2) base) := by
  induction entries generalizing base with
  | nil => rfl
  | cons e rest ih =>
    have hhead : read (write e.2) = .ok (back e.2) := h e List.mem_cons_self
    rw [List.map_cons, List.foldlM_cons]
    simp only [hhead]
    exact ih (fun x hx => h x (List.mem_cons_of_mem e hx)) _

/-- A map is read back if its values are. -/
theorem asMap_mapValues {m : SortedMap β} (h : ∀ v ∈ m.values, read (write v) = .ok (back v)) :
    (table (m.mapValues write).entries).asMap read = .ok (m.mapValues back) := by
  have hentries : ∀ e ∈ m.entries, read (write e.2) = .ok (back e.2) := by
    intro e he
    exact h e.2 (List.mem_map_of_mem he)
  exact (foldlM_entries hentries SortedMap.empty).trans
    (congrArg Except.ok (SortedMap.foldl_entries (m.mapValues back)))

/-! ## Records -/

/-- A record that is written has all its fields, and no others. -/
theorem asFields_record (format : DataFormat) (fields : List (String × Datum))
    (names : List String) (hnames : fields.map Prod.fst = names) (hnodup : names.Nodup) :
    ∃ fs : Fields, (record fields).asFields format true names = .ok fs ∧
      ∀ name, fs.present.lookup name = fields.lookup name := by
  subst hnames
  refine ⟨⟨(SortedMap.ofList fields).entries⟩, ?_, fun name => ?_⟩
  -- no field is unknown, and none is given twice
  · have hknown : ((SortedMap.ofList fields).entries.filter fun e =>
        (fields.map Prod.fst).contains e.1) = (SortedMap.ofList fields).entries := by
      rw [List.filter_eq_self]
      intro e he
      rw [List.contains_iff_mem]
      exact List.mem_map_of_mem (SortedMap.mem_of_mem_ofList hnodup he)
    have honce : ((fields.map Prod.fst).any fun name =>
        1 < ((SortedMap.ofList fields).entries.filter fun e => e.1 == name).length) = false := by
      rw [List.any_eq_false]
      intro name _
      have hle := (SortedMap.ofList fields).length_filter_key name
      simpa using hle
    simp only [asFields, record, entries?, hknown, honce]
    simp
  · rw [SortedMap.lookup_entries, SortedMap.get?_ofList hnodup]

/-! ## What reading gives -/

/-- Everything that is read has a property. -/
def Gives (read : Datum → Decoding γ) (P : γ → Prop) : Prop := ∀ d v, read d = .ok v → P v

variable {P : γ → Prop}

theorem Gives.asList (h : Gives read P) : Gives (asList read) fun vs => ∀ v ∈ vs, P v := by
  -- by induction on the items, each of which is read by itself
  have hall : ∀ (items : List Datum) (vs : List γ), items.mapM read = .ok vs →
      ∀ v ∈ vs, P v := by
    intro items
    induction items with
    | nil =>
      intro vs hvs
      cases hvs
      exact nofun
    | cons item items ih =>
      intro vs hvs
      rw [List.mapM_cons] at hvs
      obtain ⟨v, hv, hvs⟩ := bind_eq_ok_iff.1 hvs
      obtain ⟨rest, hrest, hvs⟩ := bind_eq_ok_iff.1 hvs
      cases hvs
      intro w hw
      rcases List.mem_cons.1 hw with rfl | hw
      · exact h item w hv
      · exact ih rest hrest w hw
  intro d vs hvs
  cases d with
  | list items => exact hall items vs hvs
  | _ => cases hvs

theorem Gives.asMap (h : Gives read P) : Gives (asMap read) fun m => ∀ v ∈ m.values, P v := by
  -- by induction on the entries, with what has been read before them in the map
  have hall : ∀ (entries : List (String × Datum)) (base m : SortedMap γ),
      (∀ v ∈ base.values, P v) →
      entries.foldlM (fun m (key, d) => (read d).map fun v => m.insert key v) base = .ok m →
      ∀ v ∈ m.values, P v := by
    intro entries
    induction entries with
    | nil =>
      intro base m hbase hm
      cases hm
      exact hbase
    | cons e rest ih =>
      intro base m hbase hm
      rw [List.foldlM_cons] at hm
      obtain ⟨next, hnext, hm⟩ := bind_eq_ok_iff.1 hm
      refine ih next m ?_ hm
      cases hread : read e.2 with
      | error detail => simp [hread, Except.map] at hnext
      | ok v =>
        simp only [hread, Except.map, Except.ok.injEq] at hnext
        subst hnext
        intro w hw
        obtain ⟨entry, hentry, rfl⟩ := List.mem_map.1 hw
        rcases SortedMap.mem_insertEntry hentry with rfl | hentry
        · exact h e.2 v hread
        · exact hbase entry.2 (List.mem_map_of_mem hentry)
  intro d m hm
  unfold Datum.asMap at hm
  split at hm
  · exact hall _ SortedMap.empty m nofun hm
  · cases hm

end Datum

namespace Fields

open Datum

variable {β γ : Type} {read : Datum → Decoding γ} {P : γ → Prop} {fs : Fields} {name : String}

theorem required_gives (h : Gives read P) {v : γ} (hv : fs.required name read = .ok v) : P v := by
  unfold required at hv
  split at hv
  · exact h _ v hv
  · cases hv

theorem withDefault_gives (h : Gives read P) {value v : γ} (hvalue : P value)
    (hv : fs.withDefault name value read = .ok v) : P v := by
  unfold withDefault at hv
  split at hv
  · exact h _ v hv
  · cases hv
    exact hvalue

theorem optional_gives (h : Gives read P) {v : Option γ}
    (hv : fs.optional name read = .ok v) : ∀ x ∈ v, P x := by
  unfold optional at hv
  split at hv
  · cases hv
    exact nofun
  · rename_i d _ _
    intro x hx
    obtain rfl : v = some x := hx
    cases hread : read d with
    | error detail => simp [hread, Except.map] at hv
    | ok y =>
      simp only [hread, Except.map, Except.ok.injEq, Option.some.injEq] at hv
      subst hv
      exact h d y hread
  · cases hv
    exact nofun

theorem required_eq {d : Datum} (h : fs.present.lookup name = some d) :
    fs.required name read = read d := by
  unfold required
  rw [h]

theorem withDefault_eq {d : Datum} (h : fs.present.lookup name = some d) (value : γ) :
    fs.withDefault name value read = read d := by
  unfold withDefault
  rw [h]

/-- A field that may be null is read back if a value that stands there is, and is not null. -/
theorem optional_map {write : β → Datum} {back : β → γ} {v : Option β}
    (h : fs.present.lookup name = some ((v.map write).getD .null))
    (hread : ∀ x ∈ v, write x ≠ .null ∧ read (write x) = .ok (back x)) :
    fs.optional name read = .ok (v.map back) := by
  unfold optional
  rw [h]
  cases v with
  | none => rfl
  | some x =>
    obtain ⟨hne, hback⟩ := hread x rfl
    rw [Option.map_some, Option.map_some, Option.getD_some]
    generalize write x = d at hne hback
    cases d with
    | null => exact absurd rfl hne
    | _ => exact congrArg (Except.map some) hback

end Fields

end LayoutCompiler
