import LayoutCompiler.Text.Blank
import LayoutCompiler.Text.Split
import Mathlib.Data.List.DropRight
/-!
# Leads and blanks of texts

* `stripLead?_eq_some_iff`: a text is a lead and what follows it.
* `append_ne_of_clash`: no text has two leads that differ.
* `trim_append`, `trim_trim`: a text without blanks at its ends loses none.
-/

namespace LayoutCompiler.Text

/-! ## Leads -/

theorem stripLead?_eq_some_iff {lead text rest : String} :
    stripLead? lead text = some rest ↔ text = lead ++ rest := by
  unfold stripLead?
  rw [Option.map_eq_some_iff]
  constructor
  · rintro ⟨cs, hcs, rfl⟩
    rw [List.isPrefixOf?_eq_some_iff_append_eq] at hcs
    exact String.ext (by simp [hcs])
  · rintro rfl
    exact ⟨rest.toList, by simp [List.isPrefixOf?_eq_some_iff_append_eq], by simp⟩

theorem stripLead?_eq_none_iff {lead text : String} :
    stripLead? lead text = none ↔ ∀ rest, text ≠ lead ++ rest := by
  rw [Option.eq_none_iff_forall_ne_some]
  exact forall_congr' fun rest => not_congr stripLead?_eq_some_iff

theorem leads_iff {lead text : String} : leads lead text = true ↔ ∃ rest, text = lead ++ rest := by
  unfold leads
  rw [Option.isSome_iff_exists]
  exact exists_congr fun rest => stripLead?_eq_some_iff

theorem leads_append_append (front lead text : String) :
    leads (front ++ lead) (front ++ text) = leads lead text := by
  rw [Bool.eq_iff_iff, leads_iff, leads_iff]
  refine exists_congr fun rest => ?_
  rw [String.append_assoc, String.append_right_inj]

/-- Whether two leads differ at a place that both of them have. -/
def clash (lead lead' : String) : Bool :=
  (lead.toList.zip lead'.toList).any fun p => p.1 != p.2

theorem any_zip_ne_eq_false {cs ds xs ys : List Char} (h : cs ++ xs = ds ++ ys) :
    (cs.zip ds).any (fun p => p.1 != p.2) = false := by
  induction cs generalizing ds with
  | nil => rfl
  | cons c cs ih =>
    cases ds with
    | nil => rfl
    | cons d ds =>
      obtain ⟨rfl, htail⟩ := List.cons.inj h
      rw [List.zip_cons_cons, List.any_cons, ih htail]
      simp

/-- No text has two leads that differ. -/
theorem append_ne_of_clash {lead lead' : String} (h : clash lead lead' = true)
    (rest rest' : String) : lead ++ rest ≠ lead' ++ rest' := by
  intro heq
  have hlist := congrArg String.toList heq
  rw [String.toList_append, String.toList_append] at hlist
  rw [clash, any_zip_ne_eq_false hlist] at h
  cases h

theorem not_leads_of_clash {lead lead' text : String} (h : clash lead lead' = true)
    (hleads : leads lead text = true) : leads lead' text = false := by
  rw [Bool.eq_false_iff]
  intro hleads'
  obtain ⟨rest, rfl⟩ := leads_iff.1 hleads
  obtain ⟨rest', heq⟩ := leads_iff.1 hleads'
  exact append_ne_of_clash h rest rest' heq

/-! ## Blanks -/

theorem trimBy_eq (p : Char → Bool) (cs : List Char) :
    trimBy p cs = (cs.dropWhile p).rdropWhile p := rfl

/-- A character that no end of a text loses is left. -/
theorem mem_trimBy {p : Char → Bool} {cs : List Char} {c : Char} (h : c ∈ cs) (hp : p c = false) :
    c ∈ trimBy p cs := by
  have hdrop : ∀ ds : List Char, c ∈ ds → c ∈ ds.dropWhile p := by
    intro ds hds
    rw [← List.takeWhile_append_dropWhile (p := p) (l := ds)] at hds
    rcases List.mem_append.1 hds with hmem | hmem
    · rw [List.mem_takeWhile_imp hmem] at hp
      cases hp
    · exact hmem
  rw [trimBy, List.mem_reverse]
  exact hdrop _ (List.mem_reverse.2 (hdrop cs h))

/-- What is left of a text has no blank in front. -/
theorem dropWhile_trimBy (p : Char → Bool) (cs : List Char) :
    (trimBy p cs).dropWhile p = trimBy p cs := by
  rw [trimBy_eq, List.dropWhile_eq_self_iff]
  intro hpos
  -- the first character is that of the text without the blanks in front of it
  have hfront := List.rdropWhile_prefix p (cs.dropWhile p)
  rw [hfront.getElem hpos]
  have hself : (cs.dropWhile p).dropWhile p = cs.dropWhile p := List.dropWhile_idempotent p cs
  exact List.dropWhile_eq_self_iff.1 hself (Nat.lt_of_lt_of_le hpos hfront.length_le)

theorem trimBy_trimBy (p : Char → Bool) (cs : List Char) :
    trimBy p (trimBy p cs) = trimBy p cs := by
  rw [trimBy_eq p (trimBy p cs), dropWhile_trimBy, trimBy_eq, List.rdropWhile_idempotent]

theorem dropWhile_eq_self_iff {p : Char → Bool} {cs : List Char} :
    cs.dropWhile p = cs ↔ ∀ c ∈ cs.head?, p c = false := by
  cases cs with
  | nil => simp
  | cons c cs =>
    rw [List.dropWhile_eq_self_iff]
    simp

/-- A text is left as it is when its first and its last character are no blanks. -/
theorem trimBy_eq_self_iff {p : Char → Bool} {cs : List Char} :
    trimBy p cs = cs ↔ (∀ c ∈ cs.head?, p c = false) ∧ ∀ c ∈ cs.getLast?, p c = false := by
  rw [← List.head?_reverse, ← dropWhile_eq_self_iff, ← dropWhile_eq_self_iff]
  constructor
  · intro h
    have hfront : cs.dropWhile p = cs := by rw [← h, dropWhile_trimBy]
    have hreverse := congrArg List.reverse h
    rw [trimBy, hfront, List.reverse_reverse] at hreverse
    exact ⟨hfront, hreverse⟩
  · rintro ⟨hfront, hback⟩
    rw [trimBy, hfront, hback, List.reverse_reverse]

/-- Texts without blanks at their ends have none there when they are put together. -/
theorem trimBy_append {p : Char → Bool} {cs ds : List Char} (h : trimBy p cs = cs)
    (h' : trimBy p ds = ds) : trimBy p (cs ++ ds) = cs ++ ds := by
  obtain ⟨hhead, hlast⟩ := trimBy_eq_self_iff.1 h
  obtain ⟨hhead', hlast'⟩ := trimBy_eq_self_iff.1 h'
  refine trimBy_eq_self_iff.2 ⟨fun c hc => ?_, fun c hc => ?_⟩
  · rw [List.head?_append] at hc
    rcases Option.or_eq_some_iff.1 hc with hc | ⟨-, hc⟩
    · exact hhead c hc
    · exact hhead' c hc
  · rw [List.getLast?_append] at hc
    rcases Option.or_eq_some_iff.1 hc with hc | ⟨-, hc⟩
    · exact hlast' c hc
    · exact hlast c hc

theorem trim_append {s t : String} (h : trim s = s) (h' : trim t = t) :
    trim (s ++ t) = s ++ t := by
  have hlist : ∀ {s : String}, trim s = s → trimBy isBlank s.toList = s.toList := by
    intro s hs
    rw [trim] at hs
    rw [← String.toList_ofList (l := trimBy isBlank s.toList), hs]
  rw [trim, String.toList_append, trimBy_append (hlist h) (hlist h'), ← String.toList_append,
    String.ofList_toList]

@[simp] theorem trim_trim (s : String) : trim (trim s) = trim s := by
  unfold trim
  rw [String.toList_ofList, trimBy_trimBy]

end LayoutCompiler.Text
