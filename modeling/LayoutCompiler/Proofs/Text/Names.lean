import LayoutCompiler.Text.Case
import LayoutCompiler.Proofs.Text.Pieces
/-!
# Names in generated code

Generated code spells a name without what separates its words. Two names can come to one spelling,
as `item_1` and `item1` do; the separators can be told from the spelling as long as every word
begins with a letter.

* `Conventional.eq_of_pascalCase`, `Conventional.eq_of_camelCase`: names of words can be told from
  either spelling.
* `underscore_notMem_camelCase`: no spelling has the separator in it.
-/

namespace LayoutCompiler.Text

/-! ## Words -/

/-- A word: a small letter, and after it small letters and digits. -/
def IsWord : List Char → Prop
  | [] => False
  | c :: cs => c.isLower ∧ ∀ d ∈ cs, d.isLower ∨ d.isDigit

-- the letters of the word are gone through, where search may come upon all there are
instance : DecidablePred IsWord
  | [] => inferInstanceAs (Decidable False)
  | c :: cs =>
    have := List.decidableBAll (fun d : Char => d.isLower ∨ d.isDigit) cs
    inferInstanceAs (Decidable (c.isLower ∧ ∀ d ∈ cs, d.isLower ∨ d.isDigit))

/-- Words with `_` between neighbours. -/
def Conventional (name : String) : Prop := ∀ word ∈ cut (· == '_') name.toList, IsWord word

instance (name : String) : Decidable (Conventional name) :=
  inferInstanceAs (Decidable (∀ word ∈ cut (· == '_') name.toList, IsWord word))

example : Conventional "activity_main2" ∧ ¬ Conventional "item_1" := by decide

theorem isLower_iff {c : Char} : c.isLower ↔ 97 ≤ c.toNat ∧ c.toNat ≤ 122 := by
  have heq : c.isLower = (c.val ≥ 'a'.val && c.val ≤ 'z'.val) := rfl
  rw [heq]
  simp [UInt32.le_iff_toNat_le, ← Char.toNat_val]

theorem isDigit_iff {c : Char} : c.isDigit ↔ 48 ≤ c.toNat ∧ c.toNat ≤ 57 := by
  have heq : c.isDigit = (c.val ≥ '0'.val && c.val ≤ '9'.val) := rfl
  rw [heq]
  simp [UInt32.le_iff_toNat_le, ← Char.toNat_val]

theorem isUpper_iff {c : Char} : c.isUpper ↔ 65 ≤ c.toNat ∧ c.toNat ≤ 90 := by
  have heq : c.isUpper = decide (c.val ≥ 'A'.val ∧ c.val ≤ 'Z'.val) := rfl
  rw [heq]
  simp [UInt32.le_iff_toNat_le, ← Char.toNat_val]

theorem IsWord.mem {word : List Char} (h : IsWord word) {c : Char} (hc : c ∈ word) :
    c.isLower ∨ c.isDigit := by
  cases word with
  | nil => exact h.elim
  | cons d ds =>
    rcases List.mem_cons.1 hc with rfl | hc
    · exact Or.inl h.1
    · exact h.2 c hc

theorem not_isUpper {c : Char} (h : c.isLower ∨ c.isDigit) : ¬ c.isUpper := by
  rw [isLower_iff, isDigit_iff] at h
  rw [isUpper_iff]
  omega

theorem upper_letter : ∀ n < 26, upper (Char.ofNat (97 + n)) = [Char.ofNat (65 + n)] ∧
    (Char.ofNat (65 + n)).toNat = 65 + n := by
  decide

/-- The upper case of a small letter is one letter, and stands for no other small letter. -/
theorem upper_of_isLower {c : Char} (h : c.isLower) :
    ∃ d, upper c = [d] ∧ d.isUpper ∧ d.toNat + 32 = c.toNat := by
  rw [isLower_iff] at h
  obtain ⟨hupper, hcode⟩ := upper_letter (c.toNat - 97) (by omega)
  have hc : Char.ofNat (97 + (c.toNat - 97)) = c := by
    rw [Nat.add_sub_cancel' h.1, Char.ofNat_toNat]
  rw [hc] at hupper
  refine ⟨_, hupper, isUpper_iff.2 ?_, ?_⟩ <;> omega

/-! ## From a spelling to the words -/

/-- A capitalised word is a capital letter with no other one behind it. -/
theorem IsWord.exists_capitalised {word : List Char} (h : IsWord word) :
    ∃ c cs d, word = c :: cs ∧ capitalised word = d :: cs ∧ d.isUpper ∧ d.toNat + 32 = c.toNat ∧
      ∀ e ∈ cs, ¬ e.isUpper := by
  cases word with
  | nil => exact h.elim
  | cons c cs =>
    obtain ⟨d, hupper, hd, hcode⟩ := upper_of_isLower h.1
    have hcap : capitalised (c :: cs) = d :: cs := by simp [capitalised, hupper]
    exact ⟨c, cs, d, rfl, hcap, hd, hcode, fun e he => not_isUpper (h.2 e he)⟩

/-- The rest of a spelling is empty or begins with a capital letter. -/
theorem takeWhile_capitalised {words : List (List Char)} (h : ∀ word ∈ words, IsWord word) :
    (words.flatMap capitalised).takeWhile (fun c => !c.isUpper) = [] := by
  cases words with
  | nil => rfl
  | cons word words =>
    obtain ⟨c, cs, d, -, hcap, hd, -, -⟩ := (h word List.mem_cons_self).exists_capitalised
    simp [hcap, hd]

/-- A word ends where the next capital letter is. -/
theorem eq_of_append_capitalised {cs ds rest rest' : List Char} (hc : ∀ c ∈ cs, ¬ c.isUpper)
    (hd : ∀ d ∈ ds, ¬ d.isUpper) (hrest : rest.takeWhile (fun c => !c.isUpper) = [])
    (hrest' : rest'.takeWhile (fun c => !c.isUpper) = []) (h : cs ++ rest = ds ++ rest') :
    cs = ds ∧ rest = rest' := by
  have htake := congrArg (List.takeWhile fun c => !c.isUpper) h
  rw [List.takeWhile_append_of_pos (by simpa using hc),
    List.takeWhile_append_of_pos (by simpa using hd), hrest, hrest', List.append_nil,
    List.append_nil] at htake
  exact ⟨htake, List.append_cancel_left (htake ▸ h)⟩

theorem eq_of_flatMap_capitalised {words others : List (List Char)}
    (hw : ∀ word ∈ words, IsWord word) (ho : ∀ word ∈ others, IsWord word)
    (h : words.flatMap capitalised = others.flatMap capitalised) : words = others := by
  induction words generalizing others with
  | nil =>
    cases others with
    | nil => rfl
    | cons other others =>
      obtain ⟨c, cs, d, -, hcap, -⟩ := (ho other List.mem_cons_self).exists_capitalised
      simp [hcap] at h
  | cons word words ih =>
    obtain ⟨c, cs, d, rfl, hcap, -, hcode, hcs⟩ := (hw word List.mem_cons_self).exists_capitalised
    cases others with
    | nil => simp [hcap] at h
    | cons other others =>
      obtain ⟨c', cs', d', rfl, hcap', -, hcode', hcs'⟩ :=
        (ho other List.mem_cons_self).exists_capitalised
      have hwords : ∀ word ∈ words, IsWord word :=
        fun word hmem => hw word (List.mem_cons_of_mem _ hmem)
      have hothers : ∀ word ∈ others, IsWord word :=
        fun word hmem => ho word (List.mem_cons_of_mem _ hmem)
      rw [List.flatMap_cons, List.flatMap_cons, hcap, hcap', List.cons_append,
        List.cons_append] at h
      -- the first capital letter is that of both first words, the next one ends them
      obtain ⟨rfl, htail⟩ := List.cons.inj h
      obtain ⟨rfl, hrest⟩ := eq_of_append_capitalised hcs hcs' (takeWhile_capitalised hwords)
        (takeWhile_capitalised hothers) htail
      obtain rfl : c = c' := Char.toNat_inj.1 (by omega)
      rw [ih hwords hothers hrest]

theorem Conventional.pascalCase {name : String} (h : Conventional name) :
    pascalCase name =
      String.ofList ((cut (· == '_') name.toList).flatMap capitalised) := by
  rw [Text.pascalCase]
  congr 2
  apply cut_congr
  intro c hc
  rcases mem_cut (p := (· == '_')) hc with hsep | ⟨word, hword, hmem⟩
  · obtain rfl : c = '_' := by simpa using hsep
    rfl
  -- inside the words there are letters and digits only, so dashes and points cut nothing
  · have hplain := (h word hword).mem hmem
    rw [isLower_iff, isDigit_iff] at hplain
    have hdash : c ≠ '-' := by
      rintro rfl
      exact absurd hplain (by decide)
    have hpoint : c ≠ '.' := by
      rintro rfl
      exact absurd hplain (by decide)
    rw [beq_false_of_ne hdash, beq_false_of_ne hpoint, Bool.or_false, Bool.or_false]

/-- Names of words come to one spelling only when they are the same. -/
theorem Conventional.eq_of_pascalCase {name other : String} (h : Conventional name)
    (ho : Conventional other) (heq : Text.pascalCase name = Text.pascalCase other) :
    name = other := by
  rw [h.pascalCase, ho.pascalCase, String.ofList_inj] at heq
  have hwords := eq_of_flatMap_capitalised h ho heq
  apply String.toList_injective
  rw [← joinWith_cut '_' name.toList, hwords, joinWith_cut]

example : pascalCase "item_1" = pascalCase "item1" := by decide

/-! ## A small letter in front -/

theorem lower_letter : ∀ n < 26, lower (Char.ofNat (65 + n)) = [Char.ofNat (97 + n)] ∧
    (Char.ofNat (97 + n)).toNat = 97 + n := by
  decide

/-- The lower case of a capital letter is one letter, and stands for no other capital letter. -/
theorem lower_of_isUpper {d : Char} (h : d.isUpper) :
    ∃ c, lower d = [c] ∧ c.toNat = d.toNat + 32 := by
  rw [isUpper_iff] at h
  obtain ⟨hlower, hcode⟩ := lower_letter (d.toNat - 65) (by omega)
  have hd : Char.ofNat (65 + (d.toNat - 65)) = d := by
    rw [Nat.add_sub_cancel' h.1, Char.ofNat_toNat]
  rw [hd] at hlower
  exact ⟨_, hlower, by omega⟩

/-- The spelling of a name of words begins with a capital letter. -/
theorem Conventional.exists_pascalCase {name : String} (h : Conventional name) :
    ∃ d ds, (Text.pascalCase name).toList = d :: ds ∧ d.isUpper := by
  obtain ⟨word, words, hcut⟩ := List.exists_cons_of_ne_nil (cut_ne_nil (· == '_') name.toList)
  have hword : IsWord word := h word (by rw [hcut]; exact List.mem_cons_self)
  obtain ⟨-, cs, d, -, hcap, hd, -, -⟩ := hword.exists_capitalised
  refine ⟨d, cs ++ words.flatMap capitalised, ?_, hd⟩
  rw [h.pascalCase, String.toList_ofList, hcut, List.flatMap_cons, hcap, List.cons_append]

/-- The same goes for the spelling with a small letter in front. -/
theorem Conventional.eq_of_camelCase {name other : String} (h : Conventional name)
    (ho : Conventional other) (heq : camelCase name = camelCase other) : name = other := by
  obtain ⟨d, ds, hname, hd⟩ := h.exists_pascalCase
  obtain ⟨d', ds', hother, hd'⟩ := ho.exists_pascalCase
  obtain ⟨c, hlower, hcode⟩ := lower_of_isUpper hd
  obtain ⟨c', hlower', hcode'⟩ := lower_of_isUpper hd'
  unfold camelCase at heq
  rw [hname, hother] at heq
  dsimp only at heq
  rw [hlower, hlower', String.ofList_inj] at heq
  obtain ⟨rfl, rfl⟩ := List.cons.inj heq
  obtain rfl : d = d' := Char.toNat_inj.1 (by omega)
  exact h.eq_of_pascalCase ho (String.toList_inj.1 (hname.trans hother.symm))

/-! ## Separators -/

theorem eq_toNat_of_ofNat {n : Nat} {c : Char} (h : Char.ofNat n = c) (hc : c.toNat ≠ 0) :
    n = c.toNat := by
  subst h
  by_cases hvalid : n.isValidChar
  · have hof : Char.ofNat n = Char.ofNatAux n hvalid := dif_pos hvalid
    rw [hof]
    rfl
  · have hof : Char.ofNat n = Char.ofNat 0 := dif_neg hvalid
    rw [hof] at hc
    exact absurd rfl hc

/-- A mapping makes a character only out of itself when nothing in its tables leads to it. -/
theorem notMem_mapCase {expansions : List (Nat × List Nat)} {runs : List CaseRun} {c d : Char}
    (hexpansions : ∀ e ∈ expansions, d.toNat ∉ e.2)
    (hruns : ∀ run ∈ runs, ¬ ((run.first : Int) + run.offset ≤ d.toNat ∧
      (d.toNat : Int) ≤ run.last + run.offset))
    (hd : d.toNat ≠ 0) (hne : c ≠ d) : d ∉ mapCase expansions runs c := by
  intro hmem
  unfold mapCase at hmem
  -- a letter is mapped by an expansion, by a run or to itself
  split at hmem
  · rename_i codes hlookup
    obtain ⟨before, after, heq, -⟩ := List.lookup_eq_some_iff.1 hlookup
    obtain ⟨code, hcode, hof⟩ := List.mem_map.1 hmem
    rw [eq_toNat_of_ofNat hof hd] at hcode
    exact hexpansions (c.toNat, codes) (by simp [heq]) hcode
  · split at hmem
    · rename_i run hrun
      have hholds := List.find?_some hrun
      have hcode := eq_toNat_of_ofNat (List.mem_singleton.1 hmem).symm hd
      unfold CaseRun.holds at hholds
      rw [Bool.and_eq_true, Bool.and_eq_true, decide_eq_true_eq, decide_eq_true_eq] at hholds
      refine hruns run (List.mem_of_find?_eq_some hrun) ?_
      omega
    · exact hne (List.mem_singleton.1 hmem).symm

theorem underscore_notMem_upper {c : Char} (h : c ≠ '_') : '_' ∉ upper c :=
  notMem_mapCase (by decide) (by decide +kernel) (by decide) h

theorem underscore_notMem_lower {c : Char} (h : c ≠ '_') : '_' ∉ lower c :=
  notMem_mapCase (by decide) (by decide +kernel) (by decide) h

theorem underscore_notMem_pascalCase (name : String) : '_' ∉ (pascalCase name).toList := by
  intro hmem
  unfold pascalCase at hmem
  rw [String.toList_ofList] at hmem
  obtain ⟨piece, hpiece, hmem⟩ := List.mem_flatMap.1 hmem
  have hplain : ∀ c ∈ piece, c ≠ '_' := by
    rintro c hc rfl
    have hseparates := not_separates_of_mem_cut hpiece hc
    cases hseparates
  cases piece with
  | nil => cases hmem
  | cons c cs =>
    rcases List.mem_append.1 hmem with hmem | hmem
    · exact underscore_notMem_upper (hplain c List.mem_cons_self) hmem
    · exact hplain '_' (List.mem_cons_of_mem c hmem) rfl

/-- A spelling has no separator in it. -/
theorem underscore_notMem_camelCase (name : String) : '_' ∉ (camelCase name).toList := by
  have hpascal := underscore_notMem_pascalCase name
  unfold camelCase
  cases hname : (pascalCase name).toList with
  | nil => decide
  | cons c cs =>
    rw [hname] at hpascal
    obtain ⟨hc, hcs⟩ := not_or.1 (mt List.mem_cons.2 hpascal)
    dsimp only
    rw [String.toList_ofList]
    intro hmem
    rcases List.mem_append.1 hmem with hmem | hmem
    · exact underscore_notMem_lower (Ne.symm hc) hmem
    · exact hcs hmem

end LayoutCompiler.Text
