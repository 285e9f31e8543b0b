import LayoutCompiler.Proofs.Compilation.Statistics
import Mathlib.Data.Fintype.Pigeonhole
import Mathlib.Data.Fintype.Prod
import Mathlib.Data.List.Nodup
/-!
# Clashes of identifiers

An identifier shows the first four bytes of a digest, and these are all that tell it from others.
The objects of a tree have identifiers at positions of their own, so that two of them are confused
if and only if two digests begin alike. For no seed can this be ruled out for ever
(`exists_clash`).

* `nth_eq_iff`: which identifiers are the same.
* `tally_of_ofElement`: the identifiers of a compilation.
* `clashes_of_digests`: when two objects of a compilation have one identifier.
-/

namespace LayoutCompiler

/-! ## What an identifier shows -/

namespace IdSource

/-- The text whose digest an identifier is cut from. -/
def sourceText (seed : String) (position : Nat) : String := seed ++ ":" ++ toString position

/-- The bytes of a digest that an identifier shows: the first four. -/
def lead (seed : String) (position : Nat) : List UInt8 :=
  (Digest.md5 (sourceText seed position).toUTF8.toList).take 4

variable {seed seed' : String} {i j : Nat}

theorem toString_inj (h : toString i = toString j) : i = j := by
  have hdigits := congrArg (fun s : String => Nat.ofDigitChars 10 s.toList 0) h
  simpa using hdigits

/-- Different positions have different texts. -/
theorem sourceText_ne (seed : String) (h : i ≠ j) : sourceText seed i ≠ sourceText seed j := by
  intro heq
  exact h (toString_inj ((String.append_right_inj _).1 heq))

theorem lowerHexDigit_inj {m n : Nat} (hm : m < 16) (hn : n < 16)
    (h : Text.lowerHexDigit m = Text.lowerHexDigit n) : m = n := by
  have hvalue := congrArg Text.hexValue? h
  rw [Text.hexValue?_lowerHexDigit m hm, Text.hexValue?_lowerHexDigit n hn] at hvalue
  exact Option.some.inj hvalue

/-- The two digits of a byte tell which one it is. -/
theorem byte_inj {a b : UInt8}
    (hhigh : Text.lowerHexDigit (a.toNat / 16) = Text.lowerHexDigit (b.toNat / 16))
    (hlow : Text.lowerHexDigit (a.toNat % 16) = Text.lowerHexDigit (b.toNat % 16)) : a = b := by
  have ha := a.toNat_lt
  have hb := b.toNat_lt
  have hhigh := lowerHexDigit_inj (by omega) (by omega) hhigh
  have hlow := lowerHexDigit_inj (by omega) (by omega) hlow
  apply UInt8.toNat_inj.1
  omega

/-- An identifier spells the four bytes of its digest that it shows. -/
theorem exists_lead (seed : String) (position : Nat) : ∃ a b c d : UInt8,
    lead seed position = [a, b, c, d] ∧
    (nth seed position).toList =
      [Text.lowerHexDigit (a.toNat / 16), Text.lowerHexDigit (a.toNat % 16),
        Text.lowerHexDigit (b.toNat / 16), '-', Text.lowerHexDigit (b.toNat % 16),
        Text.lowerHexDigit (c.toNat / 16), '-', Text.lowerHexDigit (c.toNat % 16),
        Text.lowerHexDigit (d.toNat / 16), Text.lowerHexDigit (d.toNat % 16)] := by
  refine ⟨_, _, _, _, rfl, ?_⟩
  exact String.toList_ofList

/-- Two identifiers are the same if and only if the digests begin with the same four bytes. -/
theorem nth_eq_iff : nth seed i = nth seed' j ↔ lead seed i = lead seed' j := by
  obtain ⟨a, b, c, d, hlead, hnth⟩ := exists_lead seed i
  obtain ⟨a', b', c', d', hlead', hnth'⟩ := exists_lead seed' j
  rw [← String.toList_inj, hnth, hnth', hlead, hlead']
  constructor
  · intro h
    simp only [List.cons.injEq, and_true, true_and] at h
    obtain ⟨ha, ha', hb, hb', hc, hc', hd, hd'⟩ := h
    rw [byte_inj ha ha', byte_inj hb hb', byte_inj hc hc', byte_inj hd hd']
  · intro h
    simp only [List.cons.injEq, and_true] at h
    obtain ⟨rfl, rfl, rfl, rfl⟩ := h
    rfl

/-- Some identifiers are all different if and only if no two of their digests begin alike. -/
theorem nodup_first_iff (seed : String) (n : Nat) : (first seed n).Nodup ↔
    ∀ i j, 1 ≤ i → i < j → j ≤ n → lead seed i ≠ lead seed j := by
  unfold first
  rw [List.nodup_map_iff_inj_on List.nodup_range]
  constructor
  · intro h i j hi hij hj hlead
    have hsame : nth seed (i - 1 + 1) = nth seed (j - 1 + 1) := by
      rw [Nat.sub_add_cancel hi, Nat.sub_add_cancel (by omega), nth_eq_iff, hlead]
    have heq := h (i - 1) (List.mem_range.2 (by omega)) (j - 1) (List.mem_range.2 (by omega)) hsame
    omega
  · intro h i hi j hj hsame
    rw [List.mem_range] at hi hj
    have hlead := nth_eq_iff.1 hsame
    rcases Nat.lt_trichotomy i j with hlt | heq | hlt
    · exact absurd hlead (h (i + 1) (j + 1) (by omega) (by omega) (by omega))
    · exact heq
    · exact absurd hlead.symm (h (j + 1) (i + 1) (by omega) (by omega) (by omega))

/-- The bytes that an identifier shows, as one of `256 ^ 4` values. -/
def code (seed : String) (position : Nat) : Fin 256 × Fin 256 × Fin 256 × Fin 256 :=
  let byte (k : Nat) : Fin 256 := ((lead seed position).getD k 0).toFin
  (byte 0, byte 1, byte 2, byte 3)

theorem lead_of_code (h : code seed i = code seed j) : lead seed i = lead seed j := by
  obtain ⟨a, b, c, d, hlead, -⟩ := exists_lead seed i
  obtain ⟨a', b', c', d', hlead', -⟩ := exists_lead seed j
  simp only [code, hlead, hlead', Prod.mk.injEq] at h
  obtain ⟨ha, hb, hc, hd⟩ := h
  obtain rfl : a = a' := UInt8.toFin_inj.1 ha
  obtain rfl : b = b' := UInt8.toFin_inj.1 hb
  obtain rfl : c = c' := UInt8.toFin_inj.1 hc
  obtain rfl : d = d' := UInt8.toFin_inj.1 hd
  rw [hlead, hlead']

/-- Identifiers run out: for every seed there are two positions with the same one. -/
theorem exists_clash (seed : String) :
    ∃ i j, 1 ≤ i ∧ i < j ∧ j ≤ 2 ^ 32 + 1 ∧ nth seed i = nth seed j := by
  have hcard : Fintype.card (Fin 256 × Fin 256 × Fin 256 × Fin 256) <
      Fintype.card (Fin (2 ^ 32 + 1)) := by
    simp only [Fintype.card_prod, Fintype.card_fin]
    norm_num
  obtain ⟨i, j, hne, hcode⟩ := Fintype.exists_ne_map_eq_of_card_lt
    (fun position : Fin (2 ^ 32 + 1) => code seed (position + 1)) hcard
  have hsame := nth_eq_iff.2 (lead_of_code hcode)
  rcases Nat.lt_or_gt_of_ne (Fin.val_ne_of_ne hne) with hlt | hlt
  · exact ⟨i + 1, j + 1, by omega, by omega, by omega, hsame⟩
  · exact ⟨j + 1, i + 1, by omega, by omega, by omega, hsame.symm⟩

end IdSource

/-! ## The identifiers of compilations -/

namespace Compilation

variable {α : Type} [Scalar α]

/-- What has been drawn from the source that the file seeds is in use by one object each. -/
theorem tally_of_ofElement {setting : Setting α} {file : String} {root : Element}
    {c : Compilation α} (h : ofElement setting file root = .ok c) :
    c.tree.Tally ∧ c.tree.ids.seed = file := by
  obtain ⟨child, s, hrun, -, rfl⟩ := exists_pass h
  obtain ⟨k, hcounts⟩ := Compile.counts_element root none none {} (start file) s child hrun
  exact ⟨hcounts.issued.tally (Tree.tally_empty file), hcounts.issued.seed⟩

/-- Two identifiers of a seed are the same if and only if the digests of two texts, which are
different for different positions, begin with the same four bytes. The nodes and the constraints of
a compilation have the identifiers of positions of their own, so that two of them have one
identifier if and only if two digests begin alike. -/
theorem clashes_of_digests :
    (∀ seed i j, IdSource.nth seed i = IdSource.nth seed j ↔
      IdSource.lead seed i = IdSource.lead seed j) ∧
    (∀ seed i j, i ≠ j → IdSource.sourceText seed i ≠ IdSource.sourceText seed j) ∧
    ∀ (setting : Setting α) (file : String) (root : Element) (c : Compilation α),
      ofElement setting file root = .ok c →
      ∃ n, n = c.tree.nodeIdents.length + c.constraintCount ∧
        c.tree.idents.Perm (IdSource.first file n) ∧
        (c.tree.idents.Nodup ↔
          ∀ i j, 1 ≤ i → i < j → j ≤ n → IdSource.lead file i ≠ IdSource.lead file j) := by
  refine ⟨fun seed i j => IdSource.nth_eq_iff, fun seed i j => IdSource.sourceText_ne seed, ?_⟩
  intro setting file root c h
  obtain ⟨htally, hseed⟩ := tally_of_ofElement h
  have hperm : c.tree.idents.Perm (IdSource.first file c.tree.ids.drawn) := hseed ▸ htally
  refine ⟨c.tree.ids.drawn, htally.drawn_eq, hperm, ?_⟩
  rw [hperm.nodup_iff, IdSource.nodup_first_iff]

end Compilation

namespace Sample

/-- The identifiers of the sample are all different, because no two digests begin alike. -/
theorem clashes_of_digests_sample :
    IdSource.sourceText file 1 ≠ IdSource.sourceText file 2 ∧
    ∃ c, Compilation.ofElement setting file stack = .ok c ∧ c.tree.idents.length = 14 ∧
      ∀ i j, 1 ≤ i → i < j → j ≤ 14 →
        IdSource.lead file i ≠ IdSource.lead file j := by
  have hrun : (Compilation.ofElement setting file stack).toOption.any (fun c =>
      decide (c.tree.idents.Nodup ∧ c.tree.idents.length = 14)) = true := by
    decide +kernel
  obtain ⟨c, hc, hidents⟩ := exists_ok hrun
  obtain ⟨hnodup, hlength⟩ := of_decide_eq_true hidents
  obtain ⟨-, hdistinct, hclashes⟩ := Compilation.clashes_of_digests (α := ℚ)
  obtain ⟨n, -, hperm, hiff⟩ := hclashes _ _ _ c hc
  have hn : n = 14 := by
    rw [← hlength, hperm.length_eq, IdSource.first, List.length_map, List.length_range]
  subst hn
  exact ⟨hdistinct _ 1 2 (by decide), c, hc, hlength, hiff.1 hnodup⟩

/-- A file for which the first two digests begin with the same four bytes. -/
def clashingFile : String := "layout/eqyoitz.xml"

/-- The first two identifiers of this file are the same, and the objects of a layout in it do not
all have identifiers of their own. -/
theorem not_idents_distinct :
    IdSource.nth clashingFile 1 = "fdd-78-b49" ∧
    IdSource.nth clashingFile 2 = "fdd-78-b49" ∧
    ∃ c, Compilation.ofElement setting clashingFile stack = .ok c ∧
      ¬ c.tree.idents.Nodup := by
  have hrun : (Compilation.ofElement setting clashingFile stack).toOption.any (fun c =>
      decide (¬ c.tree.idents.Nodup)) = true := by
    decide +kernel
  obtain ⟨c, hc, hidents⟩ := exists_ok hrun
  exact ⟨by decide +kernel, by decide +kernel, c, hc, of_decide_eq_true hidents⟩

end Sample

end LayoutCompiler
