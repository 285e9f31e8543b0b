import LayoutCompiler.Proofs.Number.Rational
import Mathlib
/-!
# The written forms of zero and one

Documents leave out what goes without saying: an addend that compares equal to zero, a factor that
compares equal to one. Nothing is lost by that as long as all magnitudes that compare equal to one
of these are written alike, which is what `LawfulText` asks of a type of magnitudes.

* `exactOfFloat_of_finite`, `exactOfFloat_of_zero`: the exact value of a double, read off its
  fields. A negative zero is no exception: zero is written without a sign.
* The rational numbers and the doubles both have lawful texts.
-/

namespace LayoutCompiler

theorem Exact.text_zero (negative : Bool) (denominator : Nat) :
    Exact.text (.finite negative 0 denominator) = "0" := by
  have hround : roundDiv 0 denominator = 0 := by
    unfold roundDiv
    simp only [Nat.zero_div, Nat.zero_mod, Nat.mul_zero]
    split
    · rfl
    · rw [if_pos (by omega)]
  unfold text
  simp only [Nat.zero_mul, hround, bne_self_eq_false, Bool.and_false]
  decide +kernel

/-- Magnitudes that compare equal to zero or to one are written as these are. -/
class LawfulText (α : Type) [Scalar α] : Prop where
  text_of_zero : ∀ x : α, (x == 0) = true → Scalar.text x = "0"
  text_of_one : ∀ x : α, (x == 1) = true → Scalar.text x = "1"

instance : LawfulText ℚ where
  text_of_zero x hx := by
    rw [eq_of_beq hx]
    decide +kernel
  text_of_one x hx := by
    rw [eq_of_beq hx]
    decide +kernel

/-! ## Doubles -/

section Double

open Float.Model Float.Model.UnpackedFloat

variable {x : Float} {s : Sign} {m : Nat} {e : Int} {hm : 0 < m}

theorem toNat_unpackExponent (x : Float) :
    (@unpackExponent .binary64 x.toModel.toBits.toBitVec).toNat =
      x.toBits.toNat / 2 ^ 52 % 2 ^ 11 := by
  simp only [unpackExponent, BitVec.toNat_cast, BitVec.extractLsb_toNat,
    Nat.shiftRight_eq_div_pow]
  rfl

theorem toNat_unpackMantissa (x : Float) :
    (@unpackMantissa .binary64 x.toModel.toBits.toBitVec).toNat =
      x.toBits.toNat % 2 ^ 52 := by
  simp only [unpackMantissa, BitVec.toNat_cast, BitVec.extractLsb_toNat,
    Nat.shiftRight_eq_div_pow, Nat.pow_zero, Nat.div_one]
  rfl

theorem toNat_unpackSign (x : Float) :
    (@unpackSign .binary64 x.toModel.toBits.toBitVec).toNat =
      x.toBits.toNat / 2 ^ 63 % 2 := by
  simp only [unpackSign, BitVec.toNat_cast, BitVec.extractLsb_toNat, Nat.shiftRight_eq_div_pow]
  rfl

/-- The sign of a double is its highest bit. -/
theorem ofBitVec_unpackSign (x : Float) :
    (Sign.ofBitVec (@unpackSign .binary64 x.toModel.toBits.toBitVec) = .negative) ↔
      x.toBits.toNat / 2 ^ 63 = 1 := by
  have hlt : x.toBits.toNat < 2 ^ 64 := x.toBits.toNat_lt
  have hsign := toNat_unpackSign x
  unfold Sign.ofBitVec
  split
  · rename_i h
    rw [h] at hsign
    -- the sign is one bit, which the division by the highest power leaves
    have h0 : x.toBits.toNat / 2 ^ 63 % 2 = 0 := hsign.symm
    constructor
    · intro h
      cases h
    · omega
  · rename_i h
    have hne : x.toBits.toNat / 2 ^ 63 % 2 ≠ 0 := by
      intro h0
      rw [h0] at hsign
      exact h (BitVec.eq_of_toNat_eq hsign)
    constructor
    · intro
      omega
    · exact fun _ => rfl

theorem unpackExponent_eq_iff (x : Float) (v : BitVec 11) :
    @unpackExponent .binary64 x.toModel.toBits.toBitVec = v ↔
      x.toBits.toNat / 2 ^ 52 % 2 ^ 11 = v.toNat := by
  rw [← toNat_unpackExponent]
  exact BitVec.toNat_inj.symm

theorem unpackMantissa_eq_iff (x : Float) (v : BitVec 52) :
    @unpackMantissa .binary64 x.toModel.toBits.toBitVec = v ↔
      x.toBits.toNat % 2 ^ 52 = v.toNat := by
  rw [← toNat_unpackMantissa]
  exact BitVec.toNat_inj.symm

/-- The hidden bit stands above the bits of the fraction. -/
theorem toNat_hidden_append (x : Float) :
    (1#1 ++ @unpackMantissa .binary64 x.toModel.toBits.toBitVec).toNat =
      2 ^ 52 + x.toBits.toNat % 2 ^ 52 := by
  have hlt : x.toBits.toNat % 2 ^ 52 < 2 ^ 52 := Nat.mod_lt _ (Nat.two_pow_pos 52)
  rw [BitVec.toNat_append, toNat_unpackMantissa, ← Nat.shiftLeft_add_eq_or_of_lt hlt]
  rfl

/-- The fields of a finite double other than zero. -/
theorem fields_of_finite (h : x.toModel.unpack = .finite s m e hm) :
    (x.toBits.toNat / 2 ^ 63 = 1 ↔ s = .negative) ∧
    x.toBits.toNat / 2 ^ 52 % 2 ^ 11 ≠ 2 ^ 11 - 1 ∧
    m = (if x.toBits.toNat / 2 ^ 52 % 2 ^ 11 = 0 then x.toBits.toNat % 2 ^ 52
      else 2 ^ 52 + x.toBits.toNat % 2 ^ 52) ∧
    e = (Nat.max (x.toBits.toNat / 2 ^ 52 % 2 ^ 11) 1 : Int) - 1075 := by
  have hbias : ((Format.binary64.exponentBias : Nat) : Int) = 1023 := rfl
  have hwidth : ((Format.binary64.mantissaBitsWithoutImplicit : Nat) : Int) = 52 := rfl
  have hsign (hs : Sign.ofBitVec (@unpackSign .binary64 x.toModel.toBits.toBitVec) = s) :
      x.toBits.toNat / 2 ^ 63 = 1 ↔ s = .negative := by
    rw [← ofBitVec_unpackSign, hs]
  unfold Float.Model.unpack UnpackedFloat.unpack at h
  simp only at h
  split at h
  · split at h <;> cases h
  · rename_i hfinite
    have hfinite : x.toBits.toNat / 2 ^ 52 % 2 ^ 11 ≠ 2 ^ 11 - 1 :=
      fun heq => hfinite ((unpackExponent_eq_iff x _).2 heq)
    split at h
    -- the least exponent: no hidden bit, and the exponent counts as one
    · rename_i hleast
      have hleast : x.toBits.toNat / 2 ^ 52 % 2 ^ 11 = 0 := (unpackExponent_eq_iff x _).1 hleast
      split at h
      · cases h
      · injection h with h1 h2 h3
        rw [toNat_unpackMantissa] at h2
        rw [toNat_unpackExponent, hleast, hbias, hwidth] at h3
        refine ⟨hsign h1, hfinite, ?_, ?_⟩
        · rw [if_pos hleast, h2]
        · rw [hleast, ← h3]
          rfl
    -- all others: the hidden bit is in front of the mantissa
    · rename_i hnormal
      have hnormal : x.toBits.toNat / 2 ^ 52 % 2 ^ 11 ≠ 0 :=
        fun heq => hnormal ((unpackExponent_eq_iff x _).2 heq)
      have hmax : Nat.max (x.toBits.toNat / 2 ^ 52 % 2 ^ 11) 1 =
          x.toBits.toNat / 2 ^ 52 % 2 ^ 11 := Nat.max_eq_left (Nat.pos_of_ne_zero hnormal)
      injection h with h1 h2 h3
      rw [toNat_hidden_append] at h2
      rw [toNat_unpackExponent, hbias, hwidth] at h3
      refine ⟨hsign h1, hfinite, ?_, ?_⟩
      · rw [if_neg hnormal, h2]
      · rw [← h3, hmax]
        omega

/-- The exact value of a finite double other than zero. -/
theorem exactOfFloat_of_finite (h : x.toModel.unpack = .finite s m e hm) :
    ∃ negative, (negative = true ↔ s = .negative) ∧
      exactOfFloat x = .finite negative (m * 2 ^ e.toNat) (2 ^ (-e).toNat) := by
  obtain ⟨hsign, hfinite, hm, he⟩ := fields_of_finite h
  have hup : e.toNat = Nat.max (x.toBits.toNat / 2 ^ 52 % 2 ^ 11) 1 - 1075 := by
    omega
  have hdown : (-e).toNat = 1075 - Nat.max (x.toBits.toNat / 2 ^ 52 % 2 ^ 11) 1 := by
    omega
  refine ⟨decide (x.toBits.toNat / 2 ^ 63 = 1), by rw [decide_eq_true_iff, hsign], ?_⟩
  unfold exactOfFloat
  simp only [Nat.pow_eq, if_neg hfinite, hm, hup, hdown]

/-- The exact value of a positive double. -/
theorem exactOfFloat_of_positive (h : x.toModel.unpack = .finite .positive m e hm) :
    exactOfFloat x = .finite false (m * 2 ^ e.toNat) (2 ^ (-e).toNat) := by
  obtain ⟨negative, hnegative, hexact⟩ := exactOfFloat_of_finite h
  have hpositive : negative = false := by
    rw [Bool.eq_false_iff, Ne, hnegative]
    exact nofun
  rw [hexact, hpositive]

/-- The exact value of a zero. -/
theorem exactOfFloat_of_zero (h : x.toModel.unpack = .zero s) :
    ∃ negative denominator, 0 < denominator ∧ exactOfFloat x = .finite negative 0 denominator := by
  unfold Float.Model.unpack UnpackedFloat.unpack at h
  simp only at h
  split at h
  · split at h <;> cases h
  · split at h
    · rename_i hleast
      split at h
      · rename_i hzero
        -- zero is the least exponent with an empty mantissa
        have hleast : x.toBits.toNat / 2 ^ 52 % 2 ^ 11 = 0 := (unpackExponent_eq_iff x _).1 hleast
        have hzero : x.toBits.toNat % 2 ^ 52 = 0 := (unpackMantissa_eq_iff x _).1 hzero
        unfold exactOfFloat
        simp only [Nat.pow_eq, hleast, hzero]
        refine ⟨_, _, ?_, rfl⟩
        positivity
      · cases h
    · cases h

theorem unpack_zero : (0 : Float).toModel.unpack = .zero .positive := rfl

theorem unpack_one : (1 : Float).toModel.unpack = .finite .positive (2 ^ 52) (-52) (by decide) :=
  rfl

/-- The doubles equal to zero are the two zeros. -/
theorem unpack_of_beq_zero (h : (x == 0) = true) : ∃ s, x.toModel.unpack = .zero s := by
  have hcompare : (x.toModel.unpack.compare (0 : Float).toModel.unpack == some .eq) = true := h
  rw [unpack_zero] at hcompare
  generalize x.toModel.unpack = u at hcompare ⊢
  rcases u with (_ | _) | _ | s | ⟨_ | _, _, _, _⟩
  case zero => exact ⟨s, rfl⟩
  all_goals cases hcompare

/-- The double equal to one is one. -/
theorem unpack_of_beq_one (h : (x == 1) = true) :
    x.toModel.unpack = .finite .positive (2 ^ 52) (-52) (by decide) := by
  have hcompare : (x.toModel.unpack.compare (1 : Float).toModel.unpack == some .eq) = true := h
  rw [unpack_one] at hcompare
  generalize x.toModel.unpack = u at hcompare ⊢
  rcases u with (_ | _) | _ | (_ | _) | ⟨_ | _, m, e, hm⟩
  case finite.positive =>
    simp only [UnpackedFloat.compare, beq_iff_eq, Option.some.injEq, Ordering.then_eq_eq,
      compare_eq_iff_eq] at hcompare
    obtain ⟨rfl, rfl⟩ := hcompare
    rfl
  all_goals cases hcompare

instance : LawfulText Float where
  text_of_zero x hx := by
    obtain ⟨s, hs⟩ := unpack_of_beq_zero hx
    obtain ⟨negative, denominator, -, hexact⟩ := exactOfFloat_of_zero hs
    exact (congrArg Exact.text hexact).trans (Exact.text_zero negative denominator)
  text_of_one x hx := by
    have hexact : exactOfFloat x = _ := exactOfFloat_of_positive (unpack_of_beq_one hx)
    have htext : Exact.text (.finite false (2 ^ 52 * 2 ^ (-52 : Int).toNat)
        (2 ^ (-(-52) : Int).toNat)) = "1" := by
      decide +kernel
    exact (congrArg Exact.text hexact).trans htext

end Double

end LayoutCompiler
