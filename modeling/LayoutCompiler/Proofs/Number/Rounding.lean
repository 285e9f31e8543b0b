import LayoutCompiler.Proofs.Number.Decimal
import LayoutCompiler.Proofs.Number.Written
/-!
# Rounded numbers

What is written for a double: the plain decimal that is nearest to it among those with six places,
and of two such decimals the even one. Doubles are written alike when they are rounded alike, but
for the sign: a negative number keeps it even if nothing else is left of it.

* `nearest_roundDiv`: quotients are rounded to the nearest whole number, ties to the even one.
* `Decimal.IsRounded`: a number rounded to six places. It is so in one way (`unique`), and numbers
  are rounded alike if they are equally many millionths (`eq_iff`).
* `Exact.exists_isRounded`: the text of a magnitude is that of the rounded number.
* `Exact.text_of_den_eq_one`, `Exact.text_of_ne_zero`: whole numbers have the text of an integer,
  and all but zero that of their six places without what is superfluous at the end.
* `Double.text_of_finite`: what is written for doubles.
-/

namespace LayoutCompiler

open Numeral

/-! ## The nearest whole number -/

/-- No whole number is nearer to a number, and if another one is as near, this one is even. -/
structure Nearest (q : ℚ) (r : ℤ) : Prop where
  close : |q - r| ≤ 1 / 2
  even : |q - r| = 1 / 2 → Even r

namespace Nearest

variable {q : ℚ} {r s : ℤ}

theorem unique (h : Nearest q r) (h' : Nearest q s) : r = s := by
  by_contra hne
  have hapart : 1 ≤ |(r : ℚ) - s| := by
    exact_mod_cast Int.one_le_abs (sub_ne_zero.2 hne)
  have hsum : |(r : ℚ) - s| ≤ |q - r| + |q - s| := by
    rw [abs_sub_comm q r]
    exact abs_sub_le _ _ _
  have hclose := h.close
  have hclose' := h'.close
  -- both are half a unit away, so that they are even and next to each other
  have heven : Even (r - s) := (h.even (by linarith)).sub (h'.even (by linarith))
  have hnext : |r - s| ≤ 1 := by
    have : |(r : ℚ) - s| ≤ 1 := by linarith
    exact_mod_cast this
  obtain ⟨k, hk⟩ := heven
  rw [abs_le] at hnext
  omega

theorem self (r : ℤ) : Nearest r r := by
  constructor <;> norm_num

theorem neg (h : Nearest q r) : Nearest (-q) (-r) := by
  have hsame : |-q - ((-r : ℤ) : ℚ)| = |q - r| := by
    rw [← abs_neg]
    push_cast
    ring_nf
  refine ⟨hsame ▸ h.close, fun htie => (h.even (hsame ▸ htie)).neg⟩

/-- A number that is not rounded to zero has the sign of what it is rounded to. -/
theorem neg_iff (h : Nearest q r) (hr : r ≠ 0) : q < 0 ↔ r < 0 := by
  obtain ⟨hlow, hhigh⟩ := abs_le.1 h.close
  rcases lt_or_gt_of_ne hr with hneg | hpos
  · have hle : (r : ℚ) ≤ -1 := by exact_mod_cast Int.le_sub_one_of_lt hneg
    exact ⟨fun _ => hneg, fun _ => by linarith⟩
  · have hle : (1 : ℚ) ≤ r := by exact_mod_cast hpos
    exact ⟨fun hq => by linarith, fun hr => absurd hr (Int.not_lt.2 hpos.le)⟩

end Nearest

/-- A quotient halfway between two whole numbers is rounded to the even one. -/
theorem even_roundDiv (n : Nat) {d : Nat} (hd : 0 < d)
    (htie : 2 * n = 2 * (Exact.roundDiv n d * d) + d ∨ 2 * (Exact.roundDiv n d * d) = 2 * n + d) :
    Even (Exact.roundDiv n d) := by
  have hsplit := Nat.div_add_mod' n d
  have hlt := Nat.mod_lt n hd
  unfold Exact.roundDiv at htie ⊢
  dsimp only at htie ⊢
  rw [Nat.even_iff]
  split at htie <;> rename_i hbelow
  · omega
  · split at htie <;> rename_i hhalf
    · rw [if_neg hbelow, if_pos hhalf]
      omega
    · rw [Nat.add_mul, Nat.one_mul] at htie
      omega

/-- Quotients are rounded to the nearest whole number, and ties go to the even one. -/
theorem nearest_roundDiv (n : Nat) {d : Nat} (hd : 0 < d) :
    Nearest (n / d) (Exact.roundDiv n d) := by
  obtain ⟨hlow, hhigh⟩ := Exact.roundDiv_spec n hd
  have htie := even_roundDiv n hd
  generalize Exact.roundDiv n d = r at hlow hhigh htie ⊢
  -- distances are measured in parts of the denominator
  have hpos : (0 : ℚ) < d := by exact_mod_cast hd
  have hdistance : |(n : ℚ) / d - ((r : ℤ) : ℚ)| = |(n : ℚ) - r * d| / d := by
    rw [Int.cast_natCast, div_sub' hpos.ne', abs_div, abs_of_pos hpos, mul_comm (d : ℚ)]
  have hlow : (2 * n : ℚ) ≤ 2 * (r * d) + d := by exact_mod_cast hlow
  have hhigh : (2 * (r * d) : ℚ) ≤ 2 * n + d := by exact_mod_cast hhigh
  constructor
  · rw [hdistance, div_le_div_iff₀ hpos two_pos, one_mul]
    have hle : |(n : ℚ) - r * d| ≤ d / 2 := abs_le.2 ⟨by linarith, by linarith⟩
    linarith
  · intro hhalf
    rw [hdistance, div_eq_div_iff hpos.ne' two_ne_zero, one_mul] at hhalf
    refine (Int.even_coe_nat r).2 (htie ?_)
    rcases abs_choice ((n : ℚ) - r * d) with habs | habs
    · left
      have heq : (2 * n : ℚ) = 2 * (r * d) + d := by linarith
      exact_mod_cast heq
    · right
      have heq : (2 * (r * d) : ℚ) = 2 * n + d := by linarith
      exact_mod_cast heq

/-! ## Decimals of magnitudes -/

namespace Exact

variable {n k : Nat}

theorem areDigits_padded (places n : Nat) : AreDigits (padded places n) := by
  unfold padded
  dsimp only
  rw [Nat.toString_eq_repr, Nat.toList_repr]
  refine areDigits_append.2 ⟨fun c hc => ?_, areDigits_toDigits n⟩
  rw [List.eq_of_mem_replicate hc]
  rfl

theorem ofDigits_padded (places n : Nat) : ofDigits (padded places n) = n := by
  unfold padded
  dsimp only
  rw [Nat.toString_eq_repr, Nat.toList_repr, ofDigits_append, ofDigits_replicate,
    ofDigits_toDigits, Nat.mul_zero, Nat.zero_add]

theorem length_padded (hk : 0 < k) (hn : n < 10 ^ k) : (padded k n).length = k := by
  have hlength := (Nat.length_toDigits_le_iff (by decide) hk).2 hn
  unfold padded
  dsimp only
  rw [Nat.toString_eq_repr, Nat.toList_repr, List.length_append, List.length_replicate]
  omega

/-- Only zeros are left out at the end, and all of them. -/
theorem exists_dropZeros (cs : List Char) :
    (∃ zeros, cs = dropZeros cs ++ List.replicate zeros '0') ∧
      (dropZeros cs).getLast? ≠ some '0' := by
  have hdrop : dropZeros cs = cs.rdropWhile (· == '0') := rfl
  rw [hdrop]
  constructor
  · refine ⟨(cs.rtakeWhile (· == '0')).length, ?_⟩
    have hzeros : ∀ c ∈ cs.rtakeWhile (· == '0'), c = '0' :=
      fun c hc => beq_iff_eq.1 (List.mem_rtakeWhile_imp (p := (· == '0')) hc)
    rw [← List.eq_replicate_of_mem hzeros, List.rdropWhile_append_rtakeWhile]
  · intro hlast
    have hne : cs.rdropWhile (· == '0') ≠ [] := by
      intro hnil
      rw [hnil] at hlast
      cases hlast
    rw [List.getLast?_eq_getLast_of_ne_nil hne, Option.some.injEq] at hlast
    exact List.rdropWhile_last_not _ _ hne (beq_iff_eq.2 hlast)

theorem pow_places : Nat.pow 10 places = 10 ^ places := rfl

/-- The decimal of a whole number of millionths. -/
def decimal (negative : Bool) (units : Nat) : Decimal where
  negative
  whole := Nat.toDigits 10 (units / 10 ^ places)
  fraction := dropZeros (padded places (units % 10 ^ places))

theorem whole_decimal (negative : Bool) (units : Nat) :
    (decimal negative units).whole = Nat.toDigits 10 (units / 10 ^ places) := by
  rw [decimal]

theorem fraction_decimal (negative : Bool) (units : Nat) :
    (decimal negative units).fraction = dropZeros (padded places (units % 10 ^ places)) := by
  rw [decimal]

/-- The zeros that are left out are those that the places have room for. -/
theorem exists_fraction (negative : Bool) (units : Nat) : ∃ zeros,
    padded places (units % 10 ^ places) =
      (decimal negative units).fraction ++ List.replicate zeros '0' ∧
    (decimal negative units).fraction.length + zeros = places := by
  obtain ⟨⟨zeros, hsplit⟩, -⟩ := exists_dropZeros (padded places (units % 10 ^ places))
  rw [← fraction_decimal negative] at hsplit
  have hlength : (padded places (units % 10 ^ places)).length = places :=
    length_padded (by decide) (Nat.mod_lt _ (Nat.pow_pos (by decide)))
  refine ⟨zeros, hsplit, ?_⟩
  rw [hsplit, List.length_append, List.length_replicate] at hlength
  exact hlength

theorem plain_decimal (negative : Bool) (units : Nat) : (decimal negative units).Plain where
  digits := by
    obtain ⟨zeros, hsplit, -⟩ := exists_fraction negative units
    have hpadded := areDigits_padded places (units % 10 ^ places)
    rw [hsplit] at hpadded
    exact areDigits_append.2 ⟨areDigits_toDigits _, (areDigits_append.1 hpadded).1⟩
  filled := Nat.toDigits_ne_nil
  lead := toDigits_of_head
  tail := by
    rw [fraction_decimal]
    exact (exists_dropZeros _).2

theorem length_fraction_le (negative : Bool) (units : Nat) :
    (decimal negative units).fraction.length ≤ places := by
  obtain ⟨zeros, -, hlength⟩ := exists_fraction negative units
  omega

theorem value_decimal (negative : Bool) (units : Nat) : (decimal negative units).value =
    (if negative then -1 else 1) * (units / 10 ^ places) := by
  obtain ⟨zeros, hsplit, hlength⟩ := exists_fraction negative units
  have hdigits : ofDigits (decimal negative units).digits * 10 ^ zeros = units := by
    have hpadded := ofDigits_padded places (units % 10 ^ places)
    rw [hsplit, ofDigits_append, ofDigits_replicate, List.length_replicate] at hpadded
    have hdivision := Nat.div_add_mod units (10 ^ places)
    unfold Decimal.digits
    rw [ofDigits_append, whole_decimal, ofDigits_toDigits, Nat.add_mul, Nat.mul_right_comm,
      ← Nat.pow_add, hlength, Nat.mul_comm (ofDigits _)]
    omega
  have hscaled : (ofDigits (decimal negative units).digits : ℚ) * 10 ^ zeros = units := by
    exact_mod_cast hdigits
  unfold Decimal.value
  rw [← hscaled, ← hlength, pow_add, mul_div_mul_right _ _ (by positivity)]
  rfl

theorem text_decimal (negative : Bool) (units : Nat) :
    (decimal negative units).text = (if negative then "-" else "") ++ millionths units := by
  unfold Decimal.text millionths
  rw [String.append_assoc, fraction_decimal, whole_decimal, pow_places]
  refine congrArg ((if negative then "-" else "") ++ ·) ?_
  cases dropZeros (padded places (units % 10 ^ places)) with
  | nil => exact String.append_empty
  | cons c cs =>
    rw [if_neg (List.cons_ne_nil c cs)]
    exact String.append_assoc.symm

theorem text_finite (negative : Bool) (n d : Nat) : text (.finite negative n d) =
    (decimal (negative && n != 0) (roundDiv (n * 10 ^ places) d)).text := by
  rw [text_decimal]
  unfold text
  dsimp only
  split
  · rfl
  · exact String.empty_append.symm

end Exact

/-! ## Rounding to six places -/

namespace Decimal

variable {v w : ℚ} {r s : ℤ} {d d' : Decimal} {negative : Bool} {n : Nat}

/-- A number rounded to six places, a tie going to the even decimal. It is written without
superfluous digits, and with the sign that the number has before it is rounded. -/
structure IsRounded (d : Decimal) (v : ℚ) : Prop where
  plain : d.Plain
  places : d.fraction.length ≤ 6
  nearest : ∃ r : ℤ, d.value * 10 ^ 6 = r ∧ Nearest (v * 10 ^ 6) r
  sign : d.negative = true ↔ v < 0

namespace IsRounded

theorem value_eq (h : d.IsRounded v) (hr : Nearest (v * 10 ^ 6) r) : d.value = r / 10 ^ 6 := by
  obtain ⟨r', hvalue, hr'⟩ := h.nearest
  rw [hr.unique hr', ← hvalue, mul_div_cancel_right₀ _ (by positivity)]

/-- Rounded numbers are the same if they are the same number of millionths, and if that is none, if
both have a sign or neither. -/
theorem eq_iff (h : d.IsRounded v) (h' : d'.IsRounded w) (hr : Nearest (v * 10 ^ 6) r)
    (hs : Nearest (w * 10 ^ 6) s) : d = d' ↔ r = s ∧ (r = 0 → (v < 0 ↔ w < 0)) := by
  constructor
  · rintro rfl
    have hvalue := (h.value_eq hr).symm.trans (h'.value_eq hs)
    rw [div_left_inj' (by positivity)] at hvalue
    exact ⟨by exact_mod_cast hvalue, fun _ => h.sign.symm.trans h'.sign⟩
  · rintro ⟨rfl, hzero⟩
    have hscale (q : ℚ) : q * 10 ^ 6 < 0 ↔ q < 0 := ⟨fun h => by linarith, fun h => by linarith⟩
    -- unless nothing is left of it, a number has the sign of its millionths
    have hsign : v < 0 ↔ w < 0 := by
      by_cases hr0 : r = 0
      · exact hzero hr0
      · rw [← hscale v, ← hscale w, hr.neg_iff hr0, hs.neg_iff hr0]
    refine h.plain.eq_of_value h'.plain ?_ ((h.value_eq hr).trans (h'.value_eq hs).symm)
    rw [Bool.eq_iff_iff, h.sign, h'.sign, hsign]

/-- A number is rounded in one way only. -/
theorem unique (h : d.IsRounded v) (h' : d'.IsRounded v) : d = d' := by
  obtain ⟨r, -, hr⟩ := h.nearest
  exact (h.eq_iff h' hr hr).2 ⟨rfl, fun _ => Iff.rfl⟩

/-- What is rounded to a whole number is written as that. -/
theorem ofNat (hsign : negative = true ↔ v < 0)
    (h : Nearest (v * 10 ^ 6) ((if negative then -1 else 1) * (n * 10 ^ 6))) :
    (Decimal.ofNat negative n).IsRounded v where
  plain := plain_ofNat negative n
  places := Nat.zero_le 6
  nearest := by
    refine ⟨_, ?_, h⟩
    rw [value_ofNat]
    push_cast
    ring
  sign := hsign

/-- What is rounded to zero keeps a sign. -/
theorem text_of_zero (h : d.IsRounded v) (hzero : Nearest (v * 10 ^ 6) 0) :
    d.text = if v < 0 then "-0" else "0" := by
  have hwhole : (Decimal.ofNat (decide (v < 0)) 0).IsRounded v :=
    .ofNat decide_eq_true_iff (by simpa using hzero)
  rw [h.unique hwhole, text_ofNat]
  by_cases hv : v < 0
  · rw [if_pos hv, decide_eq_true hv]
    rfl
  · rw [if_neg hv, decide_eq_false hv]
    rfl

/-- The text of a whole number is that of an integer. -/
theorem text_of_den_eq_one (h : d.IsRounded v) (hden : v.den = 1) :
    d.text = toString v.num := by
  obtain ⟨z, rfl⟩ : ∃ z : ℤ, (z : ℚ) = v := ⟨v.num, Rat.coe_int_num_of_den_eq_one hden⟩
  -- the digits of the integer are a rounded number, and there is no other one
  have hwhole : (Decimal.ofNat (decide (z < 0)) z.natAbs).IsRounded z := by
    refine .ofNat (by simp) ?_
    have hsize : (if decide (z < 0) then -1 else 1) * (z.natAbs : ℤ) = z := by
      by_cases hz : z < 0
      · rw [if_pos (decide_eq_true hz)]
        omega
      · rw [if_neg (by simpa using hz)]
        omega
    have hself := Nearest.self (z * 10 ^ 6)
    rw [← mul_assoc, hsize]
    push_cast at hself
    exact hself
  rw [h.unique hwhole, text_ofNat, Rat.num_intCast]
  cases z with
  | ofNat m => exact String.empty_append
  | negSucc m =>
    rw [decide_eq_true (Int.negSucc_lt_zero m)]
    rfl

end IsRounded

end Decimal

namespace Exact

open Decimal

variable {negative : Bool} {n d : Nat} {e : Exact} {v : ℚ}

/-- A magnitude is a number. -/
def Denotes (e : Exact) (v : ℚ) : Prop :=
  ∃ negative n d, 0 < d ∧ e = .finite negative n d ∧ v = (if negative then -1 else 1) * (n / d)

theorem isRounded_decimal (hd : 0 < d) (hn : negative = true → 0 < n) :
    (decimal negative (roundDiv (n * 10 ^ places) d)).IsRounded
      ((if negative then -1 else 1) * (n / d)) where
  plain := plain_decimal _ _
  places := length_fraction_le _ _
  nearest := by
    -- the rounded quotient is what is nearest to the number in units of the last place
    have hround := nearest_roundDiv (n * 10 ^ places) hd
    have hscale : (((n * 10 ^ places : Nat) : ℚ) / d) = n / d * 10 ^ 6 := by
      push_cast
      rw [mul_div_right_comm]
      rfl
    rw [hscale] at hround
    refine ⟨(if negative then -1 else 1) * (roundDiv (n * 10 ^ places) d : ℤ), ?_, ?_⟩
    · have hplaces : (10 : ℚ) ^ places = 10 ^ 6 := rfl
      rw [value_decimal, hplaces, mul_assoc, div_mul_cancel₀ _ (by positivity)]
      split <;> simp
    · cases negative with
      | true => simpa using hround.neg
      | false => simpa using hround
  sign := by
    have hpos : (0 : ℚ) < d := by exact_mod_cast hd
    cases negative with
    | true =>
      have hn : (0 : ℚ) < n := by exact_mod_cast hn rfl
      have hsize : 0 < (n : ℚ) / d := by positivity
      simpa [decimal] using hsize
    | false =>
      have hsize : 0 ≤ (n : ℚ) / d := by positivity
      simpa [decimal] using hsize

/-- The text of a magnitude is that of the number rounded to six places. -/
theorem exists_isRounded (h : e.Denotes v) : ∃ d : Decimal, d.IsRounded v ∧ e.text = d.text := by
  obtain ⟨negative, n, d, hd, rfl, rfl⟩ := h
  refine ⟨_, ?_, text_finite negative n d⟩
  -- a negative zero is the same number without its sign
  have hsame : (if negative then -1 else 1 : ℚ) * (n / d) =
      (if negative && n != 0 then -1 else 1) * (n / d) := by
    by_cases hn : n = 0
    · simp [hn]
    · simp [hn]
  rw [hsame]
  refine isRounded_decimal hd fun hsign => ?_
  have hn : (n != 0) = true := (Bool.and_eq_true_iff.1 hsign).2
  exact Nat.pos_of_ne_zero (bne_iff_ne.1 hn)

/-- A fixed form without the zeros at its end, and then without a point at its end. -/
def trimmed (text : String) : String :=
  String.ofList ((text.toList.rdropWhile (· == '0')).rdropWhile (· == '.'))

theorem fixedText_finite (negative : Bool) (n d : Nat) : fixedText places (.finite negative n d) =
    (if negative then "-" else "") ++ (toString (roundDiv (n * 10 ^ places) d / 10 ^ places) ++
      "." ++ String.ofList (padded places (roundDiv (n * 10 ^ places) d % 10 ^ places))) := by
  unfold fixedText
  dsimp only
  rw [pow_places]
  cases negative with
  | true => rfl
  | false => exact String.empty_append.symm

/-- The fixed form has the digits of the decimal, and superfluous zeros behind them. -/
theorem toList_fixedText (negative : Bool) (n d : Nat) : ∃ zeros,
    (fixedText places (.finite negative n d)).toList = (if negative then ['-'] else []) ++
      (decimal negative (roundDiv (n * 10 ^ places) d)).whole ++
      '.' :: (decimal negative (roundDiv (n * 10 ^ places) d)).fraction ++
      List.replicate zeros '0' := by
  obtain ⟨zeros, hsplit, -⟩ := exists_fraction negative (roundDiv (n * 10 ^ places) d)
  refine ⟨zeros, ?_⟩
  rw [fixedText_finite, hsplit, toList_pointed, whole_decimal,
    List.append_assoc _ _ (List.replicate zeros '0'), List.cons_append]

theorem text_eq_trimmed (negative : Bool) (hn : n ≠ 0) (d : Nat) :
    text (.finite negative n d) = trimmed (fixedText places (.finite negative n d)) := by
  obtain ⟨zeros, hfixed⟩ := toList_fixedText negative n d
  have hsign : (negative && n != 0) = negative := by simp [hn]
  have htext (units : Nat) : (if negative then ['-'] else []) ++ (decimal negative units).body =
      (decimal negative units).text.toList := (toList_text (decimal negative units)).symm
  unfold trimmed
  rw [hfixed, (plain_decimal _ _).trim, htext, String.ofList_toList, text_finite, hsign]

/-- Whole numbers may be written as integers. -/
theorem text_of_den_eq_one (h : e.Denotes v) (hden : v.den = 1) : e.text = toString v.num := by
  obtain ⟨d, hd, htext⟩ := exists_isRounded h
  rw [htext, hd.text_of_den_eq_one hden]

/-- Numbers other than zero may be written in their fixed form, which is then trimmed. -/
theorem text_of_ne_zero (h : e.Denotes v) (hv : v ≠ 0) : e.text = trimmed (fixedText 6 e) := by
  obtain ⟨negative, n, d, -, rfl, rfl⟩ := h
  refine text_eq_trimmed negative ?_ d
  rintro rfl
  simp at hv

end Exact

/-! ## Doubles -/

namespace Double

open Float.Model Float.Model.UnpackedFloat

variable {x : Float}

/-- The exact value of a double, and zero for one that is no number. -/
def value (x : Float) : ℚ :=
  match x.toModel.unpack with
  | .finite s m e _ => s.apply m * 2 ^ e
  | _ => 0

theorem two_zpow (e : ℤ) : (2 : ℚ) ^ e = 2 ^ e.toNat / 2 ^ (-e).toNat := by
  rw [← zpow_natCast, ← zpow_natCast, ← zpow_sub₀ two_ne_zero]
  congr 1
  omega

theorem denotes_value (h : x.isFinite = true) : (exactOfFloat x).Denotes (value x) := by
  have hfinite : x.toModel.unpack.isFinite = true := h
  unfold value
  cases hunpack : x.toModel.unpack with
  | notANumber =>
    rw [hunpack] at hfinite
    cases hfinite
  | infinity s =>
    rw [hunpack] at hfinite
    cases hfinite
  | zero s =>
    obtain ⟨negative, denominator, hpos, hexact⟩ := exactOfFloat_of_zero hunpack
    exact ⟨negative, 0, denominator, hpos, hexact, by simp⟩
  | finite s m e hm =>
    obtain ⟨negative, hsign, hexact⟩ := exactOfFloat_of_finite hunpack
    refine ⟨negative, _, _, Nat.two_pow_pos _, hexact, ?_⟩
    dsimp only
    rw [two_zpow]
    push_cast
    -- the sign stands apart from the magnitude, which is an integer times a power of two
    cases s with
    | negative =>
      rw [if_pos (hsign.2 rfl)]
      show ((-m : ℤ) : ℚ) * _ = _
      push_cast
      ring
    | positive =>
      rw [if_neg (fun h => by cases hsign.1 h)]
      show ((m : ℤ) : ℚ) * _ = _
      push_cast
      ring

/-- The text of a finite double is that of its value rounded to six places, and only one decimal is
this. Doubles have the same text if and only if they are rounded to equally many millionths and,
should these be none, have the same sign: what is rounded to zero keeps its sign. An integer of any
size may be written as such, and whatever is not zero in its fixed form, trimmed. Where both are
possible they are the same. -/
theorem text_of_finite (x : Float) (h : x.isFinite = true) :
    (∃ d : Decimal, Scalar.text x = d.text ∧ d.IsRounded (value x) ∧
      ∀ d' : Decimal, d'.IsRounded (value x) → d' = d) ∧
    (∀ y : Float, y.isFinite = true → ∀ r s : ℤ,
      Nearest (value x * 10 ^ 6) r → Nearest (value y * 10 ^ 6) s →
        (Scalar.text x = Scalar.text y ↔
          r = s ∧ (r = 0 → (value x < 0 ↔ value y < 0)))) ∧
    (Nearest (value x * 10 ^ 6) 0 → Scalar.text x = if value x < 0 then "-0" else "0") ∧
    ((value x).den = 1 → Scalar.text x = toString (value x).num) ∧
    (value x ≠ 0 → Scalar.text x = Exact.trimmed (Exact.fixedText 6 (exactOfFloat x))) := by
  have hvalue := denotes_value h
  obtain ⟨d, hd, htext⟩ := Exact.exists_isRounded hvalue
  have htext : Scalar.text x = d.text := htext
  refine ⟨⟨d, htext, hd, fun d' hd' => hd'.unique hd⟩, ?_, ?_, Exact.text_of_den_eq_one hvalue,
    Exact.text_of_ne_zero hvalue⟩
  · intro y hy r s hr hs
    obtain ⟨d', hd', htext'⟩ := Exact.exists_isRounded (denotes_value hy)
    have htext' : Scalar.text y = d'.text := htext'
    -- plain decimals have one text each
    have hsame : d.text = d'.text ↔ d = d' :=
      ⟨fun heq => hd.plain.eq_of_text hd'.plain heq, fun heq => by rw [heq]⟩
    rw [htext, htext', hsame, hd.eq_iff hd' hr hs]
  · intro hzero
    rw [htext, hd.text_of_zero hzero]

/-- Two to the power of minus thirty, which is less than half of a millionth, or its negative. -/
def speck (negative : Bool) : Float :=
  Float.ofBits (if negative then 0xBE10000000000000 else 0x3E10000000000000)

theorem unpack_speck (negative : Bool) : (speck negative).toModel.unpack =
    .finite (if negative then .negative else .positive) (2 ^ 52) (-82) (by decide) := by
  cases negative <;> rfl

theorem value_speck (negative : Bool) :
    value (speck negative) = (if negative then -1 else 1) * 2 ^ (-30 : ℤ) := by
  unfold value
  rw [unpack_speck]
  cases negative <;> norm_num [Sign.apply]

theorem nearest_speck (negative : Bool) : Nearest (value (speck negative) * 10 ^ 6) 0 := by
  rw [value_speck]
  cases negative <;> constructor <;> norm_num [abs_of_pos, abs_of_neg]

theorem isFinite_speck (negative : Bool) : (speck negative).isFinite = true := by
  show (speck negative).toModel.unpack.isFinite = true
  rw [unpack_speck]
  rfl

/-- Both are rounded to zero, and they are not written alike. -/
theorem text_of_finite_speck :
    Scalar.text (speck true) = "-0" ∧ Scalar.text (speck false) = "0" ∧
      Nearest (value (speck true) * 10 ^ 6) 0 ∧ Nearest (value (speck false) * 10 ^ 6) 0 := by
  obtain ⟨-, -, hnegative, -⟩ := text_of_finite (speck true) (isFinite_speck true)
  obtain ⟨-, -, hpositive, -⟩ := text_of_finite (speck false) (isFinite_speck false)
  refine ⟨?_, ?_, nearest_speck true, nearest_speck false⟩
  · rw [hnegative (nearest_speck true), if_pos]
    rw [value_speck]
    norm_num
  · rw [hpositive (nearest_speck false), if_neg]
    rw [value_speck]
    norm_num

example : Scalar.text (Float.ofBits 0x3FD5555555555555) = "0.333333" := by decide +kernel

end Double

end LayoutCompiler
