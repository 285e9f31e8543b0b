import LayoutCompiler.Number.Exact
import LayoutCompiler.Number.Numeral
import LayoutCompiler.Proofs.Text.Names
import Mathlib
/-!
# Plain decimals

The shape of a written number: a sign, digits, and behind a point more of them. A decimal is plain
when none of its digits is superfluous. Then it is the only one for its number, and reading its text
gives what the text says.

* `Numeral.ofDigits_append`, `Numeral.toDigits_ofDigits`: rows of digits and what they stand for.
* `Decimal.Plain.eq_of_value`: plain decimals with one value and one sign are the same.
* `Decimal.Plain.read?_text`, `Decimal.Plain.eq_of_text`: a plain decimal is read as what its
  digits say, so that no two of them have one text.
* `Decimal.Plain.trim`: a plain decimal is what is left of one with superfluous zeros behind it.
-/

namespace LayoutCompiler

/-! ## Rows of digits -/

namespace Numeral

variable {c : Char} {cs ds : List Char} {n : Nat}

/-- A row of digits. -/
def AreDigits (cs : List Char) : Prop := ∀ c ∈ cs, c.isDigit = true

theorem areDigits_append : AreDigits (cs ++ ds) ↔ AreDigits cs ∧ AreDigits ds :=
  List.forall_mem_append

theorem areDigits_cons : AreDigits (c :: cs) ↔ c.isDigit = true ∧ AreDigits cs :=
  List.forall_mem_cons

theorem ofDigits_append (cs ds : List Char) :
    ofDigits (cs ++ ds) = 10 ^ ds.length * ofDigits cs + ofDigits ds := by
  show Nat.ofDigitChars 10 (cs ++ ds) 0 = _
  rw [Nat.ofDigitChars_append, Nat.ofDigitChars_eq_ofDigitChars_zero]
  rfl

theorem ofDigits_singleton (c : Char) : ofDigits [c] = c.toNat - 48 :=
  Nat.zero_add _

theorem ofDigits_cons (c : Char) (cs : List Char) :
    ofDigits (c :: cs) = 10 ^ cs.length * (c.toNat - 48) + ofDigits cs := by
  rw [← List.singleton_append, ofDigits_append, ofDigits_singleton]

theorem ofDigits_replicate (n : Nat) : ofDigits (List.replicate n '0') = 0 :=
  Nat.ofDigitChars_replicate_zero

theorem ofDigits_toDigits (n : Nat) : ofDigits (Nat.toDigits 10 n) = n :=
  Nat.ofDigitChars_ten_toDigits

theorem ofDigits_lt (h : AreDigits cs) : ofDigits cs < 10 ^ cs.length := by
  induction cs with
  | nil => exact Nat.one_pos
  | cons c cs ih =>
    obtain ⟨hc, hcs⟩ := areDigits_cons.1 h
    obtain ⟨-, hle⟩ := Text.isDigit_iff.1 hc
    have hdigit : 10 ^ cs.length * (c.toNat - 48) ≤ 10 ^ cs.length * 9 :=
      Nat.mul_le_mul_left _ (by omega)
    have hrest := ih hcs
    rw [ofDigits_cons, List.length_cons, Nat.pow_succ]
    omega

theorem eq_of_digit {d : Char} (hc : c.isDigit = true) (hd : d.isDigit = true)
    (h : c.toNat - 48 = d.toNat - 48) : c = d := by
  rw [Text.isDigit_iff] at hc hd
  exact Char.toNat_inj.1 (by omega)

/-- What stands in front of some digits, and the digits, are told by the number of all. -/
theorem eq_of_mul_add {p a a' b b' : Nat} (hb : b < p) (hb' : b' < p)
    (h : p * a + b = p * a' + b') : a = a' ∧ b = b' := by
  have hp : 0 < p := Nat.zero_lt_of_lt hb
  obtain ⟨hdiv, hmod⟩ := (Nat.div_mod_unique hp).2 ⟨(Nat.add_comm b (p * a)).trans h, hb⟩
  obtain ⟨hdiv', hmod'⟩ := (Nat.div_mod_unique hp).2 ⟨Nat.add_comm b' (p * a'), hb'⟩
  exact ⟨hdiv.symm.trans hdiv', hmod.symm.trans hmod'⟩

/-- Different rows of equally many digits stand for different numbers. -/
theorem eq_of_ofDigits (hcs : AreDigits cs) (hds : AreDigits ds) (hlength : cs.length = ds.length)
    (h : ofDigits cs = ofDigits ds) : cs = ds := by
  induction cs generalizing ds with
  | nil => exact (List.length_eq_zero_iff.1 hlength.symm).symm
  | cons c cs ih =>
    cases ds with
    | nil => cases hlength
    | cons d ds =>
      have hlength : cs.length = ds.length := Nat.succ.inj hlength
      obtain ⟨hc, hcs⟩ := areDigits_cons.1 hcs
      obtain ⟨hd, hds⟩ := areDigits_cons.1 hds
      rw [ofDigits_cons, ofDigits_cons, hlength] at h
      obtain ⟨hfirst, hrest⟩ := eq_of_mul_add (hlength ▸ ofDigits_lt hcs) (ofDigits_lt hds) h
      rw [eq_of_digit hc hd hfirst, ih hcs hds hlength hrest]

theorem areDigits_toDigits (n : Nat) : AreDigits (Nat.toDigits 10 n) :=
  fun _ hc => Nat.isDigit_of_mem_toDigits (by decide) (by decide) hc

/-- The digits of a number begin with a zero only if the number is zero. -/
theorem toDigits_of_head (h : (Nat.toDigits 10 n).head? = some '0') :
    Nat.toDigits 10 n = ['0'] := by
  induction n using Nat.strongRecOn with
  | _ n ih =>
    rw [Nat.toDigits_eq_if (by decide)] at h ⊢
    split at h
    case isTrue hlt =>
      rw [if_pos hlt]
      exact congrArg (fun c => [c]) (Option.some.inj h)
    case isFalse hge =>
      rw [List.head?_append_of_ne_nil _ Nat.toDigits_ne_nil] at h
      have hfront := congrArg ofDigits (ih (n / 10) (by omega) h)
      rw [ofDigits_toDigits] at hfront
      have hzero : n / 10 = 0 := hfront
      omega

theorem toDigits_digit (hc : c.isDigit = true) : Nat.toDigits 10 (c.toNat - 48) = [c] := by
  rw [Text.isDigit_iff] at hc
  rw [Nat.toDigits_of_lt_base (by omega)]
  congr 1
  apply Char.toNat_inj.1
  rw [Nat.toNat_digitChar_of_lt_ten (by omega)]
  omega

/-- More digits behind those of a number other than zero are the digits of a larger one. -/
theorem toDigits_append (hn : 0 < n) (h : AreDigits cs) :
    Nat.toDigits 10 n ++ cs = Nat.toDigits 10 (Nat.ofDigitChars 10 cs n) := by
  -- the first of the digits goes to those in front, which stand for a larger number then
  induction cs generalizing n with
  | nil => rw [List.append_nil, Nat.ofDigitChars_nil]
  | cons c cs ih =>
    obtain ⟨hc, hcs⟩ := areDigits_cons.1 h
    have hlt : c.toNat - 48 < 10 := by
      have := Text.isDigit_iff.1 hc
      omega
    calc Nat.toDigits 10 n ++ c :: cs
        = (Nat.toDigits 10 n ++ Nat.toDigits 10 (c.toNat - 48)) ++ cs := by
          rw [toDigits_digit hc, List.append_assoc, List.singleton_append]
      _ = Nat.toDigits 10 (10 * n + (c.toNat - 48)) ++ cs := by
          rw [Nat.toDigits_append_toDigits (by decide) hn hlt]
      _ = Nat.toDigits 10 (Nat.ofDigitChars 10 (c :: cs) n) := by
          rw [ih (by omega) hcs, Nat.ofDigitChars_cons]
          rfl

/-- A row of digits without a zero in front is that of the number that it stands for. -/
theorem toDigits_ofDigits (h : AreDigits cs) (hfilled : cs ≠ [])
    (hlead : cs.head? = some '0' → cs = ['0']) : Nat.toDigits 10 (ofDigits cs) = cs := by
  cases cs with
  | nil => exact absurd rfl hfilled
  | cons c cs =>
    obtain ⟨hc, hcs⟩ := areDigits_cons.1 h
    by_cases hzero : c = '0'
    · rw [hlead (congrArg some hzero)]
      rfl
    -- a first digit that is not zero is not lost in the number
    · have hpos : 0 < c.toNat - 48 := by
        have hle := (Text.isDigit_iff.1 hc).1
        have hne : c.toNat ≠ 48 := fun heq => hzero (Char.toNat_inj.1 heq)
        omega
      have hnumber : ofDigits (c :: cs) = Nat.ofDigitChars 10 cs (c.toNat - 48) := by
        show Nat.ofDigitChars 10 (c :: cs) 0 = _
        rw [Nat.ofDigitChars_cons, Nat.mul_zero, Nat.zero_add]
        rfl
      rw [hnumber, ← toDigits_append hpos hcs, toDigits_digit hc, List.singleton_append]

end Numeral

open Numeral

/-! ## Decimals -/

/-- The parts of a written number: its sign, and its digits in front of the point and behind it. -/
@[ext]
structure Decimal where
  negative : Bool
  whole : List Char
  fraction : List Char
deriving Repr, DecidableEq

namespace Decimal

variable {d d' : Decimal}

/-- All digits of a decimal. -/
def digits (d : Decimal) : List Char := d.whole ++ d.fraction

/-- The text of a decimal. Where no digits would follow the point there is none. -/
def text (d : Decimal) : String :=
  (if d.negative then "-" else "") ++ String.ofList d.whole ++
    if d.fraction = [] then "" else "." ++ String.ofList d.fraction

/-- What a decimal stands for. -/
def value (d : Decimal) : ℚ :=
  (if d.negative then -1 else 1) * (ofDigits d.digits / 10 ^ d.fraction.length)

/-- No digit is superfluous: there is no zero in front of others, and none at the end of those
behind the point. -/
structure Plain (d : Decimal) : Prop where
  digits : AreDigits d.digits
  filled : d.whole ≠ []
  lead : d.whole.head? = some '0' → d.whole = ['0']
  tail : d.fraction.getLast? ≠ some '0'

namespace Plain

theorem whole (h : d.Plain) : AreDigits d.whole := (areDigits_append.1 h.digits).1

theorem fraction (h : d.Plain) : AreDigits d.fraction := (areDigits_append.1 h.digits).2

/-- The number of the digits of a plain decimal with a fraction is not divisible by ten. -/
theorem not_ten_dvd (h : d.Plain) (hfraction : d.fraction ≠ []) : ¬ 10 ∣ ofDigits d.digits := by
  obtain ⟨front, c, hlast⟩ : ∃ front c, d.fraction = front ++ [c] :=
    ⟨_, _, (List.dropLast_append_getLast hfraction).symm⟩
  have hc : c.isDigit = true := h.fraction c (by simp [hlast])
  have hne : c.toNat ≠ 48 := by
    intro heq
    refine h.tail ?_
    rw [hlast, List.getLast?_concat]
    exact congrArg some (Char.toNat_inj.1 heq)
  obtain ⟨hle, hle'⟩ := Text.isDigit_iff.1 hc
  unfold Decimal.digits
  rw [hlast, ← List.append_assoc, ofDigits_append, ofDigits_singleton, List.length_singleton]
  omega

/-- Plain decimals with one value have equally many digits behind the point. -/
theorem length_le (h' : d'.Plain)
    (hvalue : ofDigits d.digits * 10 ^ d'.fraction.length =
      ofDigits d'.digits * 10 ^ d.fraction.length) : d'.fraction.length ≤ d.fraction.length := by
  -- with more digits the number would have to end in a zero
  by_contra hlt
  obtain ⟨more, hmore⟩ := Nat.exists_eq_add_of_lt (Nat.lt_of_not_le hlt)
  have hpos : 0 < 10 ^ d.fraction.length := Nat.pow_pos (by decide)
  have hfraction : d'.fraction ≠ [] := by
    intro hnil
    rw [hnil, List.length_nil] at hmore
    omega
  refine h'.not_ten_dvd hfraction ⟨ofDigits d.digits * 10 ^ more, ?_⟩
  refine Nat.eq_of_mul_eq_mul_right hpos ?_
  rw [← hvalue, hmore, Nat.pow_succ, Nat.pow_add]
  ring

/-- There is one plain decimal for a number with a sign. -/
theorem eq_of_value (h : d.Plain) (h' : d'.Plain) (hsign : d.negative = d'.negative)
    (hvalue : d.value = d'.value) : d = d' := by
  have hscaled : ofDigits d.digits * 10 ^ d'.fraction.length =
      ofDigits d'.digits * 10 ^ d.fraction.length := by
    have hne : (if d'.negative then -1 else 1 : ℚ) ≠ 0 := by split <;> norm_num
    unfold value at hvalue
    rw [hsign] at hvalue
    have hsize := mul_left_cancel₀ hne hvalue
    rw [div_eq_div_iff (by positivity) (by positivity)] at hsize
    exact_mod_cast hsize
  have hlength : d.fraction.length = d'.fraction.length :=
    Nat.le_antisymm (h.length_le hscaled.symm) (h'.length_le hscaled)
  have hdigits : ofDigits d.digits = ofDigits d'.digits := by
    rw [hlength] at hscaled
    exact Nat.eq_of_mul_eq_mul_right (Nat.pow_pos (by decide)) hscaled
  -- the last digits, as many as are behind the point, and the others
  unfold Decimal.digits at hdigits
  rw [ofDigits_append, ofDigits_append, ← hlength] at hdigits
  obtain ⟨hwhole, hfraction⟩ :=
    eq_of_mul_add (ofDigits_lt h.fraction) (hlength ▸ ofDigits_lt h'.fraction) hdigits
  refine Decimal.ext hsign ?_ (eq_of_ofDigits h.fraction h'.fraction hlength hfraction)
  rw [← toDigits_ofDigits h.whole h.filled h.lead, hwhole,
    toDigits_ofDigits h'.whole h'.filled h'.lead]

end Plain

/-- The decimal of a whole number. -/
def ofNat (negative : Bool) (n : Nat) : Decimal := ⟨negative, Nat.toDigits 10 n, []⟩

theorem plain_ofNat (negative : Bool) (n : Nat) : (ofNat negative n).Plain where
  digits := areDigits_append.2 ⟨areDigits_toDigits n, nofun⟩
  filled := Nat.toDigits_ne_nil
  lead := toDigits_of_head
  tail := nofun

theorem text_ofNat (negative : Bool) (n : Nat) :
    (ofNat negative n).text = (if negative then "-" else "") ++ toString n :=
  String.append_empty

theorem value_ofNat (negative : Bool) (n : Nat) :
    (ofNat negative n).value = (if negative then -1 else 1) * n := by
  show (if negative then -1 else 1) * ((ofDigits (Nat.toDigits 10 n ++ []) : ℚ) / 10 ^ 0) = _
  rw [List.append_nil, ofDigits_toDigits, pow_zero, div_one]

/-! ## Reading -/

/-- The characters behind the sign. -/
def body (d : Decimal) : List Char :=
  d.whole ++ if d.fraction = [] then [] else '.' :: d.fraction

theorem toList_sign (negative : Bool) :
    (if negative then "-" else "").toList = if negative then ['-'] else [] := by
  cases negative <;> rfl

theorem toList_pointed (negative : Bool) (n : Nat) (cs : List Char) :
    ((if negative then "-" else "") ++ (toString n ++ "." ++ String.ofList cs)).toList =
      (if negative then ['-'] else []) ++ Nat.toDigits 10 n ++ '.' :: cs := by
  have hpoint : ".".toList = ['.'] := rfl
  rw [String.toList_append, String.toList_append, String.toList_append, toList_sign, hpoint,
    Nat.toString_eq_repr, Nat.toList_repr, String.toList_ofList, List.append_assoc,
    List.append_assoc, List.singleton_append]

theorem toList_text (d : Decimal) :
    d.text.toList = (if d.negative then ['-'] else []) ++ d.body := by
  unfold text body
  rw [String.toList_append, String.toList_append, String.toList_ofList, List.append_assoc,
    toList_sign]
  congr 2
  split
  · rfl
  · simp

theorem sign_of_digit {c : Char} {cs : List Char} (hc : c.isDigit = true) :
    sign (c :: cs) = (false, c :: cs) := by
  unfold sign
  split
  · rename_i heq
    cases heq
    cases hc
  · rename_i heq
    cases heq
    cases hc
  · rfl

theorem Plain.exists_body (h : d.Plain) : ∃ c cs, d.body = c :: cs ∧ c.isDigit = true := by
  obtain ⟨c, cs, hwhole⟩ := List.exists_cons_of_ne_nil h.filled
  refine ⟨c, cs ++ if d.fraction = [] then [] else '.' :: d.fraction, ?_,
    h.whole c (by simp [hwhole])⟩
  unfold body
  rw [hwhole, List.cons_append]

theorem Plain.sign_text (h : d.Plain) : sign d.text.toList = (d.negative, d.body) := by
  obtain ⟨c, cs, hbody, hc⟩ := h.exists_body
  rw [toList_text]
  cases d.negative with
  | true => rfl
  | false =>
    show sign d.body = _
    rw [hbody, sign_of_digit hc]

/-- The text is none of the words that begin with a letter. -/
theorem Plain.ne_word (h : d.Plain) {word : String}
    (hword : ∀ c ∈ word.toList.head?, c.isDigit = false) :
    String.ofList (d.body.map Char.toLower) ≠ word := by
  obtain ⟨c, cs, hbody, hc⟩ := h.exists_body
  have hsame : c.toLower = c := Char.toLower_eq_of_not_isUpper (Text.not_isUpper (Or.inr hc))
  rintro rfl
  rw [String.toList_ofList, hbody, List.map_cons, List.head?_cons, hsame] at hword
  rw [hword c rfl] at hc
  cases hc

/-- A plain decimal is read as what its digits say. -/
theorem Plain.read?_text (h : d.Plain) : Numeral.read? d.text =
    some (.decimal d.negative (ofDigits d.digits) (-d.fraction.length)) := by
  -- behind the sign, digits are taken up to the point and then to the end
  have hunsigned : unsigned? d.negative d.body =
      some (.decimal d.negative (ofDigits d.digits) (-d.fraction.length)) := by
    have hfilled : d.whole.isEmpty = false := List.isEmpty_eq_false_iff.2 h.filled
    unfold unsigned? body
    dsimp only
    rw [List.takeWhile_append_of_pos h.whole, List.dropWhile_append_of_pos h.whole]
    by_cases hfraction : d.fraction = []
    · simp [hfraction, hfilled, power?, Decimal.digits]
    · have htake : d.fraction.takeWhile Char.isDigit = d.fraction :=
        List.takeWhile_eq_self_iff.2 h.fraction
      have hdrop : d.fraction.dropWhile Char.isDigit = [] :=
        List.dropWhile_eq_nil_iff.2 h.fraction
      simp [hfraction, hfilled, htake, hdrop, power?, Decimal.digits]
  unfold Numeral.read?
  rw [h.sign_text]
  dsimp only
  rw [if_neg (not_or.2 ⟨h.ne_word (by simp), h.ne_word (by simp)⟩), if_neg (h.ne_word (by simp)),
    hunsigned]

/-- Plain decimals with one text are the same. -/
theorem Plain.eq_of_text (h : d.Plain) (h' : d'.Plain) (htext : d.text = d'.text) : d = d' := by
  have hread : some _ = some _ := h.read?_text.symm.trans (htext ▸ h'.read?_text)
  obtain ⟨hsign, hdigits, hlength⟩ := Numeral.decimal.inj (Option.some.inj hread)
  have hlength : d.fraction.length = d'.fraction.length := by omega
  refine h.eq_of_value h' hsign ?_
  unfold value
  rw [hsign, hdigits, hlength]

/-! ## Trimming -/

/-- Zeros at the end and a point that nothing follows are left out. -/
theorem Plain.trim (h : d.Plain) (before : List Char) (zeros : Nat) :
    ((before ++ d.whole ++ '.' :: d.fraction ++ List.replicate zeros '0').rdropWhile
      (· == '0')).rdropWhile (· == '.') = before ++ d.body := by
  have hzeros (cs : List Char) : (cs ++ List.replicate zeros '0').rdropWhile (· == '0') =
      cs.rdropWhile (· == '0') := by
    unfold List.rdropWhile
    rw [List.reverse_append, List.reverse_replicate, List.dropWhile_append_of_pos]
    exact fun c hc => beq_iff_eq.2 (List.eq_of_mem_replicate hc)
  have hpoint {c : Char} (hc : c.isDigit = true) : ¬ (c == '.') = true := by
    intro heq
    rw [beq_iff_eq.1 heq] at hc
    cases hc
  rw [hzeros]
  unfold body
  -- without a fraction the point is the last character, else a digit that is not zero
  rcases List.eq_nil_or_concat d.fraction with hfraction | ⟨front, c, hfraction⟩
  · obtain ⟨front, c, hwhole⟩ : ∃ front c, d.whole = front ++ [c] :=
      ⟨_, _, (List.dropLast_append_getLast h.filled).symm⟩
    rw [hfraction, if_pos rfl, List.append_nil, List.rdropWhile_concat_neg _ _ _ (by decide),
      List.rdropWhile_concat_pos _ _ _ (by decide), hwhole, ← List.append_assoc,
      List.rdropWhile_concat_neg (· == '.') _ _ (hpoint (h.whole c (by simp [hwhole])))]
  · have hne : ¬ (c == '0') = true := by
      intro heq
      refine h.tail ?_
      rw [hfraction, List.concat_eq_append, List.getLast?_concat, beq_iff_eq.1 heq]
    have hrow : before ++ d.whole ++ '.' :: d.fraction =
        before ++ d.whole ++ '.' :: front ++ [c] := by
      rw [hfraction, List.concat_eq_append, List.append_assoc _ _ [c], List.cons_append]
    have hdigit : c.isDigit = true := h.fraction c (by simp [hfraction])
    rw [hrow, List.rdropWhile_concat_neg (· == '0') _ _ hne,
      List.rdropWhile_concat_neg (· == '.') _ _ (hpoint hdigit), ← hrow,
      if_neg (by simp [hfraction]), List.append_assoc]

end Decimal

end LayoutCompiler
