import Lox.Proofs.Numbers.Reading
import Lox.Proofs.Numbers.Shortest
import Lox.Syntax.PrefixForm

/-! # Texts that denote their numbers

A number is written in a token and in the prefix form. Both texts are read as the number that was written, but for the
sign of zero in a token (`number_texts_denote`). A whole number is written with all its digits, in a token if it is
below `2 ^ 63`, where the conversion to a word of sixty-four bits is exact (`toInt64_of_isWhole`). Any other number has
its shortest text. -/

namespace Lox
namespace Parts
open Float.Model.UnpackedFloat (roundToInt decreaseExponent shiftToExponent ExtendedMantissa)

/-- The number that the parts stand for. -/
def value? : Parts → Option ℚ
  | finite neg m e => some ((if neg then -1 else 1) * (m * 2 ^ e))
  | _ => none

section
variable {neg : Bool} {m n : Nat} {e : Int}

/-- What a number is truncated to is the number itself if it has no fraction. -/
theorem roundToInt_of_whole? (h : (finite neg m e).whole? = some n) :
    roundToInt (sign neg) m e = if neg then -(n : Int) else n := by
  have hwhole := whole?_eq_some_iff.mp h
  obtain ⟨left, hleft⟩ : ∃ left, left = (e - 0).toNat := ⟨_, rfl⟩
  obtain ⟨right, hright⟩ : ∃ right, right = (0 - (e - left)).toNat := ⟨_, rfl⟩
  -- The whole number is moved to the left or to the right, until it has the exponent zero.
  have hmarks : Marks (m <<< left : Nat) (ExtendedMantissa.ofMantissaAndAccuracy (m <<< left) .exact).mantissa
      (ExtendedMantissa.ofMantissaAndAccuracy (m <<< left) .exact).accuracy := marks_ofMantissaAndAccuracy rfl
  obtain ⟨hlow, hhigh⟩ := (hmarks.shiftRight right).bounds
  have hvalue : ((m <<< left : Nat) : ℚ) / 2 ^ right = n := by
    rw [← hwhole, Nat.shiftLeft_eq, Nat.cast_mul, Nat.cast_pow, Nat.cast_ofNat, ← zpow_natCast, ← zpow_natCast,
      mul_div_assoc, ← zpow_sub₀ (by norm_num)]
    congr 2
    omega
  rw [hvalue] at hlow hhigh
  have heq : (ExtendedMantissa.ofMantissaAndAccuracy (m <<< left) .exact >>> right).mantissa = n :=
    le_antisymm (by exact_mod_cast hlow) (Nat.le_of_lt_succ (by exact_mod_cast hhigh))
  simp only [roundToInt, decreaseExponent, shiftToExponent, ← hleft, ← hright, heq]
  cases neg <;> rfl

end
end Parts

namespace Number
open Float.Model (UnpackedFloat)

/-- The number is this whole number. -/
def IsWhole (x : Float) (i : Int) : Prop := (Parts.ofFloat x).value? = some (i : ℚ)

/-- The text is the shortest one in positional notation, after a sign. -/
inductive IsShortestText (x : Float) : String → Prop
  | infinite {neg : Bool} (h : Parts.ofFloat x = .infinite neg) : IsShortestText x (signed neg "inf")
  | finite {neg : Bool} {m : Nat} {e : Int} {d : Decimal} (h : Parts.ofFloat x = .finite neg m e)
    (hd : d.IsShortest m e) : IsShortestText x (signed neg d.positional)

/-- What the text of a number in a token is to be. It may lose the sign of zero, and no more. The digits of a whole
    number are those of the word that it is converted to, which is exact up to the bound. -/
structure TokenText (x : Float) (text : String) : Prop where
  reads : ∃ y, read? text = some y ∧ (y == x) = true ∧ (x.toBits ≠ (-0.0 : Float).toBits → y.toBits = x.toBits)
  whole : ∀ i, IsWhole x i → i.natAbs < 2 ^ 63 → x.toModel.toInt64.toInt = i ∧ text = toString i ++ ".0"
  other : (∀ i, IsWhole x i → 2 ^ 63 ≤ i.natAbs) → IsShortestText x text

/-- What the prefix form of a number is to be. -/
structure PrefixText (x : Float) (text : String) : Prop where
  reads : ∃ y, read? text = some y ∧ y.toBits = x.toBits
  whole : ∀ i, IsWhole x i → text = signed (Parts.ofFloat x).negative (toString i.natAbs ++ ".0")
  other : (∀ i, ¬ IsWhole x i) → IsShortestText x text

section
variable {x : Float} {i : Int}

theorem isWhole_iff : IsWhole x i ↔ (Parts.ofFloat x).whole? = some i.natAbs ∧
    i = if (Parts.ofFloat x).negative then -(i.natAbs : Int) else i.natAbs := by
  rw [IsWhole]
  cases Parts.ofFloat x with
  | nan | infinite => exact ⟨nofun, fun h => nomatch h.1⟩
  | finite neg m e =>
    have hpositive : (0 : ℚ) ≤ m * 2 ^ e := mul_nonneg (Nat.cast_nonneg _) (Nearest.two_zpow_pos e).le
    simp only [Parts.value?, Parts.whole?_eq_some_iff, Parts.negative, Option.some.injEq]
    constructor
    · intro h
      obtain ⟨k, hk, rfl⟩ : ∃ k : Int, (m * 2 ^ e : ℚ) = k ∧ i = if neg then -k else k := by
        cases neg with
        | false => exact ⟨i, by simpa using h, rfl⟩
        | true => exact ⟨-i, by simp [← h], (neg_neg i).symm⟩
      rw [hk, Int.cast_nonneg_iff] at hpositive
      obtain ⟨n, rfl⟩ := Int.eq_ofNat_of_zero_le hpositive
      cases neg <;> simp [hk]
    · rintro ⟨hn, hi⟩
      rw [hn, hi]
      cases neg <;> simp

theorem isWhole_signed {n : Nat} (h : (Parts.ofFloat x).whole? = some n) :
    IsWhole x (if (Parts.ofFloat x).negative then -(n : Int) else n) :=
  isWhole_iff.mpr (by split <;> simp [h])

theorem toInt64_of_isWhole (h : IsWhole x i) (hi : i.natAbs < 2 ^ 63) : x.toModel.toInt64.toInt = i := by
  obtain ⟨hn, hsigned⟩ := isWhole_iff.mp h
  have hint : x.toModel.unpack.toInt Int64.minValue.toInt Int64.maxValue.toInt = i := by
    rw [Parts.unpack_ofFloat, hsigned]
    generalize i.natAbs = n at hn
    cases hparts : Parts.ofFloat x with
    | nan | infinite =>
      rw [hparts] at hn
      cases hn
    | finite neg m e =>
      rw [hparts] at hn
      rcases Nat.eq_zero_or_pos m with rfl | hm
      · obtain rfl : n = 0 := by simpa using (Parts.whole?_eq_some_iff.mp hn).symm
        cases neg <;> rfl
      · rw [Parts.unpacked_of_pos hm]
        exact Parts.roundToInt_of_whole? hn
  show (Int64.ofIntClamp (x.toModel.unpack.toInt Int64.minValue.toInt Int64.maxValue.toInt)).toInt = i
  have hmin : Int64.minValue.toInt = -2 ^ 63 := rfl
  have hmax : Int64.maxValue.toInt = 2 ^ 63 - 1 := rfl
  rw [hint, Int64.toInt_ofIntClamp (by omega) (by omega)]

/-- The digits of a whole number, and its sign but for zero. -/
theorem signed_toString (neg : Bool) (n : Nat) :
    signed (neg && n != 0) (toString n ++ ".0") = toString (if neg then -(n : Int) else n) ++ ".0" := by
  cases neg with
  | false => rfl
  | true =>
    cases n with
    | zero => rfl
    | succ n => exact String.append_assoc.symm

theorem beq_eq (x y : Float) : (x == y) = (Parts.ofFloat x).unpacked.beq (Parts.ofFloat y).unpacked :=
  congrArg₂ UnpackedFloat.beq Parts.unpack_ofFloat Parts.unpack_ofFloat

theorem beq_self (hx : x.isNaN = false) : (x == x) = true := by
  rw [beq_eq]
  cases hparts : Parts.ofFloat x with
  | nan =>
    rw [Parts.isNaN_iff.mpr hparts] at hx
    cases hx
  | infinite neg => cases neg <;> rfl
  | finite neg m e =>
    rcases Nat.eq_zero_or_pos m with rfl | hm
    · cases neg <;> rfl
    · have hequal : (compare e e).then (compare m m) = .eq := by
        rw [compare_eq_iff_eq.mpr rfl, compare_eq_iff_eq.mpr rfl, Ordering.eq_then]
      rw [Parts.unpacked_of_pos hm]
      cases neg with
      | false => exact beq_iff_eq.mpr (congrArg some hequal)
      | true => exact beq_iff_eq.mpr (congrArg (fun order : Ordering => some order.swap) hequal)

theorem positional_isShortestText (hx : x.isNaN = false) : IsShortestText x (positional "inf" x) := by
  unfold positional
  cases hparts : Parts.ofFloat x with
  | nan =>
    rw [Parts.isNaN_iff.mpr hparts] at hx
    cases hx
  | infinite neg => exact .infinite hparts
  | finite neg m e => exact .finite hparts (Decimal.magnitude_isShortest hparts)

/-! ### Tokens -/

theorem inToken_cases (x : Float) :
    (∃ n, (Parts.ofFloat x).whole? = some n ∧ n < 2 ^ 63 ∧
      inToken x = signed ((Parts.ofFloat x).negative && n != 0) (toString n ++ ".0")) ∨
      inToken x = positional "inf" x ∧ ∀ n, (Parts.ofFloat x).whole? = some n → 2 ^ 63 ≤ n := by
  rw [inToken]
  cases hn : (Parts.ofFloat x).whole? with
  | none => exact .inr ⟨rfl, nofun⟩
  | some n =>
    by_cases hlt : n < Nat.pow 2 63
    · exact .inl ⟨n, rfl, hlt, if_pos hlt⟩
    · refine .inr ⟨if_neg hlt, ?_⟩
      rintro _ ⟨⟩
      exact Nat.le_of_not_lt hlt

/-- A whole number is read as it stands in a token, but for the sign of zero. -/
theorem read?_whole {n : Nat} (hx : x.isNaN = false) (hn : (Parts.ofFloat x).whole? = some n) :
    ∃ y, read? (signed ((Parts.ofFloat x).negative && n != 0) (toString n ++ ".0")) = some y ∧ (y == x) = true ∧
      (x.toBits ≠ (-0.0 : Float).toBits → y.toBits = x.toBits) := by
  cases hparts : Parts.ofFloat x with
  | nan | infinite =>
    rw [hparts] at hn
    cases hn
  | finite neg m e =>
    rw [hparts] at hn
    have hread : ∀ neg', read? (signed neg' (toString n ++ ".0")) = some (Parts.finite neg' m e).toFloat := fun _ =>
      read?_numeral (Parts.fits_of_ofFloat hparts) (tenths_spells hparts hn)
    refine ⟨(Parts.finite (neg && n != 0) m e).toFloat, hread _, ?_⟩
    have hsame := Parts.toFloat_ofFloat hparts
    rcases Nat.eq_zero_or_pos n with rfl | hpos
    · obtain rfl : m = 0 := by
        have hzero := Parts.whole?_eq_some_iff.mp hn
        simpa [(Nearest.two_zpow_pos e).ne'] using hzero
      have hzero : ∀ neg', (Parts.finite neg' 0 e).toFloat = (Parts.finite neg' 0 0).toFloat := fun _ => rfl
      rw [← hsame, hzero, hzero]
      cases neg with
      | false => exact ⟨by decide +kernel, fun _ => rfl⟩
      | true => exact ⟨by decide +kernel, fun hnot => absurd (by decide +kernel) hnot⟩
    · have hkept : (neg && n != 0) = neg := by simp [hpos.ne']
      rw [hkept, hsame]
      exact ⟨beq_self hx, fun _ => rfl⟩

theorem inToken_text (hx : x.isNaN = false) : TokenText x (inToken x) := by
  obtain ⟨n, hn, hlt, htext⟩ | ⟨htext, hgreat⟩ := inToken_cases x
  · rw [htext]
    refine ⟨read?_whole hx hn, fun i hi hlt' => ?_, fun hother => ?_⟩
    · obtain ⟨hn', hsigned⟩ := isWhole_iff.mp hi
      obtain rfl : n = i.natAbs := Option.some.inj (hn.symm.trans hn')
      refine ⟨toInt64_of_isWhole hi hlt', ?_⟩
      rw [signed_toString, ← hsigned]
    · have hle := hother _ (isWhole_signed hn)
      split at hle <;> omega
  · rw [htext]
    refine ⟨⟨x, read?_positional hx, beq_self hx, fun _ => rfl⟩, fun i hi hlt => ?_, fun _ =>
      positional_isShortestText hx⟩
    exact absurd hlt (Nat.not_lt.mpr (hgreat _ (isWhole_iff.mp hi).1))

/-! ### The prefix form -/

theorem inPrefixForm_text (hx : x.isNaN = false) : PrefixText x (inPrefixForm x) := by
  refine ⟨⟨x, read?_inPrefixForm hx, rfl⟩, fun i hi => ?_, fun hother => ?_⟩
  · rw [inPrefixForm, (isWhole_iff.mp hi).1]
  · have hnone : (Parts.ofFloat x).whole? = none :=
      Option.eq_none_iff_forall_ne_some.mpr fun n hn => hother _ (isWhole_signed hn)
    rw [inPrefixForm, hnone]
    exact positional_isShortestText hx

end

end Number

/-- What is written for a number denotes it: in a token, behind the name of the kind and the lexeme, and in the prefix
    form. -/
theorem number_texts_denote {x : Float} (hx : x.isNaN = false) (lexeme : String) (line : Nat) :
    (⟨.number x, lexeme, line⟩ : Token).describe = "NUMBER " ++ lexeme ++ " " ++ Number.inToken x ∧
      Number.TokenText x (Number.inToken x) ∧ Number.PrefixText x (Expr.literal (.number x)).prefixForm :=
  ⟨rfl, Number.inToken_text hx, Number.inPrefixForm_text hx⟩

/-- Zero with a sign, and the least whole number that needs a sixty-fourth bit. -/
theorem number_texts_denote_power :
    (-0.0 : Float).isNaN = false ∧ (Float.ofBits 0x43E0000000000000).isNaN = false ∧
      Number.TokenText (-0.0) "0.0" ∧ Number.PrefixText (-0.0) "-0.0" ∧
      Number.TokenText (Float.ofBits 0x43E0000000000000) "9223372036854776000" ∧
      Number.PrefixText (Float.ofBits 0x43E0000000000000) "9223372036854775808.0" := by
  have hzero : (-0.0 : Float).isNaN = false := by decide +kernel
  have hpower : (Float.ofBits 0x43E0000000000000).isNaN = false := by decide +kernel
  obtain ⟨-, hzeroToken, hzeroPrefix⟩ := number_texts_denote hzero "0" 1
  obtain ⟨-, hpowerToken, hpowerPrefix⟩ := number_texts_denote hpower "9223372036854775808" 1
  have htoken : Number.inToken (-0.0) = "0.0" := by decide +kernel
  have hprefix : Number.inPrefixForm (-0.0) = "-0.0" := by decide +kernel
  have htoken' : Number.inToken (Float.ofBits 0x43E0000000000000) = "9223372036854776000" := by decide +kernel
  have hprefix' : Number.inPrefixForm (Float.ofBits 0x43E0000000000000) = "9223372036854775808.0" := by decide +kernel
  exact ⟨hzero, hpower, htoken ▸ hzeroToken, hprefix ▸ hzeroPrefix, htoken' ▸ hpowerToken, hprefix' ▸ hpowerPrefix⟩

end Lox
