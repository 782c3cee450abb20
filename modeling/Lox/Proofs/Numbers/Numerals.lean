import Lox.Proofs.Numbers.Spelling

/-! # Numerals and the numbers they stand for

What a numeral stands for has no sign and is not NaN (`Scan.Spells.isMagnitude`), because its bits are at most those of
infinity. In the other direction, the prefix form of such a number is a numeral that stands for it, if it is finite
(`Number.inPrefixForm_spells`). A whole number is written with all its digits and one decimal, and these have its value
(`Number.tenths_toFloat`). -/

namespace Lox
namespace Parts

/-! ### Numbers without a sign -/

/-- The number has no sign and is not NaN. -/
inductive IsMagnitude : Parts → Prop
  | infinite : IsMagnitude (.infinite false)
  | finite (m : Nat) (e : Int) : IsMagnitude (.finite false m e)

/-- So are all bits up to those of infinity. -/
theorem isMagnitude_of_bits {x : Float} (h : x.toBits.toNat ≤ Nearest.infinity) : (ofFloat x).IsMagnitude := by
  have hpositive : decide (x.toBits.toNat / 2 ^ 63 = 1) = false :=
    decide_eq_false (by rw [Nearest.infinity] at h; omega)
  simp only [ofFloat, ofBits, Nat.pow_eq, hpositive]
  split
  · rw [Nearest.infinity] at h
    rw [if_pos (by omega)]
    exact .infinite
  split
  · exact .finite _ _
  · exact .finite _ _

/-- A decimal stands for a number without a sign. -/
theorem isMagnitude_ofScientific (n : Nat) (s : Bool) (k : Nat) : IsMagnitude (ofFloat (Float.ofScientific n s k)) := by
  refine isMagnitude_of_bits ?_
  rcases Nat.eq_zero_or_pos n with rfl | hn
  · rw [ofScientific_zero]
    exact Nat.zero_le _
  · rw [float_ofScientific_nearest hn]
    exact Nearest.bits_le _

end Parts

/-! ### Values of numerals -/

/-- What a numeral stands for has no sign and is not NaN. -/
theorem Scan.Spells.isMagnitude {v : Float} {text : List Char} (h : Spells (.number v) text) :
    (Parts.ofFloat v).IsMagnitude := by
  have hdecimal : ∀ d : Decimal, (Parts.ofFloat d.toFloat).IsMagnitude := fun d => by
    rw [Decimal.toFloat]
    split
    · exact Parts.isMagnitude_ofScientific _ _ _
    · exact Parts.isMagnitude_ofScientific _ _ _
  cases h with
  | whole | fraction => exact hdecimal _

/-- A numeral that is not too great stands for a finite number. -/
theorem Scan.Spells.isFinite {v : Float} {text : List Char} (h : Spells (.number v) text) (hinf : v.isInf = false) :
    v.isFinite = true := by
  have hunpack : v.isInf = (Parts.ofFloat v).unpacked.isInf := congrArg _ Parts.unpack_ofFloat
  rw [hunpack] at hinf
  refine Parts.isFinite_iff.mpr ?_
  cases hparts : Parts.ofFloat v with
  | finite neg m e => exact ⟨neg, m, e, rfl⟩
  | infinite neg =>
    rw [hparts] at hinf
    cases hinf
  | nan =>
    have hmagnitude := h.isMagnitude
    rw [hparts] at hmagnitude
    cases hmagnitude

/-! ### The prefix form -/

namespace Number
open Parts (Fits)

/-- The digits of a whole number and one decimal stand for it. -/
theorem tenths_toFloat {x : Float} {neg : Bool} {m n : Nat} {e : Int} (h : Parts.ofFloat x = .finite neg m e)
    (hn : (Parts.finite neg m e).whole? = some n) :
    (Decimal.ofDigits (Nat.toDigits 10 n) ['0']).toFloat = (Parts.finite false m e).toFloat := by
  have hdigits : Decimal.valueOf (Nat.toDigits 10 n ++ ['0']) = n * 10 := by
    have hzero := Decimal.valueOf_append_zeros (Nat.toDigits 10 n) 1
    rwa [Decimal.valueOf_toDigits, Nat.pow_one] at hzero
  have hvalue : (Decimal.ofDigits (Nat.toDigits 10 n) ['0']).value = n := by
    rw [Decimal.value, Decimal.ofDigits, hdigits]
    simp
  have hwhole := Parts.whole?_eq_some_iff.mp hn
  rcases Nat.eq_zero_or_pos m with rfl | hm
  · obtain rfl : n = 0 := by simpa using hwhole.symm
    show Float.ofScientific 0 true 1 = .ofModel (.pack (.zero .positive))
    decide +kernel
  · exact Decimal.toFloat_of_value (Parts.fits_of_ofFloat h) hm (hvalue.trans hwhole.symm)

theorem tenths_spells {x : Float} {neg : Bool} {m n : Nat} {e : Int} (h : Parts.ofFloat x = .finite neg m e)
    (hn : (Parts.finite neg m e).whole? = some n) :
    Scan.Spells (.number (Parts.finite false m e).toFloat) (toString n ++ ".0").toList := by
  have htext : (toString n ++ ".0").toList = Nat.toDigits 10 n ++ ['.', '0'] := by
    rw [String.toList_append, Nat.toString_eq_repr, Nat.repr, String.toList_ofList]
    rfl
  have hdigits : ∀ c ∈ Nat.toDigits 10 n, c.isDigit = true := fun c hc =>
    Nat.isDigit_of_mem_toDigits (by decide) (by decide) hc
  rw [htext, ← tenths_toFloat h hn]
  obtain ⟨c, cs, hrun⟩ := List.exists_cons_of_ne_nil (Nat.toDigits_ne_nil (n := n) (b := 10))
  rw [hrun] at hdigits ⊢
  exact .fraction hdigits fun d hd => List.mem_singleton.mp hd ▸ rfl

/-- The prefix form of a finite number is a numeral for its magnitude, and the sign in front of it. -/
theorem inPrefixForm_signed {x : Float} {neg : Bool} {m : Nat} {e : Int} (h : Parts.ofFloat x = .finite neg m e) :
    ∃ text, inPrefixForm x = signed neg text ∧ Scan.Spells (.number (Parts.finite false m e).toFloat) text.toList := by
  unfold inPrefixForm
  rw [h]
  dsimp only
  cases hn : (Parts.finite neg m e).whole? with
  | some n => exact ⟨toString n ++ ".0", rfl, tenths_spells h hn⟩
  | none =>
    refine ⟨(magnitude .up x m e).positional, ?_, ?_⟩
    · dsimp only
      rw [positional, h]
    · rw [← Decimal.magnitude_toFloat h]
      exact Decimal.positional_spells _

/-- The prefix form of a finite number without a sign is a numeral that stands for it. -/
theorem inPrefixForm_spells {x : Float} (hx : x.isFinite = true) (hsign : (Parts.ofFloat x).IsMagnitude) :
    Scan.Spells (.number x) (inPrefixForm x).toList := by
  obtain ⟨neg, m, e, hparts⟩ := Parts.isFinite_iff.mp hx
  obtain rfl : neg = false := by
    rw [hparts] at hsign
    cases hsign
    rfl
  obtain ⟨text, htext, hspells⟩ := inPrefixForm_signed hparts
  rw [htext, ← Parts.toFloat_ofFloat hparts]
  exact hspells

end Number
end Lox
