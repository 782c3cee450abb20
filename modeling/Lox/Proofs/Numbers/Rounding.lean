import Lox.Number.Shortest
import Lox.Proofs.Numbers.Nearest
import Lox.Proofs.Numbers.Packing
import Mathlib.Algebra.Order.Field.Power

/-! # Doubles are rounded to the nearest

The model of doubles rounds in steps. An operation yields a whole number of bits that are enough and says where the
exact value is between it and the next one (`Marks`); bits are shifted out until a double is left, and the last step
rounds that. What comes of it is the double nearest to the exact value (`roundWithAccuracy_nearest`), and so are the
product and the quotient of two doubles, and what a decimal stands for (`Decimal.toFloat_nearest`). -/

namespace Lox
namespace Parts
open Float.Model.UnpackedFloat
open Float.Model.Format (binary64)
open Float.Model (UnpackedFloat totalExponent)
open Nearest (Canonical two_zpow_pos two_zpow_add)

/-! ### Powers of two -/

theorem log2_mul_two_pow {m : Nat} (hm : 0 < m) (k : Nat) : (m * 2 ^ k).log2 = m.log2 + k := by
  obtain ⟨hle, hlt⟩ := (Nat.log2_eq_iff (Nat.ne_of_gt hm)).mp rfl
  have hpos : 0 < 2 ^ k := Nat.two_pow_pos k
  refine (Nat.log2_eq_iff (Nat.ne_of_gt (Nat.mul_pos hm hpos))).mpr ⟨?_, ?_⟩
  · rw [Nat.pow_add]
    exact Nat.mul_le_mul_right _ hle
  · rw [Nat.add_right_comm, Nat.pow_add]
    exact Nat.mul_lt_mul_of_pos_right hlt hpos

/-- A quotient has as many bits as the difference of the lengths says, or one less. -/
theorem log2_le_log2_div {a b : ℕ} (hb : 0 < b) (hle : b ≤ a) : a.log2 ≤ (a / b).log2 + b.log2 + 1 := by
  have hlt : a < 2 ^ ((a / b).log2 + b.log2 + 2) := calc
    a < b * (a / b + 1) := Nat.lt_mul_div_succ a hb
    _ ≤ 2 ^ (b.log2 + 1) * 2 ^ ((a / b).log2 + 1) := Nat.mul_le_mul Nat.lt_log2_self.le Nat.lt_log2_self
    _ = 2 ^ ((a / b).log2 + b.log2 + 2) := by rw [← Nat.pow_add]; congr 1; omega
  have hlog := (Nat.log2_lt (Nat.ne_of_gt (hb.trans_le hle))).mpr hlt
  omega

/-! ### Accuracy -/

/-- Where the fraction is between the whole number and the next one, as the model says it. -/
def Marks (q : ℚ) (m : ℕ) : Accuracy → Prop
  | .exact => q = m
  | .inexact .lt => m < q ∧ 2 * q < 2 * m + 1
  | .inexact .eq => 2 * q = 2 * m + 1
  | .inexact .gt => 2 * m + 1 < 2 * q ∧ q < m + 1

section
variable {q : ℚ} {m : ℕ} {accuracy : Accuracy}

theorem Marks.bounds (h : Marks q m accuracy) : m ≤ q ∧ q < m + 1 := by
  match accuracy, h with
  | .exact, h => exact ⟨h.ge, h ▸ lt_add_one q⟩
  | .inexact .lt, ⟨h, h'⟩ | .inexact .gt, ⟨h, h'⟩ => constructor <;> linarith
  | .inexact .eq, h => constructor <;> linarith [show 2 * q = 2 * m + 1 from h]

/-- Rounding takes the nearest whole number. -/
theorem Marks.toWhole (h : Marks q m accuracy) : accuracy.roundToNearestEven m = Nearest.toWhole q := by
  obtain ⟨hle, hlt⟩ := h.bounds
  have hfloor : ⌊q⌋₊ = m := (Nat.floor_eq_iff ((Nat.cast_nonneg m).trans hle)).mpr ⟨hle, hlt⟩
  rw [Nearest.toWhole, hfloor]
  match accuracy, h with
  | .exact, h =>
    have h : q = m := h
    rw [compare_lt_iff_lt.mpr (by linarith)]
    rfl
  | .inexact .lt, ⟨_, h⟩ =>
    rw [compare_lt_iff_lt.mpr (by linarith)]
    rfl
  | .inexact .eq, h =>
    have h : 2 * q = 2 * m + 1 := h
    rw [compare_eq_iff_eq.mpr (by linarith)]
    rfl
  | .inexact .gt, ⟨h, _⟩ =>
    rw [compare_gt_iff_gt.mpr (by linarith)]
    rfl

/-- The bit that is shifted out becomes the first one behind the number. -/
theorem Marks.shiftRightOne {em : ExtendedMantissa} (h : Marks q em.mantissa em.accuracy) :
    Marks (q / 2) em.shiftRightOne.mantissa em.shiftRightOne.accuracy := by
  obtain ⟨m, roundBit, stickyBit⟩ := em
  obtain ⟨k, rfl | rfl⟩ := Nat.even_or_odd' m
  · have hhalf : 2 * k / 2 = k := by omega
    have hbit : (2 * k % 2 != 0) = false := by simp
    cases roundBit <;> cases stickyBit <;>
      simp only [ExtendedMantissa.shiftRightOne, ExtendedMantissa.accuracy, hhalf, hbit, Bool.or_false, Bool.or_true,
        Marks] at h ⊢ <;> push_cast at h ⊢
    · linarith
    · constructor <;> linarith
    · constructor <;> linarith
    · constructor <;> linarith
  · have hhalf : (2 * k + 1) / 2 = k := by omega
    have hbit : ((2 * k + 1) % 2 != 0) = true := by simp
    cases roundBit <;> cases stickyBit <;>
      simp only [ExtendedMantissa.shiftRightOne, ExtendedMantissa.accuracy, hhalf, hbit, Bool.or_false, Bool.or_true,
        Marks] at h ⊢ <;> push_cast at h ⊢
    · linarith
    · constructor <;> linarith
    · constructor <;> linarith
    · constructor <;> linarith

theorem Marks.shiftRight {em : ExtendedMantissa} (h : Marks q em.mantissa em.accuracy) (k : ℕ) :
    Marks (q / 2 ^ k) (em >>> k).mantissa (em >>> k).accuracy := by
  induction k with
  | zero => simpa [HShiftRight.hShiftRight, Nat.repeat] using h
  | succ k ih =>
    rw [pow_succ, ← div_div]
    exact ih.shiftRightOne

theorem marks_ofMantissaAndAccuracy (h : Marks q m accuracy) :
    Marks q (ExtendedMantissa.ofMantissaAndAccuracy m accuracy).mantissa
      (ExtendedMantissa.ofMantissaAndAccuracy m accuracy).accuracy := by
  match accuracy, h with
  | .exact, h => exact h
  | .inexact .lt, h | .inexact .eq, h | .inexact .gt, h => exact h

end

/-! ### Rounding -/

section
variable {q : ℚ} {m : ℕ} {e : ℤ} {accuracy : Accuracy}

theorem targetExponent_eq (m : ℕ) (e : ℤ) :
    binary64.targetExponent (totalExponent m e) = max ((m.log2 : ℤ) + e - 52) (-1074) := by
  have hbits : (binary64.mantissaBits : ℤ) = 53 := rfl
  have hmin : binary64.minExponent = -1074 := rfl
  rw [Float.Model.Format.targetExponent, totalExponent, hbits, hmin]
  omega

/-- The model keeps the bits up to the place of the exact value, however many it is given. -/
theorem targetExponent_eq_place (hq : 0 < q) (h : Marks (q / 2 ^ e) m accuracy)
    (he : e ≤ binary64.targetExponent (totalExponent m e)) :
    binary64.targetExponent (totalExponent m e) = Nearest.place q := by
  obtain ⟨hle, hlt⟩ := h.bounds
  rw [le_div_iff₀ (two_zpow_pos e)] at hle
  rw [div_lt_iff₀ (two_zpow_pos e)] at hlt
  rw [targetExponent_eq] at he ⊢
  rcases Nat.eq_zero_or_pos m with rfl | hm
  · have hlog : Nat.log2 0 = 0 := rfl
    have hsmall : q < 2 ^ 53 * 2 ^ (-1074 : ℤ) := calc
      q < 2 ^ e := by simpa using hlt
      _ ≤ 2 ^ (-1074 : ℤ) := zpow_le_zpow_right₀ (by norm_num) (by omega)
      _ ≤ 2 ^ 53 * 2 ^ (-1074 : ℤ) := le_mul_of_one_le_left (two_zpow_pos _).le (by norm_num)
    rw [Nearest.place_eq hq hsmall (.inr rfl) le_rfl]
    omega
  · obtain ⟨hlog, hlog'⟩ := (Nat.log2_eq_iff hm.ne').mp rfl
    have hlow : 2 ^ (e + m.log2) ≤ q := by
      refine le_trans ?_ hle
      rw [two_zpow_add]
      exact mul_le_mul_of_nonneg_right (by exact_mod_cast hlog) (two_zpow_pos e).le
    have hhigh : q < 2 ^ (e + m.log2 + 1) := by
      refine hlt.trans_le ?_
      have hstep : e + m.log2 + 1 = e + (m.log2 + 1 : ℕ) := by omega
      rw [hstep, two_zpow_add]
      exact mul_le_mul_of_nonneg_right (by exact_mod_cast Nat.succ_le_of_lt hlog') (two_zpow_pos e).le
    have hge : e + m.log2 ≤ Int.log 2 q := (Int.zpow_le_iff_le_log (by decide) hq).mp (by exact_mod_cast hlow)
    have hlt : Int.log 2 q < e + m.log2 + 1 := (Int.lt_zpow_iff_log_lt (by decide) hq).mp (by exact_mod_cast hhigh)
    rw [Nearest.place]
    omega

/-- A double is packed to the bits of its place and of its multiples there, or to infinity if there are none. -/
theorem pack_canonical (h : Canonical m e) (hm : 0 < m) :
    (pack binary64 (.finite .positive m e hm)).toNat = min Nearest.infinity ((e + 1074).toNat * 2 ^ 52 + m) := by
  obtain ⟨hlt, hleast, hfull⟩ := h
  rw [Nearest.infinity]
  by_cases hgreat : e ≤ 971
  · have hpack := pack_toNat false ⟨hlt, hleast, hgreat, hfull⟩
    rw [unpacked_of_pos hm] at hpack
    refine hpack.trans ?_
    simp only [bitsOf, Bool.toNat_false]
    split <;> omega
  · have hbias : (binary64.exponentBias : ℤ) = 1023 := rfl
    have hplaces : (binary64.mantissaBitsWithoutImplicit : ℤ) = 52 := rfl
    have hexp : 2 ^ binary64.exponentBits = 2048 := rfl
    delta pack
    dsimp only
    rw [if_pos (by omega)]
    have hinfinity : (packedInfinity binary64 .positive).toNat = 2047 * 2 ^ 52 := by decide
    rw [hinfinity]
    omega

/-- The last step shifts out a zero if rounding has made one bit too many. -/
theorem shift_rounded {r : ℕ} (hr : r ≤ 2 ^ 53) (hleast : -1074 ≤ e) (hfull : 2 ^ 52 ≤ r ∨ e = -1074) :
    ∃ r' e', shiftToTargetExponent binary64 r e .exact = (⟨r', false, false⟩, e') ∧ Canonical r' e' ∧
      (e' + 1074).toNat * 2 ^ 52 + r' = (e + 1074).toNat * 2 ^ 52 + r := by
  rcases hr.lt_or_eq with hlt | rfl
  · refine ⟨r, e, ?_, ⟨hlt, hleast, hfull⟩, rfl⟩
    have htarget : binary64.targetExponent (totalExponent r e) ≤ e := by
      rw [targetExponent_eq]
      have hlog : r.log2 ≤ 52 := by
        rcases Nat.eq_zero_or_pos r with rfl | hpos
        · decide
        · exact Nat.le_of_lt_succ ((Nat.log2_lt hpos.ne').mpr hlt)
      omega
    have hshift : (binary64.targetExponent (totalExponent r e) - e).toNat = 0 := by omega
    simp [shiftToTargetExponent, shiftToExponent, hshift, ExtendedMantissa.ofMantissaAndAccuracy,
      HShiftRight.hShiftRight, Nat.repeat]
  · refine ⟨2 ^ 52, e + 1, ?_, ⟨by decide, by omega, .inl le_rfl⟩, by omega⟩
    have htarget : binary64.targetExponent (totalExponent (2 ^ 53) e) = e + 1 := by
      rw [targetExponent_eq, Nat.log2_two_pow]
      omega
    have hshift : (e + 1 - e).toNat = 1 := by omega
    rw [shiftToTargetExponent, htarget, shiftToExponent, hshift]
    rfl

/-- What the model rounds to is the double nearest to the exact value, if it was given bits enough. -/
theorem roundWithAccuracy_nearest (hq : 0 < q) (h : Marks (q / 2 ^ e) m accuracy)
    (he : e ≤ binary64.targetExponent (totalExponent m e)) :
    (pack binary64 (roundWithAccuracy binary64 .positive m e accuracy)).toNat = Nearest.bits q := by
  have hplace := targetExponent_eq_place hq h he
  have hleast := Nearest.le_place q
  rw [hplace] at he
  -- The bits behind the place are shifted out, and those left are rounded.
  obtain ⟨k, hk⟩ : ∃ k : ℕ, Nearest.place q = e + k := ⟨(Nearest.place q - e).toNat, by omega⟩
  have hfirst : ((shiftToTargetExponent binary64 m e accuracy).1.roundedMantissa,
      (shiftToTargetExponent binary64 m e accuracy).2) = (Nearest.steps q, Nearest.place q) := by
    have hshift : (Nearest.place q - e).toNat = k := by omega
    rw [shiftToTargetExponent, hplace, shiftToExponent, hshift]
    have hmarks := (marks_ofMantissaAndAccuracy h).shiftRight k
    rw [div_div, mul_comm, ← two_zpow_add, ← hk] at hmarks
    exact Prod.ext hmarks.toWhole hk.symm
  have hfull : 2 ^ 52 ≤ Nearest.steps q ∨ Nearest.place q = -1074 := by
    rcases hleast.lt_or_eq with hlt | heq
    · exact .inl (Nearest.le_steps hq hlt)
    · exact .inr heq.symm
  obtain ⟨r, e', hsecond, hcanonical, hsame⟩ := shift_rounded (Nearest.steps_le hq) hleast hfull
  rw [roundWithAccuracy, Nearest.bits, ← hsame]
  generalize shiftToTargetExponent binary64 m e accuracy = first at hfirst
  obtain ⟨mantissa, place⟩ := first
  obtain ⟨hrounded, rfl⟩ := Prod.mk.inj hfirst
  dsimp only
  rw [hrounded, hsecond]
  dsimp only
  by_cases hzero : r = 0
  · rw [dif_pos hzero]
    subst hzero
    obtain rfl : e' = -1074 := hcanonical.full.resolve_left (by decide)
    decide
  · rw [dif_neg hzero]
    exact pack_canonical hcanonical _

/-! ### Products and quotients -/

variable {m₁ m₂ : ℕ} {e₁ e₂ : ℤ}

theorem mul_nearest (h₁ : 0 < m₁) (h₂ : 0 < m₂) (hbits : 2 ^ 52 ≤ m₁ * m₂) :
    (pack binary64 (mul binary64 (.finite .positive m₁ e₁ h₁) (.finite .positive m₂ e₂ h₂))).toNat =
      Nearest.bits (m₁ * 2 ^ e₁ * (m₂ * 2 ^ e₂)) := by
  have hpos : (0 : ℚ) < m₁ * 2 ^ e₁ * (m₂ * 2 ^ e₂) :=
    mul_pos (mul_pos (Nat.cast_pos.mpr h₁) (two_zpow_pos e₁)) (mul_pos (Nat.cast_pos.mpr h₂) (two_zpow_pos e₂))
  refine roundWithAccuracy_nearest hpos ?_ ?_
  · have hscaled : (m₁ * 2 ^ e₁ * (m₂ * 2 ^ e₂) : ℚ) / 2 ^ (e₁ + e₂) = (m₁ * m₂ : ℕ) := by
      rw [div_eq_iff (two_zpow_pos _).ne', zpow_add₀ (by norm_num)]
      push_cast
      ring
    exact hscaled
  · have hlog := (Nat.le_log2 (Nat.mul_pos h₁ h₂).ne').mpr hbits
    rw [targetExponent_eq]
    omega

theorem marks_accuracyOfFraction {a b : ℕ} (hb : 0 < b) :
    Marks ((a : ℚ) / b) (a / b) (accuracyOfFraction (a % b) b) := by
  have hpos : (0 : ℚ) < b := Nat.cast_pos.mpr hb
  have hlt : ((a % b : ℕ) : ℚ) < b := Nat.cast_lt.mpr (Nat.mod_lt a hb)
  have hsplit : (a : ℚ) / b = (a / b : ℕ) + ((a % b : ℕ) : ℚ) / b := by
    rw [← mul_right_inj' hpos.ne', mul_add, mul_div_cancel₀ _ hpos.ne', mul_div_cancel₀ _ hpos.ne']
    exact_mod_cast (Nat.div_add_mod a b).symm
  have hfraction : ((a % b : ℕ) : ℚ) / b < 1 := (div_lt_one hpos).mpr hlt
  rw [hsplit, accuracyOfFraction]
  split
  · rename_i hzero
    rw [hzero]
    simp [Marks]
  · rename_i hne
    have hrest : (0 : ℚ) < ((a % b : ℕ) : ℚ) / b := div_pos (Nat.cast_pos.mpr (Nat.pos_of_ne_zero hne)) hpos
    cases hcompare : compare (2 * (a % b)) b with
    | lt =>
      have hhalf : 2 * (((a % b : ℕ) : ℚ) / b) < 1 := by
        rw [← mul_div_assoc, div_lt_one hpos]
        exact_mod_cast compare_lt_iff_lt.mp hcompare
      constructor <;> linarith
    | eq =>
      have hhalf : 2 * (((a % b : ℕ) : ℚ) / b) = 1 := by
        rw [← mul_div_assoc, div_eq_one_iff_eq hpos.ne']
        exact_mod_cast compare_eq_iff_eq.mp hcompare
      show 2 * _ = 2 * _ + (1 : ℚ)
      linarith
    | gt =>
      have hhalf : 1 < 2 * (((a % b : ℕ) : ℚ) / b) := by
        rw [← mul_div_assoc, one_lt_div hpos]
        exact_mod_cast compare_gt_iff_gt.mp hcompare
      constructor <;> linarith

theorem div_nearest (h₁ : 0 < m₁) (h₂ : 0 < m₂) :
    (pack binary64 (div binary64 (.finite .positive m₁ e₁ h₁) (.finite .positive m₂ e₂ h₂))).toNat =
      Nearest.bits (m₁ * 2 ^ e₁ / (m₂ * 2 ^ e₂)) := by
  have hpos : (0 : ℚ) < m₁ * 2 ^ e₁ / (m₂ * 2 ^ e₂) :=
    div_pos (mul_pos (Nat.cast_pos.mpr h₁) (two_zpow_pos e₁)) (mul_pos (Nat.cast_pos.mpr h₂) (two_zpow_pos e₂))
  delta div divCore
  have hshift := Int.min_le_left (e₁ - e₂) (binary64.targetExponent (totalExponent m₁ e₁ - totalExponent m₂ e₂))
  have hbits := Int.min_le_right (e₁ - e₂) (binary64.targetExponent (totalExponent m₁ e₁ - totalExponent m₂ e₂))
  dsimp only
  generalize min (e₁ - e₂) (binary64.targetExponent (totalExponent m₁ e₁ - totalExponent m₂ e₂)) = e at hshift hbits
  obtain ⟨k, hk⟩ : ∃ k : ℕ, e₁ - e₂ = e + k := ⟨(e₁ - e₂ - e).toNat, by omega⟩
  have hk' : (e₁ - e₂ - e).toNat = k := by omega
  rw [hk', Nat.shiftLeft_eq]
  refine roundWithAccuracy_nearest hpos ?_ ?_
  · have hscaled : (m₁ * 2 ^ e₁ / (m₂ * 2 ^ e₂) : ℚ) / 2 ^ e = (m₁ * 2 ^ k : ℕ) / m₂ := by
      have hexponent : e₁ = e + k + e₂ := by omega
      have hm₂ : (m₂ : ℚ) ≠ 0 := Nat.cast_ne_zero.mpr h₂.ne'
      rw [hexponent, zpow_add₀ (by norm_num), two_zpow_add]
      have := (two_zpow_pos e).ne'
      have := (two_zpow_pos e₂).ne'
      push_cast
      field_simp
    rw [hscaled]
    exact marks_accuracyOfFraction h₂
  · have hlength : (binary64.mantissaBits : ℤ) = 53 := rfl
    have hmin : binary64.minExponent = -1074 := rfl
    rw [Float.Model.Format.targetExponent, totalExponent, totalExponent, hlength, hmin] at hbits
    rw [targetExponent_eq]
    have hlog := log2_mul_two_pow h₁ k
    by_cases hle : m₂ ≤ m₁ * 2 ^ k
    · have hquotient := log2_le_log2_div h₂ hle
      omega
    · -- The quotient has bits before the point unless it is small.
      have hlog' : (m₁ * 2 ^ k).log2 ≤ m₂.log2 :=
        (Nat.le_log2 h₂.ne').mpr
          ((Nat.log2_self_le (Nat.mul_pos h₁ (Nat.two_pow_pos k)).ne').trans (Nat.le_of_not_le hle))
      omega

end

/-! ### Doubles -/

section
variable {m : ℕ} {e : ℤ} {x : Float}

theorem Fits.canonical (h : Fits m e) : Canonical m e := ⟨h.lt, h.least, h.full⟩

theorem toFloat_bits (h : Fits m e) (hm : 0 < m) :
    (finite false m e).toFloat.toBits.toNat = Nearest.bits (m * 2 ^ e) := by
  rw [Nearest.bits_exact h.canonical hm, ← pack_canonical h.canonical hm, toFloat, unpacked_of_pos hm]
  rfl

/-- A double to which its own magnitude is rounded is that double. -/
theorem eq_toFloat (h : Fits m e) (hm : 0 < m) (hx : x.toBits.toNat = Nearest.bits (m * 2 ^ e)) :
    x = (finite false m e).toFloat :=
  toBits_inj.mp (UInt64.toNat_inj.mp (hx.trans (toFloat_bits h hm).symm))

theorem ratio_value (m : ℕ) (e : ℤ) : 0 < (ratio m e).2 ∧ ((ratio m e).1 : ℚ) / (ratio m e).2 = m * 2 ^ e := by
  rw [ratio]
  split
  · rename_i hwhole
    obtain ⟨k, rfl⟩ := Int.eq_ofNat_of_zero_le hwhole
    exact ⟨Nat.one_pos, by push_cast [Nat.pow_eq, Int.toNat_natCast]; simp⟩
  · rename_i hfraction
    obtain ⟨k, rfl⟩ : ∃ k : ℕ, e = -(k : ℤ) := ⟨(-e).toNat, by omega⟩
    exact ⟨Nat.two_pow_pos _, by simp [div_eq_mul_inv]⟩

/-- The whole number is the magnitude. -/
theorem whole?_eq_some_iff {neg : Bool} {n : ℕ} : (finite neg m e).whole? = some n ↔ (m : ℚ) * 2 ^ e = n := by
  obtain ⟨hpos, hvalue⟩ := ratio_value m e
  rw [whole?, ← hvalue]
  generalize ratio m e = fraction at hpos
  obtain ⟨num, den⟩ := fraction
  dsimp only at hpos ⊢
  rw [div_eq_iff (Nat.cast_ne_zero.mpr hpos.ne')]
  norm_cast
  constructor
  · intro h
    obtain ⟨hdiv, hn⟩ := Option.ite_none_right_eq_some.mp h
    obtain rfl := Option.some.inj hn
    exact (Nat.div_mul_cancel (Nat.dvd_of_mod_eq_zero hdiv)).symm
  · intro h
    simp [h, Nat.mul_div_cancel _ hpos]

/-- A whole number of fifty-three bits is a double. -/
theorem exists_fits {n : ℕ} (hn : 0 < n) (hlt : n < 2 ^ 53) : ∃ m e, Fits m e ∧ 2 ^ 52 ≤ m ∧ (m : ℚ) * 2 ^ e = n := by
  obtain ⟨hle, hlt'⟩ := (Nat.log2_eq_iff (Nat.ne_of_gt hn)).mp rfl
  have hlog := (Nat.log2_lt (Nat.ne_of_gt hn)).mpr hlt
  obtain ⟨k, hk⟩ : ∃ k : ℕ, n.log2 + k = 52 := ⟨52 - n.log2, by omega⟩
  have hlt : n * 2 ^ k < 2 ^ 53 := calc
    n * 2 ^ k < 2 ^ (n.log2 + 1) * 2 ^ k := Nat.mul_lt_mul_of_pos_right hlt' (Nat.two_pow_pos k)
    _ = 2 ^ 53 := by rw [← Nat.pow_add]; congr 1; omega
  have hfull : 2 ^ 52 ≤ n * 2 ^ k := calc
    2 ^ 52 = 2 ^ n.log2 * 2 ^ k := by rw [← Nat.pow_add, hk]
    _ ≤ n * 2 ^ k := Nat.mul_le_mul_right _ hle
  refine ⟨n * 2 ^ k, -(k : ℤ), ⟨hlt, by omega, by omega, .inl hfull⟩, hfull, ?_⟩
  simp

theorem toUInt64_toFloat_nearest {n : ℕ} (hn : 0 < n) (hlt : n < 2 ^ 64) :
    n.toUInt64.toFloat.toBits.toNat = Nearest.bits n := by
  have hnat : n.toUInt64.toNat = n := Nat.mod_eq_of_lt hlt
  show (pack binary64 (ofUInt64 binary64 n.toUInt64)).toNat = _
  rw [ofUInt64, ofNat, ofInt, UnpackedFloat.normalize, hnat, Int.compare_eq_gt.mpr (by omega)]
  simp only [UnpackedFloat.round, decreaseExponent, Int.toNat_natCast, Nat.shiftLeft_eq, zero_sub]
  generalize hk : (-binary64.targetExponent (totalExponent n 0)).toNat = k
  refine roundWithAccuracy_nearest (Nat.cast_pos.mpr hn) ?_ ?_
  · have hscaled : (n : ℚ) / 2 ^ (-(k : ℤ)) = (n * 2 ^ k : ℕ) := by simp
    exact hscaled
  · have htotal : totalExponent (n * 2 ^ k) (-(k : ℤ)) = totalExponent n 0 := by
      rw [totalExponent, totalExponent, log2_mul_two_pow hn]
      omega
    rw [htotal]
    omega

end

/-! ### Powers of ten -/

/-- The doubles that decimals are scaled with are powers of ten. -/
theorem powersOfTen_exact : ∀ k (_ : k < Float.exactlyRepresentablePowersOfTen.size),
    (ofFloat Float.exactlyRepresentablePowersOfTen[k]).negative = false ∧
      (ofFloat Float.exactlyRepresentablePowersOfTen[k]).whole? = some (10 ^ k) := by
  decide +kernel

theorem powerOfTen_parts {k : ℕ} (hk : k < Float.exactlyRepresentablePowersOfTen.size) : ∃ m e, Fits m e ∧ 0 < m ∧
    (m : ℚ) * 2 ^ e = 10 ^ k ∧ Float.exactlyRepresentablePowersOfTen[k] = (finite false m e).toFloat := by
  obtain ⟨hsign, hwhole⟩ := powersOfTen_exact k hk
  cases hparts : ofFloat Float.exactlyRepresentablePowersOfTen[k] with
  | nan | infinite neg =>
    rw [hparts] at hwhole
    cases hwhole
  | finite neg m e =>
    rw [hparts] at hsign hwhole
    obtain rfl : neg = false := hsign
    have hvalue := whole?_eq_some_iff.mp hwhole
    push_cast at hvalue
    refine ⟨m, e, fits_of_ofFloat hparts, ?_, hvalue, (toFloat_ofFloat hparts).symm⟩
    rcases Nat.eq_zero_or_pos m with rfl | hm
    · rw [Nat.cast_zero, zero_mul] at hvalue
      exact absurd hvalue.symm (pow_ne_zero k (by norm_num))
    · exact hm

/-! ### Decimals -/

/-- What is out of the model's bounds for a power of ten is rounded to infinity or to zero as the others are. -/
theorem ofScientific_nearest {n : ℕ} (hn : 0 < n) (e : ℤ) :
    (pack binary64 (UnpackedFloat.ofScientific binary64 n e)).toNat = Nearest.bits (n * 10 ^ e) := by
  have hone : (1 : ℚ) ≤ n := Nat.one_le_cast.mpr hn
  have hexp : (2 : ℤ) ^ binary64.exponentBits = 2048 := rfl
  rw [UnpackedFloat.ofScientific, dif_neg hn.ne', hexp]
  by_cases hgreat : e > 2048
  · rw [if_pos hgreat]
    have hvalue : (2 : ℚ) ^ 1024 ≤ n * 10 ^ e := calc
      (2 : ℚ) ^ 1024 ≤ 10 ^ 1024 := pow_le_pow_left₀ (by norm_num) (by norm_num) _
      _ = 10 ^ (1024 : ℤ) := rfl
      _ ≤ 10 ^ e := zpow_le_zpow_right₀ (by norm_num) (by omega)
      _ ≤ n * 10 ^ e := le_mul_of_one_le_left (zpow_pos (by norm_num) e).le hone
    rw [Nearest.bits_of_great hvalue]
    decide
  rw [if_neg hgreat]
  by_cases hsmall : e < -(2048 + n.log2)
  · rw [if_pos hsmall]
    obtain ⟨k, rfl⟩ : ∃ k : ℕ, e = -(k : ℤ) := ⟨(-e).toNat, by omega⟩
    have hlog : (n : ℚ) < 2 ^ (n.log2 + 1) := by exact_mod_cast Nat.lt_log2_self (n := n)
    have hpower : (10 : ℚ) ^ (-(k : ℤ)) ≤ 2 ^ (-(k : ℤ)) := by
      rw [zpow_neg, zpow_neg, zpow_natCast, zpow_natCast]
      exact inv_anti₀ (by positivity) (pow_le_pow_left₀ (by norm_num) (by norm_num) k)
    have hpos : (0 : ℚ) < n * 10 ^ (-(k : ℤ)) := mul_pos (zero_lt_one.trans_le hone) (zpow_pos (by norm_num) _)
    have hvalue : 2 * ((n : ℚ) * 10 ^ (-(k : ℤ))) < 2 ^ (-1074 : ℤ) := calc
      2 * ((n : ℚ) * 10 ^ (-(k : ℤ))) ≤ 2 * (n * 2 ^ (-(k : ℤ))) := by gcongr
      _ < 2 * (2 ^ (n.log2 + 1) * 2 ^ (-(k : ℤ))) := by gcongr
      _ = 2 ^ (-(k : ℤ) + (n.log2 + 2 : ℕ)) := by rw [two_zpow_add]; ring
      _ ≤ 2 ^ (-1074 : ℤ) := zpow_le_zpow_right₀ (by norm_num) (by push_cast; omega)
    rw [Nearest.bits_of_small hpos hvalue]
    decide
  rw [if_neg hsmall]
  by_cases hwhole : 0 ≤ e
  · rw [if_pos hwhole]
    obtain ⟨k, rfl⟩ := Int.eq_ofNat_of_zero_le hwhole
    have hscaled : 2 ^ 52 ≤ n <<< 53 * 10 ^ k := calc
      2 ^ 52 ≤ n * 2 ^ 53 * 1 := by omega
      _ ≤ n <<< 53 * 10 ^ k := Nat.mul_le_mul (Nat.shiftLeft_eq n 53).ge (Nat.one_le_pow _ _ (by decide))
    refine (mul_nearest _ _ hscaled).trans (congrArg Nearest.bits ?_)
    have hbits : (-binary64.mantissaBits : ℤ) = -(53 : ℕ) := rfl
    rw [hbits, Nat.shiftLeft_eq, zpow_neg, zpow_natCast]
    push_cast
    rw [zpow_natCast]
    ring
  · rw [if_neg hwhole]
    obtain ⟨k, rfl⟩ : ∃ k : ℕ, e = -(k : ℤ) := ⟨(-e).toNat, by omega⟩
    refine (div_nearest _ _).trans (congrArg Nearest.bits ?_)
    have hplaces : (- -(k : ℤ)).toNat = k := by omega
    rw [hplaces]
    simp [div_eq_mul_inv]

/-- Scaling a double with another one takes the nearest double too. -/
theorem float_ofScientific_nearest {n : ℕ} (hn : 0 < n) (s : Bool) (k : ℕ) :
    (Float.ofScientific n s k).toBits.toNat = Nearest.bits (n * 10 ^ (if s then -(k : ℤ) else k)) := by
  rw [Float.ofScientific]
  split
  · rename_i hfast
    obtain ⟨m₁, e₁, hfits, hfull, hvalue⟩ := exists_fits hn hfast.1
    have hm₁ : 0 < m₁ := Nat.lt_of_lt_of_le (by decide) hfull
    have hk : k < Float.exactlyRepresentablePowersOfTen.size := Nat.lt_of_le_of_lt hfast.2 (by decide)
    obtain ⟨m₂, e₂, hfits', hm₂, hvalue', hpower⟩ := powerOfTen_parts hk
    have hconverted : n.toUInt64.toFloat = (finite false m₁ e₁).toFloat :=
      eq_toFloat hfits hm₁ ((toUInt64_toFloat_nearest hn (hfast.1.trans (by decide))).trans (congrArg _ hvalue.symm))
    have hunpack := unpack_toFloat false hfits
    have hunpack' := unpack_toFloat false hfits'
    rw [unpacked_of_pos hm₁] at hunpack
    rw [unpacked_of_pos hm₂] at hunpack'
    simp only [hconverted, hpower]
    cases s with
    | true =>
      show (pack binary64 (div binary64 _ _)).toNat = _
      rw [hunpack, hunpack']
      refine (div_nearest hm₁ hm₂).trans (congrArg Nearest.bits ?_)
      rw [hvalue, hvalue', if_pos rfl, zpow_neg, zpow_natCast, div_eq_mul_inv]
    | false =>
      show (pack binary64 (mul binary64 _ _)).toNat = _
      rw [hunpack, hunpack']
      refine (mul_nearest hm₁ hm₂ (hfull.trans (Nat.le_mul_of_pos_right m₁ hm₂))).trans (congrArg Nearest.bits ?_)
      rw [hvalue, hvalue', if_neg Bool.false_ne_true, zpow_natCast]
  · cases s with
    | true => exact (ofScientific_nearest hn _).trans (by rw [Int.negOfNat_eq]; rfl)
    | false => exact ofScientific_nearest hn _

/-- No digits stand for zero, however they are scaled. -/
theorem ofScientific_zero (s : Bool) (k : ℕ) : (Float.ofScientific 0 s k).toBits.toNat = 0 := by
  by_cases hk : k < 23
  · have hfast : ∀ k, k < 23 → ∀ s, (Float.ofScientific 0 s k).toBits.toNat = 0 := by decide +kernel
    exact hfast k hk s
  · rw [Float.ofScientific, dif_neg fun h => hk (Nat.lt_succ_of_le h.2)]
    have hzero : ∀ e : ℤ, (Float.ofModel (Float.Model.ofScientific 0 e)).toBits.toNat = 0 := fun e => by
      show (pack binary64 (UnpackedFloat.ofScientific binary64 0 e)).toNat = 0
      rw [UnpackedFloat.ofScientific, dif_pos rfl]
      decide
    exact hzero _

end Parts

namespace Decimal
open Parts (Fits)
variable {d : Decimal} {m : ℕ} {e : ℤ}

/-- The number that a decimal denotes. -/
def value (d : Decimal) : ℚ := d.digits * 10 ^ d.exponent

theorem value_pos (hd : 0 < d.digits) : 0 < d.value := mul_pos (Nat.cast_pos.mpr hd) (zpow_pos (by norm_num) _)

/-- A decimal stands for the double nearest to the number that it denotes. -/
theorem toFloat_nearest (hd : 0 < d.digits) : d.toFloat.toBits.toNat = Nearest.bits d.value := by
  rw [toFloat, value]
  split
  · rename_i hwhole
    obtain ⟨k, hk⟩ := Int.eq_ofNat_of_zero_le hwhole
    have hpos : 0 < d.digits * Nat.pow 10 k := Nat.mul_pos hd (Nat.pow_pos (by decide))
    rw [hk, Int.toNat_natCast, Parts.float_ofScientific_nearest hpos]
    simp
  · rename_i hfraction
    rw [Parts.float_ofScientific_nearest hd, if_pos rfl]
    congr
    omega

/-- A decimal that denotes a double stands for it. -/
theorem toFloat_of_value (h : Fits m e) (hm : 0 < m) (hvalue : d.value = m * 2 ^ e) :
    d.toFloat = (Parts.finite false m e).toFloat := by
  refine Parts.eq_toFloat h hm ?_
  have hd : 0 < d.digits := by
    rcases Nat.eq_zero_or_pos d.digits with hzero | hd
    · rw [value, hzero, Nat.cast_zero, zero_mul] at hvalue
      exact absurd hvalue.symm (mul_pos (Nat.cast_pos.mpr hm) (Nearest.two_zpow_pos e)).ne'
    · exact hd
  rw [toFloat_nearest hd, hvalue]

end Decimal
end Lox
