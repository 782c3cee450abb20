import Lox.Proofs.Numbers.Spelling
import Mathlib.Algebra.Order.Floor.Semifield

/-! # The shortest decimals

The decimal that is found for a double has the fewest digits of all that read back, and of those with as few none is
nearer to the double (`magnitude_isShortest`). Decimals with so many digits in all are multiples of a power of ten
around the double, and what reads back between two of these makes the nearer one read back, because rounding keeps the
order. So the two neighbours on each grid are all that has to be tried. On the grid of seventeen digits one of them is
nearer to the double than half the way to the next one. -/

namespace Lox
namespace Decimal
open Parts (Fits)

/-- How many digits there are. -/
def width (d : Decimal) : Nat := (Nat.toDigits 10 d.digits).length

/-- The decimal stands for the double `m · 2 ^ e`. -/
def ReadsBack (d : Decimal) (m : Nat) (e : Int) : Prop := d.toFloat = (Parts.finite false m e).toFloat

instance (d : Decimal) (m : Nat) (e : Int) : Decidable (d.ReadsBack m e) :=
  inferInstanceAs (Decidable (d.toFloat = (Parts.finite false m e).toFloat))

/-- No decimal that stands for the double `m · 2 ^ e` has fewer digits than this one, and none with as few digits is
    nearer to the double. -/
structure IsShortest (d : Decimal) (m : Nat) (e : Int) : Prop where
  readsBack : d.ReadsBack m e
  fewest : ∀ d' : Decimal, d'.ReadsBack m e → d.width ≤ d'.width
  nearest : ∀ d' : Decimal, d'.ReadsBack m e → d'.width = d.width → |d.value - m * 2 ^ e| ≤ |d'.value - m * 2 ^ e|

section
variable {d d' : Decimal} {m k n : Nat} {e unit : Int}

theorem width_pos (d : Decimal) : 0 < d.width := Nat.length_toDigits_pos

theorem width_le_iff (hk : 0 < k) : d.width ≤ k ↔ d.digits < 10 ^ k := Nat.length_toDigits_le_iff (by decide) hk

theorem ten_zpow_pos (i : Int) : (0 : ℚ) < 10 ^ i := zpow_pos (by norm_num) i

theorem ten_zpow_add (i : Int) (k : Nat) : (10 : ℚ) ^ (i + k) = 10 ^ k * 10 ^ i := by
  rw [zpow_add₀ (by norm_num), zpow_natCast, mul_comm]

theorem value_dropZero (d : Decimal) : (dropZero d).value = d.value := by
  rw [dropZero]
  split
  · rename_i hzero
    obtain ⟨n, hn⟩ := Nat.dvd_of_mod_eq_zero hzero
    rw [value, value, hn, Nat.mul_div_cancel_left n (by decide), zpow_add₀ (by norm_num), zpow_one]
    push_cast
    ring
  · rfl

/-! ### What reads back -/

theorem ReadsBack.digits_pos (hd : d.ReadsBack m e) (h : Fits m e) (hm : 0 < m) : 0 < d.digits := by
  refine Nat.pos_of_ne_zero fun hzero => ?_
  have hbits := congrArg (·.toBits.toNat) hd
  have hnone : d.toFloat.toBits.toNat = 0 := by
    rw [toFloat, hzero]
    split
    · exact (congrArg (fun n => (Float.ofScientific n false 0).toBits.toNat) (Nat.zero_mul _)).trans
        (Parts.ofScientific_zero false 0)
    · exact Parts.ofScientific_zero true _
  rw [hnone, Parts.toFloat_bits h hm, Nearest.bits_exact h.canonical hm, Nearest.infinity] at hbits
  omega

theorem readsBack_iff (h : Fits m e) (hm : 0 < m) (hd : 0 < d.digits) :
    d.ReadsBack m e ↔ Nearest.bits d.value = Nearest.bits (m * 2 ^ e) := by
  rw [← toFloat_nearest hd, ← Parts.toFloat_bits h hm, UInt64.toNat_inj, Parts.toBits_inj]
  rfl

/-- What is between the double and a decimal that reads back reads back too. -/
theorem ReadsBack.between (hd' : d'.ReadsBack m e) (h : Fits m e) (hm : 0 < m) (hd : 0 < d.digits)
    (hbetween : d'.value ≤ d.value ∧ d.value ≤ m * 2 ^ e ∨ m * 2 ^ e ≤ d.value ∧ d.value ≤ d'.value) :
    d.ReadsBack m e := by
  have hpos' := hd'.digits_pos h hm
  rw [readsBack_iff h hm hpos'] at hd'
  rw [readsBack_iff h hm hd]
  rcases hbetween with ⟨hlow, hhigh⟩ | ⟨hlow, hhigh⟩
  · refine le_antisymm (Nearest.bits_mono (value_pos hd) hhigh) ?_
    rw [← hd']
    exact Nearest.bits_mono (value_pos hpos') hlow
  · refine le_antisymm ?_ (Nearest.bits_mono (mul_pos (Nat.cast_pos.mpr hm) (Nearest.two_zpow_pos e)) hlow)
    rw [← hd']
    exact Nearest.bits_mono (value_pos hd) hhigh

/-! ### Grids -/

variable {num den s : Nat} {tie : Tie}

theorem stepsBelow_eq : stepsBelow num den unit = ⌊(num / den : ℚ) / 10 ^ unit⌋₊ := by
  rw [stepsBelow]
  split
  · rename_i hwhole
    obtain ⟨k, rfl⟩ := Int.eq_ofNat_of_zero_le hwhole
    rw [← Nat.floor_div_eq_div (K := ℚ), div_div, Int.toNat_natCast, zpow_natCast]
    push_cast [Nat.pow_eq]
    rfl
  · rename_i hfraction
    obtain ⟨k, rfl⟩ : ∃ k : Nat, unit = -(k : Int) := ⟨(-unit).toNat, by omega⟩
    rw [← Nat.floor_div_eq_div (K := ℚ), neg_neg, Int.toNat_natCast, zpow_neg, zpow_natCast, div_inv_eq_mul,
      div_mul_eq_mul_div]
    push_cast [Nat.pow_eq]
    rfl

/-- The neighbours of the fraction on the grid. -/
theorem stepsBelow_near (num den : Nat) (unit : Int) : stepsBelow num den unit * 10 ^ unit ≤ (num / den : ℚ) ∧
    (num / den : ℚ) < (stepsBelow num den unit + 1) * 10 ^ unit := by
  have hpos := ten_zpow_pos unit
  have hfraction : (0 : ℚ) ≤ num / den := div_nonneg (Nat.cast_nonneg _) (Nat.cast_nonneg _)
  rw [stepsBelow_eq]
  exact ⟨(le_div_iff₀ hpos).mp (Nat.floor_le (div_nonneg hfraction hpos.le)),
    (div_lt_iff₀ hpos).mp (Nat.lt_floor_add_one _)⟩

theorem nearerAbove_spec (tie : Tie) (hden : 0 < den) (s : Nat) (unit : Int) :
    (nearerAbove tie num den s unit = true → (2 * s + 1) * 10 ^ unit ≤ 2 * (num / den : ℚ)) ∧
      (nearerAbove tie num den s unit = false → 2 * (num / den : ℚ) ≤ (2 * s + 1) * 10 ^ unit) := by
  have hden' : (0 : ℚ) < den := Nat.cast_pos.mpr hden
  -- What is compared is the fraction and the middle of the two neighbours, both multiplied by the same.
  obtain ⟨⟨twice, middle⟩, hpair⟩ : ∃ pair : Nat × Nat, pair =
      if 0 ≤ unit then (2 * num, (2 * s + 1) * (den * Nat.pow 10 unit.toNat))
      else (2 * num * Nat.pow 10 (-unit).toNat, (2 * s + 1) * den) := ⟨_, rfl⟩
  obtain ⟨scale, hscale, htwice, hmiddle⟩ : ∃ scale : ℚ, 0 < scale ∧
      (twice : ℚ) = 2 * (num / den) * scale ∧ (middle : ℚ) = (2 * s + 1) * 10 ^ unit * scale := by
    by_cases hwhole : 0 ≤ unit
    · rw [if_pos hwhole] at hpair
      obtain ⟨rfl, rfl⟩ := Prod.mk.inj hpair
      obtain ⟨k, rfl⟩ := Int.eq_ofNat_of_zero_le hwhole
      refine ⟨den, hden', ?_, ?_⟩
      · push_cast
        field_simp
      · push_cast [Int.toNat_natCast, Nat.pow_eq, zpow_natCast]
        ring
    · rw [if_neg hwhole] at hpair
      obtain ⟨rfl, rfl⟩ := Prod.mk.inj hpair
      obtain ⟨k, rfl⟩ : ∃ k : Nat, unit = -(k : Int) := ⟨(-unit).toNat, by omega⟩
      refine ⟨den * 10 ^ k, by positivity, ?_, ?_⟩
      · push_cast [neg_neg, Int.toNat_natCast, Nat.pow_eq]
        field_simp
      · push_cast [zpow_neg, zpow_natCast]
        field_simp
  have hle : middle ≤ twice → (2 * s + 1) * 10 ^ unit ≤ 2 * (num / den : ℚ) := fun h => by
    have h : (middle : ℚ) ≤ twice := Nat.cast_le.mpr h
    rw [htwice, hmiddle] at h
    exact le_of_mul_le_mul_right h hscale
  have hge : twice ≤ middle → 2 * (num / den : ℚ) ≤ (2 * s + 1) * 10 ^ unit := fun h => by
    have h : (twice : ℚ) ≤ middle := Nat.cast_le.mpr h
    rw [htwice, hmiddle] at h
    exact le_of_mul_le_mul_right h hscale
  rw [nearerAbove.eq_def, ← hpair]
  dsimp only
  cases hcompare : compare twice middle with
  | lt => exact ⟨nofun, fun _ => hge (compare_lt_iff_lt.mp hcompare).le⟩
  | eq => exact ⟨fun _ => hle (compare_eq_iff_eq.mp hcompare).ge, fun _ => hge (compare_eq_iff_eq.mp hcompare).le⟩
  | gt => exact ⟨fun _ => hle (compare_gt_iff_gt.mp hcompare).le, nofun⟩

/-- The neighbour above on the grid, as it is written. -/
def above (s : Nat) (unit : Int) : Decimal := dropZero ⟨s + 1, unit⟩

theorem value_above : (above s unit).value = (s + 1) * 10 ^ unit := by
  rw [above, value_dropZero, value]
  push_cast
  rfl

theorem digits_above_pos : 0 < (above s unit).digits := by
  rw [above, dropZero]
  split
  · rename_i hzero
    exact Nat.div_pos (Nat.le_of_dvd (Nat.succ_pos s) (Nat.dvd_of_mod_eq_zero hzero)) (by decide)
  · exact Nat.succ_pos s

/-- If neither neighbour reads back there is nothing on the grid, and else the nearer of those that do is there. -/
theorem onGrid?_cases (tie : Tie) (m : Nat) (e : Int) (num den : Nat) (unit : Int) :
    let s := stepsBelow num den unit
    let found := onGrid? tie (Parts.finite false m e).toFloat num den unit
    (found = none ∧ ¬ ReadsBack ⟨s, unit⟩ m e ∧ ¬ (above s unit).ReadsBack m e) ∨
      (found = some ⟨s, unit⟩ ∧ ReadsBack ⟨s, unit⟩ m e ∧
        ((above s unit).ReadsBack m e → nearerAbove tie num den s unit = false)) ∨
      (found = some (above s unit) ∧ (above s unit).ReadsBack m e ∧
        (ReadsBack ⟨s, unit⟩ m e → nearerAbove tie num den s unit = true)) := by
  intro s found
  have hread : ∀ d : Decimal, decide (d.toFloat.toBits = (Parts.finite false m e).toFloat.toBits) =
      decide (d.ReadsBack m e) := fun d => decide_eq_decide.mpr Parts.toBits_inj
  have hfound : found = onGrid? tie (Parts.finite false m e).toFloat num den unit := rfl
  by_cases hbelow : ReadsBack ⟨s, unit⟩ m e <;> by_cases habove : ReadsBack (dropZero ⟨s + 1, unit⟩) m e
  all_goals simp only [onGrid?, hread, s, hbelow, habove, decide_true, decide_false] at hfound
  · cases hnearer : nearerAbove tie num den s unit with
    | false => exact .inr (.inl ⟨by simpa [s, hnearer] using hfound, hbelow, fun _ => rfl⟩)
    | true => exact .inr (.inr ⟨by simpa [s, above, hnearer] using hfound, habove, fun _ => rfl⟩)
  · exact .inr (.inl ⟨hfound, hbelow, fun h => absurd h habove⟩)
  · exact .inr (.inr ⟨hfound, habove, fun h => absurd h hbelow⟩)
  · exact .inl ⟨hfound, hbelow, habove⟩

theorem not_readsBack_of_onGrid?_none (hnone : onGrid? tie (Parts.finite false m e).toFloat num den unit = none) :
    ¬ ReadsBack ⟨stepsBelow num den unit, unit⟩ m e ∧ ¬ (above (stepsBelow num den unit) unit).ReadsBack m e := by
  rcases onGrid?_cases tie m e num den unit with ⟨-, hneither⟩ | ⟨hsome, -⟩ | ⟨hsome, -⟩
  · exact hneither
  · cases hsome.symm.trans hnone
  · cases hsome.symm.trans hnone

/-- What is found is one of the neighbours, and if the other one reads back too it is the nearer one. -/
theorem of_onGrid?_some (hfound : onGrid? tie (Parts.finite false m e).toFloat num den unit = some d) :
    (d = ⟨stepsBelow num den unit, unit⟩ ∧ ((above (stepsBelow num den unit) unit).ReadsBack m e →
      nearerAbove tie num den (stepsBelow num den unit) unit = false)) ∨
    (d = above (stepsBelow num den unit) unit ∧ (ReadsBack ⟨stepsBelow num den unit, unit⟩ m e →
      nearerAbove tie num den (stepsBelow num den unit) unit = true)) := by
  rcases onGrid?_cases tie m e num den unit with ⟨hnone, -⟩ | ⟨hsome, -, hnearer⟩ | ⟨hsome, -, hnearer⟩
  · cases hnone.symm.trans hfound
  · exact .inl ⟨Option.some.inj (hfound.symm.trans hsome), hnearer⟩
  · exact .inr ⟨Option.some.inj (hfound.symm.trans hsome), hnearer⟩

/-- The decimal does not lie between the neighbours on the grid. -/
def Beside (d : Decimal) (s : Nat) (unit : Int) : Prop := d.value ≤ s * 10 ^ unit ∨ (s + 1) * 10 ^ unit ≤ d.value

/-- A decimal that has no more digits than the neighbours is on the grid or below them. -/
theorem beside_of_width (hd : d.width ≤ k + 1) (hs : 10 ^ k ≤ s) : d.Beside s unit := by
  have hpos := ten_zpow_pos unit
  rcases le_or_gt unit d.exponent with hcoarse | hfine
  · obtain ⟨j, hj⟩ : ∃ j : Nat, d.exponent = unit + j := ⟨(d.exponent - unit).toNat, by omega⟩
    have hvalue : d.value = (d.digits * 10 ^ j : Nat) * 10 ^ unit := by
      rw [value, hj, ten_zpow_add]
      push_cast
      ring
    rcases Nat.lt_or_ge s (d.digits * 10 ^ j) with hlt | hle
    · right
      rw [hvalue]
      exact mul_le_mul_of_nonneg_right (by exact_mod_cast hlt) hpos.le
    · left
      rw [hvalue]
      exact mul_le_mul_of_nonneg_right (Nat.cast_le.mpr hle) hpos.le
  · left
    have hdigits : (d.digits : ℚ) ≤ 10 ^ (k + 1) := by exact_mod_cast ((width_le_iff (Nat.succ_pos k)).mp hd).le
    calc d.value ≤ 10 ^ (k + 1) * 10 ^ d.exponent := mul_le_mul_of_nonneg_right hdigits (ten_zpow_pos _).le
      _ = 10 ^ k * 10 ^ (d.exponent + (1 : Nat)) := by rw [ten_zpow_add]; ring
      _ ≤ 10 ^ k * 10 ^ unit := by
        gcongr
        · norm_num
        · omega
      _ ≤ s * 10 ^ unit := mul_le_mul_of_nonneg_right (by exact_mod_cast hs) hpos.le

section
variable (h : Fits m e) (hm : 0 < m) (hden : 0 < den) (hv : (num / den : ℚ) = m * 2 ^ e)
  (hs : 0 < stepsBelow num den unit)
include h hm hv hs

/-- With a decimal beside the neighbours one of them reads back, and no neighbour that reads back is farther away than
    the decimal on its side. -/
theorem ReadsBack.neighbour (hd : d.ReadsBack m e) (hbeside : d.Beside (stepsBelow num den unit) unit) :
    (ReadsBack ⟨stepsBelow num den unit, unit⟩ m e ∧ d.value ≤ stepsBelow num den unit * 10 ^ unit) ∨
      (above (stepsBelow num den unit) unit).ReadsBack m e ∧ (stepsBelow num den unit + 1) * 10 ^ unit ≤ d.value := by
  obtain ⟨hbelow, habove⟩ := stepsBelow_near num den unit
  rw [hv] at hbelow habove
  rcases hbeside with hle | hge
  · exact .inl ⟨hd.between h hm hs (.inl ⟨hle, hbelow⟩), hle⟩
  · refine .inr ⟨hd.between h hm digits_above_pos (.inr ?_), hge⟩
    rw [value_above]
    exact ⟨habove.le, hge⟩

theorem onGrid?_ne_none (hd : d.ReadsBack m e) (hbeside : d.Beside (stepsBelow num den unit) unit) :
    onGrid? tie (Parts.finite false m e).toFloat num den unit ≠ none := by
  intro hnone
  obtain ⟨hbelow, habove⟩ := not_readsBack_of_onGrid?_none hnone
  rcases hd.neighbour h hm hv hs hbeside with ⟨hreads, -⟩ | ⟨hreads, -⟩
  · exact hbelow hreads
  · exact habove hreads

include hden in
/-- What is found is as near as any decimal that reads back and is beside the neighbours. -/
theorem onGrid?_nearest (hfound : onGrid? tie (Parts.finite false m e).toFloat num den unit = some d)
    (hd' : d'.ReadsBack m e) (hbeside : d'.Beside (stepsBelow num den unit) unit) :
    |d.value - m * 2 ^ e| ≤ |d'.value - m * 2 ^ e| := by
  obtain ⟨hbelow, habove⟩ := stepsBelow_near num den unit
  obtain ⟨hup, hdown⟩ := nearerAbove_spec tie hden (stepsBelow num den unit) unit
  rw [hv] at hbelow habove hup hdown
  have hside := hd'.neighbour h hm hv hs hbeside
  rcases of_onGrid?_some hfound with ⟨rfl, hnearer⟩ | ⟨rfl, hnearer⟩
  · have hvalue : value ⟨stepsBelow num den unit, unit⟩ = stepsBelow num den unit * 10 ^ unit := rfl
    rw [hvalue, abs_of_nonpos (by linarith)]
    rcases hside with ⟨-, hle⟩ | ⟨hreads, hge⟩
    · rw [abs_of_nonpos (by linarith)]
      linarith
    · have hmiddle := hdown (hnearer hreads)
      rw [abs_of_nonneg (by linarith)]
      linarith
  · rw [value_above, abs_of_nonneg (by linarith)]
    rcases hside with ⟨hreads, hle⟩ | ⟨-, hge⟩
    · have hmiddle := hup (hnearer hreads)
      rw [abs_of_nonpos (by linarith)]
      linarith
    · rw [abs_of_nonneg (by linarith)]
      linarith

end

theorem onGrid?_width (hlt : (num / den : ℚ) < 10 ^ (k + 1) * 10 ^ unit)
    (hfound : onGrid? tie (Parts.finite false m e).toFloat num den unit = some d) : d.width ≤ k + 1 := by
  obtain ⟨hbelow, -⟩ := stepsBelow_near num den unit
  have hsteps : stepsBelow num den unit < 10 ^ (k + 1) := by
    have hlt := lt_of_mul_lt_mul_right (hbelow.trans_lt hlt) (ten_zpow_pos unit).le
    exact_mod_cast hlt
  rw [width_le_iff (Nat.succ_pos k)]
  rcases of_onGrid?_some hfound with ⟨rfl, -⟩ | ⟨rfl, -⟩
  · exact hsteps
  · rw [above, dropZero]
    rw [Nat.pow_succ] at hsteps ⊢
    split <;> dsimp only at * <;> omega

/-! ### The order of a double -/

/-- The fraction begins at its order, if it is not so small that this is not looked for. -/
theorem orderOf_near (hden : 0 < den) (hleast : (10 ^ (-400 : Int) : ℚ) ≤ num / den) :
    (10 : ℚ) ^ orderOf num den ≤ num / den ∧ (num / den : ℚ) < 10 ^ (orderOf num den + 1) := by
  have hden' : (0 : ℚ) < den := Nat.cast_pos.mpr hden
  rw [orderOf]
  split
  · rename_i hle
    have hwhole : 0 < num / den := Nat.div_pos hle hden
    obtain ⟨length, hlength⟩ : ∃ length, (Nat.toDigits 10 (num / den)).length = length + 1 :=
      Nat.exists_eq_succ_of_ne_zero Nat.length_toDigits_pos.ne'
    have hlt : num / den < 10 ^ (length + 1) :=
      (Nat.length_toDigits_le_iff (by decide) (Nat.succ_pos length)).mp hlength.le
    have hge : 10 ^ length ≤ num / den := by
      rcases Nat.eq_zero_or_pos length with rfl | hpos
      · exact hwhole
      · refine Nat.le_of_not_lt fun hlt => ?_
        have hle := (Nat.length_toDigits_le_iff (by decide) hpos).mpr hlt
        omega
    rw [hlength, Nat.cast_add, Nat.cast_one, add_sub_cancel_right]
    constructor
    · rw [zpow_natCast, le_div_iff₀ hden']
      exact_mod_cast (Nat.le_div_iff_mul_le hden).mp hge
    · rw [← Nat.cast_one, ← Nat.cast_add, zpow_natCast, div_lt_iff₀ hden']
      exact_mod_cast (Nat.div_lt_iff_lt_mul hden).mp hlt
  · rename_i hlt
    -- The first place at which the digits begin is looked for.
    split
    · rename_i k hfound
      obtain ⟨hplace, -, hfirst⟩ := List.find?_range_eq_some.mp hfound
      have hplace : den ≤ num * 10 ^ (k + 1) := of_decide_eq_true hplace
      have hlater : num * 10 ^ k < den := by
        cases k with
        | zero => omega
        | succ j =>
          exact Nat.lt_of_not_le (of_decide_eq_false ((Bool.not_eq_true' _).mp (hfirst j (Nat.lt_succ_self j))))
      constructor
      · rw [zpow_neg, le_div_iff₀ hden', inv_mul_le_iff₀ (ten_zpow_pos _)]
        rw [mul_comm]
        exact_mod_cast hplace
      · rw [neg_add, neg_add_cancel_right, zpow_neg, div_lt_iff₀ hden', lt_inv_mul_iff₀ (ten_zpow_pos _), mul_comm]
        exact_mod_cast hlater
    · rename_i hnone
      obtain ⟨k, hk⟩ : ∃ k : Nat, (-400 : Int) = -(k + 1 : Nat) := ⟨399, rfl⟩
      have hnone := List.find?_range_eq_none.mp hnone k (by omega)
      have hlt : num * 10 ^ (k + 1) < den := Nat.lt_of_not_le (of_decide_eq_false ((Bool.not_eq_true' _).mp hnone))
      rw [hk, le_div_iff₀ hden', zpow_neg, zpow_natCast, inv_mul_le_iff₀ (pow_pos (by norm_num) _), mul_comm] at hleast
      have hle : (den : ℚ) ≤ num * 10 ^ (k + 1) := hleast
      exact absurd hle (not_le.mpr (by exact_mod_cast hlt))

theorem least_le_value (h : Fits m e) (hm : 0 < m) : (10 ^ (-400 : Int) : ℚ) ≤ m * 2 ^ e :=
  calc (10 : ℚ) ^ (-400 : Int) ≤ 10 ^ (-358 : Int) := zpow_le_zpow_right₀ (by norm_num) (by decide)
    _ ≤ 8 ^ (-358 : Int) := by
      rw [zpow_neg, zpow_neg]
      exact inv_anti₀ (zpow_pos (by norm_num) _) (zpow_le_zpow_left₀ (by decide) (by norm_num) (by norm_num))
    _ = 2 ^ (-1074 : Int) := by
      rw [show (8 : ℚ) = 2 ^ (3 : Int) by norm_num, ← zpow_mul]
      rfl
    _ ≤ 2 ^ e := zpow_le_zpow_right₀ (by norm_num) h.least
    _ ≤ m * 2 ^ e := le_mul_of_one_le_left (Nearest.two_zpow_pos e).le (Nat.one_le_cast.mpr hm)

/-- Next to a double there is a decimal of seventeen digits that is nearer than half the way to the next double. -/
theorem bits_of_seventeen {q u : ℚ} (h : Fits m e) (hm : 0 < m) (hq : 0 < q) (hu : 10 ^ 16 * u ≤ m * 2 ^ e)
    (habove : 2 * (q - m * 2 ^ e) ≤ u) (hbelow : 2 * (m * 2 ^ e - q) ≤ u) :
    Nearest.bits q = Nearest.bits (m * 2 ^ e) := by
  have hpos := Nearest.two_zpow_pos e
  have hlt : (m : ℚ) * 2 ^ e < 2 ^ 53 * 2 ^ e := mul_lt_mul_of_pos_right (by exact_mod_cast h.lt) hpos
  rw [Nearest.bits_exact h.canonical hm]
  refine Nearest.bits_of_near h.canonical hq ?_ ?_ fun hpower _ => ?_
  · linarith
  · linarith
  · rw [hpower] at hu hbelow ⊢
    push_cast at hu hbelow ⊢
    linarith

theorem onGrid?_seventeen (h : Fits m e) (hm : 0 < m) (hv : (num / den : ℚ) = m * 2 ^ e)
    (hunit : 10 ^ 16 * 10 ^ unit ≤ (num / den : ℚ)) :
    onGrid? tie (Parts.finite false m e).toFloat num den unit ≠ none := by
  obtain ⟨hbelow, habove⟩ := stepsBelow_near num den unit
  have hs : 0 < stepsBelow num den unit := by
    have hlt : (1 : ℚ) < stepsBelow num den unit + 1 := by
      refine lt_of_mul_lt_mul_right (lt_of_le_of_lt ?_ habove) (ten_zpow_pos unit).le
      exact le_trans (mul_le_mul_of_nonneg_right (by norm_num) (ten_zpow_pos unit).le) hunit
    have hlt : 1 < stepsBelow num den unit + 1 := by exact_mod_cast hlt
    omega
  rw [hv] at hbelow habove hunit
  intro hnone
  obtain ⟨hnot, hnot'⟩ := not_readsBack_of_onGrid?_none hnone
  rcases le_total (2 * (m * 2 ^ e : ℚ)) ((2 * stepsBelow num den unit + 1) * 10 ^ unit) with hle | hge
  · have hvalue : value ⟨stepsBelow num den unit, unit⟩ = stepsBelow num den unit * 10 ^ unit := rfl
    refine hnot ((readsBack_iff h hm hs).mpr (bits_of_seventeen h hm (value_pos hs) hunit ?_ ?_))
    · rw [hvalue]
      linarith
    · rw [hvalue]
      linarith
  · refine hnot' ((readsBack_iff h hm digits_above_pos).mpr
      (bits_of_seventeen h hm (value_pos digits_above_pos) hunit ?_ ?_))
    · rw [value_above]
      linarith
    · rw [value_above]
      linarith

/-! ### The search -/

theorem findSome?_range {α : Type} {f : Nat → Option α} {a : α} : ∀ {n : Nat}, (List.range n).findSome? f = some a →
    ∃ k, k < n ∧ f k = some a ∧ ∀ j, j < k → f j = none
  | n + 1, h => by
    rw [List.range_succ, List.findSome?_append] at h
    cases hfound : (List.range n).findSome? f with
    | some b =>
      rw [hfound] at h
      obtain rfl : b = a := Option.some.inj h
      obtain ⟨k, hk, hfk, hfirst⟩ := findSome?_range hfound
      exact ⟨k, Nat.lt_succ_of_lt hk, hfk, hfirst⟩
    | none =>
      rw [hfound] at h
      refine ⟨n, Nat.lt_succ_self n, by simpa using h, fun j hj => ?_⟩
      exact List.findSome?_eq_none_iff.mp hfound j (List.mem_range.mpr hj)

/-- The decimal that is found for a double has the fewest digits and is the nearest with so few. -/
theorem shortest_isShortest (h : Fits m e) (hm : 0 < m) :
    (shortest tie (Parts.finite false m e).toFloat m e).IsShortest m e := by
  obtain ⟨hden, hv⟩ := Parts.ratio_value m e
  have hreads : (shortest tie (Parts.finite false m e).toFloat m e).ReadsBack m e := shortest_toFloat h hm
  rw [shortest] at hreads ⊢
  generalize Parts.ratio m e = fraction at hden hv hreads
  obtain ⟨num, den⟩ := fraction
  dsimp only at hden hv hreads ⊢
  obtain ⟨hlow, hhigh⟩ := orderOf_near hden (hv ▸ least_le_value h hm)
  generalize orderOf num den = order at hlow hhigh hreads
  have hsplit : ∀ k : Nat, (10 : ℚ) ^ order = 10 ^ k * 10 ^ (order - k) := fun k => by
    rw [← ten_zpow_add, sub_add_cancel]
  -- With `k` digits behind the first one, the grid has the neighbours of as many digits in all.
  have hsteps : ∀ k : Nat, 10 ^ k ≤ stepsBelow num den (order - k) := fun k => by
    obtain ⟨-, habove⟩ := stepsBelow_near num den (order - k)
    have hlt : (10 : ℚ) ^ k < stepsBelow num den (order - k) + 1 :=
      lt_of_mul_lt_mul_right (hsplit k ▸ hlow.trans_lt habove) (ten_zpow_pos (order - k)).le
    exact Nat.le_of_lt_succ (by exact_mod_cast hlt)
  have hpositive : ∀ k : Nat, 0 < stepsBelow num den (order - k) := fun k =>
    (Nat.pow_pos (by decide)).trans_le (hsteps k)
  have hfound : ∀ k : Nat, ∀ d' : Decimal, d'.ReadsBack m e → d'.width = k + 1 →
      onGrid? tie (Parts.finite false m e).toFloat num den (order - k) ≠ none := fun k d' hd' hk =>
    onGrid?_ne_none h hm hv (hpositive k) hd' (beside_of_width hk.le (hsteps k))
  cases hsearch : (List.range 17).findSome? fun k : Nat =>
      onGrid? tie (Parts.finite false m e).toFloat num den (order - k) with
  | none =>
    have hnone := List.findSome?_eq_none_iff.mp hsearch 16 (by decide)
    exact absurd hnone (onGrid?_seventeen h hm hv (hsplit 16 ▸ hlow))
  | some d =>
    obtain ⟨k, -, hgrid, hfirst⟩ := findSome?_range hsearch
    rw [hsearch] at hreads
    -- What reads back has so many digits at least, since nothing was found with fewer.
    have hwidest : ∀ d' : Decimal, d'.ReadsBack m e → k + 1 ≤ d'.width := fun d' hd' => by
      obtain ⟨j, hj⟩ := Nat.exists_eq_succ_of_ne_zero d'.width_pos.ne'
      by_contra hlt
      exact hfound j d' hd' hj (hfirst j (by omega))
    have hwidth : d.width ≤ k + 1 := onGrid?_width (by
      rw [pow_succ', mul_assoc, ← hsplit, ← zpow_one_add₀ (by norm_num), add_comm]
      exact hhigh) hgrid
    refine ⟨hreads, fun d' hd' => hwidth.trans (hwidest d' hd'), fun d' hd' hsame => ?_⟩
    exact onGrid?_nearest h hm hden hv (hpositive k) hgrid hd' (beside_of_width (hsame.le.trans hwidth) (hsteps k))

/-- The decimal that a finite number is written with is the shortest one for its magnitude. -/
theorem magnitude_isShortest {x : Float} {neg : Bool} (hx : Parts.ofFloat x = .finite neg m e) :
    (Number.magnitude tie x m e).IsShortest m e := by
  rcases Nat.eq_zero_or_pos m with rfl | hm
  · have hzero : Number.magnitude tie x 0 e = ⟨0, 0⟩ := if_pos rfl
    refine ⟨magnitude_toFloat hx, fun d' _ => ?_, fun d' _ _ => ?_⟩
    · rw [hzero]
      exact d'.width_pos
    · have hvalue : value ⟨0, 0⟩ - ((0 : Nat) : ℚ) * 2 ^ e = 0 := by simp [value]
      rw [hzero, hvalue, abs_zero]
      exact abs_nonneg _
  · rw [Number.magnitude, if_neg hm.ne', abs_eq hx]
    exact shortest_isShortest (Parts.fits_of_ofFloat hx) hm

end
end Decimal
end Lox
