import Mathlib.Data.Int.Log
import Mathlib.Data.Rat.Floor
import Mathlib.Tactic.FieldSimp
import Mathlib.Tactic.GCongr
import Mathlib.Tactic.Linarith
import Mathlib.Tactic.NormNum
import Mathlib.Tactic.Positivity
import Mathlib.Tactic.Ring

/-! # The nearest double

What double is nearest to a positive fraction, said in exact arithmetic. The doubles around the fraction are multiples
of a power of two (`place`), and the nearest multiple is taken, of two equally near the even one (`toWhole`). The bits
of doubles without a sign are ordered as the doubles are, and behind the greatest one comes infinity, so rounding does
not change the order of fractions (`bits_mono`). What is nearer to a double than half the way to the next one is rounded
to it (`bits_of_near`). -/

namespace Lox.Nearest

/-! ### Whole numbers -/

/-- The whole number nearest to the fraction, and of two equally near the even one. -/
def toWhole (q : ℚ) : ℕ :=
  match compare (2 * (q - ⌊q⌋₊)) 1 with
  | .lt => ⌊q⌋₊
  | .eq => ⌊q⌋₊ + ⌊q⌋₊ % 2
  | .gt => ⌊q⌋₊ + 1

section
variable {p q : ℚ} {n : ℕ}

theorem toWhole_near (hq : 0 ≤ q) : 2 * (toWhole q : ℚ) ≤ 2 * q + 1 ∧ 2 * q ≤ 2 * toWhole q + 1 ∧
    (2 * (toWhole q : ℚ) = 2 * q + 1 ∨ 2 * q = 2 * toWhole q + 1 → toWhole q % 2 = 0) := by
  have hle : (⌊q⌋₊ : ℚ) ≤ q := Nat.floor_le hq
  have hlt : q < ⌊q⌋₊ + 1 := Nat.lt_floor_add_one q
  unfold toWhole
  split
  · rename_i h
    have h : 2 * (q - ⌊q⌋₊) < 1 := compare_lt_iff_lt.mp h
    refine ⟨by linarith, by linarith, ?_⟩
    rintro (heq | heq) <;> linarith
  · rename_i h
    have h : 2 * (q - ⌊q⌋₊) = 1 := compare_eq_iff_eq.mp h
    rcases Nat.mod_two_eq_zero_or_one ⌊q⌋₊ with heven | hodd
    · rw [heven, Nat.add_zero]
      exact ⟨by linarith, by linarith, fun _ => heven⟩
    · rw [hodd]
      push_cast
      exact ⟨by linarith, by linarith, fun _ => by omega⟩
  · rename_i h
    have h : 1 < 2 * (q - ⌊q⌋₊) := compare_gt_iff_gt.mp h
    push_cast
    refine ⟨by linarith, by linarith, ?_⟩
    rintro (heq | heq) <;> linarith

theorem toWhole_mono (hp : 0 ≤ p) (h : p ≤ q) : toWhole p ≤ toWhole q := by
  obtain ⟨hbelow, -, heven⟩ := toWhole_near hp
  obtain ⟨-, habove, heven'⟩ := toWhole_near (hp.trans h)
  by_contra hlt
  have hstep : (toWhole q : ℚ) + 1 ≤ toWhole p := by exact_mod_cast Nat.lt_of_not_le hlt
  -- Both are in the middle between two whole numbers, and both whole numbers would be even.
  have hp' := heven (.inl (by linarith))
  have hq' := heven' (.inr (by linarith))
  have hnext : toWhole p = toWhole q + 1 := by
    have hle : (toWhole p : ℚ) ≤ toWhole q + 1 := by linarith
    have hle : toWhole p ≤ toWhole q + 1 := by exact_mod_cast hle
    omega
  omega

theorem toWhole_natCast (n : ℕ) : toWhole n = n := by
  obtain ⟨hbelow, habove, -⟩ := toWhole_near (Nat.cast_nonneg (α := ℚ) n)
  have hlt : toWhole n < n + 1 := by exact_mod_cast (by linarith : (toWhole n : ℚ) < n + 1)
  have hlt' : n < toWhole n + 1 := by exact_mod_cast (by linarith : (n : ℚ) < toWhole n + 1)
  omega

theorem toWhole_eq (h : 2 * q < 2 * n + 1) (h' : 2 * (n : ℚ) < 2 * q + 1) (hq : 0 ≤ q) : toWhole q = n := by
  obtain ⟨hbelow, habove, -⟩ := toWhole_near hq
  have hlt : toWhole q < n + 1 := by exact_mod_cast (by linarith : (toWhole q : ℚ) < n + 1)
  have hlt' : n < toWhole q + 1 := by exact_mod_cast (by linarith : (n : ℚ) < toWhole q + 1)
  omega

end

/-! ### Doubles -/

/-- Around the fraction doubles are the multiples of two to this power. -/
def place (q : ℚ) : ℤ := max (Int.log 2 q - 52) (-1074)

/-- So many of these multiples are nearest to the fraction. -/
def steps (q : ℚ) : ℕ := toWhole (q / 2 ^ place q)

/-- These multiples of powers of two are the doubles, of which the greatest stand for infinity: of fifty-three bits, or
    of fewer at the least place. -/
structure Canonical (m : ℕ) (e : ℤ) : Prop where
  lt : m < 2 ^ 53
  least : -1074 ≤ e
  full : 2 ^ 52 ≤ m ∨ e = -1074

/-- The bits of infinity. -/
def infinity : ℕ := 2047 * 2 ^ 52

/-- The bits of the double nearest to the fraction. -/
def bits (q : ℚ) : ℕ := min infinity ((place q + 1074).toNat * 2 ^ 52 + steps q)

section
variable {p q : ℚ} {m : ℕ} {e : ℤ}

theorem two_zpow_pos (e : ℤ) : (0 : ℚ) < 2 ^ e := zpow_pos (by norm_num) e

theorem two_zpow_add (e : ℤ) (n : ℕ) : (2 : ℚ) ^ (e + n) = 2 ^ n * 2 ^ e := by
  rw [zpow_add₀ (by norm_num), zpow_natCast, mul_comm]

theorem le_place (q : ℚ) : -1074 ≤ place q := le_max_right _ _

theorem lt_place (hq : 0 < q) : q < 2 ^ 53 * 2 ^ place q := by
  have hlog : Int.log 2 q < place q + (53 : ℕ) := by
    have := le_max_left (Int.log 2 q - 52) (-1074)
    rw [← place] at this
    omega
  rw [← two_zpow_add]
  exact_mod_cast (Int.lt_zpow_iff_log_lt (by decide) hq).mpr hlog

theorem place_le (hq : 0 < q) (h : -1074 < place q) : 2 ^ 52 * 2 ^ place q ≤ q := by
  have hlog : place q + (52 : ℕ) ≤ Int.log 2 q := by
    have := max_choice (Int.log 2 q - 52) (-1074)
    rw [← place] at this
    omega
  rw [← two_zpow_add]
  exact_mod_cast (Int.zpow_le_iff_le_log (by decide) hq).mpr hlog

theorem place_mono (hp : 0 < p) (h : p ≤ q) : place p ≤ place q :=
  max_le_max (Int.sub_le_sub_right (Int.log_mono_right hp h) 52) le_rfl

/-- The place of a fraction is given by the multiples that there are of it. -/
theorem place_eq (hq : 0 < q) (hlt : q < 2 ^ 53 * 2 ^ e) (hle : 2 ^ 52 * 2 ^ e ≤ q ∨ e = -1074) (he : -1074 ≤ e) :
    place q = e := by
  rw [← two_zpow_add] at hlt
  have hlog : Int.log 2 q < e + (53 : ℕ) := (Int.lt_zpow_iff_log_lt (by decide) hq).mp (by exact_mod_cast hlt)
  rw [place]
  rcases hle with hle | rfl
  · rw [← two_zpow_add] at hle
    have hlog' : e + (52 : ℕ) ≤ Int.log 2 q := (Int.zpow_le_iff_le_log (by decide) hq).mp (by exact_mod_cast hle)
    omega
  · omega

theorem steps_le (hq : 0 < q) : steps q ≤ 2 ^ 53 := by
  have hle : q / 2 ^ place q ≤ (2 ^ 53 : ℕ) := by
    rw [div_le_iff₀ (two_zpow_pos _)]
    exact_mod_cast (lt_place hq).le
  have hmono := toWhole_mono (div_pos hq (two_zpow_pos _)).le hle
  rwa [toWhole_natCast] at hmono

theorem le_steps (hq : 0 < q) (h : -1074 < place q) : 2 ^ 52 ≤ steps q := by
  have hle : ((2 ^ 52 : ℕ) : ℚ) ≤ q / 2 ^ place q := by
    rw [le_div_iff₀ (two_zpow_pos _)]
    exact_mod_cast place_le hq h
  have hmono := toWhole_mono (Nat.cast_nonneg _) hle
  rwa [toWhole_natCast] at hmono

/-- Rounding keeps the order. -/
theorem bits_mono (hp : 0 < p) (h : p ≤ q) : bits p ≤ bits q := by
  have hq : 0 < q := hp.trans_le h
  refine min_le_min le_rfl ?_
  rcases (place_mono hp h).eq_or_lt with heq | hlt
  · have hsteps : steps p ≤ steps q := by
      rw [steps, steps, heq]
      exact toWhole_mono (div_pos hp (two_zpow_pos _)).le (div_le_div_of_nonneg_right h (two_zpow_pos _).le)
    rw [heq]
    exact Nat.add_le_add_left hsteps _
  · -- One place further on, the multiples begin where those of the place before end.
    have hle := le_place p
    have hupper := steps_le hp
    have hlower := le_steps hq (by omega)
    omega

/-- What is nearer to a double than half the way to its neighbours is rounded to it. Below a power of two the next
    double is only half as far away as above it. -/
theorem bits_of_near (h : Canonical m e) (hq : 0 < q) (habove : 2 * q < (2 * m + 1) * 2 ^ e)
    (hbelow : (2 * m - 1) * 2 ^ e < 2 * q) (hpower : m = 2 ^ 52 → -1074 < e → (4 * m - 1) * 2 ^ e < 4 * q) :
    bits q = min infinity ((e + 1074).toNat * 2 ^ 52 + m) := by
  obtain ⟨hlt, he, hle⟩ := h
  have hpos := two_zpow_pos e
  have hm' : (m : ℚ) + 1 ≤ 2 ^ 53 := by exact_mod_cast hlt
  by_cases hq' : 2 ^ 52 * 2 ^ e ≤ q ∨ e = -1074
  · have hplace : place q = e := place_eq hq (by nlinarith) hq' he
    have hsteps : steps q = m := by
      rw [steps, hplace]
      refine toWhole_eq ?_ ?_ (div_pos hq hpos).le
      · rw [← mul_div_assoc, div_lt_iff₀ hpos]
        exact habove
      · rw [← sub_lt_iff_lt_add, ← mul_div_assoc, lt_div_iff₀ hpos]
        exact hbelow
    rw [bits, hplace, hsteps]
  · obtain ⟨hbinade, hmin⟩ := not_or.mp hq'
    have hbinade := not_le.mp hbinade
    have hmin' : -1074 < e := by omega
    -- The fraction is below the power of two that the double then is.
    have hfull : 2 ^ 52 ≤ m := hle.resolve_right hmin
    obtain rfl : m = 2 ^ 52 := by
      have hle : (m : ℚ) < 2 ^ 52 + 1 := by nlinarith
      have hle : m < 2 ^ 52 + 1 := by exact_mod_cast hle
      omega
    have hquarter := hpower rfl hmin'
    push_cast at hquarter
    obtain ⟨d, rfl⟩ : ∃ d, e = d + (1 : ℕ) := ⟨e - 1, by omega⟩
    rw [two_zpow_add] at hquarter hbinade hpos
    have hpos := two_zpow_pos d
    have hplace : place q = d := place_eq hq (by nlinarith) (.inl (by nlinarith)) (by omega)
    have hsteps : steps q = 2 ^ 53 := by
      rw [steps, hplace]
      refine toWhole_eq ?_ ?_ (div_pos hq hpos).le
      · rw [← mul_div_assoc, div_lt_iff₀ hpos]
        push_cast
        nlinarith
      · rw [← sub_lt_iff_lt_add, ← mul_div_assoc, lt_div_iff₀ hpos]
        push_cast
        nlinarith
    have hcarry : (d + 1074).toNat * 2 ^ 52 + 2 ^ 53 = (d + (1 : ℕ) + 1074).toNat * 2 ^ 52 + 2 ^ 52 := by omega
    rw [bits, hplace, hsteps, hcarry]

/-- A double is rounded to itself. -/
theorem bits_exact (h : Canonical m e) (hm : 0 < m) :
    bits (m * 2 ^ e) = min infinity ((e + 1074).toNat * 2 ^ 52 + m) := by
  have hpos := two_zpow_pos e
  exact bits_of_near h (mul_pos (Nat.cast_pos.mpr hm) hpos) (by nlinarith) (by nlinarith) fun _ _ => by nlinarith

theorem bits_le (q : ℚ) : bits q ≤ infinity := min_le_left _ _

/-- Fractions that are too great are rounded to infinity. -/
theorem bits_of_great (h : 2 ^ 1024 ≤ q) : bits q = infinity := by
  have hcanonical : Canonical (2 ^ 52) 972 := ⟨by decide, by decide, .inl le_rfl⟩
  have hpower : ((2 ^ 52 : ℕ) : ℚ) * 2 ^ (972 : ℤ) = 2 ^ 1024 := by
    rw [show (972 : ℤ) = (972 : ℕ) from rfl, zpow_natCast, Nat.cast_pow, Nat.cast_ofNat, ← pow_add]
  have hmono := bits_mono (pow_pos two_pos _) h
  rw [← hpower, bits_exact hcanonical (by decide)] at hmono
  have hbits : min infinity ((972 + 1074 : ℤ).toNat * 2 ^ 52 + 2 ^ 52) = infinity := by decide
  exact le_antisymm (bits_le q) (hbits ▸ hmono)

/-- Fractions that are too small are rounded to zero. -/
theorem bits_of_small (hq : 0 < q) (h : 2 * q < 2 ^ (-1074 : ℤ)) : bits q = 0 := by
  have hcanonical : Canonical 0 (-1074) := ⟨by decide, le_rfl, .inr rfl⟩
  have hbelow : (2 * ((0 : ℕ) : ℚ) - 1) * 2 ^ (-1074 : ℤ) < 2 * q := by
    rw [Nat.cast_zero, mul_zero, zero_sub, neg_one_mul]
    exact (neg_lt_zero.mpr (two_zpow_pos _)).trans (mul_pos two_pos hq)
  have hbits := bits_of_near hcanonical hq (by rwa [Nat.cast_zero, mul_zero, zero_add, one_mul]) hbelow nofun
  rw [hbits]
  decide

end
end Lox.Nearest
