import Lox.Proofs.Numbers.Rounding
import Lox.Proofs.Scanning.Rules

/-! # Numerals that read back

The decimal of a finite double stands for its magnitude: a shortest one was read back when it was found, and when
none was found all digits are written (`magnitude_toFloat`). Positional notation is the text of a number token
with the value of the decimal (`positional_spells`). -/

namespace Lox
namespace Decimal
open Parts (Fits)

/-! ### Decimals of doubles -/

section
variable {m : Nat} {e : Int}

/-- All digits of a double denote it. -/
theorem exact_value (m : Nat) (e : Int) : (exact m e).value = m * 2 ^ e := by
  unfold exact
  split
  · rename_i hwhole
    obtain ⟨k, rfl⟩ := Int.eq_ofNat_of_zero_le hwhole
    simp [value]
  · rename_i hfraction
    obtain ⟨k, rfl⟩ : ∃ k : Nat, e = -(k : Int) := ⟨(-e).toNat, by omega⟩
    have hten : (10 : ℚ) ^ k = 5 ^ k * 2 ^ k := by rw [← mul_pow]; norm_num
    simp only [value, neg_neg, Int.toNat_natCast, Nat.pow_eq, Nat.cast_mul, Nat.cast_pow, Nat.cast_ofNat, zpow_neg,
      zpow_natCast, hten]
    field_simp

theorem exact_toFloat (h : Fits m e) (hm : 0 < m) : (exact m e).toFloat = (Parts.finite false m e).toFloat :=
  toFloat_of_value h hm (exact_value m e)

theorem onGrid?_toFloat {tie : Tie} {x : Float} {num den : Nat} {unit : Int} {d : Decimal}
    (h : onGrid? tie x num den unit = some d) : d.toFloat = x := by
  refine Parts.toBits_inj.mp ?_
  simp only [onGrid?] at h
  split at h
  · cases h
  · rename_i hbelow _
    cases h
    exact of_decide_eq_true hbelow
  · rename_i _ habove
    cases h
    exact of_decide_eq_true habove
  · rename_i hbelow habove
    cases h
    split
    · exact of_decide_eq_true habove
    · exact of_decide_eq_true hbelow

theorem shortest_toFloat {tie : Tie} (h : Fits m e) (hm : 0 < m) :
    (shortest tie (Parts.finite false m e).toFloat m e).toFloat = (Parts.finite false m e).toFloat := by
  simp only [shortest]
  cases hfound : (List.range 17).findSome? _ with
  | none => exact exact_toFloat h hm
  | some d =>
    obtain ⟨k, -, hgrid⟩ := List.exists_of_findSome?_eq_some hfound
    exact onGrid?_toFloat hgrid

theorem abs_eq {x : Float} {neg : Bool} (h : Parts.ofFloat x = .finite neg m e) :
    x.abs = (Parts.finite false m e).toFloat := by
  conv_lhs => rw [← Parts.toFloat_ofFloat h]
  exact Parts.abs_toFloat (Parts.fits_of_ofFloat h)

/-- The decimal of a finite double reads back as its magnitude. -/
theorem magnitude_toFloat {tie : Tie} {x : Float} {neg : Bool} (h : Parts.ofFloat x = .finite neg m e) :
    (Number.magnitude tie x m e).toFloat = (Parts.finite false m e).toFloat := by
  unfold Number.magnitude
  split
  · rename_i hzero
    subst hzero
    show (⟨0, 0⟩ : Decimal).toFloat = .ofModel (.pack (.zero .positive))
    decide +kernel
  · rw [abs_eq h]
    exact shortest_toFloat (Parts.fits_of_ofFloat h) (by omega)

end

/-! ### Texts of decimals -/

theorem valueOf_eq_ofDigitChars (run : List Char) : valueOf run = Nat.ofDigitChars 10 run 0 :=
  Nat.ofDigitChars_eq_foldl.symm

theorem valueOf_append_zeros (run : List Char) (k : Nat) :
    valueOf (run ++ List.replicate k '0') = valueOf run * 10 ^ k := by
  rw [valueOf_eq_ofDigitChars, Nat.ofDigitChars_append, Nat.ofDigitChars_replicate_zero, ← valueOf_eq_ofDigitChars,
    Nat.mul_comm]

theorem valueOf_zeros_append (run : List Char) (k : Nat) : valueOf (List.replicate k '0' ++ run) = valueOf run := by
  rw [valueOf_eq_ofDigitChars, Nat.ofDigitChars_append, Nat.ofDigitChars_replicate_zero, Nat.mul_zero,
    ← valueOf_eq_ofDigitChars]

theorem valueOf_toDigits (n : Nat) : valueOf (Nat.toDigits 10 n) = n := by
  rw [valueOf_eq_ofDigitChars, Nat.ofDigitChars_ten_toDigits]

theorem isDigit_of_mem {n k : Nat} {c : Char} (h : c ∈ Nat.toDigits 10 n ∨ c ∈ List.replicate k '0') :
    c.isDigit = true := by
  rcases h with h | h
  · exact Nat.isDigit_of_mem_toDigits (by decide) (by decide) h
  · rw [List.eq_of_mem_replicate h]
    rfl

/-- Digits with places for more of them are the text of a whole number. -/
theorem whole_spells (n k : Nat) :
    Scan.Spells (.number (⟨n, k⟩ : Decimal).toFloat) (Nat.toDigits 10 n ++ List.replicate k '0') := by
  have hvalue : (⟨n, k⟩ : Decimal).toFloat = (ofDigits (Nat.toDigits 10 n ++ List.replicate k '0') []).toFloat := by
    have hplaces : -((0 : Nat) : Int) = 0 := rfl
    have hdigits : n * Nat.pow 10 k = n * 10 ^ k * Nat.pow 10 0 := (Nat.mul_one _).symm
    rw [ofDigits, List.append_nil, valueOf_append_zeros, valueOf_toDigits, List.length_nil, hplaces, toFloat, toFloat,
      if_pos (Int.natCast_nonneg k), if_pos (Int.le_refl 0)]
    exact congrArg (Float.ofScientific · false 0) hdigits
  have hdigits : ∀ c ∈ Nat.toDigits 10 n ++ List.replicate k '0', c.isDigit = true := fun c hc =>
    isDigit_of_mem (List.mem_append.mp hc)
  obtain ⟨c, cs, hrun⟩ := List.exists_cons_of_ne_nil (Nat.toDigits_ne_nil (n := n) (b := 10))
  rw [hvalue]
  rw [hrun, List.cons_append] at hdigits ⊢
  exact .whole hdigits

/-- A run of digits with a point in it, and digits on both sides, is the text of a fraction. -/
theorem fraction_spells {run : List Char} {k : Nat} (hdigits : ∀ c ∈ run, c.isDigit = true) (hk : 0 < k)
    (hlength : k < run.length) : Scan.Spells (.number (⟨valueOf run, -k⟩ : Decimal).toFloat)
      (run.take (run.length - k) ++ '.' :: run.drop (run.length - k)) := by
  have hvalue : ofDigits (run.take (run.length - k)) (run.drop (run.length - k)) = ⟨valueOf run, -k⟩ := by
    rw [ofDigits, List.take_append_drop, List.length_drop, Nat.sub_sub_self hlength.le]
  have hwhole : ∀ c ∈ run.take (run.length - k), c.isDigit = true := fun c hc => hdigits c (List.mem_of_mem_take hc)
  have hfraction : ∀ c ∈ run.drop (run.length - k), c.isDigit = true := fun c hc => hdigits c (List.mem_of_mem_drop hc)
  obtain ⟨c, cs, htake⟩ := List.exists_cons_of_length_pos (show 0 < (run.take (run.length - k)).length by
    rw [List.length_take]
    omega)
  obtain ⟨d, ds, hdrop⟩ := List.exists_cons_of_length_pos (show 0 < (run.drop (run.length - k)).length by
    rw [List.length_drop]
    omega)
  rw [← hvalue]
  rw [htake] at hwhole ⊢
  rw [hdrop] at hfraction ⊢
  exact .fraction hwhole hfraction

/-- Positional notation is the text of a number token with the value of the decimal. -/
theorem positional_spells (d : Decimal) : Scan.Spells (.number d.toFloat) d.positional.toList := by
  obtain ⟨digits, exponent⟩ := d
  simp only [positional]
  split
  · rename_i hwhole
    obtain ⟨k, rfl⟩ := Int.eq_ofNat_of_zero_le hwhole
    rw [String.toList_ofList]
    exact whole_spells digits k
  · rename_i hfraction
    obtain ⟨k, rfl⟩ : ∃ k : Nat, exponent = -(k : Int) := ⟨(-exponent).toNat, by omega⟩
    have hplaces : (- -(k : Int)).toNat = k := by omega
    -- Zeros in front fill the places up to the point and one more.
    have hdigits : ∀ c ∈ List.replicate (k + 1 - (Nat.toDigits 10 digits).length) '0' ++ Nat.toDigits 10 digits,
        c.isDigit = true := fun c hc => isDigit_of_mem (List.mem_append.mp hc).symm
    have hspells := fraction_spells hdigits (k := k) (by omega) (by
      rw [List.length_append, List.length_replicate]
      omega)
    rw [valueOf_zeros_append, valueOf_toDigits] at hspells
    rw [String.toList_ofList, hplaces]
    exact hspells

end Decimal
end Lox
