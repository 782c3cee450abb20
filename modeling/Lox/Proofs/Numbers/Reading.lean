import Lox.Number.Read
import Lox.Proofs.Numbers.Numerals
import Lox.Proofs.Numbers.Texts

/-! # Numbers read from their texts

Reading takes more than the numerals of programs, but these it takes as they are: a numeral is read as the number that
it stands for (`magnitude?_spells`), and a sign in front of it changes the sign. So what is written in positional
notation is read as the number that was written, with the names of the infinities too (`read?_positional`), and so is
the prefix form (`read?_inPrefixForm`). -/

namespace Lox.Number
open Parts (Fits)

/-! ### Numerals -/

section
variable {c : Char} {cs whole fraction : List Char}

/-- No name of a number begins with a digit. -/
theorem ne_name (hc : c.isDigit = true) {name : String} (first : Char) (hname : name.toList.head? = some first)
    (hfirst : first.isDigit = false) : String.ofList ((c :: cs).map Char.toLower) ≠ name := by
  have hlower : c.toLower = c := by
    refine dif_neg fun hupper => ?_
    simp only [Char.isDigit, Bool.and_eq_true, decide_eq_true_eq] at hc
    exact absurd (UInt32.le_trans hupper.1 hc.2) (by decide)
  rintro rfl
  rw [String.toList_ofList, List.map_cons, hlower, List.head?_cons, Option.some.injEq] at hname
  rw [hname, hfirst] at hc
  cases hc

theorem splitNumeral_whole (h : ∀ d ∈ whole, d.isDigit = true) : splitNumeral whole = ((whole, []), []) := by
  rw [splitNumeral, List.takeWhile_eq_self_iff.mpr h, List.dropWhile_eq_nil_iff.mpr h]

theorem splitNumeral_fraction (h : ∀ d ∈ whole, d.isDigit = true) (h' : ∀ d ∈ fraction, d.isDigit = true) :
    splitNumeral (whole ++ '.' :: fraction) = ((whole, fraction), []) := by
  have hpoint : ('.' :: fraction).dropWhile Char.isDigit = '.' :: fraction := rfl
  have hnone : ('.' :: fraction).takeWhile Char.isDigit = [] := rfl
  rw [splitNumeral, List.takeWhile_append_of_pos h, List.dropWhile_append_of_pos h, hpoint, hnone, List.append_nil]
  show ((whole, fraction.takeWhile Char.isDigit), fraction.dropWhile Char.isDigit) = _
  rw [List.takeWhile_eq_self_iff.mpr h', List.dropWhile_eq_nil_iff.mpr h']

/-- Without an exponent the places behind the point are all that the digits are moved by. -/
theorem ofScientific_places (whole fraction : List Char) :
    let d := Decimal.ofDigits whole fraction
    Float.ofScientific d.digits (d.exponent + 0 < 0) (d.exponent + 0).natAbs = d.toFloat := by
  intro d
  have hplaces : d.exponent = -(fraction.length : Int) := rfl
  rw [Decimal.toFloat, Int.add_zero]
  rcases Nat.eq_zero_or_pos fraction.length with hnone | hsome
  · have hzero : d.exponent = 0 := by omega
    rw [hzero, if_pos (Int.le_refl 0)]
    exact congrArg (Float.ofScientific · false 0) (Nat.mul_one _).symm
  · have hnegative : d.exponent < 0 := by omega
    have habs : d.exponent.natAbs = (-d.exponent).toNat := by omega
    rw [if_neg (not_le.mpr hnegative), decide_eq_true hnegative, habs]

theorem magnitude?_of_split (hc : c.isDigit = true) (hsplit : splitNumeral (c :: cs) = ((whole, fraction), []))
    (hwhole : whole ≠ []) : magnitude? (c :: cs) = some (Decimal.ofDigits whole fraction).toFloat := by
  have hempty : ¬ (whole.isEmpty && fraction.isEmpty) = true := by
    rw [List.isEmpty_eq_false_iff.mpr hwhole, Bool.false_and]
    exact Bool.false_ne_true
  rw [magnitude?, if_neg (not_or.mpr ⟨ne_name hc 'i' rfl rfl, ne_name hc 'i' rfl rfl⟩),
    if_neg (ne_name hc 'n' rfl rfl), hsplit]
  dsimp only
  rw [if_neg hempty, exponent?]
  exact congrArg some (ofScientific_places whole fraction)

/-- A numeral is read as the number that it stands for. -/
theorem magnitude?_spells {v : Float} {text : List Char} (h : Scan.Spells (.number v) text) :
    magnitude? text = some v := by
  cases h with
  | whole h => exact magnitude?_of_split (h _ List.mem_cons_self) (splitNumeral_whole h) (List.cons_ne_nil _ _)
  | fraction h h' =>
    exact magnitude?_of_split (h _ List.mem_cons_self) (splitNumeral_fraction h h') (List.cons_ne_nil _ _)

end

/-! ### Signs -/

section
variable {neg : Bool} {text : String} {v x : Float} {m : Nat} {e : Int}

theorem read?_signed (hsign : ∀ c ∈ text.toList.head?, c ≠ '-' ∧ c ≠ '+') (h : magnitude? text.toList = some v) :
    read? (signed neg text) = some (if neg then -v else v) := by
  rw [read?, toList_signed]
  cases neg with
  | true =>
    show (magnitude? text.toList).map (- ·) = _
    rw [h]
    rfl
  | false =>
    rw [if_neg Bool.false_ne_true, List.nil_append]
    split
    · rename_i hlist
      rw [hlist] at hsign
      exact absurd rfl (hsign '-' rfl).1
    · rename_i hlist
      rw [hlist] at hsign
      exact absurd rfl (hsign '+' rfl).2
    · exact h

/-- A numeral begins with a digit. -/
theorem no_sign_of_spells (h : Scan.Spells (.number v) text.toList) :
    ∀ c ∈ text.toList.head?, c ≠ '-' ∧ c ≠ '+' := fun c hc => by
  obtain ⟨d, ds, htext, -⟩ := h.begins
  rw [htext] at h hc
  obtain rfl : d = c := Option.some.inj hc
  have hdigit := isDigit_of_spells h
  constructor
  · rintro rfl
    cases hdigit
  · rintro rfl
    cases hdigit

theorem read?_spells (h : Scan.Spells (.number v) text.toList) : read? text = some v := by
  have hread := @read?_signed false _ _ (no_sign_of_spells h) (magnitude?_spells h)
  rwa [signed, if_neg Bool.false_ne_true] at hread

/-- A numeral for a magnitude, and the sign in front of it. -/
theorem read?_numeral (hfits : Fits m e) (h : Scan.Spells (.number (Parts.finite false m e).toFloat) text.toList) :
    read? (signed neg text) = some (Parts.finite neg m e).toFloat := by
  rw [read?_signed (no_sign_of_spells h) (magnitude?_spells h)]
  cases neg with
  | false => rfl
  | true => exact congrArg some (Parts.neg_toFloat hfits)

/-! ### Texts of numbers -/

/-- What is written in positional notation is read as the number that was written. -/
theorem read?_positional (hx : x.isNaN = false) : read? (positional "inf" x) = some x := by
  unfold positional
  cases hparts : Parts.ofFloat x with
  | nan =>
    rw [Parts.isNaN_iff.mpr hparts] at hx
    cases hx
  | infinite neg =>
    have hname : magnitude? "inf".toList = some (1.0 / 0.0) := by
      rw [magnitude?]
      exact if_pos (.inl (by decide))
    have hsign : ∀ c ∈ "inf".toList.head?, c ≠ '-' ∧ c ≠ '+' := fun c hc => by
      obtain rfl : 'i' = c := Option.some.inj hc
      decide
    have hvalue : (if neg then -(1.0 / 0.0) else 1.0 / 0.0) = (Parts.infinite neg).toFloat := by
      cases neg <;> decide +kernel
    exact (read?_signed hsign hname).trans (congrArg some (hvalue.trans (Parts.toFloat_ofFloat hparts)))
  | finite neg m e =>
    have hspells := Decimal.positional_spells (magnitude .up x m e)
    rw [Decimal.magnitude_toFloat hparts] at hspells
    exact (read?_numeral (Parts.fits_of_ofFloat hparts) hspells).trans (congrArg some (Parts.toFloat_ofFloat hparts))

theorem read?_inPrefixForm (hx : x.isNaN = false) : read? (inPrefixForm x) = some x := by
  cases hparts : Parts.ofFloat x with
  | nan | infinite neg =>
    have htext : inPrefixForm x = positional "inf" x := by
      rw [inPrefixForm, hparts]
      rfl
    rw [htext]
    exact read?_positional hx
  | finite neg m e =>
    obtain ⟨text, htext, hspells⟩ := inPrefixForm_signed hparts
    rw [htext, read?_numeral (Parts.fits_of_ofFloat hparts) hspells, Parts.toFloat_ofFloat hparts]

end

end Lox.Number
