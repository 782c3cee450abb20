import Lox.Proofs.Numbers.Spelling
import Lox.Proofs.Scanning.Cuts

/-! # Numbers are told apart by their texts

A text in positional notation has a sign and a body, and by its first character the body belongs to NaN, to an
infinity or to a finite number (`positional_body`). The digits of a finite number read back as its magnitude, so
numbers with the same text are the same (`positional_injective`), bit for bit: the model of doubles has one NaN. -/

namespace Lox.Number

/-! ### Signs -/

theorem toList_signed (neg : Bool) (text : String) :
    (signed neg text).toList = (if neg then ['-'] else []) ++ text.toList := by
  cases neg with
  | false => rfl
  | true => exact String.toList_append

/-- A sign is told apart from a body that does not begin with one. -/
theorem signed_inj {neg neg' : Bool} {text text' : String} (h : text.toList.head? ≠ some '-')
    (h' : text'.toList.head? ≠ some '-') (heq : signed neg text = signed neg' text') : neg = neg' ∧ text = text' := by
  have hlist := congrArg String.toList heq
  rw [toList_signed, toList_signed] at hlist
  cases neg <;> cases neg'
  · exact ⟨rfl, String.toList_inj.mp hlist⟩
  · exact absurd (congrArg List.head? hlist) h
  · exact absurd (congrArg List.head? hlist).symm h'
  · exact ⟨rfl, String.toList_inj.mp (List.cons.inj hlist).2⟩

/-! ### Digits -/

theorem isDigit_of_spells {v : Float} {c : Char} {cs : List Char} (h : Scan.Spells (.number v) (c :: cs)) :
    c.isDigit = true := by
  cases h with
  | whole h | fraction h => exact h c List.mem_cons_self

theorem head?_positional (d : Decimal) : ∃ c, d.positional.toList.head? = some c ∧ c.isDigit = true := by
  have hspells := Decimal.positional_spells d
  obtain ⟨c, cs, htext, -⟩ := hspells.begins
  rw [htext] at hspells
  exact ⟨c, by rw [htext]; rfl, isDigit_of_spells hspells⟩

/-- The digits of a decimal stand for one double only. -/
theorem toFloat_eq_of_positional {d d' : Decimal} (h : d.positional = d'.positional) : d.toFloat = d'.toFloat := by
  have hspells := Decimal.positional_spells d
  rw [h] at hspells
  exact Kind.number.inj ((Decimal.positional_spells d').kind_unique hspells)

/-- A finite number is given by its sign and by what its shortest decimal stands for. -/
theorem eq_of_magnitude {x y : Float} {neg : Bool} {m m' : Nat} {e e' : Int} (hx : Parts.ofFloat x = .finite neg m e)
    (hy : Parts.ofFloat y = .finite neg m' e')
    (h : (magnitude .up x m e).toFloat = (magnitude .up y m' e').toFloat) : x = y := by
  rw [Decimal.magnitude_toFloat hx, Decimal.magnitude_toFloat hy] at h
  have hparts := congrArg Parts.ofFloat h
  rw [Parts.ofFloat_toFloat (Parts.fits_of_ofFloat hx), Parts.ofFloat_toFloat (Parts.fits_of_ofFloat hy)] at hparts
  cases hparts
  rw [← Parts.toFloat_ofFloat hx, Parts.toFloat_ofFloat hy]

/-! ### Positional notation -/

/-- The sign of a number in positional notation, and what stands behind it. -/
inductive Body (infinity : String) (x : Float) : Bool → String → Prop
  | nan (h : Parts.ofFloat x = .nan) : Body infinity x false "NaN"
  | infinite {neg : Bool} (h : Parts.ofFloat x = .infinite neg) : Body infinity x neg infinity
  | finite {neg : Bool} {m : Nat} {e : Int} (h : Parts.ofFloat x = .finite neg m e) :
    Body infinity x neg (magnitude .up x m e).positional

theorem positional_body (infinity : String) (x : Float) :
    ∃ neg body, positional infinity x = signed neg body ∧ Body infinity x neg body := by
  unfold positional
  cases h : Parts.ofFloat x with
  | nan => exact ⟨false, _, rfl, .nan h⟩
  | infinite neg => exact ⟨neg, _, rfl, .infinite h⟩
  | finite neg m e => exact ⟨neg, _, rfl, .finite h⟩

/-- The name of the infinities is not to be taken for digits, a sign or NaN. -/
def IsName (infinity : String) : Prop :=
  ∃ c, infinity.toList.head? = some c ∧ c.isDigit = false ∧ c ≠ '-' ∧ c ≠ 'N'

section
variable {infinity : String} {x y : Float} {neg : Bool} {body body' : String}

theorem Body.head?_ne (hname : IsName infinity) (h : Body infinity x neg body) : body.toList.head? ≠ some '-' := by
  intro hminus
  cases h with
  | nan => exact absurd hminus (by decide)
  | infinite =>
    obtain ⟨c, hc, -, hne, -⟩ := hname
    exact hne (Option.some.inj (hc.symm.trans hminus))
  | finite =>
    obtain ⟨c, hc, hdigit⟩ := head?_positional _
    rw [hc, Option.some.injEq] at hminus
    rw [hminus] at hdigit
    cases hdigit

/-- By its first character a body is that of NaN, of an infinity or of a finite number, and it tells these apart. -/
theorem Body.unique (hname : IsName infinity) (hx : Body infinity x neg body) (hy : Body infinity y neg body')
    (h : body = body') : x = y := by
  obtain ⟨c, hc, hdigit, -, hletter⟩ := hname
  have hN : "NaN".toList.head? = some 'N' := rfl
  have hhead := congrArg (·.toList.head?) h
  cases hx with
  | nan hp =>
    cases hy with
    | nan hq => rw [← Parts.toFloat_ofFloat hp, Parts.toFloat_ofFloat hq]
    | infinite => exact absurd (Option.some.inj (hc.symm.trans hhead.symm)) hletter
    | finite =>
      obtain ⟨d, hd, hdigit'⟩ := head?_positional _
      obtain rfl : d = 'N' := Option.some.inj (hd.symm.trans hhead.symm)
      cases hdigit'
  | infinite hp =>
    cases hy with
    | nan => exact absurd (Option.some.inj (hc.symm.trans hhead)) hletter
    | infinite hq => rw [← Parts.toFloat_ofFloat hp, Parts.toFloat_ofFloat hq]
    | finite =>
      obtain ⟨d, hd, hdigit'⟩ := head?_positional _
      obtain rfl : c = d := Option.some.inj (hc.symm.trans (hhead.trans hd))
      rw [hdigit] at hdigit'
      cases hdigit'
  | finite hp =>
    obtain ⟨d, hd, hdigit'⟩ := head?_positional _
    cases hy with
    | nan =>
      obtain rfl : d = 'N' := Option.some.inj (hd.symm.trans hhead)
      cases hdigit'
    | infinite =>
      obtain rfl : c = d := Option.some.inj (hc.symm.trans (hhead.symm.trans hd))
      rw [hdigit] at hdigit'
      cases hdigit'
    | finite hq => exact eq_of_magnitude hp hq (toFloat_eq_of_positional h)

/-- Numbers with the same text in positional notation are the same. -/
theorem positional_injective (hname : IsName infinity) (h : positional infinity x = positional infinity y) : x = y := by
  obtain ⟨neg, body, hx, hbody⟩ := positional_body infinity x
  obtain ⟨neg', body', hy, hbody'⟩ := positional_body infinity y
  rw [hx, hy] at h
  obtain ⟨rfl, hsame⟩ := signed_inj (hbody.head?_ne hname) (hbody'.head?_ne hname) h
  exact hbody.unique hname hbody' hsame

end

end Lox.Number
