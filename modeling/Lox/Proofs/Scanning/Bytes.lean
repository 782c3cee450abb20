import Lox.Token.Scanner
import Mathlib.Data.String.Basic

/-! # The bytes of a text

A character of one byte is that byte, and every byte of a longer character is above all of these. So a test that only
characters of one byte pass may be made on bytes: it holds of a byte just when it holds of the character that the byte
is of (`test_byte`), and finding and counting give what they give on characters (`findIdx?_encode`, `countP_encode`).
What lies between two places that have whole characters before them is a text again (`slice?_eq`). -/

namespace Lox.Scan
open String (utf8EncodeChar utf8Len)

/-! ### Characters -/

section
variable {c : Char} {b : UInt8} {test : Char → Bool}

/-- Only characters of one byte pass the test. -/
def OnlyAscii (test : Char → Bool) : Prop := ∀ c, test c = true → c.utf8Size = 1

theorem utf8Size_eq_one_iff : c.utf8Size = 1 ↔ c.toNat ≤ 127 := Char.utf8Size_eq_one_iff

theorem toNat_ofUInt8 (b : UInt8) : (Char.ofUInt8 b).toNat = b.toNat := rfl

theorem utf8EncodeChar_ascii (h : c.utf8Size = 1) : ∃ b, utf8EncodeChar c = [b] ∧ Char.ofUInt8 b = c := by
  refine ⟨c.toUInt8, String.utf8EncodeChar_eq_singleton h, Char.toNat_inj.mp ?_⟩
  have hle := utf8Size_eq_one_iff.mp h
  show c.toNat % 256 = c.toNat
  omega

/-- The bytes of a longer character are none of one byte. -/
theorem utf8Size_ofUInt8 (h : c.utf8Size ≠ 1) (hb : b ∈ utf8EncodeChar c) : (Char.ofUInt8 b).utf8Size ≠ 1 := by
  rw [ne_eq, utf8Size_eq_one_iff] at h ⊢
  rw [toNat_ofUInt8]
  simp only [utf8EncodeChar, Char.toNat] at hb h
  split_ifs at hb with htwo hthree
  all_goals
    simp only [List.mem_cons, List.not_mem_nil, or_false] at hb
    rcases hb with rfl | rfl | rfl | rfl <;> rw [UInt8.toNat_ofNat'] <;> omega

/-- A test for characters of one byte holds of a byte when it holds of the character that the byte is of. -/
theorem test_byte (htest : OnlyAscii test) (hb : b ∈ utf8EncodeChar c) : test (Char.ofUInt8 b) = test c := by
  by_cases hc : c.utf8Size = 1
  · obtain ⟨b, hbytes, hchar⟩ := utf8EncodeChar_ascii hc
    rw [hbytes, List.mem_singleton] at hb
    rw [hb, hchar]
  · rw [Bool.eq_false_iff.mpr fun h => hc (htest c h),
      Bool.eq_false_iff.mpr fun h => utf8Size_ofUInt8 hc hb (htest _ h)]

theorem onlyAscii_beq (h : c.utf8Size = 1) : OnlyAscii (· == c) := fun _ hd => eq_of_beq hd ▸ h

end

theorem onlyAscii_isDigit : OnlyAscii Char.isDigit := fun c h => by
  have hle : c.val ≤ ('9' : Char).val := of_decide_eq_true (Bool.and_eq_true_iff.mp h).2
  exact Char.utf8Size_eq_one_iff.mpr (UInt32.le_trans hle (by decide))

theorem onlyAscii_isAlpha : OnlyAscii Char.isAlpha := fun c h => by
  rw [Char.utf8Size_eq_one_iff]
  rcases Bool.or_eq_true_iff.mp h with hupper | hlower
  · have hle : c.val ≤ ('Z' : Char).val := (of_decide_eq_true hupper).2
    exact UInt32.le_trans hle (by decide)
  · have hle : c.val ≤ ('z' : Char).val := of_decide_eq_true (Bool.and_eq_true_iff.mp hlower).2
    exact UInt32.le_trans hle (by decide)

theorem onlyAscii_or {test test' : Char → Bool} (h : OnlyAscii test) (h' : OnlyAscii test') :
    OnlyAscii fun c => test c || test' c :=
  fun c hc => (Bool.or_eq_true_iff.mp hc).elim (h c) (h' c)

theorem onlyAscii_isWordStart : OnlyAscii isWordStart := onlyAscii_or onlyAscii_isAlpha (onlyAscii_beq (by decide))

theorem onlyAscii_isWordPart : OnlyAscii isWordPart :=
  onlyAscii_or (onlyAscii_or onlyAscii_isAlpha onlyAscii_isDigit) (onlyAscii_beq (by decide))

/-! ### Texts -/

/-- The bytes of a text. -/
def encode (cs : List Char) : List UInt8 := cs.flatMap utf8EncodeChar

@[simp] theorem encode_cons (c : Char) (cs : List Char) : encode (c :: cs) = utf8EncodeChar c ++ encode cs := rfl

theorem encode_append (cs cs' : List Char) : encode (cs ++ cs') = encode cs ++ encode cs' := List.flatMap_append

theorem length_encode (cs : List Char) : (encode cs).length = utf8Len cs := by
  induction cs with
  | nil => rfl
  | cons c cs ih =>
    rw [encode_cons, List.length_append, ih, String.length_utf8EncodeChar, String.utf8Len_cons, Nat.add_comm]

theorem toByteArray_eq_encode (text : String) : text.toByteArray.data.toList = encode text.toList := by
  rw [← String.utf8Encode_toList, List.utf8Encode, List.toList_data_toByteArray]
  rfl

section
variable {test : Char → Bool}

/-- The first byte of a text passes a test when the first character does; a missing one counts as zero. -/
theorem test_first (htest : OnlyAscii test) (hzero : test '\x00' = false) (cs : List Char) :
    test (Char.ofUInt8 ((encode cs)[0]?.getD 0)) = cs.head?.any test := by
  cases cs with
  | nil => exact hzero
  | cons c cs =>
    obtain ⟨b, bs, hbytes⟩ := List.exists_cons_of_ne_nil (String.utf8EncodeChar_ne_nil (c := c))
    have hb : b ∈ utf8EncodeChar c := hbytes ▸ List.mem_cons_self
    rw [encode_cons, hbytes]
    exact test_byte htest hb

theorem findIdx?_encode (htest : OnlyAscii test) (cs : List Char) :
    (encode cs).findIdx? (fun b => test (Char.ofUInt8 b)) =
      if cs.any test then some (utf8Len (cs.takeWhile (!test ·))) else none := by
  induction cs with
  | nil => rfl
  | cons c cs ih =>
    rw [encode_cons, List.findIdx?_append, ih, List.any_cons]
    by_cases hc : test c = true
    · obtain ⟨b, hbytes, hchar⟩ := utf8EncodeChar_ascii (htest c hc)
      simp [hbytes, hchar, hc]
    · have hnone : (utf8EncodeChar c).findIdx? (fun b => test (Char.ofUInt8 b)) = none :=
        List.findIdx?_eq_none_iff.mpr fun b hb => by rw [test_byte htest hb, Bool.eq_false_iff.mpr hc]
      rw [hnone, Option.none_or, Bool.eq_false_iff.mpr hc, Bool.false_or, apply_ite (Option.map _),
        List.takeWhile_cons_of_pos (by simpa using hc), String.length_utf8EncodeChar, String.utf8Len_cons]
      rfl

theorem countP_encode (htest : OnlyAscii test) (cs : List Char) :
    (encode cs).countP (fun b => test (Char.ofUInt8 b)) = cs.countP test := by
  induction cs with
  | nil => rfl
  | cons c cs ih =>
    rw [encode_cons, List.countP_append, ih, List.countP_cons, Nat.add_comm]
    congr 1
    by_cases hc : test c = true
    · obtain ⟨b, hbytes, hchar⟩ := utf8EncodeChar_ascii (htest c hc)
      simp [hbytes, hchar, hc]
    · rw [if_neg hc]
      exact List.countP_eq_zero.mpr fun b hb => by rwa [test_byte htest hb]

end

theorem memchr_encode {c : Char} (hc : c.utf8Size = 1) (cs : List Char) :
    memchr c (encode cs) = if c ∈ cs then some (utf8Len (cs.takeWhile (· != c))) else none := by
  rw [memchr, findIdx?_encode (onlyAscii_beq hc), List.any_beq']
  simp only [List.contains_iff_mem]
  rfl

theorem lineEnds_encode (cs : List Char) : lineEnds (encode cs) = cs.count '\n' :=
  countP_encode (onlyAscii_beq (by decide)) cs

theorem isValid_before {text : String} {before behind : List Char} (h : text.toList = before ++ behind) :
    String.Pos.Raw.isValid text ⟨utf8Len before⟩ = true := by
  rw [String.Pos.Raw.isValid_eq_true_iff, String.Pos.Raw.isValid_iff_exists_append]
  refine ⟨String.ofList before, String.ofList behind, ?_, (String.rawEndPos_ofList before).symm⟩
  rw [← String.ofList_append, ← h, String.ofList_toList]

/-- Between whole characters a slice can be taken. -/
theorem slice?_eq {text : String} {before slice behind : List Char} (h : text.toList = before ++ slice ++ behind) :
    slice? text (utf8Len before) (utf8Len (before ++ slice)) = some (String.ofList slice) := by
  have htext : text = String.ofList (before ++ slice ++ behind) := by rw [← h, String.ofList_toList]
  have hle : utf8Len before ≤ utf8Len (before ++ slice) := by
    rw [String.utf8Len_append]
    exact Nat.le_add_right _ _
  rw [slice?, decide_eq_true hle, isValid_before (h.trans (List.append_assoc _ _ _)), isValid_before h]
  rw [htext, String.utf8Len_append, String.extract_of_valid]
  rfl

end Lox.Scan
