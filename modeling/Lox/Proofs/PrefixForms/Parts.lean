import Lox.Proofs.Parsing.WellFormed
import Lox.Proofs.Scanning.Writing
import Lox.Syntax.PrefixForm

/-! # The parts of a text in parentheses

A list in parentheses has spaces between its parts, and a part may have spaces in it, but only in parentheses of its
own (`IsPart`). So the parts are what is left of the text when it is cut at the spaces outside of all parentheses
(`partsOf_parenthesized`). The texts of tokens without a space or a parenthesis in them are parts
(`Scan.Spells.isPart`). -/

namespace Lox

/-! ### Texts in parentheses -/

/-- How deep in parentheses the text behind the character stands. -/
def depthBehind (depth : Nat) (c : Char) : Nat :=
  if c = '(' then depth + 1 else if c = ')' then depth - 1 else depth

/-- The stretches of a text between those spaces that stand in no parentheses. -/
def stretches : Nat → List Char → List (List Char)
  | _, [] => [[]]
  | depth, c :: cs =>
    if c = ' ' ∧ depth = 0 then [] :: stretches 0 cs
    else (stretches (depthBehind depth c) cs).modifyHead (c :: ·)

/-- The text is not cut anywhere, and leaves as many parentheses open as there were. -/
def Solid (depth : Nat) (text : List Char) : Prop :=
  ∀ rest, stretches depth (text ++ rest) = (stretches depth rest).modifyHead (text ++ ·)

/-- Neither a space nor a parenthesis. -/
def IsWordChar (c : Char) : Prop := c ≠ ' ' ∧ c ≠ '(' ∧ c ≠ ')'

namespace Solid
variable {depth : Nat} {text text' : List Char}

theorem nil : Solid depth [] := fun rest => by
  rw [List.nil_append]
  cases stretches depth rest <;> rfl

theorem append (h : Solid depth text) (h' : Solid depth text') : Solid depth (text ++ text') := fun rest => by
  rw [List.append_assoc, h, h', List.modifyHead_modifyHead]
  congr 1
  funext word
  exact (List.append_assoc _ _ _).symm

theorem space : Solid (depth + 1) [' '] := fun rest => by
  rw [List.cons_append, stretches, if_neg (by simp)]
  rfl

theorem word (h : ∀ c ∈ text, IsWordChar c) : Solid depth text := by
  induction text with
  | nil => exact nil
  | cons c cs ih =>
    obtain ⟨hspace, hopening, hclosing⟩ := h c List.mem_cons_self
    have hc : Solid depth [c] := fun rest => by
      rw [List.cons_append, stretches, if_neg (by simp [hspace]), depthBehind, if_neg hopening, if_neg hclosing]
      rfl
    exact hc.append (ih fun d hd => h d (List.mem_cons_of_mem _ hd))

theorem parentheses (h : Solid (depth + 1) text) : Solid depth ('(' :: (text ++ [')'])) := fun rest => by
  have hopening : depthBehind depth '(' = depth + 1 := rfl
  have hclosing : depthBehind (depth + 1) ')' = depth := rfl
  rw [List.cons_append, stretches, if_neg (by simp), hopening, List.append_assoc, h, List.cons_append, stretches,
    if_neg (by simp), hclosing]
  simp [Function.comp_def]

end Solid

/-! ### Parts -/

/-- A part of a list in parentheses: a text that no space outside of parentheses cuts. -/
structure IsPart (text : String) : Prop where
  ne_nil : text.toList ≠ []
  solid : ∀ depth, Solid depth text.toList

section
variable {parts parts' : List String}

theorem isPart_word {text : String} (hne : text.toList ≠ []) (h : ∀ c ∈ text.toList, IsWordChar c) : IsPart text :=
  ⟨hne, fun _ => .word h⟩

theorem toList_parenthesized (parts : List String) :
    (parenthesized parts).toList = '(' :: ((String.intercalate " " parts).toList ++ [')']) := by
  rw [parenthesized, String.toList_append, String.toList_append]
  rfl

theorem Solid.spaced {depth : Nat} (h : ∀ p ∈ parts, IsPart p) :
    Solid (depth + 1) (parts.flatMap fun p => ' ' :: p.toList) := by
  induction parts with
  | nil => exact .nil
  | cons p ps ih =>
    obtain ⟨hp, hps⟩ := List.forall_mem_cons.mp h
    rw [List.flatMap_cons]
    exact (Solid.space.append (hp.solid _)).append (ih hps)

theorem isPart_parenthesized (h : ∀ p ∈ parts, IsPart p) : IsPart (parenthesized parts) := by
  have hinner : ∀ depth, Solid (depth + 1) (String.intercalate " " parts).toList := fun depth => by
    cases parts with
    | nil => exact .nil
    | cons p ps =>
      obtain ⟨hp, hps⟩ := List.forall_mem_cons.mp h
      rw [Scan.toList_intercalate_space]
      exact (hp.solid _).append (.spaced hps)
  constructor
  · rw [toList_parenthesized]
    exact List.cons_ne_nil _ _
  · intro depth
    rw [toList_parenthesized]
    exact (hinner depth).parentheses

/-- The spaces between parts are where the text is cut. -/
theorem stretches_spaced {part : String} (h : IsPart part) (hparts : ∀ p ∈ parts, IsPart p) :
    stretches 0 (part.toList ++ parts.flatMap fun p => ' ' :: p.toList) = part.toList :: parts.map String.toList := by
  induction parts generalizing part with
  | nil => rw [h.solid, List.flatMap_nil, stretches, List.modifyHead_cons, List.append_nil, List.map_nil]
  | cons p ps ih =>
    obtain ⟨hp, hps⟩ := List.forall_mem_cons.mp hparts
    rw [h.solid, List.flatMap_cons, List.cons_append, stretches, if_pos ⟨rfl, rfl⟩, ih hp hps, List.modifyHead_cons,
      List.append_nil, List.map_cons]

/-- The parts of a text in parentheses; a text without them has none. -/
def partsOf : List Char → List (List Char)
  | '(' :: text => (stretches 0 text.dropLast).filter (· ≠ [])
  | _ => []

theorem partsOf_parenthesized (h : ∀ p ∈ parts, IsPart p) :
    partsOf (parenthesized parts).toList = parts.map String.toList := by
  rw [toList_parenthesized]
  show (stretches 0 ((String.intercalate " " parts).toList ++ [')']).dropLast).filter (· ≠ []) = _
  rw [List.dropLast_concat]
  cases parts with
  | nil => rfl
  | cons p ps =>
    obtain ⟨hp, hps⟩ := List.forall_mem_cons.mp h
    -- A part is not empty, so none is lost with the empty stretches.
    rw [Scan.toList_intercalate_space, stretches_spaced hp hps, ← List.map_cons, List.filter_eq_self]
    intro text htext
    obtain ⟨q, hq, rfl⟩ := List.mem_map.mp htext
    exact decide_eq_true (h q hq).ne_nil

theorem partsOf_word {text : List Char} (h : ∀ c ∈ text, IsWordChar c) : partsOf text = [] := by
  unfold partsOf
  split
  · exact absurd rfl (h '(' List.mem_cons_self).2.1
  · rfl

theorem IsPart.append {text text' : String} (h : IsPart text) (h' : IsPart text') : IsPart (text ++ text') where
  ne_nil := by
    rw [String.toList_append]
    exact List.append_ne_nil_of_left_ne_nil h.ne_nil _
  solid depth := by
    rw [String.toList_append]
    exact (h.solid depth).append (h'.solid depth)

theorem map_toList_injective (h : parts.map String.toList = parts'.map String.toList) : parts = parts' :=
  List.map_injective_iff.mpr (fun _ _ => String.toList_inj.mp) h

end

/-! ### Words -/

/-- A token of this kind has a text without spaces and parentheses. -/
def Kind.IsWord : Kind → Prop
  | .mark m => m ≠ .leftParen ∧ m ≠ .rightParen
  | .keyword _ | .identifier | .number _ => True
  | .string _ | .endOfInput => False

theorem isWordChar_of_part {c : Char} (h : Scan.isWordPart c = true) : IsWordChar c := by
  refine ⟨?_, ?_, ?_⟩ <;> rintro rfl <;> exact absurd h (by decide)

theorem isWordChar_of_digit {c : Char} (h : c.isDigit = true) : IsWordChar c :=
  isWordChar_of_part (by simp [Scan.isWordPart, Char.isAlphanum, h])

theorem Scan.Spells.isWordChar {kind : Kind} {text : List Char} (h : Spells kind text) (hkind : kind.IsWord) :
    ∀ c ∈ text, IsWordChar c := by
  cases h with
  | mark m =>
    obtain ⟨hl, hr⟩ := hkind
    cases m <;> simp_all [IsWordChar, Mark.spelling]
  | keyword k => cases k <;> simp [IsWordChar, Keyword.spelling]
  | identifier hc hcs hk =>
    exact List.forall_mem_cons.mpr
      ⟨isWordChar_of_part (isWordPart_of_start hc), fun d hd => isWordChar_of_part (hcs d hd)⟩
  | string => cases hkind
  | whole h => exact fun c hc => isWordChar_of_digit (h c hc)
  | fraction h h' =>
    rw [← List.cons_append]
    exact List.forall_mem_append.mpr ⟨fun c hc => isWordChar_of_digit (h c hc),
      List.forall_mem_cons.mpr ⟨by simp [IsWordChar], fun c hc => isWordChar_of_digit (h' c hc)⟩⟩

theorem Scan.Spells.isPart {kind : Kind} {text : String} (h : Spells kind text.toList) (hkind : kind.IsWord) :
    IsPart text := by
  obtain ⟨c, cs, htext, -⟩ := h.begins
  exact isPart_word (htext ▸ List.cons_ne_nil c cs) (h.isWordChar hkind)

theorem Kind.IsUnaryOperator.isWord {kind : Kind} (h : kind.IsUnaryOperator) : kind.IsWord := by
  rcases h with rfl | rfl
  · exact ⟨nofun, nofun⟩
  · exact ⟨nofun, nofun⟩

theorem Kind.IsLogicalOperator.isWord {kind : Kind} (h : kind.IsLogicalOperator) : kind.IsWord := by
  rcases h with rfl | rfl <;> trivial

theorem Kind.IsBinaryOperator.isWord {kind : Kind} (h : kind.IsBinaryOperator) : kind.IsWord := by
  obtain ⟨m, hm, rfl⟩ := h
  exact (by decide : ∀ m ∈ Mark.binary, m ≠ .leftParen ∧ m ≠ .rightParen) m hm

end Lox
