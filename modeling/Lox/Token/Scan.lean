import Lox.Diagnostic

/-! # Scanning

Source text is cut into stretches from left to right, each as long as it can be. A stretch is skipped
(a blank or a comment), is a token, or is an error; every character belongs to exactly one stretch.
The line of a stretch is the line it ends on. -/

namespace Lox.Scan

/-- What a stretch of text turned out to be. -/
inductive Verdict where
  | skipped
  | token (kind : Kind)
  | error (cause : ScanError.Cause)
deriving DecidableEq

/-- A first stretch of a text, and what follows it. -/
structure Cut where
  verdict : Verdict
  stretch : List Char
  rest : List Char

def isBlank (c : Char) : Bool := c == ' ' || c == '\r' || c == '\t' || c == '\n'

def isWordStart (c : Char) : Bool := c.isAlpha || c == '_'

def isWordPart (c : Char) : Bool := c.isAlphanum || c == '_'

/-- A comment runs up to the end of its line. -/
def cutComment (c : Char) (cs : List Char) : Cut :=
  ⟨.skipped, c :: cs.takeWhile (· != '\n'), cs.dropWhile (· != '\n')⟩

/-- A string runs up to the next quote, over line ends too. Without one, all that follows is lost. -/
def cutString (quote : Char) (cs : List Char) : Cut :=
  let content := cs.takeWhile (· != '"')
  match cs.dropWhile (· != '"') with
  | [] => ⟨.error .unterminatedString, quote :: cs, []⟩
  | closing :: rest =>
    ⟨.token (.string (String.ofList content)), quote :: content ++ [closing], rest⟩

/-- A number is a run of digits; a point belongs to it only if a digit follows. -/
def cutNumber (cs : List Char) : Cut :=
  let whole := cs.takeWhile Char.isDigit
  let number (fraction lexeme rest : List Char) : Cut :=
    ⟨.token (.number (Decimal.ofDigits whole fraction).toFloat), lexeme, rest⟩
  match cs.dropWhile Char.isDigit with
  | '.' :: d :: rest =>
    if d.isDigit then
      let fraction := d :: rest.takeWhile Char.isDigit
      number fraction (whole ++ '.' :: fraction) (rest.dropWhile Char.isDigit)
    else number [] whole ('.' :: d :: rest)
  | rest => number [] whole rest

/-- A word is a keyword or an identifier. -/
def cutWord (cs : List Char) : Cut :=
  let word := cs.takeWhile isWordPart
  let kind := match Keyword.ofSpelling? (String.ofList word) with
    | some k => Kind.keyword k
    | none => .identifier
  ⟨.token kind, word, cs.dropWhile isWordPart⟩

/-- A mark of two characters is taken before the mark that its first character is. -/
def cutMark (c : Char) (cs : List Char) : Cut :=
  match Mark.ofChar? c with
  | none => ⟨.error (.unexpected c), [c], cs⟩
  | some m =>
    match cs, m.withEqual? with
    | '=' :: rest, some double => ⟨.token (.mark double), [c, '='], rest⟩
    | _, _ => ⟨.token (.mark m), [c], cs⟩

/-- The first stretch of a text that is not empty. -/
def cut (c : Char) (cs : List Char) : Cut :=
  if isBlank c then ⟨.skipped, [c], cs⟩
  else if c == '/' && cs.head? == some '/' then cutComment c cs
  else if c == '"' then cutString c cs
  else if c.isDigit then cutNumber (c :: cs)
  else if isWordStart c then cutWord (c :: cs)
  else cutMark c cs

/-! ### Nothing is lost -/

theorem cutNumber_stretch_append_rest (cs : List Char) :
    (cutNumber cs).stretch ++ (cutNumber cs).rest = cs := by
  have h : cs.takeWhile Char.isDigit ++ cs.dropWhile Char.isDigit = cs :=
    List.takeWhile_append_dropWhile
  unfold cutNumber
  split
  · next d rest hd =>
    split
    · rw [hd] at h
      simpa [List.takeWhile_append_dropWhile] using h
    · rw [hd] at h
      simpa using h
  · simp

theorem cutString_stretch_append_rest (c : Char) (cs : List Char) :
    (cutString c cs).stretch ++ (cutString c cs).rest = c :: cs := by
  have h : cs.takeWhile (· != '"') ++ cs.dropWhile (· != '"') = cs :=
    List.takeWhile_append_dropWhile
  unfold cutString
  split
  · simp
  · next q rest hq =>
    rw [hq] at h
    simpa using h

theorem cutMark_stretch_append_rest (c : Char) (cs : List Char) :
    (cutMark c cs).stretch ++ (cutMark c cs).rest = c :: cs := by
  unfold cutMark
  split
  · rfl
  · split <;> rfl

/-- A stretch and what follows it are the text that was cut. -/
theorem cut_stretch_append_rest (c : Char) (cs : List Char) :
    (cut c cs).stretch ++ (cut c cs).rest = c :: cs := by
  unfold cut
  split
  · rfl
  split
  · simp [cutComment, List.takeWhile_append_dropWhile]
  split
  · exact cutString_stretch_append_rest c cs
  split
  · exact cutNumber_stretch_append_rest (c :: cs)
  split
  · simp [cutWord, List.takeWhile_append_dropWhile]
  · exact cutMark_stretch_append_rest c cs

theorem cutNumber_rest_lt {c : Char} {cs : List Char} (h : c.isDigit) :
    (cutNumber (c :: cs)).rest.length < (c :: cs).length := by
  have happ := congrArg List.length (cutNumber_stretch_append_rest (c :: cs))
  have hpos : 0 < (cutNumber (c :: cs)).stretch.length := by
    unfold cutNumber
    split
    · split <;> simp [h]
    · simp [h]
  rw [List.length_append] at happ
  omega

/-- A stretch is never empty. -/
theorem cut_rest_lt (c : Char) (cs : List Char) : (cut c cs).rest.length < (c :: cs).length := by
  unfold cut
  split
  · simp
  split
  · simpa [cutComment, Nat.lt_succ_iff] using (List.dropWhile_sublist _).length_le
  split
  · have h := congrArg List.length (cutString_stretch_append_rest c cs)
    have hpos : 0 < (cutString c cs).stretch.length := by
      unfold cutString
      split <;> simp
    rw [List.length_append] at h
    omega
  split
  · next h => exact cutNumber_rest_lt h
  split
  · next h =>
    have hpart : isWordPart c := by
      simp only [isWordStart, Bool.or_eq_true] at h
      simp only [isWordPart, Char.isAlphanum, Bool.or_eq_true]
      exact h.imp_left Or.inl
    simpa [cutWord, hpart, Nat.lt_succ_iff] using (List.dropWhile_sublist _).length_le
  · have h := congrArg List.length (cutMark_stretch_append_rest c cs)
    have hpos : 0 < (cutMark c cs).stretch.length := by
      unfold cutMark
      split
      · simp
      · split <;> simp
    rw [List.length_append] at h
    omega

/-! ### The whole text -/

/-- What scanning yields: a token, or an error in its place. -/
abbrev Item := Except ScanError Token

/-- The line on which a stretch ends that starts on `line`. -/
def lineAfter (line : Nat) (stretch : List Char) : Nat := line + stretch.count '\n'

/-- Adds the items of a text that starts on `line` to `done`. -/
def itemsAfter (done : Array Item) (line : Nat) : List Char → Array Item
  | [] => done.push (.ok (.atEnd line))
  | c :: cs =>
    let piece := cut c cs
    let line := lineAfter line piece.stretch
    match piece.verdict with
    | .skipped => itemsAfter done line piece.rest
    | .token kind =>
      itemsAfter (done.push (.ok ⟨kind, String.ofList piece.stretch, line⟩)) line piece.rest
    | .error cause => itemsAfter (done.push (.error ⟨cause, line⟩)) line piece.rest
termination_by cs => cs.length
decreasing_by all_goals exact cut_rest_lt c cs

/-- The items of a source text. The last one is the end of input. -/
def items (source : String) : List Item := (itemsAfter #[] 1 source.toList).toList

/-- The items that are tokens. -/
def tokens (items : List Item) : List Token := items.filterMap fun
  | .ok t => some t
  | .error _ => none

/-- The items that are errors. -/
def errors (items : List Item) : List ScanError := items.filterMap fun
  | .ok _ => none
  | .error e => some e

end Lox.Scan
