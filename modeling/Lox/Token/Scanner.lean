import Lox.Token.Scan
import Lox.Number.Read

/-! # The scanner, byte by byte

A scanner walks over the bytes of a source. It keeps the index of the first byte of the stretch that it is in
and the index behind the last byte that it has read, counts lines itself, and hands out an item whenever it is
asked for the next; after the end of input it has nothing more. A read outside of the bytes stops it, and so
does a slice that does not begin and end between two characters: then there is no result at all. -/

namespace Lox.Scan

/-- The text from one byte to another, if they are in this order and none of them is inside a character. -/
def slice? (text : String) (start stop : Nat) : Option String :=
  if start ≤ stop && String.Pos.Raw.isValid text ⟨start⟩ && String.Pos.Raw.isValid text ⟨stop⟩ then
    some (String.Pos.Raw.extract text ⟨start⟩ ⟨stop⟩)
  else none

/-- The first place of a character of one byte. -/
def memchr (c : Char) (bytes : List UInt8) : Option Nat := bytes.findIdx? (Char.ofUInt8 · == c)

/-- How many lines end in these bytes. -/
def lineEnds (bytes : List UInt8) : Nat := bytes.countP (Char.ofUInt8 · == '\n')

structure Scanner where
  text : String
  /-- The index of the first byte of the stretch. -/
  start : Nat
  /-- The index behind the last byte that was read. -/
  curr : Nat
  line : Nat
  /-- The kind of a token that was found and not handed out yet. -/
  pending? : Option Kind

namespace Scanner

def ofText (source : String) : Scanner := ⟨source, 0, 0, 1, none⟩

def bytes (s : Scanner) : List UInt8 := s.text.toByteArray.data.toList

def size (s : Scanner) : Nat := s.text.utf8ByteSize

def isAtEnd (s : Scanner) : Bool := s.size ≤ s.curr

/-- The bytes from one index to another, if they are in this order and not outside. -/
def bytes? (s : Scanner) (start stop : Nat) : Option (List UInt8) :=
  if start ≤ stop && stop ≤ s.size then some ((s.bytes.drop start).take (stop - start)) else none

/-- Reads a byte. -/
def advance (s : Scanner) : Option (UInt8 × Scanner) :=
  s.bytes[s.curr]?.map fun b => (b, { s with curr := s.curr + 1 })

/-- The next byte, as a character; zero at the end. -/
def peek (s : Scanner) : Char := Char.ofUInt8 (s.bytes[s.curr]?.getD 0)

/-- The byte behind the next one, as a character; zero at the end. -/
def peekNext (s : Scanner) : Char := Char.ofUInt8 (s.bytes[s.curr + 1]?.getD 0)

/-- Reads the next byte only if it is this character. -/
def matchByte (s : Scanner) (c : Char) : Option (Bool × Scanner) :=
  if !s.isAtEnd && s.peek == c then s.advance.map fun (_, s) => (true, s) else some (false, s)

def lexeme? (s : Scanner) : Option String := slice? s.text s.start s.curr

def found (s : Scanner) (kind : Kind) : Scanner := { s with pending? := some kind }

theorem advance_eq_some {s s' : Scanner} {b : UInt8} (h : s.advance = some (b, s')) :
    s.curr < s.bytes.length ∧ s' = { s with curr := s.curr + 1 } := by
  rw [advance, Option.map_eq_some_iff] at h
  obtain ⟨b, hb, h⟩ := h
  cases h
  exact ⟨(List.getElem?_eq_some_iff.mp hb).1, rfl⟩

/-- Reads on while the next byte passes the test. -/
def advanceWhile (test : Char → Bool) (s : Scanner) : Option Scanner :=
  if test s.peek then
    match _h : s.advance with
    | some (_, s') => s'.advanceWhile test
    | none => none
  else some s
termination_by s.bytes.length - s.curr
decreasing_by
  obtain ⟨hlt, rfl⟩ := advance_eq_some _h
  exact Nat.sub_succ_lt_self _ _ hlt

/-! ### Stretches -/

/-- A mark of two characters is taken before the mark that its first character is. -/
def scanMark (m : Mark) (s : Scanner) : Option Scanner :=
  match m.withEqual? with
  | some double => (s.matchByte '=').map fun (equal, s) => s.found (.mark (if equal then double else m))
  | none => some (s.found (.mark m))

/-- Jumps to the end of the line, which is left for the line counter. -/
def skipComment (s : Scanner) : Option Scanner := do
  match memchr '\n' (← s.bytes? s.curr s.size) with
  | some pos => some { s with curr := s.curr + pos }
  | none => some { s with curr := s.size }

/-- A slash, or a comment. -/
def scanSlash (s : Scanner) : Option Scanner := do
  let (twice, s) ← s.matchByte '/'
  if twice then s.skipComment else some (s.found (.mark .slash))

def parseString (s : Scanner) : Option (Except ScanError Unit × Scanner) := do
  let rest ← s.bytes? s.curr s.size
  match memchr '"' rest with
  | some pos =>
    let body ← s.bytes? s.curr (s.curr + pos)
    let s := { s with line := s.line + lineEnds body, curr := s.curr + (pos + 1) }
    let content ← slice? s.text (s.start + 1) (s.curr - 1)
    some (.ok (), s.found (.string content))
  | none =>
    let s := { s with line := s.line + lineEnds rest, curr := s.size }
    some (.error ⟨.unterminatedString, s.line⟩, s)

/-- A point belongs to a number only if a digit follows. -/
def parseFraction (s : Scanner) : Option Scanner :=
  if s.peek == '.' && s.peekNext.isDigit then s.advance.bind fun (_, s) => s.advanceWhile Char.isDigit
  else some s

def parseNumber (s : Scanner) : Option Scanner := do
  let s ← s.advanceWhile Char.isDigit
  let s ← s.parseFraction
  let lexeme ← s.lexeme?
  some (s.found (.number ((Number.read? lexeme).getD 0)))

def parseIdentifier (s : Scanner) : Option Scanner := do
  let s ← s.advanceWhile isWordPart
  let lexeme ← s.lexeme?
  some (s.found (((Keyword.ofSpelling? lexeme).map Kind.keyword).getD .identifier))

/-- Errors are about whole characters, not about the bytes of one. -/
def refuse (s : Scanner) : Option (Except ScanError Unit × Scanner) := do
  let rest ← slice? s.text s.start s.size
  let c := rest.toList.head?.getD '\uFFFD'
  some (.error ⟨.unexpected c, s.line⟩, { s with curr := s.start + c.utf8Size })

/-- What is done behind the first byte of a stretch, read as a character. -/
def scanBehind (c : Char) (s : Scanner) : Option (Except ScanError Unit × Scanner) :=
  if c == ' ' || c == '\r' || c == '\t' then some (.ok (), s)
  else if c == '\n' then some (.ok (), { s with line := s.line + 1 })
  else if c == '/' then s.scanSlash.map (.ok (), ·)
  else if c == '"' then s.parseString
  else if c.isDigit then s.parseNumber.map (.ok (), ·)
  else if isWordStart c then s.parseIdentifier.map (.ok (), ·)
  else
    match Mark.ofChar? c with
    | some m => (s.scanMark m).map (.ok (), ·)
    | none => s.refuse

/-- Scans one stretch. The kind of a token is left pending; a blank and a comment leave nothing. -/
def scanToken (s : Scanner) : Option (Except ScanError Unit × Scanner) :=
  s.advance.bind fun (b, s) => s.scanBehind (Char.ofUInt8 b)

/-! ### No stretch is empty -/

/-- The same source, and at least as much of it read. -/
def Within (s s' : Scanner) : Prop := s'.text = s.text ∧ s.curr ≤ s'.curr

theorem Within.refl (s : Scanner) : s.Within s := ⟨rfl, Nat.le_refl _⟩

theorem Within.trans {s₁ s₂ s₃ : Scanner} (h : s₁.Within s₂) (h' : s₂.Within s₃) : s₁.Within s₃ :=
  ⟨h'.1.trans h.1, Nat.le_trans h.2 h'.2⟩

section
variable {s s' : Scanner}

theorem Within.found {kind : Kind} (h : s.Within s') : s.Within (s'.found kind) := h

theorem within_advance {b : UInt8} (h : s.advance = some (b, s')) : s.Within s' := by
  obtain ⟨-, rfl⟩ := advance_eq_some h
  exact ⟨rfl, Nat.le_succ _⟩

theorem within_advanceWhile {test : Char → Bool} (h : s.advanceWhile test = some s') : s.Within s' := by
  fun_induction advanceWhile test s with
  | case1 s _ b s₁ hadvance ih => exact (within_advance hadvance).trans (ih h)
  | case2 => cases h
  | case3 =>
    cases h
    exact .refl _

theorem within_matchByte {c : Char} {matched : Bool} (h : s.matchByte c = some (matched, s')) : s.Within s' := by
  unfold matchByte at h
  split at h
  · obtain ⟨⟨b, s₁⟩, hadvance, h⟩ := Option.map_eq_some_iff.mp h
    cases h
    exact within_advance hadvance
  · cases h
    exact .refl s

theorem within_scanMark {m : Mark} (h : s.scanMark m = some s') : s.Within s' := by
  unfold scanMark at h
  split at h
  · obtain ⟨⟨equal, s₁⟩, hmatch, h⟩ := Option.map_eq_some_iff.mp h
    cases h
    exact (within_matchByte hmatch).found
  · cases h
    exact (Within.refl s).found

theorem within_skipComment (h : s.skipComment = some s') : s.Within s' := by
  simp only [skipComment, Option.bind_eq_bind, Option.bind_eq_some_iff] at h
  obtain ⟨rest, hrest, h⟩ := h
  split at h
  · cases h
    exact ⟨rfl, Nat.le_add_right _ _⟩
  · -- The rest of the source could be read, so the scanner is not behind its end.
    unfold bytes? at hrest
    split at hrest
    · rename_i hin
      cases h
      exact ⟨rfl, by simpa using hin⟩
    · cases hrest

theorem within_scanSlash (h : s.scanSlash = some s') : s.Within s' := by
  simp only [scanSlash, Option.bind_eq_bind, Option.bind_eq_some_iff, Prod.exists] at h
  obtain ⟨twice, s₁, hmatch, h⟩ := h
  split at h
  · exact (within_matchByte hmatch).trans (within_skipComment h)
  · cases h
    exact (within_matchByte hmatch).found

theorem within_parseString (h : s.parseString = some (.ok (), s')) : s.Within s' := by
  simp only [parseString, Option.bind_eq_bind, Option.bind_eq_some_iff] at h
  obtain ⟨rest, -, h⟩ := h
  split at h
  · simp only [Option.bind_eq_some_iff] at h
    obtain ⟨body, -, content, -, h⟩ := h
    cases h
    exact ⟨rfl, Nat.le_add_right _ _⟩
  · cases h

theorem within_parseFraction (h : s.parseFraction = some s') : s.Within s' := by
  unfold parseFraction at h
  split at h
  · obtain ⟨⟨b, s₁⟩, hadvance, h⟩ := Option.bind_eq_some_iff.mp h
    exact (within_advance hadvance).trans (within_advanceWhile h)
  · cases h
    exact .refl s

theorem within_parseNumber (h : s.parseNumber = some s') : s.Within s' := by
  simp only [parseNumber, Option.bind_eq_bind, Option.bind_eq_some_iff] at h
  obtain ⟨s₁, hwhole, s₂, hfraction, lexeme, -, h⟩ := h
  cases h
  exact ((within_advanceWhile hwhole).trans (within_parseFraction hfraction)).found

theorem within_parseIdentifier (h : s.parseIdentifier = some s') : s.Within s' := by
  simp only [parseIdentifier, Option.bind_eq_bind, Option.bind_eq_some_iff] at h
  obtain ⟨s₁, hword, lexeme, -, h⟩ := h
  cases h
  exact (within_advanceWhile hword).found

theorem refuse_ne_ok : s.refuse ≠ some (.ok (), s') := by
  simp only [refuse, Option.bind_eq_bind, ne_eq, Option.bind_eq_some_iff]
  rintro ⟨rest, -, h⟩
  cases h

theorem eq_some_of_map_ok {result : Option Scanner}
    (h : result.map (fun s => ((.ok () : Except ScanError Unit), s)) = some (.ok (), s')) : result = some s' := by
  obtain ⟨s, hs, h⟩ := Option.map_eq_some_iff.mp h
  cases h
  exact hs

theorem within_scanBehind {c : Char} (h : s.scanBehind c = some (.ok (), s')) : s.Within s' := by
  unfold scanBehind at h
  split at h
  · cases h
    exact .refl _
  split at h
  · cases h
    exact .refl _
  split at h
  · exact within_scanSlash (eq_some_of_map_ok h)
  split at h
  · exact within_parseString h
  split at h
  · exact within_parseNumber (eq_some_of_map_ok h)
  split at h
  · exact within_parseIdentifier (eq_some_of_map_ok h)
  split at h
  · exact within_scanMark (eq_some_of_map_ok h)
  · exact absurd h refuse_ne_ok

/-- A stretch that is no error is not empty. -/
theorem scanToken_progress (h : s.scanToken = some (.ok (), s')) : s'.text = s.text ∧ s.curr < s'.curr := by
  obtain ⟨⟨b, s₁⟩, hadvance, h⟩ := Option.bind_eq_some_iff.mp h
  obtain ⟨-, rfl⟩ := advance_eq_some hadvance
  exact within_scanBehind h

end

/-! ### Items -/

/-- A stretch begins where the scanner is. -/
def begin (s : Scanner) : Scanner := { s with start := s.curr, pending? := none }

/-- The next item, if there is one, and the scanner behind it. Blanks and comments are passed over; the end of
    input is handed out once. -/
def next (s : Scanner) : Option (Option Item × Scanner) :=
  if s.curr ≤ s.size then
    if s.curr = s.size then some (some (.ok (.atEnd s.line)), { s with curr := s.curr + 1 })
    else
      match _h : s.begin.scanToken with
      | none => none
      | some (.error e, s') => some (some (.error e), s')
      | some (.ok (), s') =>
        match s'.pending? with
        | some kind =>
          s'.lexeme?.map fun lexeme => (some (.ok ⟨kind, lexeme, s'.line⟩), { s' with pending? := none })
        | none => s'.next
  else some (none, s)
termination_by s.size - s.curr
decreasing_by
  obtain ⟨htext, hcurr⟩ := scanToken_progress _h
  rename_i hin hnot
  have hsize : s'.size = s.size := by rw [size, htext]; rfl
  have hcurr : s.curr < s'.curr := hcurr
  omega

/-- What the scanner hands out when it has been asked so many times before, and the scanner behind it. -/
def ask : Nat → Scanner → Option (Option Item × Scanner)
  | 0, s => s.next
  | k + 1, s => s.next.bind fun (_, s') => ask k s'

end Scanner
end Lox.Scan
