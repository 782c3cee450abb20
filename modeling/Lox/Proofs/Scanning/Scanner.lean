import Lox.Proofs.Scanning.Bytes
import Lox.Proofs.Scanning.Items
import Lox.Proofs.Numbers.Reading

/-! # The scanner cuts as the rules say

Between two stretches a scanner stands behind whole characters (`Scanner.At`). From there each of its readers takes the
text that the cut of the rest is, and the whole stretch leaves it behind that cut, with its kind pending and on its line
(`Scanner.scanToken_eq`): the one byte of a line end, the line ends of a string and those of a lost rest are all the
line ends that there are. -/

namespace Lox.Scan
open String (utf8EncodeChar utf8Len)

/-- What a stretch leaves pending. -/
def Verdict.kind? : Verdict → Option Kind
  | .token kind => some kind
  | .skipped | .error _ => none

/-- What is said of a stretch that ends on this line. -/
def Verdict.result (line : Nat) : Verdict → Except ScanError Unit
  | .error cause => .error ⟨cause, line⟩
  | .skipped | .token _ => .ok ()

namespace Scanner

/-- This much of the source has been read, and this is left of it. -/
structure At (s : Scanner) (before rest : List Char) : Prop where
  text : s.text.toList = before ++ rest
  curr : s.curr = utf8Len before

/-- The scanner when it has read this text. -/
def skip (s : Scanner) (run : List Char) : Scanner := { s with curr := s.curr + utf8Len run }

/-- The scanner when it has read this stretch and counted its lines. -/
def behind (s : Scanner) (piece : Cut) : Scanner :=
  { s.skip piece.stretch with line := lineAfter s.line piece.stretch, pending? := piece.verdict.kind? }

theorem skip_curr (s : Scanner) (run : List Char) : (s.skip run).curr = s.curr + utf8Len run := rfl

theorem skip_skip (s : Scanner) (run run' : List Char) : (s.skip run).skip run' = s.skip (run ++ run') := by
  rw [skip, skip, skip, String.utf8Len_append, Nat.add_assoc]

theorem skip_cons (s : Scanner) (c : Char) (run : List Char) : (s.skip [c]).skip run = s.skip (c :: run) :=
  skip_skip s [c] run

section
variable {s : Scanner} {before rest run : List Char} {c : Char} {cs : List Char} {test : Char → Bool}

theorem At.skip (h : s.At before (run ++ rest)) : (s.skip run).At (before ++ run) rest where
  text := by rw [List.append_assoc]; exact h.text
  curr := by rw [String.utf8Len_append, ← h.curr]; rfl

theorem At.skip_one (h : s.At before (c :: cs)) : (s.skip [c]).At (before ++ [c]) cs := At.skip h

theorem At.found {kind : Kind} (h : s.At before rest) : (s.found kind).At before rest := ⟨h.text, h.curr⟩

/-! ### Reading -/

theorem At.drop_bytes (h : s.At before rest) : s.bytes.drop s.curr = encode rest := by
  rw [bytes, toByteArray_eq_encode, h.text, encode_append, h.curr, ← length_encode, List.drop_left]

theorem At.getElem?_bytes (h : s.At before rest) (i : Nat) : s.bytes[s.curr + i]? = (encode rest)[i]? := by
  rw [← h.drop_bytes, List.getElem?_drop]

theorem At.size_eq (h : s.At before rest) : s.size = s.curr + utf8Len rest := by
  rw [size, ← String.utf8Len_toList, h.text, String.utf8Len_append, h.curr]

theorem At.bytes?_eq (h : s.At before (run ++ rest)) : s.bytes? s.curr (s.curr + utf8Len run) = some (encode run) := by
  have hin : s.curr + utf8Len run ≤ s.size := by
    rw [h.size_eq, String.utf8Len_append]
    omega
  have htake : s.curr + utf8Len run - s.curr = (encode run).length := by rw [length_encode, Nat.add_sub_cancel_left]
  rw [bytes?, decide_eq_true (Nat.le_add_right _ _), decide_eq_true hin, h.drop_bytes, encode_append, htake,
    List.take_left]
  rfl

theorem At.bytes?_rest (h : s.At before rest) : s.bytes? s.curr s.size = some (encode rest) := by
  rw [h.size_eq]
  rw [← List.append_nil rest] at h
  exact h.bytes?_eq

theorem At.lexeme?_eq (h : s.At (before ++ run) rest) (hstart : s.start = utf8Len before) :
    s.lexeme? = some (String.ofList run) := by
  rw [lexeme?, hstart, h.curr]
  exact slice?_eq h.text

theorem At.peek_eq (h : s.At before rest) (htest : OnlyAscii test) (hzero : test '\x00' = false) :
    test s.peek = rest.head?.any test := by
  have hfirst := test_first htest hzero rest
  rwa [← h.getElem?_bytes] at hfirst

theorem At.peekNext_eq (h : s.At before (c :: cs)) (hc : c.utf8Size = 1) (htest : OnlyAscii test)
    (hzero : test '\x00' = false) : test s.peekNext = cs.head?.any test := by
  obtain ⟨b, hbytes, -⟩ := utf8EncodeChar_ascii hc
  rw [← test_first htest hzero cs, peekNext, h.getElem?_bytes, encode_cons, hbytes]
  rfl

/-- A byte of the first character is read. -/
theorem At.advance_mem (h : s.At before (c :: cs)) :
    ∃ b ∈ utf8EncodeChar c, s.advance = some (b, { s with curr := s.curr + 1 }) := by
  obtain ⟨b, bs, hbytes⟩ := List.exists_cons_of_ne_nil (String.utf8EncodeChar_ne_nil (c := c))
  have hread := h.getElem?_bytes 0
  rw [encode_cons, hbytes, Nat.add_zero] at hread
  refine ⟨b, hbytes ▸ List.mem_cons_self, ?_⟩
  rw [advance, hread]
  rfl

theorem At.advance_ascii (h : s.At before (c :: cs)) (hc : c.utf8Size = 1) :
    ∃ b, Char.ofUInt8 b = c ∧ s.advance = some (b, s.skip [c]) := by
  obtain ⟨b, hbytes, hchar⟩ := utf8EncodeChar_ascii hc
  obtain ⟨b', hb', hadvance⟩ := h.advance_mem
  rw [hbytes, List.mem_singleton] at hb'
  refine ⟨b, hchar, ?_⟩
  rw [hadvance, hb', Scanner.skip, String.utf8Len_cons, hc]
  rfl

theorem At.isAtEnd_cons (h : s.At before (c :: cs)) : s.isAtEnd = false := by
  have hpos := c.utf8Size_pos
  rw [isAtEnd, h.size_eq, String.utf8Len_cons, decide_eq_false]
  omega

theorem At.matchByte_same (h : s.At before (c :: cs)) (hc : c.utf8Size = 1) (hzero : ('\x00' == c) = false) :
    s.matchByte c = some (true, s.skip [c]) := by
  obtain ⟨b, -, hadvance⟩ := h.advance_ascii hc
  have hpeek : (s.peek == c) = true := by
    rw [h.peek_eq (onlyAscii_beq hc) hzero]
    exact beq_self_eq_true c
  rw [matchByte, h.isAtEnd_cons, hpeek, hadvance]
  rfl

theorem At.matchByte_other (h : s.At before rest) (hc : c.utf8Size = 1) (hzero : ('\x00' == c) = false)
    (hother : rest.head? ≠ some c) : s.matchByte c = some (false, s) := by
  have hpeek : (s.peek == c) = false := by
    rw [h.peek_eq (onlyAscii_beq hc) hzero]
    cases rest with
    | nil => rfl
    | cons d ds => exact beq_eq_false_iff_ne.mpr fun hd => hother (congrArg some hd)
  rw [matchByte, hpeek, Bool.and_false]
  rfl

/-- Reading on takes as many characters as pass the test. -/
theorem At.advanceWhile_eq (htest : OnlyAscii test) (hzero : test '\x00' = false) (h : s.At before rest) :
    s.advanceWhile test = some (s.skip (rest.takeWhile test)) := by
  induction rest generalizing s before with
  | nil =>
    rw [advanceWhile, h.peek_eq htest hzero]
    rfl
  | cons c cs ih =>
    rw [advanceWhile, h.peek_eq htest hzero, List.head?_cons, Option.any_some]
    by_cases hc : test c = true
    · obtain ⟨b, -, hadvance⟩ := h.advance_ascii (htest c hc)
      rw [if_pos hc, List.takeWhile_cons_of_pos hc, ← skip_cons s c, ← ih h.skip_one]
      split
      · rename_i hsome
        rw [hadvance] at hsome
        cases hsome
        rfl
      · rename_i hnone
        rw [hadvance] at hnone
        cases hnone
    · rw [if_neg hc, List.takeWhile_cons_of_neg hc]
      rfl

/-! ### The readers -/

theorem At.skipComment_eq (h : s.At before rest) : s.skipComment = some (s.skip (rest.takeWhile (· != '\n'))) := by
  rw [skipComment, h.bytes?_rest, Option.bind_eq_bind, Option.bind_some, memchr_encode (by decide)]
  by_cases hend : '\n' ∈ rest
  · rw [if_pos hend]
    rfl
  · have hall : rest.takeWhile (· != '\n') = rest :=
      List.takeWhile_eq_self_iff.mpr fun c hc => bne_iff_ne.mpr (ne_of_mem_of_not_mem hc hend)
    rw [if_neg hend, hall, h.size_eq]
    rfl

/-- A string is read up to the next quote, and counts the lines that end in it. -/
theorem At.parseString_closed {content : List Char} (h : s.At before ('"' :: (content ++ '"' :: rest)))
    (hcontent : '"' ∉ content) (hstart : s.start = s.curr) :
    let piece := cutString '"' (content ++ '"' :: rest)
    (s.skip ['"']).parseString = some (piece.verdict.result (lineAfter s.line piece.stretch), s.behind piece) := by
  intro piece
  have hquote := h.skip_one
  have hmem : '"' ∈ content ++ '"' :: rest := List.mem_append_right _ List.mem_cons_self
  have hrun : ∀ c ∈ content, (c != '"') = true := fun c hc => bne_iff_ne.mpr (ne_of_mem_of_not_mem hc hcontent)
  have hend : ∀ c ∈ ('"' :: rest).head?, (c != '"') = false := by
    rintro c ⟨⟩
    rfl
  -- The slice leaves out the quotes, which are one byte each.
  have hslice : slice? s.text (s.start + 1) ((s.skip ['"']).curr + (utf8Len content + 1) - 1) =
      some (String.ofList content) := by
    have hopen : s.start + 1 = utf8Len (before ++ ['"']) := by rw [hstart, String.utf8Len_append, h.curr]; rfl
    have hclose : (s.skip ['"']).curr + (utf8Len content + 1) - 1 = utf8Len (before ++ ['"'] ++ content) := by
      rw [hquote.curr, String.utf8Len_append _ content, ← Nat.add_assoc, Nat.add_sub_cancel]
    rw [hopen, hclose]
    exact slice?_eq (hquote.text.trans (List.append_assoc _ _ _).symm)
  have hlines : ('"' :: content ++ ['"']).count '\n' = content.count '\n' := by
    rw [List.count_append, List.count_cons_of_ne (by decide)]
    rfl
  rw [parseString, hquote.bytes?_rest, Option.bind_eq_bind, Option.bind_some, memchr_encode (by decide), if_pos hmem,
    takeWhile_run hrun hend]
  simp only [piece, cutString, dropWhile_run hrun hend, takeWhile_run hrun hend]
  simp only [hquote.bytes?_eq, lineEnds_encode, Option.bind_eq_bind, Option.bind_some]
  show (slice? s.text (s.start + 1) ((s.skip ['"']).curr + (utf8Len content + 1) - 1)).bind _ = _
  have hcurr : (s.skip ['"']).curr + (utf8Len content + 1) = (s.skip ('"' :: (content ++ ['"']))).curr := by
    rw [← skip_cons s '"' (content ++ ['"']), skip_curr (s.skip _), String.utf8Len_append]
    rfl
  rw [hslice, Option.bind_some, hcurr, behind, lineAfter, hlines]
  rfl

/-- Without another quote all that is left is lost. -/
theorem At.parseString_lost (h : s.At before ('"' :: cs)) (hlost : '"' ∉ cs) (hpending : s.pending? = none) :
    let piece := cutString '"' cs
    (s.skip ['"']).parseString = some (piece.verdict.result (lineAfter s.line piece.stretch), s.behind piece) := by
  intro piece
  have hquote := h.skip_one
  have hall : cs.dropWhile (· != '"') = [] :=
    List.dropWhile_eq_nil_iff.mpr fun c hc => bne_iff_ne.mpr (ne_of_mem_of_not_mem hc hlost)
  have hlines : ('"' :: cs).count '\n' = cs.count '\n' := List.count_cons_of_ne (by decide)
  have hsize : (s.skip ['"']).size = (s.skip ('"' :: cs)).curr := by
    rw [← skip_cons s '"' cs, hquote.size_eq]
    rfl
  rw [parseString, hquote.bytes?_rest, Option.bind_eq_bind, Option.bind_some, memchr_encode (by decide), if_neg hlost]
  simp only [piece, cutString, hall, behind, hsize, lineEnds_encode, lineAfter, hlines, Verdict.kind?, ← hpending]
  rfl

/-! ### Tokens on one line -/

theorem behind_token {piece : Cut} {kind : Kind} (hverdict : piece.verdict = .token kind)
    (hline : '\n' ∉ piece.stretch) :
    s.behind piece = (s.skip piece.stretch).found kind := by
  rw [behind, hverdict, lineAfter, List.count_eq_zero_of_not_mem hline]
  rfl

theorem At.parseFraction_point {d : Char} {ds : List Char} (h : s.At before ('.' :: d :: ds)) (hd : d.isDigit = true) :
    s.parseFraction = some (s.skip ('.' :: d :: ds.takeWhile Char.isDigit)) := by
  obtain ⟨b, -, hadvance⟩ := h.advance_ascii (by decide)
  have hdigit : s.peekNext.isDigit = true := by
    rw [h.peekNext_eq (by decide) onlyAscii_isDigit rfl]
    exact hd
  have hpoint : (s.peek == '.') = true := by
    rw [h.peek_eq (onlyAscii_beq (by decide)) (by decide)]
    rfl
  have hrun := At.advanceWhile_eq onlyAscii_isDigit rfl h.skip_one
  rw [parseFraction, hpoint, hdigit, Bool.and_true, if_pos rfl, hadvance, Option.bind_some]
  dsimp only
  rw [hrun, List.takeWhile_cons_of_pos hd, skip_skip]
  rfl

theorem At.parseFraction_none (h : s.At before rest) (hnone : ∀ d ds, rest = '.' :: d :: ds → ¬ d.isDigit = true) :
    s.parseFraction = some s := by
  rw [parseFraction, if_neg]
  rw [Bool.and_eq_true, h.peek_eq (onlyAscii_beq (by decide)) (by decide)]
  rintro ⟨hpoint, hdigit⟩
  rcases rest with _ | ⟨c, _ | ⟨d, ds⟩⟩
  · cases hpoint
  all_goals
    obtain rfl : c = '.' := eq_of_beq hpoint
    rw [h.peekNext_eq (by decide) onlyAscii_isDigit rfl] at hdigit
  · cases hdigit
  · exact hnone d ds rfl hdigit

/-- The digits, and the fraction if there is one, are the number that is cut. -/
theorem At.advance_number (h : s.At before (c :: cs)) (hc : c.isDigit = true) :
    ((s.skip [c]).advanceWhile Char.isDigit).bind parseFraction = some (s.skip (cutNumber (c :: cs)).stretch) := by
  have hsplit : cs.takeWhile Char.isDigit ++ cs.dropWhile Char.isDigit = cs := List.takeWhile_append_dropWhile
  have hwhole : (s.skip (c :: cs.takeWhile Char.isDigit)).At (before ++ c :: cs.takeWhile Char.isDigit)
      (cs.dropWhile Char.isDigit) := At.skip (by rwa [List.cons_append, hsplit])
  rw [h.skip_one.advanceWhile_eq onlyAscii_isDigit rfl, Option.bind_some, skip_cons, cutNumber,
    List.takeWhile_cons_of_pos hc, List.dropWhile_cons_of_pos hc]
  split
  · rename_i d ds hpoint
    rw [hpoint] at hwhole
    split
    · rename_i hd
      rw [hwhole.parseFraction_point hd, skip_skip]
    · rename_i hd
      exact hwhole.parseFraction_none fun d' ds' heq => by cases heq; exact hd
  · rename_i hnot
    exact hwhole.parseFraction_none fun d ds heq => absurd heq (hnot d ds)

theorem cutNumber_verdict (cs : List Char) : ∃ v, (cutNumber cs).verdict = .token (.number v) := by
  unfold cutNumber
  split
  · split <;> exact ⟨_, rfl⟩
  · exact ⟨_, rfl⟩

theorem At.parseNumber_eq (h : s.At before (c :: cs)) (hc : c.isDigit = true) (hstart : s.start = s.curr) :
    (s.skip [c]).parseNumber = some (s.behind (cutNumber (c :: cs))) := by
  obtain ⟨v, hverdict⟩ := cutNumber_verdict (c :: cs)
  obtain ⟨kind, hkind, hlongest⟩ := @cutNumber_isLongest c cs hc
  obtain rfl : Kind.number v = kind := Verdict.token.inj (hverdict.symm.trans hkind)
  have hbehind : (s.skip (cutNumber (c :: cs)).stretch).At (before ++ (cutNumber (c :: cs)).stretch)
      (cutNumber (c :: cs)).rest := At.skip (by rwa [cutNumber_stretch_append_rest])
  have hread : Number.read? (String.ofList (cutNumber (c :: cs)).stretch) = some v :=
    Number.read?_spells (by rw [String.toList_ofList]; exact hlongest.spells)
  obtain ⟨s₁, hwhole, hfraction⟩ := Option.bind_eq_some_iff.mp (h.advance_number hc)
  rw [parseNumber, hwhole, Option.bind_eq_bind, Option.bind_some, hfraction, Option.bind_eq_bind, Option.bind_some,
    hbehind.lexeme?_eq (hstart.trans h.curr), Option.bind_some, hread,
    behind_token hverdict (hlongest.spells.no_line_end (by simp))]
  rfl

theorem getD_eq_wordKind (word : List Char) :
    ((Keyword.ofSpelling? (String.ofList word)).map Kind.keyword).getD .identifier = wordKind word := by
  unfold wordKind
  cases Keyword.ofSpelling? (String.ofList word) <;> rfl

theorem At.parseIdentifier_eq (h : s.At before (c :: cs)) (hc : isWordStart c = true) (hstart : s.start = s.curr) :
    (s.skip [c]).parseIdentifier = some (s.behind (cutWord (c :: cs))) := by
  obtain ⟨kind, hkind, hlongest⟩ := @cutWord_isLongest c cs hc
  have hword : (cutWord (c :: cs)).stretch = c :: cs.takeWhile isWordPart :=
    List.takeWhile_cons_of_pos (isWordPart_of_start hc)
  have hsplit : cs.takeWhile isWordPart ++ cs.dropWhile isWordPart = cs := List.takeWhile_append_dropWhile
  have hbehind : (s.skip (c :: cs.takeWhile isWordPart)).At (before ++ c :: cs.takeWhile isWordPart)
      (cs.dropWhile isWordPart) := At.skip (by rwa [List.cons_append, hsplit])
  obtain rfl : wordKind (cutWord (c :: cs)).stretch = kind := Verdict.token.inj hkind
  have hline : '\n' ∉ (cutWord (c :: cs)).stretch :=
    hlongest.spells.no_line_end fun content => by unfold wordKind; split <;> nofun
  rw [parseIdentifier, h.skip_one.advanceWhile_eq onlyAscii_isWordPart rfl, Option.bind_eq_bind, Option.bind_some,
    skip_cons, hbehind.lexeme?_eq (hstart.trans h.curr), Option.bind_eq_bind, Option.bind_some, getD_eq_wordKind,
    behind_token hkind hline, hword]

theorem cutMark_double {m double : Mark} (hm : Mark.ofChar? c = some m) (hdouble : m.withEqual? = some double) :
    cutMark c ('=' :: rest) = ⟨.token (.mark double), [c, '='], rest⟩ := by
  rw [cutMark, hm]
  dsimp only
  rw [hdouble]
  rfl

theorem cutMark_single {m : Mark} (hm : Mark.ofChar? c = some m)
    (hsingle : cs.head? = some '=' → m.withEqual? = none) : cutMark c cs = ⟨.token (.mark m), [c], cs⟩ := by
  rw [cutMark, hm]
  dsimp only
  split
  · rename_i hdouble
    rw [hsingle rfl] at hdouble
    cases hdouble
  · rfl

/-- A mark of two characters is told by the second. -/
theorem At.scanMark_eq {m : Mark} (h : s.At before (c :: cs)) (hm : Mark.ofChar? c = some m) :
    (s.skip [c]).scanMark m = some (s.behind (cutMark c cs)) := by
  obtain ⟨kind, hkind, hlongest⟩ := @cutMark_isLongest c cs _ hm
  have hfound : ∀ {m' : Mark} {stretch rest : List Char}, cutMark c cs = ⟨.token (.mark m'), stretch, rest⟩ →
      s.behind (cutMark c cs) = (s.skip stretch).found (.mark m') := fun heq => by
    rw [heq] at hkind hlongest ⊢
    cases hkind
    exact behind_token rfl (hlongest.spells.no_line_end nofun)
  unfold scanMark
  cases hdouble : m.withEqual? with
  | none => exact congrArg some (hfound (cutMark_single hm fun _ => hdouble)).symm
  | some double =>
    by_cases hequal : cs.head? = some '='
    · obtain ⟨rest, rfl⟩ := List.head?_eq_some_iff.mp hequal
      dsimp only
      rw [h.skip_one.matchByte_same (by decide) (by decide), hfound (cutMark_double hm hdouble), skip_cons]
      rfl
    · dsimp only
      rw [h.skip_one.matchByte_other (by decide) (by decide) hequal,
        hfound (cutMark_single hm fun hsome => absurd hsome hequal)]
      rfl

/-- Two slashes begin a comment. -/
theorem At.scanSlash_comment (h : s.At before ('/' :: '/' :: cs)) (hpending : s.pending? = none) :
    (s.skip ['/']).scanSlash = some (s.behind (cutComment '/' ('/' :: cs))) := by
  have hstretch : (cutComment '/' ('/' :: cs)).stretch = '/' :: '/' :: cs.takeWhile (· != '\n') := by
    rw [cutComment, List.takeWhile_cons_of_pos (by decide)]
  have hline : ('/' :: '/' :: cs.takeWhile (· != '\n')).count '\n' = 0 := by
    rw [List.count_cons_of_ne (by decide), List.count_cons_of_ne (by decide), List.count_eq_zero]
    exact fun hmem => absurd (List.mem_takeWhile_imp hmem) (by decide)
  rw [scanSlash, h.skip_one.matchByte_same (by decide) (by decide), Option.bind_eq_bind, Option.bind_some]
  dsimp only
  rw [if_pos rfl, h.skip_one.skip_one.skipComment_eq, skip_cons, behind, hstretch, lineAfter, hline, skip_cons]
  show some (s.skip _) = some { s.skip _ with line := s.line, pending? := none }
  rw [← hpending]
  rfl

theorem At.scanSlash_mark (h : s.At before ('/' :: cs)) (hsingle : cs.head? ≠ some '/') :
    (s.skip ['/']).scanSlash = some (s.behind (cutMark '/' cs)) := by
  rw [scanSlash, h.skip_one.matchByte_other (by decide) (by decide) hsingle, cutMark_single rfl fun _ => rfl]
  rfl

/-- The error is about a whole character, wherever in it the scanner is. -/
theorem At.refuse_eq (h : s.At before (c :: cs)) (hstart : s.start = s.curr) (hpending : s.pending? = none)
    (hblank : isBlank c = false) (curr : Nat) : refuse { s with curr := curr } =
      some (.error ⟨.unexpected c, lineAfter s.line [c]⟩, s.behind ⟨.error (.unexpected c), [c], cs⟩) := by
  have hrest : slice? s.text s.start s.size = some (String.ofList (c :: cs)) := by
    have hend : s.size = utf8Len (before ++ (c :: cs)) := by rw [h.size_eq, String.utf8Len_append, h.curr]
    rw [hstart, h.curr, hend]
    exact slice?_eq (h.text.trans (List.append_nil _).symm)
  have hlength : utf8Len [c] = c.utf8Size := Nat.zero_add _
  have hline : lineAfter s.line [c] = s.line := by
    rw [lineAfter, List.count_singleton, (Bool.or_eq_false_iff.mp hblank).2]
    rfl
  show (slice? s.text s.start s.size).bind _ = _
  rw [hrest, Option.bind_some, String.toList_ofList, List.head?_cons, Option.getD_some, behind, Scanner.skip, hlength,
    hline, Verdict.kind?, ← hpending, ← hstart]

/-! ### A stretch -/

/-- Of the blanks only a line end is counted. -/
theorem At.scanBehind_blank (h : s.At before (c :: cs)) (hblank : isBlank c = true) (hpending : s.pending? = none) :
    (s.skip [c]).scanBehind c = some (.ok (), s.behind ⟨.skipped, [c], cs⟩) := by
  have hbehind : s.behind ⟨.skipped, [c], cs⟩ = { s.skip [c] with line := lineAfter s.line [c] } := by
    rw [behind, Verdict.kind?, ← hpending]
    rfl
  rw [hbehind]
  simp only [isBlank_iff, blanks, List.mem_cons, List.not_mem_nil, or_false] at hblank
  rcases hblank with rfl | rfl | rfl | rfl <;> rfl

/-- Where nothing begins, the character is refused. -/
theorem scanBehind_refuse (hblank : isBlank c = false) (hslash : (c == '/') = false) (hquote : (c == '"') = false)
    (hdigit : c.isDigit = false) (hword : isWordStart c = false) (hmark : Mark.ofChar? c = none) :
    s.scanBehind c = s.refuse := by
  obtain ⟨hspace, hline⟩ := Bool.or_eq_false_iff.mp hblank
  rw [scanBehind, hspace, hline, hslash, hquote, hdigit, hword, hmark]
  rfl

theorem cut_refuse (hblank : isBlank c = false) (hslash : (c == '/') = false) (hquote : (c == '"') = false)
    (hdigit : c.isDigit = false) (hword : isWordStart c = false) (hmark : Mark.ofChar? c = none) (cs : List Char) :
    cut c cs = ⟨.error (.unexpected c), [c], cs⟩ := by
  rw [cut, hblank, hslash, hquote, hdigit, hword, cutMark, hmark]
  rfl

/-- What is done behind a first byte that is a whole character makes the cut. -/
theorem At.scanBehind_eq (h : s.At before (c :: cs)) (hstart : s.start = s.curr) (hpending : s.pending? = none) :
    (s.skip [c]).scanBehind c =
      some ((cut c cs).verdict.result (lineAfter s.line (cut c cs).stretch), s.behind (cut c cs)) := by
  cases hblank : isBlank c with
  | true =>
    rw [cut, if_pos hblank]
    exact h.scanBehind_blank hblank hpending
  | false =>
  by_cases hslash : c = '/'
  · subst hslash
    by_cases htwice : cs.head? = some '/'
    · obtain ⟨rest, rfl⟩ := List.head?_eq_some_iff.mp htwice
      exact congrArg (Option.map _) (h.scanSlash_comment hpending)
    · have hcut : cut '/' cs = cutMark '/' cs := by
        rw [cut, hblank, if_neg Bool.false_ne_true, if_neg (by simpa using htwice)]
        rfl
      have hmark : (cutMark '/' cs).verdict = .token (.mark .slash) := by rw [cutMark_single rfl fun _ => rfl]
      rw [hcut, hmark]
      exact congrArg (Option.map _) (h.scanSlash_mark htwice)
  by_cases hquote : c = '"'
  · subst hquote
    by_cases hclosed : '"' ∈ cs
    · obtain ⟨content, rest, rfl, hcontent⟩ := List.eq_append_cons_of_mem hclosed
      exact h.parseString_closed hcontent hstart
    · exact h.parseString_lost hclosed hpending
  obtain ⟨hspace, hline⟩ := Bool.or_eq_false_iff.mp hblank
  replace hslash := beq_eq_false_iff_ne.mpr hslash
  replace hquote := beq_eq_false_iff_ne.mpr hquote
  cases hdigit : c.isDigit with
  | true =>
    have hcut : cut c cs = cutNumber (c :: cs) := by
      rw [cut, hblank, hslash, hquote, hdigit]
      rfl
    obtain ⟨v, hverdict⟩ := cutNumber_verdict (c :: cs)
    rw [scanBehind, hspace, hline, hslash, hquote, hdigit, hcut, hverdict]
    exact congrArg (Option.map _) (h.parseNumber_eq hdigit hstart)
  | false =>
  cases hword : isWordStart c with
  | true =>
    have hcut : cut c cs = cutWord (c :: cs) := by
      rw [cut, hblank, hslash, hquote, hdigit, hword]
      rfl
    rw [scanBehind, hspace, hline, hslash, hquote, hdigit, hword, hcut]
    exact congrArg (Option.map _) (h.parseIdentifier_eq hword hstart)
  | false =>
  cases hmark : Mark.ofChar? c with
  | some m =>
    have hcut : cut c cs = cutMark c cs := by
      rw [cut, hblank, hslash, hquote, hdigit, hword]
      rfl
    obtain ⟨kind, hverdict, -⟩ := @cutMark_isLongest c cs _ hmark
    rw [scanBehind, hspace, hline, hslash, hquote, hdigit, hword, hmark, hcut, hverdict]
    exact congrArg (Option.map _) (h.scanMark_eq hmark)
  | none =>
    rw [scanBehind_refuse hblank hslash hquote hdigit hword hmark, cut_refuse hblank hslash hquote hdigit hword hmark]
    exact h.refuse_eq hstart hpending hblank _

/-- Characters of more than one byte begin nothing. -/
theorem wide_apart (hc : c.utf8Size ≠ 1) : isBlank c = false ∧ (c == '/') = false ∧ (c == '"') = false ∧
    c.isDigit = false ∧ isWordStart c = false ∧ Mark.ofChar? c = none := by
  have hnot : ∀ {test : Char → Bool}, OnlyAscii test → test c = false := fun htest =>
    Bool.eq_false_iff.mpr fun h => hc (htest c h)
  have hne : ∀ {d : Char}, d.utf8Size = 1 → (c == d) = false := fun hd => hnot (onlyAscii_beq hd)
  refine ⟨?_, hne (by decide), hne (by decide), hnot onlyAscii_isDigit, hnot onlyAscii_isWordStart, ?_⟩
  · rw [isBlank, hne (by decide), hne (by decide), hne (by decide), hne (by decide)]
    rfl
  · unfold Mark.ofChar?
    split
    all_goals first | exact absurd (by decide) hc | rfl

/-- A stretch leaves the scanner behind the cut. -/
theorem At.scanToken_eq (h : s.At before (c :: cs)) (hstart : s.start = s.curr) (hpending : s.pending? = none) :
    s.scanToken = some ((cut c cs).verdict.result (lineAfter s.line (cut c cs).stretch), s.behind (cut c cs)) := by
  by_cases hc : c.utf8Size = 1
  · obtain ⟨b, hchar, hadvance⟩ := h.advance_ascii hc
    rw [scanToken, hadvance, Option.bind_some]
    dsimp only
    rw [hchar]
    exact h.scanBehind_eq hstart hpending
  · -- The byte that is read begins nothing, and neither does the character.
    obtain ⟨b, hb, hadvance⟩ := h.advance_mem
    obtain ⟨hblank, hslash, hquote, hdigit, hword, hmark⟩ := wide_apart (utf8Size_ofUInt8 hc hb)
    obtain ⟨hblank', hslash', hquote', hdigit', hword', hmark'⟩ := wide_apart hc
    have hcut := cut_refuse hblank' hslash' hquote' hdigit' hword' hmark' cs
    rw [scanToken, hadvance, Option.bind_some]
    dsimp only
    rw [scanBehind_refuse hblank hslash hquote hdigit hword hmark, hcut]
    exact h.refuse_eq hstart hpending hblank' _

/-! ### Items -/

/-- The scanner when a stretch is over. -/
def past (s : Scanner) (piece : Cut) : Scanner := { s.begin.behind piece with pending? := none }

theorem behind_eq_past {piece : Cut} (h : piece.verdict.kind? = none) : s.begin.behind piece = s.past piece := by
  rw [past, behind, h]

theorem At.skip_cut (h : s.At before (c :: cs)) :
    (s.skip (cut c cs).stretch).At (before ++ (cut c cs).stretch) (cut c cs).rest :=
  At.skip (by rwa [cut_stretch_append_rest])

theorem At.past (h : s.At before (c :: cs)) : (s.past (cut c cs)).At (before ++ (cut c cs).stretch) (cut c cs).rest :=
  ⟨h.skip_cut.text, h.skip_cut.curr⟩

theorem At.begin (h : s.At before rest) : s.begin.At before rest := ⟨h.text, h.curr⟩

theorem At.curr_lt_size (h : s.At before (c :: cs)) : s.curr < s.size := by
  have hpos := c.utf8Size_pos
  rw [h.size_eq, String.utf8Len_cons]
  omega

/-- Blanks and comments are passed over. -/
theorem At.next_skipped (h : s.At before (c :: cs)) (hskipped : (cut c cs).verdict = .skipped) :
    s.next = (s.past (cut c cs)).next := by
  have hscan := h.begin.scanToken_eq rfl rfl
  rw [hskipped, behind_eq_past (by rw [hskipped]; rfl)] at hscan
  rw [next, if_pos h.curr_lt_size.le, if_neg h.curr_lt_size.ne]
  split
  all_goals
    rename_i hsome
    rw [hscan] at hsome
    cases hsome
  rfl

/-- Every other stretch is an item. -/
theorem At.next_item (h : s.At before (c :: cs)) {i : Item}
    (hitem : (cut c cs).verdict.item? (cut c cs).stretch (lineAfter s.line (cut c cs).stretch) = some i) :
    s.next = some (some i, s.past (cut c cs)) := by
  have hscan := h.begin.scanToken_eq rfl rfl
  rw [next, if_pos h.curr_lt_size.le, if_neg h.curr_lt_size.ne]
  cases hverdict : (cut c cs).verdict with
  | skipped =>
    rw [hverdict] at hitem
    cases hitem
  | token kind =>
    rw [hverdict] at hitem hscan
    cases hitem
    split
    all_goals
      rename_i hsome
      rw [hscan] at hsome
      cases hsome
    have hpending : (s.begin.behind (cut c cs)).pending? = some kind := by
      rw [behind, hverdict]
      rfl
    have hlexeme : (s.begin.behind (cut c cs)).lexeme? = some (String.ofList (cut c cs).stretch) :=
      h.begin.skip_cut.lexeme?_eq h.curr
    rw [hpending]
    dsimp only
    rw [hlexeme]
    rfl
  | error cause =>
    rw [hverdict] at hitem hscan
    cases hitem
    split
    all_goals
      rename_i hsome
      rw [hscan] at hsome
      cases hsome
    exact congrArg (fun s' => some (_, s')) (behind_eq_past (by rw [hverdict]; rfl))

theorem At.next_end (h : s.At before []) :
    s.next = some (some (.ok (.atEnd s.line)), { s with curr := s.curr + 1 }) := by
  have hend : s.curr = s.size := h.size_eq.symm
  rw [next, if_pos hend.le, if_pos hend]

theorem next_done (h : s.size < s.curr) : s.next = some (none, s) := by
  rw [next, if_neg (Nat.not_le.mpr h)]

end
end Scanner
end Lox.Scan
