import Lox.Token.Scan
import Mathlib.Data.List.Infix
import Mathlib.Data.List.TakeWhile

/-! # The rules of scanning

What a text is to be cut into, said without saying how. A token has a text that its rule allows, and no rule
allows more of what is there. Between tokens are blanks and comments, and an error is a character that no
token begins with, or all that follows a quote when no other follows (`Fits`). By its first character a text
can be a token of one rule at most (`spells_iff`). -/

namespace Lox.Scan

/-- These are the texts of the tokens of each kind. -/
inductive Spells : Kind → List Char → Prop
  | mark (m : Mark) : Spells (.mark m) m.spelling.toList
  | keyword (k : Keyword) : Spells (.keyword k) k.spelling.toList
  | identifier {c : Char} {cs : List Char} (hc : isWordStart c = true) (hcs : ∀ d ∈ cs, isWordPart d = true)
    (hk : ∀ k : Keyword, k.spelling ≠ String.ofList (c :: cs)) : Spells .identifier (c :: cs)
  | string {content : List Char} (h : '"' ∉ content) :
    Spells (.string (String.ofList content)) ('"' :: (content ++ ['"']))
  | whole {c : Char} {cs : List Char} (h : ∀ d ∈ c :: cs, d.isDigit = true) :
    Spells (.number (Decimal.ofDigits (c :: cs) []).toFloat) (c :: cs)
  | fraction {c d : Char} {cs ds : List Char} (h : ∀ d ∈ c :: cs, d.isDigit = true)
    (h' : ∀ e ∈ d :: ds, e.isDigit = true) :
    Spells (.number (Decimal.ofDigits (c :: cs) (d :: ds)).toFloat) (c :: (cs ++ '.' :: d :: ds))

/-- The text is one of the kind, and no token begins with more of it and of what is behind. -/
structure Longest (kind : Kind) (text behind : List Char) : Prop where
  spells : Spells kind text
  longest : ∀ {kind' : Kind} {other : List Char}, Spells kind' other → other <+: text ++ behind → other <+: text

def blanks : List Char := [' ', '\t', '\r', '\n']

/-- What a stretch with this text has to be when this text is behind it. -/
inductive Fits : Verdict → List Char → List Char → Prop
  | blank {c : Char} {behind : List Char} (h : c ∈ blanks) : Fits .skipped [c] behind
  | comment {cs behind : List Char} (h : '\n' ∉ cs) (hbehind : ∀ c ∈ behind.head?, c = '\n') :
    Fits .skipped ('/' :: '/' :: cs) behind
  | token {kind : Kind} {text behind : List Char} (h : Longest kind text behind)
    (hcomment : ¬ ['/', '/'] <+: text ++ behind) : Fits (.token kind) text behind
  | unexpected {c : Char} {behind : List Char} (h : ∀ kind text, ¬ Spells kind (c :: text)) (hblank : c ∉ blanks) :
    Fits (.error (.unexpected c)) [c] behind
  | unterminated {cs : List Char} (h : '"' ∉ cs) : Fits (.error .unterminatedString) ('"' :: cs) []

/-! ### Runs of characters -/

section
variable {p : Char → Bool} {c : Char} {run run' behind rest : List Char}

theorem not_of_head_dropWhile (cs : List Char) : ∀ c ∈ (cs.dropWhile p).head?, p c = false := by
  intro c hc
  have hnot := List.head?_dropWhile_not p cs
  rw [Option.mem_def.mp hc] at hnot
  exact hnot

/-- A run that something else follows is all that is taken of it. -/
theorem takeWhile_run (hrun : ∀ d ∈ run, p d = true) (hbehind : ∀ c ∈ behind.head?, p c = false) :
    (run ++ behind).takeWhile p = run := by
  cases behind with
  | nil => rw [List.append_nil, List.takeWhile_eq_self_iff.mpr hrun]
  | cons c rest =>
    rw [List.takeWhile_append_of_pos hrun, List.takeWhile_cons_of_neg (by simp [hbehind c rfl]), List.append_nil]

theorem dropWhile_run (hrun : ∀ d ∈ run, p d = true) (hbehind : ∀ c ∈ behind.head?, p c = false) :
    (run ++ behind).dropWhile p = behind := by
  cases behind with
  | nil => rw [List.append_nil, List.dropWhile_eq_nil_iff.mpr hrun]
  | cons c rest => rw [List.dropWhile_append_of_pos hrun, List.dropWhile_cons_of_neg (by simp [hbehind c rfl])]

theorem prefix_run (h : run' <+: run ++ behind) (hrun' : ∀ d ∈ run', p d = true) (hrun : ∀ d ∈ run, p d = true)
    (hbehind : ∀ c ∈ behind.head?, p c = false) : run' <+: run := by
  obtain ⟨rest, hrest⟩ := h
  rw [← takeWhile_run hrun hbehind, ← hrest, List.takeWhile_append_of_pos hrun']
  exact List.prefix_append _ _

/-- Two runs in the same place that something else follows are one. -/
theorem run_unique (h : run' ++ rest = run ++ behind) (hrun' : ∀ d ∈ run', p d = true) (hrun : ∀ d ∈ run, p d = true)
    (hrest : ∀ c ∈ rest.head?, p c = false) (hbehind : ∀ c ∈ behind.head?, p c = false) :
    run' = run ∧ rest = behind := by
  have hsame := congrArg (List.takeWhile p) h
  rw [takeWhile_run hrun hbehind, takeWhile_run hrun' hrest] at hsame
  subst hsame
  exact ⟨rfl, List.append_cancel_left h⟩

end

/-! ### How tokens begin -/

section
variable {c : Char} {cs : List Char} {kind : Kind}

theorem isBlank_iff : isBlank c = true ↔ c ∈ blanks := by
  simp [isBlank, blanks]
  tauto

theorem isWordPart_of_start (h : isWordStart c = true) : isWordPart c = true := by
  simp only [isWordStart, Bool.or_eq_true] at h
  simp only [isWordPart, Char.isAlphanum, Bool.or_eq_true]
  exact h.imp_left Or.inl

theorem not_isWordStart_of_isDigit (h : c.isDigit = true) : isWordStart c = false := by
  have hle : c.val ≤ ('9' : Char).val := of_decide_eq_true (Bool.and_eq_true_iff.mp h).2
  have hupper : ¬ ('A' : Char).val ≤ c.val := fun hc => absurd (UInt32.le_trans hc hle) (by decide)
  have hlower : ¬ ('a' : Char).val ≤ c.val := fun hc => absurd (UInt32.le_trans hc hle) (by decide)
  rw [isWordStart, Bool.or_eq_false_iff, beq_eq_false_iff_ne]
  refine ⟨Bool.or_eq_false_iff.mpr ⟨decide_eq_false fun hc => hupper hc.1, ?_⟩, ?_⟩
  · exact Bool.and_eq_false_iff.mpr (.inl (decide_eq_false hlower))
  · rintro rfl
    exact absurd hle (by decide)

/-- The keyword or the identifier that a word is. -/
def wordKind (word : List Char) : Kind :=
  match Keyword.ofSpelling? (String.ofList word) with
  | some k => .keyword k
  | none => .identifier

theorem ofSpelling?_spelling (k : Keyword) : Keyword.ofSpelling? k.spelling = some k := by
  cases k <;> decide

theorem spelling_of_ofSpelling? {word : String} {k : Keyword} (h : Keyword.ofSpelling? word = some k) :
    k.spelling = word := by
  simpa using List.find?_some h

theorem keyword_spelling_parts (k : Keyword) :
    ∃ c cs, k.spelling.toList = c :: cs ∧ isWordStart c = true ∧ ∀ d ∈ cs, isWordPart d = true := by
  cases k <;> exact ⟨_, _, rfl, by decide, List.all_eq_true.mp (by decide)⟩

/-- A mark is spelled by one character, or by that of another mark and an equals sign. -/
theorem mark_spelling (m : Mark) : (∃ c, Mark.ofChar? c = some m ∧ m.spelling.toList = [c]) ∨
    ∃ c m', Mark.ofChar? c = some m' ∧ m'.withEqual? = some m ∧ m.spelling.toList = [c, '='] := by
  cases m
  case bangEqual => exact .inr ⟨'!', .bang, rfl, rfl, rfl⟩
  case equalEqual => exact .inr ⟨'=', .equal, rfl, rfl, rfl⟩
  case greaterEqual => exact .inr ⟨'>', .greater, rfl, rfl, rfl⟩
  case lessEqual => exact .inr ⟨'<', .less, rfl, rfl, rfl⟩
  all_goals exact .inl ⟨_, rfl, rfl⟩

/-- How the tokens of the different rules begin and go on. -/
inductive Begins : Kind → Char → List Char → Prop
  | string {content : List Char} (h : '"' ∉ content) : Begins (.string (String.ofList content)) '"' (content ++ ['"'])
  | whole {c : Char} {cs : List Char} (hc : c.isDigit = true) (hcs : ∀ d ∈ cs, d.isDigit = true) :
    Begins (.number (Decimal.ofDigits (c :: cs) []).toFloat) c cs
  | fraction {c d : Char} {cs ds : List Char} (hc : c.isDigit = true) (hcs : ∀ d ∈ cs, d.isDigit = true)
    (hds : ∀ e ∈ d :: ds, e.isDigit = true) :
    Begins (.number (Decimal.ofDigits (c :: cs) (d :: ds)).toFloat) c (cs ++ '.' :: d :: ds)
  | word {c : Char} {cs : List Char} (hc : isWordStart c = true) (hcs : ∀ d ∈ cs, isWordPart d = true) :
    Begins (wordKind (c :: cs)) c cs
  | mark {c : Char} {m : Mark} (hm : Mark.ofChar? c = some m) : Begins (.mark m) c []
  | double {c : Char} {m m' : Mark} (hm : Mark.ofChar? c = some m') (hm' : m'.withEqual? = some m) :
    Begins (.mark m) c ['=']

theorem Spells.begins {text : List Char} (h : Spells kind text) : ∃ c cs, text = c :: cs ∧ Begins kind c cs := by
  cases h with
  | mark m =>
    rcases mark_spelling m with ⟨c, hc, hspelling⟩ | ⟨c, m', hc, hm, hspelling⟩
    · exact ⟨c, [], hspelling, .mark hc⟩
    · exact ⟨c, ['='], hspelling, .double hc hm⟩
  | keyword k =>
    obtain ⟨c, cs, hspelling, hc, hcs⟩ := keyword_spelling_parts k
    have hkind : wordKind (c :: cs) = .keyword k := by
      rw [wordKind, ← hspelling, String.ofList_toList, ofSpelling?_spelling]
    exact ⟨c, cs, hspelling, hkind ▸ .word hc hcs⟩
  | @identifier c cs hc hcs hk =>
    have hkind : wordKind (c :: cs) = .identifier := by
      unfold wordKind
      split
      · rename_i k hsome
        exact absurd (spelling_of_ofSpelling? hsome) (hk k)
      · rfl
    exact ⟨c, cs, rfl, hkind ▸ .word hc hcs⟩
  | string h => exact ⟨_, _, rfl, .string h⟩
  | whole h => exact ⟨_, _, rfl, .whole (h _ List.mem_cons_self) fun d hd => h d (List.mem_cons_of_mem _ hd)⟩
  | fraction h h' =>
    exact ⟨_, _, rfl, .fraction (h _ List.mem_cons_self) (fun d hd => h d (List.mem_cons_of_mem _ hd)) h'⟩

theorem spelling_of_ofChar? {m : Mark} (h : Mark.ofChar? c = some m) : m.spelling.toList = [c] := by
  unfold Mark.ofChar? at h
  split at h <;> cases h <;> rfl

theorem spelling_of_withEqual? {m m' : Mark} (h : Mark.ofChar? c = some m') (hm : m'.withEqual? = some m) :
    m.spelling.toList = [c, '='] := by
  have hc := spelling_of_ofChar? h
  cases m' <;> cases hm <;> cases hc <;> rfl

theorem Begins.spells (h : Begins kind c cs) : Spells kind (c :: cs) := by
  cases h with
  | string h => exact .string h
  | whole hc hcs => exact .whole (List.forall_mem_cons.mpr ⟨hc, hcs⟩)
  | fraction hc hcs hds => exact .fraction (List.forall_mem_cons.mpr ⟨hc, hcs⟩) hds
  | word hc hcs =>
    unfold wordKind
    split
    · rename_i k hk
      have htext : k.spelling.toList = c :: cs := by
        rw [spelling_of_ofSpelling? hk, String.toList_ofList]
      exact htext ▸ .keyword k
    · rename_i hnone
      refine .identifier hc hcs fun k hk => ?_
      rw [← hk, ofSpelling?_spelling] at hnone
      cases hnone
  | mark hm => exact spelling_of_ofChar? hm ▸ .mark _
  | double hm hm' => exact spelling_of_withEqual? hm hm' ▸ .mark _

theorem spells_iff : Spells kind (c :: cs) ↔ Begins kind c cs := by
  refine ⟨fun h => ?_, Begins.spells⟩
  obtain ⟨c', cs', htext, hbegins⟩ := h.begins
  cases htext
  exact hbegins

/-- The first characters of marks are no others'. -/
theorem ofChar?_apart {m : Mark} (h : Mark.ofChar? c = some m) :
    c ∉ blanks ∧ c ≠ '"' ∧ c.isDigit = false ∧ isWordStart c = false := by
  unfold Mark.ofChar? at h
  split at h <;> cases h <;> decide

theorem isDigit_apart (h : c.isDigit = true) : c ∉ blanks ∧ c ≠ '"' ∧ isWordStart c = false := by
  refine ⟨fun hc => ?_, ?_, not_isWordStart_of_isDigit h⟩
  · simp only [blanks, List.mem_cons, List.not_mem_nil, or_false] at hc
    rcases hc with rfl | rfl | rfl | rfl <;> cases h
  · rintro rfl
    cases h

theorem isWordStart_apart (h : isWordStart c = true) : c ∉ blanks ∧ c ≠ '"' := by
  refine ⟨fun hc => ?_, ?_⟩
  · simp only [blanks, List.mem_cons, List.not_mem_nil, or_false] at hc
    rcases hc with rfl | rfl | rfl | rfl <;> cases h
  · rintro rfl
    cases h

theorem Begins.not_blank (h : Begins kind c cs) : c ∉ blanks := by
  cases h with
  | string => decide
  | whole hc | fraction hc => exact (isDigit_apart hc).1
  | word hc => exact (isWordStart_apart hc).1
  | mark hm | double hm => exact (ofChar?_apart hm).1

/-- Only strings go on behind a line end. -/
theorem Spells.no_line_end {text : List Char} (h : Spells kind text) (hkind : ∀ content, kind ≠ .string content) :
    '\n' ∉ text := by
  have hdigits : ∀ {run : List Char}, (∀ d ∈ run, d.isDigit = true) → '\n' ∉ run := fun hrun hmem =>
    absurd (hrun _ hmem) (by decide)
  cases h with
  | mark m => cases m <;> decide
  | keyword k => cases k <;> decide
  | identifier hc hcs =>
    intro hmem
    rcases List.mem_cons.mp hmem with rfl | hmem
    · exact absurd hc (by decide)
    · exact absurd (hcs _ hmem) (by decide)
  | string => exact absurd rfl (hkind _)
  | whole h => exact hdigits h
  | fraction h h' =>
    rw [← List.cons_append]
    intro hmem
    rcases List.mem_append.mp hmem with hmem | hmem
    · exact hdigits h hmem
    · exact hdigits h' (List.mem_of_ne_of_mem (by decide) hmem)

end

end Lox.Scan
