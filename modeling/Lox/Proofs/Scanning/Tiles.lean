import Lox.Proofs.Scanning.Cuts
import Lox.Proofs.Scanning.Scanner

/-! # Scanning tiles the source

A source is cut into parts that lie behind one another and leave nothing out; each fits what is behind it,
and the rules leave no choice (`Tiles.eq_partsOf`). The items of the source are those of its parts, each on
the line that its part ends on, and the end of input. The scanner that walks over the bytes never stops and
hands out just these, with its two indices at the ends of the part (`scans_tiles`). -/

namespace Lox.Scan

/-- A stretch of a source, and what it is. -/
structure Part where
  verdict : Verdict
  text : List Char

def textOf (parts : List Part) : List Char := parts.flatMap Part.text

/-- Every part fits the text of those behind it. -/
def Tiles : List Part → Prop
  | [] => True
  | p :: parts => Fits p.verdict p.text (textOf parts) ∧ Tiles parts

/-- The items of parts that stand behind what was read. The line of an item is one more than there are line
    ends up to the end of its part. -/
def itemsOf (read : List Char) : List Part → List Item
  | [] => []
  | p :: parts =>
    (p.verdict.item? p.text (1 + (read ++ p.text).count '\n')).toList ++ itemsOf (read ++ p.text) parts

/-- The place in the bytes of a source that is behind this text. -/
def offset (before : List Char) : String.Pos.Raw := (String.ofList before).rawEndPos

/-! ### The parts of a text -/

/-- The parts that a text is cut into. -/
def partsOf : List Char → List Part
  | [] => []
  | c :: cs => ⟨(cut c cs).verdict, (cut c cs).stretch⟩ :: partsOf (cut c cs).rest
termination_by cs => cs.length
decreasing_by exact cut_rest_lt c cs

theorem partsOf_cons (c : Char) (cs : List Char) :
    partsOf (c :: cs) = ⟨(cut c cs).verdict, (cut c cs).stretch⟩ :: partsOf (cut c cs).rest := by
  rw [partsOf]

@[simp] theorem textOf_nil : textOf [] = [] := rfl

@[simp] theorem textOf_cons (p : Part) (parts : List Part) : textOf (p :: parts) = p.text ++ textOf parts := rfl

theorem textOf_append (parts parts' : List Part) : textOf (parts ++ parts') = textOf parts ++ textOf parts' :=
  List.flatMap_append

theorem textOf_partsOf (cs : List Char) : textOf (partsOf cs) = cs := by
  fun_induction partsOf cs with
  | case1 => rfl
  | case2 c cs ih => rw [textOf_cons, ih, cut_stretch_append_rest]

theorem tiles_partsOf (cs : List Char) : Tiles (partsOf cs) := by
  fun_induction partsOf cs with
  | case1 => trivial
  | case2 c cs ih =>
    refine ⟨?_, ih⟩
    rw [textOf_partsOf]
    exact fits_cut c cs

theorem Fits.text_ne_nil {verdict : Verdict} {text behind : List Char} (h : Fits verdict text behind) : text ≠ [] := by
  cases h with
  | token h =>
    obtain ⟨c, cs, rfl, -⟩ := h.spells.begins
    nofun
  | blank | comment | unexpected | unterminated => nofun

/-- The rules leave no choice of parts. -/
theorem Tiles.eq_partsOf : ∀ {parts : List Part}, Tiles parts → parts = partsOf (textOf parts)
  | [], _ => by rw [textOf_nil, partsOf]
  | p :: parts, ⟨hfits, hparts⟩ => by
    obtain ⟨c, cs, htext⟩ := List.exists_cons_of_ne_nil hfits.text_ne_nil
    have happend : p.text ++ textOf parts = c :: (cs ++ textOf parts) := by rw [htext, List.cons_append]
    rw [textOf_cons, happend, partsOf, hfits.eq_cut happend, ← hparts.eq_partsOf]

theorem Tiles.fits {before behind : List Part} {p : Part} (h : Tiles (before ++ p :: behind)) :
    Fits p.verdict p.text (textOf behind) := by
  induction before with
  | nil => exact h.1
  | cons _ _ ih => exact ih h.2

/-! ### Items, lines and spans -/

/-- The line that the scanner is on counts the line ends in all that was read before. -/
theorem lineAfter_eq {line : Nat} {read stretch : List Char} (h : line = 1 + read.count '\n') :
    lineAfter line stretch = 1 + (read ++ stretch).count '\n' := by
  rw [h, lineAfter, List.count_append, Nat.add_assoc]

theorem itemsFrom_partsOf (read cs : List Char) : itemsFrom (1 + read.count '\n') cs =
    itemsOf read (partsOf cs) ++ [.ok (.atEnd (1 + (read ++ cs).count '\n'))] := by
  fun_induction partsOf cs generalizing read with
  | case1 => simp [itemsOf]
  | case2 c cs ih =>
    rw [itemsFrom_cons, lineAfter_eq rfl, ih, List.append_assoc read, cut_stretch_append_rest,
      itemsOf, List.append_assoc]

theorem Fits.ne_end {verdict : Verdict} {text behind : List Char} (h : Fits verdict text behind) :
    verdict ≠ .token .endOfInput := by
  rintro rfl
  cases h with
  | token h => cases h.spells

theorem Verdict.eq_token {verdict : Verdict} {text : List Char} {line : Nat} {t : Token}
    (h : verdict.item? text line = some (.ok t)) : verdict = .token t.kind := by
  cases verdict with
  | token kind =>
    cases h
    rfl
  | skipped | error cause => cases h

/-- No item of a part is the end of input. -/
theorem itemsOf_not_end : ∀ {parts : List Part} {read : List Char}, Tiles parts →
    ∀ t, .ok t ∈ itemsOf read parts → t.kind ≠ .endOfInput
  | p :: parts, read, ⟨hfits, hparts⟩, t, ht => by
    rcases List.mem_append.mp ht with ht | ht
    · rintro hend
      have hverdict := Verdict.eq_token (Option.mem_toList.mp ht)
      exact hfits.ne_end (hend ▸ hverdict)
    · exact itemsOf_not_end hparts t ht

theorem offset_eq (cs : List Char) : offset cs = ⟨String.utf8Len cs⟩ :=
  congrArg String.Pos.Raw.mk (String.utf8ByteSize_ofList cs)

/-- A part of a source is what its bytes are from one character boundary to another. -/
theorem extract_offset {source : String} {before text behind : List Char}
    (h : source.toList = before ++ (text ++ behind)) :
    (offset before).IsValid source ∧ (offset (before ++ text)).IsValid source ∧
      (offset before).extract source (offset (before ++ text)) = String.ofList text := by
  rw [← List.append_assoc] at h
  rw [offset_eq, offset_eq, ← String.Pos.Raw.isValid_eq_true_iff, ← String.Pos.Raw.isValid_eq_true_iff]
  refine ⟨isValid_before (h.trans (List.append_assoc _ _ _)), isValid_before h, ?_⟩
  rw [← source.ofList_toList, h, String.utf8Len_append]
  exact String.extract_of_valid before text behind

/-- A token that a slash is in is that slash, or begins with a quote. -/
theorem Begins.slash {kind : Kind} {c : Char} {cs before after : List Char} (h : Begins kind c cs)
    (hslash : c :: cs = before ++ '/' :: after) : c = '"' ∨ before = [] ∧ after = [] := by
  have hmem : '/' ∈ c :: cs := hslash ▸ List.mem_append_right _ List.mem_cons_self
  cases h with
  | string => exact .inl rfl
  | whole hc hcs =>
    have hdigits : ∀ d ∈ c :: cs, d.isDigit = true := List.forall_mem_cons.mpr ⟨hc, hcs⟩
    exact absurd (hdigits _ hmem) (by decide)
  | @fraction _ d cs ds hc hcs hds =>
    have hdigits : ∀ d ∈ c :: cs, d.isDigit = true := List.forall_mem_cons.mpr ⟨hc, hcs⟩
    rw [← List.cons_append] at hmem
    rcases List.mem_append.mp hmem with hmem | hmem
    · exact absurd (hdigits _ hmem) (by decide)
    rcases List.mem_cons.mp hmem with hmem | hmem
    · exact absurd hmem (by decide)
    · exact absurd (hds _ hmem) (by decide)
  | word hc hcs =>
    have hparts : ∀ d ∈ c :: cs, isWordPart d = true := List.forall_mem_cons.mpr ⟨isWordPart_of_start hc, hcs⟩
    exact absurd (hparts _ hmem) (by decide)
  | mark =>
    have hlength := congrArg List.length hslash
    simp only [List.length_append, List.length_cons, List.length_nil] at hlength
    exact .inr ⟨List.length_eq_zero_iff.mp (by omega), List.length_eq_zero_iff.mp (by omega)⟩
  | double hm hdouble =>
    rcases List.mem_cons.mp hmem with rfl | hmem
    · cases hm
      cases hdouble
    · exact absurd (List.mem_singleton.mp hmem) (by decide)

/-- Where two slashes begin inside a part, it is one that begins with a quote, or it is a comment. -/
theorem Fits.slashes {verdict : Verdict} {text behind before rest : List Char} (h : Fits verdict text behind)
    (hslashes : text ++ behind = before ++ '/' :: '/' :: rest) (hin : before.length < text.length) :
    text.head? = some '"' ∨ verdict = .skipped ∧ ['/', '/'] <+: text := by
  obtain ⟨after, rfl, hafter⟩ : ∃ after, text = before ++ '/' :: after ∧ '/' :: rest = after ++ behind := by
    rcases List.append_eq_append_iff.mp hslashes with ⟨gap, rfl, -⟩ | ⟨_ | ⟨d, after⟩, rfl, hafter⟩
    · simp at hin
    · simp at hin
    · rw [List.cons_append, List.cons.injEq] at hafter
      obtain ⟨rfl, hafter⟩ := hafter
      exact ⟨after, rfl, hafter⟩
  generalize htext : before ++ '/' :: after = text at h hslashes
  cases h with
  | blank hc =>
    rcases List.append_eq_singleton_iff.mp htext with ⟨-, hslash⟩ | ⟨-, hslash⟩
    · cases hslash
      exact absurd hc (by decide)
    · cases hslash
  | comment => exact .inr ⟨rfl, _, rfl⟩
  | token h hcomment =>
    obtain ⟨c, cs, rfl, hbegins⟩ := h.spells.begins
    rcases hbegins.slash htext.symm with rfl | ⟨rfl, rfl⟩
    · exact .inl rfl
    · cases htext
      exact absurd ⟨rest, hslashes.symm⟩ hcomment
  | unexpected hnone =>
    rcases List.append_eq_singleton_iff.mp htext with ⟨-, hslash⟩ | ⟨-, hslash⟩
    · cases hslash
      exact absurd (.mark .slash) (hnone _ _)
    · cases hslash
  | unterminated => exact .inl rfl

/-! ### What the scanner hands out -/

namespace Scanner

theorem ask_congr {s s' : Scanner} (h : s.next = s'.next) : ∀ k, s.ask k = s'.ask k
  | 0 => h
  | k + 1 => by rw [ask, ask, h]

theorem ask_done {s : Scanner} (h : s.size < s.curr) (k : Nat) : s.ask k = some (none, s) := by
  induction k with
  | zero => exact next_done h
  | succ k ih =>
    rw [ask, next_done h]
    exact ih

theorem eq_skipped_of_item? {verdict : Verdict} {text : List Char} {line : Nat} (h : verdict.item? text line = none) :
    verdict = .skipped := by
  cases verdict with
  | skipped => rfl
  | token kind | error cause => cases h

/-- Asked for one item after the other, a scanner hands out the items of what is left, and then nothing more. -/
theorem At.ask_eq {s : Scanner} {before rest : List Char} (h : s.At before rest) (k : Nat) :
    ∃ s', s.ask k = some ((itemsFrom s.line rest)[k]?, s') := by
  fun_induction partsOf rest generalizing s before k with
  | case1 =>
    rw [itemsFrom_nil]
    cases k with
    | zero => exact ⟨_, h.next_end⟩
    | succ k =>
      rw [ask, h.next_end]
      exact ⟨_, ask_done (Nat.lt_succ_of_le h.size_eq.le) k⟩
  | case2 c cs ih =>
    rw [itemsFrom_cons]
    cases hitem : (cut c cs).verdict.item? (cut c cs).stretch (lineAfter s.line (cut c cs).stretch) with
    | none =>
      rw [ask_congr (h.next_skipped (eq_skipped_of_item? hitem))]
      exact ih h.past k
    | some i =>
      cases k with
      | zero => exact ⟨_, h.next_item hitem⟩
      | succ k =>
        rw [ask, h.next_item hitem]
        exact ih h.past k

/-- When a scanner hands out the item of a part, its indices are at the two ends of the part. -/
theorem At.ask_part {s : Scanner} {read rest : List Char} (h : s.At read rest) (hline : s.line = 1 + read.count '\n')
    {passed behind : List Part} {p : Part} (hparts : partsOf rest = passed ++ p :: behind) {i : Item}
    (hitem : p.verdict.item? p.text (1 + (read ++ textOf passed ++ p.text).count '\n') = some i) :
    ∃ s', s.ask (itemsOf read passed).length = some (some i, s') ∧
      s'.start = String.utf8Len (read ++ textOf passed) ∧
      s'.curr = String.utf8Len (read ++ textOf passed ++ p.text) := by
  induction passed generalizing s read rest with
  | nil =>
    rcases rest with _ | ⟨c, cs⟩
    · rw [partsOf] at hparts
      cases hparts
    obtain ⟨rfl, -⟩ := List.cons_eq_cons.mp ((partsOf_cons c cs).symm.trans hparts)
    rw [textOf_nil, List.append_nil] at hitem ⊢
    rw [← lineAfter_eq hline] at hitem
    exact ⟨_, h.next_item hitem, h.curr, h.past.curr⟩
  | cons q passed ih =>
    rcases rest with _ | ⟨c, cs⟩
    · rw [partsOf] at hparts
      cases hparts
    obtain ⟨rfl, hrest⟩ := List.cons_eq_cons.mp ((partsOf_cons c cs).symm.trans hparts)
    rw [textOf_cons, ← List.append_assoc] at hitem ⊢
    obtain ⟨s', hask, hends⟩ := ih h.past (lineAfter_eq hline) hrest hitem
    refine ⟨s', ?_, hends⟩
    rw [itemsOf, ← lineAfter_eq hline]
    cases hpassed : (cut c cs).verdict.item? (cut c cs).stretch (lineAfter s.line (cut c cs).stretch) with
    | none => exact (ask_congr (h.next_skipped (eq_skipped_of_item? hpassed)) _).trans hask
    | some j =>
      show s.ask (_ + 1) = _
      rw [ask, h.next_item hpassed]
      exact hask

end Scanner

/-- A source has one division into parts each of which fits what is behind it: a token is the longest that a
    rule allows, what is skipped is blank or a comment, and errors are what no token begins. Each part is the
    source between two character boundaries, the second being that of the next part, and where two slashes
    begin in it, it begins with a quote or is a comment. The items of the source are those of its parts, each on
    the line on which its part ends, and then the one end of input. The scanner that walks over the bytes is never
    stopped by a read or a slice: it hands out just these items, and for each one its start and its place are the two
    ends of the part. -/
theorem scans_tiles (source : String) : ∃ parts : List Part,
    (∀ parts', textOf parts' = source.toList ∧ Tiles parts' ↔ parts' = parts) ∧
    (∀ before p behind, parts = before ++ p :: behind →
      let start := offset (textOf before)
      let stop := offset (textOf before ++ p.text)
      start.IsValid source ∧ stop.IsValid source ∧ start.extract source stop = String.ofList p.text ∧
      Fits p.verdict p.text (textOf behind) ∧
      (∀ skipped rest, p.text ++ textOf behind = skipped ++ '/' :: '/' :: rest → skipped.length < p.text.length →
        p.text.head? = some '"' ∨ p.verdict = .skipped ∧ ['/', '/'] <+: p.text) ∧
      ∀ i, p.verdict.item? p.text (1 + (textOf before ++ p.text).count '\n') = some i →
        ∃ s, (Scanner.ofText source).ask (itemsOf [] before).length = some (some i, s) ∧
          s.start = start.byteIdx ∧ s.curr = stop.byteIdx) ∧
    items source = itemsOf [] parts ++ [.ok (.atEnd (1 + source.toList.count '\n'))] ∧
    (∀ t, .ok t ∈ itemsOf [] parts → t.kind ≠ .endOfInput) ∧
    ∀ k, ∃ s, (Scanner.ofText source).ask k = some ((items source)[k]?, s) := by
  have htext := textOf_partsOf source.toList
  have htiles := tiles_partsOf source.toList
  have hbegin : (Scanner.ofText source).At [] source.toList := ⟨rfl, rfl⟩
  refine ⟨partsOf source.toList, fun parts' => ⟨?_, ?_⟩, ?_, itemsFrom_partsOf [] _, itemsOf_not_end htiles,
    hbegin.ask_eq⟩
  · rintro ⟨htext', htiles'⟩
    rw [← htext']
    exact htiles'.eq_partsOf
  · rintro rfl
    exact ⟨htext, htiles⟩
  · intro before p behind hparts start stop
    have hask := fun i => hbegin.ask_part rfl hparts (i := i)
    rw [hparts] at htext htiles
    rw [textOf_append, textOf_cons] at htext
    obtain ⟨hstart, hstop, hextract⟩ := extract_offset htext.symm
    refine ⟨hstart, hstop, hextract, htiles.fits, fun skipped rest hslashes hin => htiles.fits.slashes hslashes hin,
      fun i hitem => ?_⟩
    obtain ⟨s, hask, hends⟩ := hask i hitem
    refine ⟨s, hask, ?_⟩
    simpa only [start, stop, offset_eq, List.nil_append] using hends

end Lox.Scan
