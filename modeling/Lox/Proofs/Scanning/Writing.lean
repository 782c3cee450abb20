import Lox.Proofs.Scanning.Seams

/-! # Scanning undoes writing

Lexemes are written one behind the other, each but the first behind a gap: blanks and comments, a blank in front.
A token ends where a blank is behind it (`Spells.longest`), and a gap has no items, so the scan gives back what
was written (`items_written`). In particular the tokens of any source can be written with single spaces between
them and scanned again. -/

namespace Lox.Scan

/-- A text of a token of this kind. -/
structure Lexeme where
  kind : Kind
  text : List Char
  spells : Spells kind text

/-- Blanks, and comments that end with their lines. -/
inductive Filler : List Char → Prop
  | nil : Filler []
  | blank {c : Char} {cs : List Char} (hc : c ∈ blanks) (h : Filler cs) : Filler (c :: cs)
  | comment {run cs : List Char} (hrun : '\n' ∉ run) (h : Filler cs) : Filler ('/' :: '/' :: (run ++ '\n' :: cs))

/-- What keeps two lexemes apart. -/
structure Gap (cs : List Char) : Prop where
  filler : Filler cs
  blank : ∃ c ∈ blanks, cs.head? = some c

/-- A lexeme, and what is written in front of it. -/
structure Entry where
  gap : List Char
  lexeme : Lexeme

/-- The text of some entries, one behind the other. -/
def written (es : List Entry) : List Char := es.flatMap fun e => e.gap ++ e.lexeme.text

/-- There is a gap in front of each entry but the first, which may have one too. -/
def Apart : List Entry → Prop
  | [] => True
  | e :: es => Filler e.gap ∧ ∀ e' ∈ es, Gap e'.gap

@[simp] theorem written_nil : written [] = [] := rfl

@[simp] theorem written_cons (e : Entry) (es : List Entry) :
    written (e :: es) = e.gap ++ e.lexeme.text ++ written es := rfl

theorem Apart.tail {e : Entry} {es : List Entry} (h : Apart (e :: es)) : Apart es := by
  cases es with
  | nil => trivial
  | cons e' es => exact ⟨(h.2 e' List.mem_cons_self).filler, fun e'' he => h.2 e'' (List.mem_cons_of_mem _ he)⟩

/-- Behind a lexeme is a blank, or nothing. -/
theorem Apart.behind {e : Entry} {es : List Entry} (h : Apart (e :: es)) : ∀ c ∈ (written es).head?, c ∈ blanks := by
  cases es with
  | nil => nofun
  | cons e' es =>
    obtain ⟨c, hc, hhead⟩ := (h.2 e' List.mem_cons_self).blank
    obtain ⟨cs, hgap⟩ := List.head?_eq_some_iff.mp hhead
    rw [written_cons, hgap]
    rintro d ⟨⟩
    exact hc

/-! ### Where tokens end -/

theorem blank_apart {c : Char} (h : c ∈ blanks) :
    c.isDigit = false ∧ isWordPart c = false ∧ c ≠ '.' ∧ c ≠ '=' ∧ c ≠ '/' := by
  simp only [blanks, List.mem_cons, List.not_mem_nil, or_false] at h
  rcases h with rfl | rfl | rfl | rfl <;> decide

section
variable {kind : Kind} {text behind : List Char}

/-- With a blank behind it, or nothing, a token is as long as it can be. -/
theorem Spells.longest (h : Spells kind text) (hbehind : ∀ c ∈ behind.head?, c ∈ blanks) :
    Longest kind text behind := by
  obtain ⟨c, cs, rfl, hbegins⟩ := h.begins
  have hdigit : ∀ c ∈ behind.head?, c.isDigit = false := fun c hc => (blank_apart (hbehind c hc)).1
  cases hbegins with
  | string hcontent => exact string_longest hcontent
  | whole hc hcs =>
    refine whole_longest hc hcs hdigit ?_
    rintro d rest rfl
    exact absurd rfl (blank_apart (hbehind '.' rfl)).2.2.1
  | fraction hc hcs hds => exact fraction_longest hc hcs hds hdigit
  | word hc hcs => exact word_longest hc hcs fun c hc => (blank_apart (hbehind c hc)).2.1
  | double hm hm' => exact double_longest hm hm'
  | mark hm =>
    refine mark_longest hm ?_
    rintro rest double rfl
    exact absurd rfl (blank_apart (hbehind '=' rfl)).2.2.2.1

/-- No token begins a comment. -/
theorem Spells.not_comment (h : Spells kind text) (hbehind : ∀ c ∈ behind.head?, c ∈ blanks) :
    ¬ ['/', '/'] <+: text ++ behind := by
  rintro ⟨rest, hrest⟩
  obtain ⟨c, cs, rfl, hbegins⟩ := h.begins
  obtain ⟨rfl, hslash⟩ := List.cons_eq_cons.mp hrest
  obtain ⟨hnil, rfl⟩ : cs = [] ∧ behind = '/' :: rest := by
    cases hbegins with
    | whole hc | word hc => cases hc
    | fraction hc => cases hc
    | mark => exact ⟨rfl, hslash.symm⟩
    | double hm hm' =>
      cases hm
      cases hm'
  exact absurd rfl (blank_apart (hbehind '/' rfl)).2.2.2.2

theorem Spells.fits (h : Spells kind text) (hbehind : ∀ c ∈ behind.head?, c ∈ blanks) :
    Fits (.token kind) text behind := .token (h.longest hbehind) (h.not_comment hbehind)

/-- What fits is the first part. -/
theorem Fits.partsOf {verdict : Verdict} (h : Fits verdict text behind) :
    partsOf (text ++ behind) = ⟨verdict, text⟩ :: partsOf behind := by
  obtain ⟨c, cs, rfl⟩ := List.exists_cons_of_ne_nil h.text_ne_nil
  have hcut := h.eq_cut (List.cons_append : (c :: cs) ++ behind = c :: (cs ++ behind))
  rw [List.cons_append, Scan.partsOf, hcut]

end

/-! ### What was written -/

/-- What is cut from filler is skipped, whatever is behind it. -/
theorem Filler.partsOf {gap : List Char} (h : Filler gap) (behind : List Char) :
    ∃ skipped : List Part, Scan.partsOf (gap ++ behind) = skipped ++ Scan.partsOf behind ∧ textOf skipped = gap ∧
      ∀ p ∈ skipped, p.verdict = .skipped := by
  induction h with
  | nil => exact ⟨[], rfl, rfl, nofun⟩
  | @blank c cs hc h ih =>
    obtain ⟨skipped, hparts, htext, hskipped⟩ := ih
    refine ⟨⟨.skipped, [c]⟩ :: skipped, ?_, ?_, List.forall_mem_cons.mpr ⟨rfl, hskipped⟩⟩
    · exact (Fits.blank hc).partsOf.trans (congrArg _ hparts)
    · rw [textOf_cons, htext]
      rfl
  | @comment run cs hrun h ih =>
    obtain ⟨skipped, hparts, htext, hskipped⟩ := ih
    -- The line end behind a comment is a part of its own.
    have hcomment : Fits .skipped ('/' :: '/' :: run) ('\n' :: (cs ++ behind)) := by
      refine .comment hrun ?_
      rintro c ⟨⟩
      rfl
    have hline : Fits .skipped ['\n'] (cs ++ behind) := .blank (by decide)
    refine ⟨⟨.skipped, '/' :: '/' :: run⟩ :: ⟨.skipped, ['\n']⟩ :: skipped, ?_, ?_,
      List.forall_mem_cons.mpr ⟨rfl, List.forall_mem_cons.mpr ⟨rfl, hskipped⟩⟩⟩
    · have happend :
          '/' :: '/' :: (run ++ '\n' :: cs) ++ behind = '/' :: '/' :: run ++ '\n' :: (cs ++ behind) := by simp
      rw [happend, hcomment.partsOf]
      exact congrArg _ (hline.partsOf.trans (congrArg _ hparts))
    · rw [textOf_cons, textOf_cons, htext]
      rfl

theorem itemsOf_skipped : ∀ {skipped : List Part} {read : List Char}, (∀ p ∈ skipped, p.verdict = .skipped) →
    itemsOf read skipped = []
  | [], _, _ => rfl
  | p :: skipped, read, h => by
    rw [itemsOf, h p List.mem_cons_self, itemsOf_skipped fun q hq => h q (List.mem_cons_of_mem _ hq)]
    rfl

/-- The tokens of entries that are written behind this text, and the end of input. The line of a token is one more
    than there are line ends up to the end of its lexeme. -/
def tokensWritten (before : List Char) : List Entry → List Token
  | [] => [.atEnd (1 + before.count '\n')]
  | e :: es =>
    let before := before ++ (e.gap ++ e.lexeme.text)
    ⟨e.lexeme.kind, String.ofList e.lexeme.text, 1 + before.count '\n'⟩ :: tokensWritten before es

theorem itemsOf_written : ∀ {es : List Entry} {before : List Char}, Apart es →
    itemsOf before (partsOf (written es)) ++ [.ok (.atEnd (1 + (before ++ written es).count '\n'))] =
      (tokensWritten before es).map .ok
  | [], before, _ => by
    rw [written_nil, List.append_nil, partsOf]
    rfl
  | e :: es, before, h => by
    obtain ⟨skipped, hparts, htext, hskipped⟩ := h.1.partsOf (e.lexeme.text ++ written es)
    have hfirst := (e.lexeme.spells.fits h.behind).partsOf
    rw [tokensWritten, List.map_cons, ← itemsOf_written h.tail, written_cons, List.append_assoc, hparts, hfirst,
      itemsOf_append, itemsOf_skipped hskipped, htext, itemsOf]
    simp [Verdict.item?]

theorem items_of_apart {es : List Entry} (h : Apart es) :
    items (String.ofList (written es)) = (tokensWritten [] es).map .ok := by
  rw [← itemsOf_written h, items_eq_content, content, String.toList_ofList]
  rfl

/-! ### What was scanned -/

theorem errors_map_ok (ts : List Token) : errors (ts.map .ok) = [] :=
  List.filterMap_eq_nil_iff.mpr fun i hi => by
    obtain ⟨t, -, rfl⟩ := List.mem_map.mp hi
    rfl

theorem tokens_map_ok (ts : List Token) : tokens (ts.map .ok) = ts := by
  rw [tokens, List.filterMap_map]
  exact List.filterMap_some

/-- What a token is, and its text. -/
def unlined (t : Token) : Kind × String := (t.kind, t.lexeme)

theorem unlined_tokensWritten : ∀ (es : List Entry) (before : List Char), (tokensWritten before es).map unlined =
    es.map (fun e => (e.lexeme.kind, String.ofList e.lexeme.text)) ++ [(.endOfInput, "")]
  | [], _ => rfl
  | e :: es, before => by
    rw [tokensWritten, List.map_cons, unlined_tokensWritten es]
    rfl

theorem Fits.spells {kind : Kind} {text behind : List Char} (h : Fits (.token kind) text behind) :
    Spells kind text := by
  cases h with
  | token h => exact h.spells

/-- The tokens of a text have texts of their kinds. -/
theorem itemsOf_spells : ∀ {parts : List Part} {read : List Char}, Tiles parts →
    ∀ t, .ok t ∈ itemsOf read parts → Spells t.kind t.lexeme.toList
  | p :: parts, read, ⟨hfits, hparts⟩, t, ht => by
    rcases List.mem_append.mp ht with ht | ht
    · have hitem := Option.mem_toList.mp ht
      cases hverdict : p.verdict with
      | token kind =>
        rw [hverdict] at hfits hitem
        cases hitem
        rw [String.toList_ofList]
        exact hfits.spells
      | skipped | error cause =>
        rw [hverdict] at hitem
        cases hitem
    · exact itemsOf_spells hparts t ht

theorem spells_of_mem_content {source : String} {t : Token} (h : t ∈ tokens (content source)) :
    Spells t.kind t.lexeme.toList := by
  obtain ⟨i, hi, hit⟩ := List.mem_filterMap.mp h
  cases i with
  | error e => cases hit
  | ok u =>
    cases hit
    exact itemsOf_spells (tiles_partsOf source.toList) t hi

theorem toList_intercalate_space (text : String) (texts : List String) :
    (String.intercalate " " (text :: texts)).toList = text.toList ++ texts.flatMap fun u => ' ' :: u.toList := by
  induction texts generalizing text with
  | nil => simp
  | cons u texts ih => simp [String.intercalate_cons_cons, ih]

/-- Tokens can be written with a space in front of each. -/
theorem exists_spaced : ∀ {ts : List Token}, (∀ t ∈ ts, Spells t.kind t.lexeme.toList) → ∃ es : List Entry,
    (∀ e ∈ es, Gap e.gap) ∧ written es = ts.flatMap (fun t => ' ' :: t.lexeme.toList) ∧
      es.map (fun e => (e.lexeme.kind, String.ofList e.lexeme.text)) = ts.map unlined
  | [], _ => ⟨[], nofun, rfl, rfl⟩
  | t :: ts, h => by
    obtain ⟨es, hgaps, htext, hwords⟩ := exists_spaced fun u hu => h u (List.mem_cons_of_mem _ hu)
    have hspace : Gap [' '] := ⟨.blank (by decide) .nil, ' ', by decide, rfl⟩
    refine ⟨⟨[' '], t.kind, t.lexeme.toList, h t List.mem_cons_self⟩ :: es,
      List.forall_mem_cons.mpr ⟨hspace, hgaps⟩, ?_, ?_⟩
    · rw [written_cons, htext]
      rfl
    · rw [List.map_cons, hwords, List.map_cons, unlined, String.ofList_toList]

/-- Tokens can be written with single spaces between them. -/
theorem exists_written : ∀ {ts : List Token}, (∀ t ∈ ts, Spells t.kind t.lexeme.toList) → ∃ es : List Entry,
    Apart es ∧ String.ofList (written es) = String.intercalate " " (ts.map Token.lexeme) ∧
      es.map (fun e => (e.lexeme.kind, String.ofList e.lexeme.text)) = ts.map unlined
  | [], _ => ⟨[], trivial, rfl, rfl⟩
  | t :: ts, h => by
    obtain ⟨es, hgaps, htext, hwords⟩ := exists_spaced fun u hu => h u (List.mem_cons_of_mem _ hu)
    refine ⟨⟨[], t.kind, t.lexeme.toList, h t List.mem_cons_self⟩ :: es, ⟨.nil, hgaps⟩, ?_, ?_⟩
    · rw [← String.toList_inj, String.toList_ofList, List.map_cons, toList_intercalate_space,
        List.flatMap_map, written_cons, htext]
      rfl
    · rw [List.map_cons, hwords, List.map_cons, unlined, String.ofList_toList]

/-- Lexemes that gaps keep apart are scanned as they were written, without an error, each on the line on which it
    ends. The tokens of any source, written with single spaces between them, are scanned without an error to the
    same tokens but for their lines. -/
theorem items_written :
    (∀ es : List Entry, Apart es → items (String.ofList (written es)) = (tokensWritten [] es).map .ok) ∧
    ∀ source : String, let spaced := String.intercalate " " ((tokens (content source)).map Token.lexeme)
      errors (items spaced) = [] ∧ (tokens (items spaced)).map unlined = (tokens (items source)).map unlined := by
  refine ⟨fun es h => items_of_apart h, fun source => ?_⟩
  intro spaced
  obtain ⟨es, hapart, htext, hwords⟩ :=
    exists_written fun t (ht : t ∈ tokens (content source)) => spells_of_mem_content ht
  have hitems : items spaced = (tokensWritten [] es).map .ok :=
    (congrArg items htext.symm).trans (items_of_apart hapart)
  rw [hitems, errors_map_ok, tokens_map_ok, unlined_tokensWritten, hwords, tokens_items, List.map_append]
  exact ⟨rfl, rfl⟩

/-- A number before a point, a mark behind the line of a comment, a string over two lines, a slash before a comment,
    and a word that begins with a keyword. -/
theorem items_written_close : ∃ es : List Entry, Apart es ∧
    String.ofList (written es) = "1 .\n//=\n== \"a\nb\" /\t// b\norchid" ∧
    items "1 .\n//=\n== \"a\nb\" /\t// b\norchid" = List.map .ok
      [⟨.number (Decimal.ofDigits ['1'] []).toFloat, "1", 1⟩, ⟨.mark .dot, ".", 1⟩, ⟨.mark .equalEqual, "==", 3⟩,
        ⟨.string "a\nb", "\"a\nb\"", 4⟩, ⟨.mark .slash, "/", 4⟩, ⟨.identifier, "orchid", 5⟩, .atEnd 5] := by
  have hspace : Gap [' '] := ⟨.blank (by decide) .nil, ' ', by decide, rfl⟩
  have hcomment : Gap "\n//=\n".toList :=
    ⟨.blank (by decide) (.comment (show '\n' ∉ ['='] by decide) .nil), '\n', by decide, rfl⟩
  have htab : Gap "\t// b\n".toList :=
    ⟨.blank (by decide) (.comment (show '\n' ∉ [' ', 'b'] by decide) .nil), '\t', by decide, rfl⟩
  have hdigits : ∀ d ∈ ['1'], d.isDigit = true := List.all_eq_true.mp (by decide)
  have hparts : ∀ d ∈ "rchid".toList, isWordPart d = true := List.all_eq_true.mp (by decide)
  have hword : ∀ k : Keyword, k.spelling ≠ "orchid" := fun k => by cases k <;> decide
  let es : List Entry :=
    [⟨[], _, _, .whole hdigits⟩, ⟨[' '], _, _, .mark .dot⟩, ⟨"\n//=\n".toList, _, _, .mark .equalEqual⟩,
    ⟨[' '], _, _, .string (show '"' ∉ ['a', '\n', 'b'] by decide)⟩, ⟨[' '], _, _, .mark .slash⟩,
    ⟨"\t// b\n".toList, _, _, .identifier (c := 'o') (by decide) hparts hword⟩]
  have hapart : Apart es :=
    ⟨.nil, by simp only [List.forall_mem_cons]; exact ⟨hspace, hcomment, hspace, hspace, htab, nofun⟩⟩
  have htext : String.ofList (written es) = "1 .\n//=\n== \"a\nb\" /\t// b\norchid" := rfl
  exact ⟨es, hapart, htext, htext ▸ items_written.1 es hapart⟩

end Lox.Scan
