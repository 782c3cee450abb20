import Lox.Proofs.Scanning.Tiles

/-! # Scanning two sources as one

A line end between two sources is a stretch of its own, unless it is inside a string that nothing ends. All
other stretches are cut as they were: what is behind a line end does not change what is in front of it
(`partsOf_seam`). So the tokens of two sources without errors, one below the other, are those of the first
and then those of the second, on later lines (`tokens_seam`). -/

namespace Lox

/-- The token, so many lines below. -/
def Token.below (lines : Nat) (t : Token) : Token := { t with line := t.line + lines }

namespace Scan

/-! ### One stretch -/

section
variable {p : Char → Bool} {x : Char} {rest : List Char}

theorem takeWhile_seam (hx : p x = false) (cs : List Char) : (cs ++ x :: rest).takeWhile p = cs.takeWhile p := by
  induction cs with
  | nil => exact List.takeWhile_cons_of_neg (by simp [hx])
  | cons c cs ih =>
    rw [List.cons_append, List.takeWhile_cons, List.takeWhile_cons]
    split
    · rw [ih]
    · rfl

theorem dropWhile_seam (hx : p x = false) (cs : List Char) :
    (cs ++ x :: rest).dropWhile p = cs.dropWhile p ++ x :: rest := by
  induction cs with
  | nil => exact List.dropWhile_cons_of_neg (by simp [hx])
  | cons c cs ih =>
    rw [List.cons_append, List.dropWhile_cons, List.dropWhile_cons]
    split
    · exact ih
    · rfl

end

/-- The same stretch, with more behind it. -/
def Cut.extend (piece : Cut) (more : List Char) : Cut := { piece with rest := piece.rest ++ more }

section
variable {c : Char} (cs rest : List Char)

theorem cutComment_seam : cutComment c (cs ++ '\n' :: rest) = (cutComment c cs).extend ('\n' :: rest) := by
  unfold cutComment
  rw [takeWhile_seam (by decide), dropWhile_seam (by decide)]
  rfl

theorem cutString_seam (h : (cutString c cs).verdict ≠ .error .unterminatedString) :
    cutString c (cs ++ '\n' :: rest) = (cutString c cs).extend ('\n' :: rest) := by
  unfold cutString at *
  cases hclosing : cs.dropWhile (· != '"') with
  | nil =>
    rw [hclosing] at h
    exact absurd rfl h
  | cons closing behind =>
    have hsplit := @List.takeWhile_append_dropWhile _ (· != '"') cs
    rw [hclosing] at hsplit
    have hcontent : ∀ d ∈ cs.takeWhile (· != '"'), (d != '"') = true := fun d hd =>
      List.mem_takeWhile_imp (p := (· != '"')) hd
    have hquote : ∀ d ∈ (closing :: (behind ++ '\n' :: rest)).head?, (d != '"') = false := by
      rintro d ⟨⟩
      exact not_of_head_dropWhile cs closing (by rw [hclosing]; rfl)
    have happend : cs ++ '\n' :: rest = cs.takeWhile (· != '"') ++ closing :: (behind ++ '\n' :: rest) := by
      conv_lhs => rw [← hsplit]
      rw [List.append_assoc, List.cons_append]
    rw [happend, takeWhile_run hcontent hquote, dropWhile_run hcontent hquote]
    rfl

/-- Behind the digits comes a point with a digit, or something else, whatever is added at the end. -/
theorem cutNumber_seam : cutNumber (cs ++ '\n' :: rest) = (cutNumber cs).extend ('\n' :: rest) := by
  unfold cutNumber
  rw [takeWhile_seam (by decide), dropWhile_seam (by decide)]
  generalize cs.dropWhile Char.isDigit = behind
  split
  · rename_i d after hpoint
    rcases behind with _ | ⟨point, _ | ⟨d', behind⟩⟩
    · cases hpoint
    · simp only [List.cons_append, List.cons.injEq] at hpoint
      obtain ⟨rfl, rfl, rfl⟩ := hpoint
      rfl
    · simp only [List.cons_append, List.cons.injEq] at hpoint
      obtain ⟨rfl, rfl, rfl⟩ := hpoint
      by_cases hd : d'.isDigit = true
      · simp only [hd, if_true]
        rw [takeWhile_seam (by decide), dropWhile_seam (by decide)]
        rfl
      · simp only [hd]
        rfl
  · rename_i hnone
    split
    · exact absurd rfl (hnone _ _)
    · rfl

theorem cutWord_seam : cutWord (cs ++ '\n' :: rest) = (cutWord cs).extend ('\n' :: rest) := by
  unfold cutWord
  rw [takeWhile_seam (by decide), dropWhile_seam (by decide)]
  rfl

theorem cutMark_seam : cutMark c (cs ++ '\n' :: rest) = (cutMark c cs).extend ('\n' :: rest) := by
  unfold cutMark
  cases Mark.ofChar? c with
  | none => rfl
  | some m =>
    cases cs with
    | nil => rfl
    | cons d cs =>
      dsimp only [List.cons_append]
      split
      · rename_i hcons hdouble
        obtain ⟨rfl, rfl⟩ := List.cons.inj hcons
        rw [hdouble]
        rfl
      · rename_i hnot
        split
        · rename_i hcons hdouble
          obtain ⟨rfl, rfl⟩ := List.cons.inj hcons
          exact absurd hdouble (hnot _ _ rfl)
        · rfl

/-- A stretch is the same whatever is behind the next line end, unless it is a string that nothing ends. -/
theorem cut_seam (h : (cut c cs).verdict ≠ .error .unterminatedString) :
    cut c (cs ++ '\n' :: rest) = (cut c cs).extend ('\n' :: rest) := by
  have hhead : (cs ++ '\n' :: rest).head? = some '/' ↔ cs.head? = some '/' := by
    cases cs <;> simp
  unfold cut at *
  simp only [Bool.and_eq_true, beq_iff_eq, hhead] at *
  split
  · rfl
  split
  · exact cutComment_seam cs rest
  split
  · rename_i hblank hcomment hquote
    rw [if_neg hblank, if_neg hcomment, if_pos hquote] at h
    exact cutString_seam cs rest h
  split
  · exact cutNumber_seam (c :: cs) rest
  split
  · exact cutWord_seam (c :: cs) rest
  · exact cutMark_seam cs rest

/-! ### All stretches -/

theorem partsOf_seam (h : ∀ p ∈ partsOf cs, p.verdict ≠ .error .unterminatedString) :
    partsOf (cs ++ '\n' :: rest) = partsOf cs ++ ⟨.skipped, ['\n']⟩ :: partsOf rest := by
  fun_induction partsOf cs with
  | case1 => rw [List.nil_append, partsOf]; rfl
  | case2 c cs ih =>
    rw [List.cons_append, partsOf, cut_seam cs rest (h _ List.mem_cons_self)]
    rw [List.cons_append]
    exact congrArg _ (ih fun p hp => h p (List.mem_cons_of_mem _ hp))

end

/-! ### Items and tokens -/

/-- The item, so many lines below. -/
def Item.below (lines : Nat) : Item → Item
  | .ok t => .ok (t.below lines)
  | .error e => .error { e with line := e.line + lines }

theorem itemsOf_append : ∀ (parts parts' : List Part) (read : List Char),
    itemsOf read (parts ++ parts') = itemsOf read parts ++ itemsOf (read ++ textOf parts) parts'
  | [], _, _ => by rw [List.nil_append, itemsOf, textOf_nil, List.append_nil, List.nil_append]
  | p :: parts, parts', read => by
    rw [List.cons_append, itemsOf, itemsOf_append parts, itemsOf, textOf_cons, List.append_assoc, List.append_assoc]

/-- What was read before moves the items down by as many lines as it has. -/
theorem itemsOf_below (before : List Char) : ∀ (parts : List Part) (read : List Char),
    itemsOf (before ++ read) parts = (itemsOf read parts).map (Item.below (before.count '\n'))
  | [], _ => rfl
  | p :: parts, read => by
    have hline : 1 + (before ++ read ++ p.text).count '\n' = 1 + (read ++ p.text).count '\n' + before.count '\n' := by
      rw [List.append_assoc, List.count_append]
      omega
    rw [itemsOf, itemsOf, List.map_append, hline, List.append_assoc, itemsOf_below before parts]
    congr 1
    cases p.verdict <;> rfl

theorem errors_append (is js : List Item) : errors (is ++ js) = errors is ++ errors js := List.filterMap_append

theorem tokens_append (is js : List Item) : tokens (is ++ js) = tokens is ++ tokens js := List.filterMap_append

theorem errors_below (lines : Nat) (is : List Item) :
    errors (is.map (Item.below lines)) = (errors is).map fun e => { e with line := e.line + lines } := by
  induction is with
  | nil => rfl
  | cons i is ih =>
    rw [List.map_cons]
    cases i with
    | ok t => exact ih
    | error e => exact congrArg (_ :: ·) ih

theorem tokens_below (lines : Nat) (is : List Item) :
    tokens (is.map (Item.below lines)) = (tokens is).map (Token.below lines) := by
  induction is with
  | nil => rfl
  | cons i is ih =>
    rw [List.map_cons]
    cases i with
    | ok t => exact congrArg (_ :: ·) ih
    | error e => exact ih

/-- Every part that is an error is one of the errors. -/
theorem exists_error {p : Part} {cause : ScanError.Cause} {parts : List Part} {read : List Char} (hp : p ∈ parts)
    (hverdict : p.verdict = .error cause) : errors (itemsOf read parts) ≠ [] := by
  induction parts generalizing read with
  | nil => cases hp
  | cons p' parts ih =>
    rw [itemsOf, errors_append]
    rcases List.mem_cons.mp hp with rfl | hp
    · rw [hverdict]
      exact List.cons_ne_nil _ _
    · exact fun hnone => ih hp (List.append_eq_nil_iff.mp hnone).2

/-- The items of a source but for the end of input. -/
def content (source : String) : List Item := itemsOf [] (partsOf source.toList)

theorem items_eq_content (source : String) :
    items source = content source ++ [.ok (.atEnd (1 + source.toList.count '\n'))] :=
  itemsFrom_partsOf [] source.toList

theorem tokens_items (source : String) :
    tokens (items source) = tokens (content source) ++ [.atEnd (1 + source.toList.count '\n')] := by
  rw [items_eq_content, tokens_append]
  rfl

theorem errors_items (source : String) : errors (items source) = errors (content source) := by
  rw [items_eq_content, errors_append]
  exact List.append_nil _

theorem tokens_content_not_end {source : String} {t : Token} (h : t ∈ tokens (content source)) : t.isEnd = false := by
  obtain ⟨i, hi, hit⟩ := List.mem_filterMap.mp h
  cases i with
  | error e => cases hit
  | ok u =>
    cases hit
    have hkind := itemsOf_not_end (tiles_partsOf source.toList) t hi
    unfold Token.isEnd
    split
    · rename_i hend
      exact absurd hend hkind
    · rfl

/-- How many lines further down a source is when the other is above it. -/
def linesAbove (above : String) : Nat := above.toList.count '\n' + 1

/-- Two sources, of which the first has no errors, one below the other. -/
theorem content_seam {above below : String} (h : errors (items above) = []) :
    content (above ++ "\n" ++ below) = content above ++ (content below).map (Item.below (linesAbove above)) := by
  rw [errors_items] at h
  -- Only a string that nothing ends would go on behind the line end.
  have hclosed : ∀ p ∈ partsOf above.toList, p.verdict ≠ .error .unterminatedString := fun p hp hverdict =>
    exists_error hp hverdict h
  have htext : (above ++ "\n" ++ below).toList = above.toList ++ '\n' :: below.toList := by
    rw [String.toList_append, String.toList_append, List.append_assoc]
    rfl
  have hlines : linesAbove above = (above.toList ++ ['\n']).count '\n' := by
    rw [List.count_append]
    rfl
  rw [content, htext, partsOf_seam _ _ hclosed, itemsOf_append, textOf_partsOf, hlines, content,
    content, List.nil_append, itemsOf, ← itemsOf_below, List.append_nil]
  rfl

theorem errors_seam {above below : String} (h : errors (items above) = []) (h' : errors (items below) = []) :
    errors (items (above ++ "\n" ++ below)) = [] := by
  rw [errors_items, content_seam h, errors_append, errors_below, ← errors_items, ← errors_items, h, h']
  rfl

theorem tokens_seam {above below : String} (h : errors (items above) = []) :
    tokens (items (above ++ "\n" ++ below)) =
      tokens (content above) ++ (tokens (items below)).map (Token.below (linesAbove above)) := by
  have hlines : 1 + (above ++ "\n" ++ below).toList.count '\n' = 1 + below.toList.count '\n' + linesAbove above := by
    have hend : "\n".toList.count '\n' = 1 := by decide
    rw [String.toList_append, String.toList_append, List.count_append, List.count_append, hend, linesAbove]
    omega
  rw [tokens_items, content_seam h, tokens_append, tokens_below, hlines, tokens_items below, List.map_append,
    List.append_assoc]
  rfl

end Scan
end Lox
