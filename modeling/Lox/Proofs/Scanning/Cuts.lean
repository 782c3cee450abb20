import Lox.Proofs.Scanning.Rules

/-! # Cuts keep the rules

Each way to cut a token yields the longest text that a rule allows. So the cut of a text fits, whatever is
there (`fits_cut`), and nothing else does (`Fits.eq_cut`). -/

namespace Lox.Scan

/-! ### Cuts are longest -/

section
variable {kind : Kind} {c : Char} {cs behind : List Char}

theorem Begins.longest (h : Begins kind c cs)
    (hother : ∀ {kind' : Kind} {ds : List Char}, Begins kind' c ds → ds <+: cs ++ behind → ds <+: cs) :
    Longest kind (c :: cs) behind where
  spells := h.spells
  longest hspells hprefix := by
    obtain ⟨c', ds, rfl, hbegins⟩ := hspells.begins
    rw [List.cons_append, List.cons_prefix_cons] at hprefix
    obtain ⟨rfl, hds⟩ := hprefix
    exact List.cons_prefix_cons.mpr ⟨rfl, hother hbegins hds⟩

theorem string_longest (h : '"' ∉ cs) : Longest (.string (String.ofList cs)) ('"' :: (cs ++ ['"'])) behind := by
  have hrun : ∀ {ds : List Char}, '"' ∉ ds → ∀ d ∈ ds, (d != '"') = true :=
    fun hds d hd => bne_iff_ne.mpr (ne_of_mem_of_not_mem hd hds)
  refine (Begins.string h).longest fun hother hds => ?_
  cases hother with
  | @string content h' =>
    -- Both contents are what is there up to the first quote.
    obtain ⟨rest, hrest⟩ := hds
    simp only [List.append_assoc, List.singleton_append] at hrest
    obtain ⟨rfl, -⟩ := run_unique hrest (hrun h') (hrun h) (by simp) (by simp)
    exact List.prefix_rfl
  | whole hc | fraction hc | word hc => cases hc
  | mark hm | double hm => cases hm

theorem whole_longest (hc : c.isDigit = true) (hcs : ∀ d ∈ cs, d.isDigit = true)
    (hbehind : ∀ d ∈ behind.head?, d.isDigit = false)
    (hpoint : ∀ d rest, behind = '.' :: d :: rest → d.isDigit = false) :
    Longest (.number (Decimal.ofDigits (c :: cs) []).toFloat) (c :: cs) behind := by
  refine (Begins.whole hc hcs).longest fun hother hds => ?_
  cases hother with
  | string => cases hc
  | whole _ hcs' => exact prefix_run hds hcs' hcs hbehind
  | @fraction _ d cs' ds _ hcs' hds' =>
    obtain ⟨rest, hrest⟩ := hds
    simp only [List.append_assoc, List.cons_append] at hrest
    obtain ⟨rfl, rfl⟩ := run_unique hrest hcs' hcs (by simp) hbehind
    have hd := hpoint d _ rfl
    rw [hds' d List.mem_cons_self] at hd
    cases hd
  | word hword => rw [(isDigit_apart hc).2.2] at hword; cases hword
  | mark hm | double hm => rw [(ofChar?_apart hm).2.2.1] at hc; cases hc

theorem fraction_longest {d : Char} {ds : List Char} (hc : c.isDigit = true) (hcs : ∀ d ∈ cs, d.isDigit = true)
    (hds : ∀ e ∈ d :: ds, e.isDigit = true) (hbehind : ∀ e ∈ behind.head?, e.isDigit = false) :
    Longest (.number (Decimal.ofDigits (c :: cs) (d :: ds)).toFloat) (c :: (cs ++ '.' :: d :: ds)) behind := by
  refine (Begins.fraction hc hcs hds).longest fun hother hprefix => ?_
  rw [List.append_assoc, List.cons_append] at hprefix
  cases hother with
  | string => cases hc
  | whole _ hcs' => exact (prefix_run hprefix hcs' hcs (by simp)).trans (List.prefix_append _ _)
  | @fraction _ d' cs' ds' _ hcs' hds' =>
    obtain ⟨rest, hrest⟩ := hprefix
    simp only [List.append_assoc, List.cons_append] at hrest
    obtain ⟨rfl, hpoint⟩ := run_unique hrest hcs' hcs (by simp) (by simp)
    have hfraction : d' :: ds' <+: (d :: ds) ++ behind := ⟨rest, List.tail_eq_of_cons_eq hpoint⟩
    rw [List.prefix_append_right_inj, List.cons_prefix_cons]
    exact ⟨rfl, prefix_run hfraction hds' hds hbehind⟩
  | word hword => rw [(isDigit_apart hc).2.2] at hword; cases hword
  | mark hm | double hm => rw [(ofChar?_apart hm).2.2.1] at hc; cases hc

theorem word_longest (hc : isWordStart c = true) (hcs : ∀ d ∈ cs, isWordPart d = true)
    (hbehind : ∀ d ∈ behind.head?, isWordPart d = false) : Longest (wordKind (c :: cs)) (c :: cs) behind := by
  refine (Begins.word hc hcs).longest fun hother hds => ?_
  cases hother with
  | string => exact absurd rfl (isWordStart_apart hc).2
  | whole hdigit | fraction hdigit => rw [(isDigit_apart hdigit).2.2] at hc; cases hc
  | word _ hcs' => exact prefix_run hds hcs' hcs hbehind
  | mark hm | double hm => rw [(ofChar?_apart hm).2.2.2] at hc; cases hc

theorem double_longest {m m' : Mark} (hm : Mark.ofChar? c = some m') (hm' : m'.withEqual? = some m) :
    Longest (.mark m) [c, '='] behind := by
  obtain ⟨-, hquote, hdigit, hword⟩ := ofChar?_apart hm
  refine (Begins.double hm hm').longest fun hother hds => ?_
  cases hother with
  | string => exact absurd rfl hquote
  | whole hc | fraction hc => rw [hdigit] at hc; cases hc
  | word hc => rw [hword] at hc; cases hc
  | mark | double => simp

theorem mark_longest {m : Mark} (hm : Mark.ofChar? c = some m)
    (hbehind : ∀ rest double, behind = '=' :: rest → m.withEqual? ≠ some double) : Longest (.mark m) [c] behind := by
  obtain ⟨-, hquote, hdigit, hword⟩ := ofChar?_apart hm
  refine (Begins.mark hm).longest fun hother hds => ?_
  cases hother with
  | string => exact absurd rfl hquote
  | whole hc | fraction hc => rw [hdigit] at hc; cases hc
  | word hc => rw [hword] at hc; cases hc
  | mark => exact List.prefix_rfl
  | double hm₁ hdouble =>
    obtain ⟨rest, hrest⟩ := hds
    rw [hm] at hm₁
    cases hm₁
    exact absurd hdouble (hbehind rest _ hrest.symm)

end

/-! ### The cut -/

/-- The cut has what it should have, and is a token. -/
def Cut.IsLongest (piece : Cut) : Prop := ∃ kind, piece.verdict = .token kind ∧ Longest kind piece.stretch piece.rest

section
variable {c : Char} {cs : List Char}

theorem cutNumber_isLongest (hc : c.isDigit = true) : (cutNumber (c :: cs)).IsLongest := by
  have hwhole : ∀ d ∈ cs.takeWhile Char.isDigit, d.isDigit = true := fun d hd => List.mem_takeWhile_imp hd
  have hbehind := not_of_head_dropWhile (p := Char.isDigit) cs
  unfold cutNumber
  rw [List.dropWhile_cons_of_pos hc, List.takeWhile_cons_of_pos hc]
  split
  · rename_i d rest hrest
    split
    · rename_i hd
      exact ⟨_, rfl, fraction_longest hc hwhole
        (List.forall_mem_cons.mpr ⟨hd, fun e he => List.mem_takeWhile_imp he⟩) (not_of_head_dropWhile rest)⟩
    · rename_i hd
      rw [hrest] at hbehind
      refine ⟨_, rfl, whole_longest hc hwhole hbehind ?_⟩
      rintro _ _ ⟨⟩
      exact Bool.eq_false_iff.mpr hd
  · rename_i hnot
    refine ⟨_, rfl, whole_longest hc hwhole hbehind fun d rest hrest => ?_⟩
    exact absurd hrest (hnot d rest)

theorem cutWord_isLongest (hc : isWordStart c = true) : (cutWord (c :: cs)).IsLongest := by
  unfold cutWord
  rw [List.dropWhile_cons_of_pos (isWordPart_of_start hc), List.takeWhile_cons_of_pos (isWordPart_of_start hc)]
  exact ⟨_, rfl, word_longest hc (fun d hd => List.mem_takeWhile_imp hd) (not_of_head_dropWhile cs)⟩

theorem cutMark_isLongest {m : Mark} (hm : Mark.ofChar? c = some m) : (cutMark c cs).IsLongest := by
  unfold cutMark
  rw [hm]
  dsimp only
  split
  · rename_i double hdouble
    exact ⟨_, rfl, double_longest hm hdouble⟩
  · rename_i hnot
    exact ⟨_, rfl, mark_longest hm fun rest double hrest hdouble => hnot rest double hrest hdouble⟩

theorem Cut.IsLongest.fits {piece : Cut} (h : piece.IsLongest) (happend : piece.stretch ++ piece.rest = c :: cs)
    (hcomment : ¬ ['/', '/'] <+: c :: cs) : Fits piece.verdict piece.stretch piece.rest := by
  obtain ⟨kind, hverdict, hlongest⟩ := h
  rw [hverdict]
  exact .token hlongest (happend ▸ hcomment)

theorem fits_cutComment (cs : List Char) :
    Fits (cutComment '/' ('/' :: cs)).verdict (cutComment '/' ('/' :: cs)).stretch
      (cutComment '/' ('/' :: cs)).rest := by
  unfold cutComment
  rw [List.takeWhile_cons_of_pos (by decide), List.dropWhile_cons_of_pos (by decide)]
  refine .comment (fun hmem => ?_) fun d hd => ?_
  · simpa using List.mem_takeWhile_imp hmem
  · simpa using not_of_head_dropWhile cs d hd

theorem fits_cutString (hcomment : ¬ ['/', '/'] <+: '"' :: cs) :
    Fits (cutString '"' cs).verdict (cutString '"' cs).stretch (cutString '"' cs).rest := by
  unfold cutString
  split
  · rename_i hnone
    refine .unterminated fun hmem => ?_
    simpa using List.dropWhile_eq_nil_iff.mp hnone '"' hmem
  · rename_i closing rest hrest
    have hclosing := not_of_head_dropWhile (p := (· != '"')) cs closing (by rw [hrest]; rfl)
    obtain rfl : closing = '"' := by simpa using hclosing
    have hcontent : '"' ∉ cs.takeWhile (· != '"') := fun hmem => by simpa using List.mem_takeWhile_imp hmem
    have happend : '"' :: cs.takeWhile (· != '"') ++ ['"'] ++ rest = '"' :: cs := by
      rw [List.append_assoc, List.singleton_append, ← hrest, List.cons_append, List.takeWhile_append_dropWhile]
    exact .token (string_longest hcontent) (happend ▸ hcomment)

/-- A character that no rule lets a token begin with. -/
theorem not_spells (hquote : c ≠ '"') (hdigit : ¬ c.isDigit = true) (hword : ¬ isWordStart c = true)
    (hmark : Mark.ofChar? c = none) : ∀ kind text, ¬ Spells kind (c :: text) := by
  intro kind text h
  cases spells_iff.mp h with
  | string => exact hquote rfl
  | whole hc | fraction hc => exact hdigit hc
  | word hc => exact hword hc
  | mark hm | double hm => rw [hmark] at hm; cases hm

/-- Whatever is there, the cut fits. -/
theorem fits_cut (c : Char) (cs : List Char) : Fits (cut c cs).verdict (cut c cs).stretch (cut c cs).rest := by
  by_cases hblank : c ∈ blanks
  · rw [cut, if_pos (isBlank_iff.mpr hblank)]
    exact .blank hblank
  by_cases hcomment : ['/', '/'] <+: c :: cs
  · obtain ⟨rest, hrest⟩ := hcomment
    cases hrest
    exact fits_cutComment rest
  have hslash : ¬ (c == '/' && cs.head? == some '/') = true := by
    rw [Bool.and_eq_true, beq_iff_eq, beq_iff_eq]
    rintro ⟨rfl, hhead⟩
    obtain ⟨rest, rfl⟩ := List.head?_eq_some_iff.mp hhead
    exact hcomment ⟨rest, rfl⟩
  have happend := cut_stretch_append_rest c cs
  rw [cut, if_neg (mt isBlank_iff.mp hblank), if_neg hslash] at happend ⊢
  by_cases hquote : c = '"'
  · subst hquote
    exact fits_cutString hcomment
  rw [if_neg (by simpa using hquote)] at happend ⊢
  by_cases hdigit : c.isDigit = true
  · rw [if_pos hdigit] at happend ⊢
    exact (cutNumber_isLongest hdigit).fits happend hcomment
  rw [if_neg hdigit] at happend ⊢
  by_cases hword : isWordStart c = true
  · rw [if_pos hword] at happend ⊢
    exact (cutWord_isLongest hword).fits happend hcomment
  rw [if_neg hword] at happend ⊢
  cases hmark : Mark.ofChar? c with
  | some m => exact (cutMark_isLongest hmark).fits happend hcomment
  | none =>
    rw [cutMark, hmark]
    exact .unexpected (not_spells hquote hdigit hword hmark) hblank

/-! ### Nothing else fits -/

theorem Begins.kind_unique {kind kind' : Kind} {cs' : List Char} (h : Begins kind c cs) (h' : Begins kind' c cs')
    (hcs : cs' = cs) : kind' = kind := by
  have hpoint : ∀ {run rest : List Char}, (∀ d ∈ run ++ '.' :: rest, d.isDigit = true) → False := fun hrun => by
    have hdigit := hrun '.' (List.mem_append_right _ List.mem_cons_self)
    cases hdigit
  cases h with
  | string =>
    cases h' with
    | string => rw [List.append_cancel_right hcs]
    | whole hc | fraction hc | word hc => cases hc
    | mark hm | double hm => cases hm
  | whole hc hdigits =>
    cases h' with
    | string => cases hc
    | whole => rw [hcs]
    | fraction =>
      subst hcs
      exact (hpoint hdigits).elim
    | word hword => rw [(isDigit_apart hc).2.2] at hword; cases hword
    | mark hm | double hm => rw [(ofChar?_apart hm).2.2.1] at hc; cases hc
  | fraction hc hdigits =>
    cases h' with
    | string => cases hc
    | whole _ hdigits' =>
      subst hcs
      exact (hpoint hdigits').elim
    | fraction _ hdigits' =>
      obtain ⟨rfl, hfraction⟩ := run_unique hcs hdigits' hdigits (by simp) (by simp)
      cases hfraction
      rfl
    | word hword => rw [(isDigit_apart hc).2.2] at hword; cases hword
    | mark hm | double hm => rw [(ofChar?_apart hm).2.2.1] at hc; cases hc
  | word hc =>
    cases h' with
    | string => cases hc
    | whole hdigit | fraction hdigit => rw [(isDigit_apart hdigit).2.2] at hc; cases hc
    | word => rw [hcs]
    | mark hm | double hm => rw [(ofChar?_apart hm).2.2.2] at hc; cases hc
  | mark hm =>
    obtain ⟨-, hquote, hdigit, hword⟩ := ofChar?_apart hm
    cases h' with
    | string => exact absurd rfl hquote
    | whole hc | fraction hc => rw [hdigit] at hc; cases hc
    | word hc => rw [hword] at hc; cases hc
    | mark hm' => rw [Option.some.inj (hm'.symm.trans hm)]
    | double => cases hcs
  | double hm hdouble =>
    obtain ⟨-, hquote, hdigit, hword⟩ := ofChar?_apart hm
    cases h' with
    | string => exact absurd rfl hquote
    | whole hc | fraction hc => rw [hdigit] at hc; cases hc
    | word hc => rw [hword] at hc; cases hc
    | mark => cases hcs
    | double hm' hdouble' =>
      cases Option.some.inj (hm'.symm.trans hm)
      rw [Option.some.inj (hdouble'.symm.trans hdouble)]

/-- A text is that of tokens of one kind at most. -/
theorem Spells.kind_unique {kind kind' : Kind} {text : List Char} (h : Spells kind text) (h' : Spells kind' text) :
    kind' = kind := by
  obtain ⟨c, cs, rfl, hbegins⟩ := h.begins
  exact hbegins.kind_unique (spells_iff.mp h') rfl

theorem Longest.unique {kind kind' : Kind} {text text' behind behind' : List Char} (h : Longest kind text behind)
    (h' : Longest kind' text' behind') (happend : text' ++ behind' = text ++ behind) :
    kind' = kind ∧ text' = text ∧ behind' = behind := by
  have hprefix := h.longest h'.spells (happend ▸ List.prefix_append _ _)
  have hprefix' := h'.longest h.spells (happend ▸ List.prefix_append _ _)
  obtain rfl := hprefix.eq_of_length_le hprefix'.length_le
  exact ⟨h.spells.kind_unique h'.spells, rfl, List.append_cancel_left happend⟩

/-- A token is the cut of what it stands in. -/
theorem Longest.eq_cut {kind : Kind} {text behind : List Char} (h : Longest kind text behind)
    (happend : text ++ behind = c :: cs) (hcomment : ¬ ['/', '/'] <+: c :: cs) :
    cut c cs = ⟨.token kind, text, behind⟩ := by
  obtain ⟨c', ds, rfl, hbegins⟩ := h.spells.begins
  obtain ⟨rfl, rfl⟩ := List.cons_eq_cons.mp happend
  have hfits := fits_cut c' (ds ++ behind)
  have hcut := cut_stretch_append_rest c' (ds ++ behind)
  generalize cut c' (ds ++ behind) = piece at hfits hcut ⊢
  obtain ⟨verdict, stretch, rest⟩ := piece
  dsimp only at hfits hcut
  cases hfits with
  | blank hblank =>
    cases hcut
    exact absurd hblank hbegins.not_blank
  | comment => exact absurd ⟨_, hcut⟩ hcomment
  | token h' =>
    obtain ⟨rfl, rfl, rfl⟩ := h.unique h' hcut
    rfl
  | unexpected hnone =>
    cases hcut
    exact absurd h.spells (hnone kind ds)
  | @unterminated run hrun =>
    rw [List.append_nil, List.cons.injEq] at hcut
    obtain ⟨rfl, rfl⟩ := hcut
    cases hbegins with
    | string => simp at hrun
    | whole hc | fraction hc | word hc => cases hc
    | mark hm | double hm => cases hm

/-- Nothing but the cut fits. -/
theorem Fits.eq_cut {verdict : Verdict} {text behind : List Char} (h : Fits verdict text behind)
    (happend : text ++ behind = c :: cs) : cut c cs = ⟨verdict, text, behind⟩ := by
  cases h with
  | blank hblank =>
    cases happend
    exact if_pos (isBlank_iff.mpr hblank)
  | @comment run _ hrun hbehind =>
    rw [List.cons_append, List.cons_append, List.cons.injEq] at happend
    obtain ⟨rfl, rfl⟩ := happend
    have hline : ∀ d ∈ '/' :: run, (d != '\n') = true :=
      List.forall_mem_cons.mpr ⟨by decide, fun d hd => bne_iff_ne.mpr (ne_of_mem_of_not_mem hd hrun)⟩
    have hend : ∀ d ∈ behind.head?, (d != '\n') = false := fun d hd => by simpa using hbehind d hd
    have hcomment : cut '/' ('/' :: (run ++ behind)) = cutComment '/' ('/' :: (run ++ behind)) := rfl
    rw [hcomment, cutComment, ← List.cons_append, takeWhile_run hline hend, dropWhile_run hline hend]
  | token h hcomment => exact h.eq_cut happend (happend ▸ hcomment)
  | unexpected hnone hblank =>
    cases happend
    have hslash : c ≠ '/' := by
      rintro rfl
      exact hnone _ _ (.mark .slash)
    have hquote : c ≠ '"' := by
      rintro rfl
      exact hnone _ _ (.string List.not_mem_nil)
    have hdigit : ¬ c.isDigit = true := fun hc => hnone _ _ (Begins.whole hc (List.forall_mem_nil _)).spells
    have hword : ¬ isWordStart c = true := fun hc => hnone _ _ (Begins.word hc (List.forall_mem_nil _)).spells
    have hmark : Mark.ofChar? c = none := by
      cases hm : Mark.ofChar? c with
      | none => rfl
      | some m => exact (hnone _ _ (Begins.mark hm).spells).elim
    rw [cut, if_neg (mt isBlank_iff.mp hblank), if_neg (by simp [hslash]),
      if_neg (by simpa using hquote), if_neg hdigit, if_neg hword, cutMark, hmark]
    rfl
  | @unterminated run hrun =>
    rw [List.append_nil, List.cons.injEq] at happend
    obtain ⟨rfl, rfl⟩ := happend
    have hline : ∀ d ∈ run, (d != '"') = true := fun d hd => bne_iff_ne.mpr (ne_of_mem_of_not_mem hd hrun)
    have hstring : cut '"' run = cutString '"' run := rfl
    rw [hstring, cutString, List.dropWhile_eq_nil_iff.mpr hline]

end

end Lox.Scan
