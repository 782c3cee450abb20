import Lox.Proofs.Likeness.Sessions

/-! # Sources moved down

A source with line ends in front of it is the same source further down: all its tokens are on later lines
(`Scan.items_moved`). Run in one session it ends the same wherever it is (`Session.Known.run_moved`). That tells where
the token of a runtime error comes from, which the token itself does not: if it comes from the source it moves with it,
and if it comes from what the session holds it stays (`Session.Known.failure_moves`). -/

namespace Lox

/-- The source, so many lines further down. -/
def Source.moved (lines : Nat) (text : String) : String := String.ofList (List.replicate lines '\n') ++ text

theorem Source.moved_zero (text : String) : moved 0 text = text := String.empty_append

theorem Token.below_injective {lines : Nat} {t u : Token} (h : t.below lines = u.below lines) : t = u := by
  obtain ⟨kind, lexeme, line⟩ := t
  obtain ⟨kind', lexeme', line'⟩ := u
  simp only [below, mk.injEq, Nat.add_right_cancel_iff] at h
  obtain ⟨rfl, rfl, rfl⟩ := h
  rfl

/-- The runtime error, at a token so many lines further down. -/
def RuntimeError.below (lines : Nat) (e : RuntimeError) : RuntimeError := { e with token := e.token.below lines }

theorem RuntimeError.eq_of_token {e e' : RuntimeError} (htoken : e'.token = e.token) (hcause : e'.cause = e.cause) :
    e' = e := by
  cases e
  cases e'
  cases htoken
  cases hcause
  rfl

/-! ### Tokens -/

namespace Scan

theorem itemsFrom_lineEnds (lines line : Nat) (cs : List Char) :
    itemsFrom line (List.replicate lines '\n' ++ cs) = itemsFrom (line + lines) cs := by
  induction lines generalizing line with
  | zero => rfl
  | succ lines ih =>
    rw [List.replicate_succ, List.cons_append, itemsFrom_cons]
    show itemsFrom (line + 1) (List.replicate lines '\n' ++ cs) = _
    rw [ih, Nat.add_right_comm, Nat.add_assoc]

/-- All items of a source move with it. -/
theorem items_moved (lines : Nat) (text : String) :
    items (Source.moved lines text) = (items text).map (Item.below lines) := by
  have htext : (Source.moved lines text).toList = List.replicate lines '\n' ++ text.toList := by
    rw [Source.moved, String.toList_append, String.toList_ofList]
  have hcount : (List.replicate lines '\n').count '\n' = lines := List.count_replicate_self
  have hbelow := itemsOf_below (List.replicate lines '\n') (partsOf text.toList) []
  have hfrom := itemsFrom_partsOf (List.replicate lines '\n') text.toList
  rw [hcount] at hbelow hfrom
  rw [List.append_nil] at hbelow
  show itemsFrom 1 (Source.moved lines text).toList = _
  rw [htext, itemsFrom_lineEnds, hfrom, hbelow, items_eq_content, List.map_append, List.count_append, hcount]
  rw [Nat.add_comm lines, ← Nat.add_assoc]
  rfl

theorem tokens_moved (lines : Nat) (text : String) :
    tokens (items (Source.moved lines text)) = (tokens (items text)).map (Token.below lines) := by
  rw [items_moved, tokens_below]

theorem errors_moved (lines : Nat) (text : String) :
    errors (items (Source.moved lines text)) = [] ↔ errors (items text) = [] := by
  rw [items_moved, errors_below, List.map_eq_nil_iff]

end Scan

/-! ### What moves, and what stays -/

namespace Likeness

/-- A token of the source where it is first stands for that token where it is then. -/
def shifted (text : String) (first last : Nat) (id : ExprId → ExprId → Prop) : Likeness where
  token t t' := ∃ u, TokenOf [text] u ∧ t = u.below first ∧ t' = u.below last
  id := id
  kind_eq h := by
    obtain ⟨u, -, rfl, rfl⟩ := h
    rfl
  lexeme_eq h := by
    obtain ⟨u, -, rfl, rfl⟩ := h
    rfl

/-- The tokens of one source move, and those of the others stand for themselves. -/
def moved (texts : List String) (text : String) (first last : Nat) (id : ExprId → ExprId → Prop) : Likeness where
  token t t' := TokenOf texts t ∧ t' = t ∨ (shifted text first last id).token t t'
  id := id
  kind_eq h := by
    rcases h with ⟨-, rfl⟩ | h
    · rfl
    · exact (shifted text first last id).kind_eq h
  lexeme_eq h := by
    rcases h with ⟨-, rfl⟩ | h
    · rfl
    · exact (shifted text first last id).lexeme_eq h

section
variable (texts : List String) (text : String) (first last : Nat) (id id' : ExprId → ExprId → Prop)

theorem moved_known : (moved texts text first last id).Admits (known texts id') := fun h => .inl ⟨h.2, h.1⟩

theorem moved_shifted : (moved texts text first last id).Admits (shifted text first last id') := .inr

theorem tokens_shifted :
    List.Forall₂ (shifted text first last id).token (Scan.tokens (Scan.items (Source.moved first text)))
    (Scan.tokens (Scan.items (Source.moved last text))) := by
  rw [Scan.tokens_moved, Scan.tokens_moved, List.forall₂_map_left_iff, List.forall₂_map_right_iff]
  exact List.forall₂_same.mpr fun t ht => ⟨t, ⟨text, List.mem_singleton_self _, ht⟩, rfl, rfl⟩

end

/-- If a source is moved to where it is, a runtime error is like itself only. -/
theorem failure_eq_of_moved {texts : List String} {text : String} {lines : Nat} {id : ExprId → ExprId → Prop}
    {failure failure' : Option RuntimeError}
    (h : Option.Rel (RuntimeError.Like (moved texts text lines lines id)) failure failure') : failure' = failure := by
  cases h with
  | none => rfl
  | some he =>
    refine congrArg some (RuntimeError.eq_of_token ?_ he.cause)
    rcases he.token with ⟨-, hsame⟩ | ⟨u, -, hfirst, hlast⟩
    · exact hsame
    · rw [hfirst, hlast]

end Likeness

/-! ### Far enough down -/

/-- All tokens of the sources are above some line. -/
theorem TokenOf.bounded (texts : List String) : ∃ bound, ∀ t, TokenOf texts t → t.line < bound := by
  let lines := texts.flatMap fun text => (Scan.tokens (Scan.items text)).map Token.line
  refine ⟨lines.sum + 1, fun t ⟨text, htext, ht⟩ => Nat.lt_succ_of_le (List.le_sum_of_mem ?_)⟩
  exact List.mem_flatMap.mpr ⟨text, htext, List.mem_map_of_mem ht⟩

namespace Likeness
variable {texts : List String} {text : String} {far last : Nat} {id : ExprId → ExprId → Prop} {t t' u : Token}

/-- Where the source is below all tokens of the others, those tokens stand for themselves only. -/
theorem eq_of_moved_old (hfar : ∀ t, TokenOf texts t → t.line < far) (hold : TokenOf texts t)
    (h : (moved texts text far last id).token t t') : t' = t := by
  rcases h with ⟨-, h⟩ | ⟨u, -, rfl, -⟩
  · exact h
  · exact absurd (hfar _ hold) (Nat.not_lt.mpr (Nat.le_add_left _ _))

theorem eq_of_moved_below (hfar : ∀ t, TokenOf texts t → t.line < far)
    (h : (moved texts text far last id).token (u.below far) t') : t' = u.below last := by
  rcases h with ⟨hold, -⟩ | ⟨u', -, hbelow, rfl⟩
  · exact absurd (hfar _ hold) (Nat.not_lt.mpr (Nat.le_add_left _ _))
  · rw [Token.below_injective hbelow]

end Likeness

/-! ### Runs -/

/-- A source is without errors wherever it is. -/
theorem Source.Clean.moved {text : String} (h : Clean text) (lines : Nat) : Clean (Source.moved lines text) := by
  obtain ⟨i, hread, hresolved⟩ := h
  let L : Likeness := .shifted text 0 lines Eq
  have hL : L.Injective := by
    rintro _ _ _ _ rfl rfl
    exact Iff.rfl
  have hlike :
      Parsed.Like L (Source.read (Source.moved 0 text) i).parsed (Source.read (Source.moved lines text) i).parsed :=
    Source.read_like (Likeness.tokens_shifted text 0 lines Eq) fun _ => rfl
  rw [Source.moved_zero] at hlike
  refine ⟨i, ?_, Resolution.isOk_like hL hlike.statements hresolved⟩
  rw [Source.diagnostics_isEmpty] at *
  have herrors := hlike.errors
  rw [hread.2] at herrors
  exact ⟨(Scan.errors_moved lines text).mpr hread.1, List.forall₂_nil_left_iff.mp herrors⟩

namespace Session
variable {host : Host} {texts : List String} {s : Session} {text : String} {fuel : Nat}

/-- What stands for what when a source is run in one session further up or further down. -/
abbrev movedIn (texts : List String) (text : String) (first last : Nat) : Likeness := .moved texts text first last Eq

/-- A source comes out the same in a session wherever it is. -/
theorem Known.run_moved (h : s.Known texts) (hhost : host.Uniform) (htext : Source.Clean text) (first last : Nat) :
    Run.Like (movedIn texts text first last) (s.run host fuel (Source.moved first text))
      (s.run host fuel (Source.moved last text)) := by
  let L : Likeness := movedIn texts text first last
  have hL : L.Injective := by
    rintro _ _ _ _ rfl rfl
    exact Iff.rfl
  obtain ⟨program, t, ht⟩ := (htext.moved first).starts s
  obtain ⟨program', t', ht'⟩ := (htext.moved last).starts s
  have hparsed : Parsed.Like (.shifted text first last Eq) (Source.read (Source.moved first text) s.nextId).parsed
      (Source.read (Source.moved last text) s.nextId).parsed :=
    Source.read_like (Likeness.tokens_shifted text first last Eq) fun _ => rfl
  have hprogram : Stmt.LikeAll L program program' := by
    have hstatements := hparsed.statements
    rw [ht.parsed, ht'.parsed] at hstatements
    exact hstatements.mono (Likeness.moved_shifted texts text first last Eq Eq) fun h => h
  have htable : L.SameDistances t.distances t'.distances := by
    rintro a _ rfl
    rw [ht.distances_eq, ht'.distances_eq, (resolve_like hL hprogram).2 rfl]
  have hmachine : t.machine.Like L t'.machine := by
    rw [ht.machine_eq, ht'.machine_eq]
    exact h.machine.mono (Likeness.moved_known texts text first last Eq _) fun hid => hid.1.symm
  have hfollows := Eval.program_simulates htable hhost (Nat.le_refl fuel) (Nat.lt_irrefl fuel) hprogram hmachine
  rw [run_of_starts ht, run_of_starts ht']
  exact interpretIn_like hfollows False.elim

/-- Where the token of a runtime error comes from shows when the source is moved: a token of the source moves with it,
    and one of a source from before stays. -/
theorem Known.failure_moves (h : s.Known texts) (hhost : host.Uniform) (htext : Source.Clean text) {e : RuntimeError}
    (hfailure : (s.run host fuel text).failure = some e) :
    (TokenOf [text] e.token ∧ ∀ lines, (s.run host fuel (Source.moved lines text)).failure = some (e.below lines)) ∨
      (TokenOf texts e.token ∧ ∀ lines, (s.run host fuel (Source.moved lines text)).failure = some e) := by
  -- Far enough down no token of the source is on a line of the others.
  obtain ⟨far, hfar⟩ := TokenOf.bounded texts
  have hlike : ∀ lines, Option.Rel (RuntimeError.Like (movedIn texts text far lines))
      (s.run host fuel (Source.moved far text)).failure (s.run host fuel (Source.moved lines text)).failure :=
    fun lines => (h.run_moved hhost htext far lines).failure
  have hhere := hlike 0
  rw [Source.moved_zero, hfailure] at hhere
  generalize (s.run host fuel (Source.moved far text)).failure = failure at hhere hlike
  cases hhere with
  | @some there _ hthere =>
  have hfails : ∀ lines, ∃ e', (s.run host fuel (Source.moved lines text)).failure = some e' ∧ e'.cause = e.cause ∧
      (movedIn texts text far lines).token there.token e'.token := fun lines => by
    have hrel := hlike lines
    generalize (s.run host fuel (Source.moved lines text)).failure = failure' at hrel
    cases hrel with
    | @some _ e' he' => exact ⟨e', rfl, he'.cause.trans hthere.cause.symm, he'.token⟩
  rcases hthere.token with ⟨hold, hsame⟩ | ⟨u, hu, hbelow, hsame⟩
  · refine .inr ⟨hsame ▸ hold, fun lines => ?_⟩
    obtain ⟨e', he', hcause, htoken⟩ := hfails lines
    have htoken := Likeness.eq_of_moved_old hfar hold htoken
    rw [he', RuntimeError.eq_of_token (htoken.trans hsame.symm) hcause]
  · refine .inl ⟨hsame ▸ hu, fun lines => ?_⟩
    obtain ⟨e', he', hcause, htoken⟩ := hfails lines
    have htoken := Likeness.eq_of_moved_below hfar (hbelow ▸ htoken)
    have hbelow : (e.below lines).token = u.below lines := congrArg (Token.below lines) hsame
    rw [he', RuntimeError.eq_of_token (e := e.below lines) (htoken.trans hbelow.symm) hcause]

end Session
end Lox
