import Lox.Proofs.Parsing.Seams
import Lox.Proofs.Parsing.Locality

/-! # Broken statements

A statement that an error stops is dropped up to its semicolon, and nothing of what stands around it is lost: where it
stands between the declarations of a program without errors, on the outermost level or in any block, the program is
parsed as without it, and all errors are in the broken statement (`parse_broken`). For what the statement is dropped
to does not depend on what follows (`Broken.dropped`), and the grammar goes on behind it as it would have. -/

namespace Lox

/-! ### Boundaries of declarations -/

namespace Grammar

mutual

/-- The tokens on both sides are a statement with this tree, and between them is a boundary of declarations in one of
    its blocks. -/
inductive StatementBoundary (nearest : Bool) : Bool → List Token → List Token → Stmt → Prop
  | forLoop {keyword opening semicolon closing : Token} {ts us vs before after : List Token} {init : Option Stmt}
    {condition increment : Option Expr} {body : Stmt} {dangling : Bool} (hkeyword : keyword.kind = .keyword .for)
    (hopening : opening.kind = .mark .leftParen) (hinit : ForInitializer ts init) (hcondition : Maybe us condition)
    (hsemicolon : semicolon.kind = .mark .semicolon) (hincrement : Maybe vs increment)
    (hclosing : closing.kind = .mark .rightParen) (hbody : StatementBoundary nearest dangling before after body) :
    StatementBoundary nearest dangling
      (keyword :: opening :: (ts ++ (us ++ semicolon :: (vs ++ closing :: before)))) after
      (forLoop init condition increment body)
  | ifOnly {keyword opening closing : Token} {ts before after : List Token} {condition : Expr} {yes : Stmt}
    {dangling : Bool} (hkeyword : keyword.kind = .keyword .if) (hopening : opening.kind = .mark .leftParen)
    (hcondition : Derives .assignment ts condition) (hclosing : closing.kind = .mark .rightParen)
    (hyes : StatementBoundary nearest dangling before after yes) :
    StatementBoundary nearest true (keyword :: opening :: (ts ++ closing :: before)) after (.branch condition yes none)
  | ifYes {keyword opening closing other : Token} {ts vs before after : List Token} {condition : Expr} {yes no : Stmt}
    {danglingYes dangling : Bool} (hkeyword : keyword.kind = .keyword .if) (hopening : opening.kind = .mark .leftParen)
    (hcondition : Derives .assignment ts condition) (hclosing : closing.kind = .mark .rightParen)
    (hyes : StatementBoundary nearest danglingYes before after yes) (hnearest : nearest = true → danglingYes = false)
    (hother : other.kind = .keyword .else) (hno : Statement nearest dangling vs no) :
    StatementBoundary nearest dangling (keyword :: opening :: (ts ++ closing :: before)) (after ++ other :: vs)
      (.branch condition yes (some no))
  | ifNo {keyword opening closing other : Token} {ts us before after : List Token} {condition : Expr} {yes no : Stmt}
    {danglingYes dangling : Bool} (hkeyword : keyword.kind = .keyword .if) (hopening : opening.kind = .mark .leftParen)
    (hcondition : Derives .assignment ts condition) (hclosing : closing.kind = .mark .rightParen)
    (hyes : Statement nearest danglingYes us yes) (hnearest : nearest = true → danglingYes = false)
    (hother : other.kind = .keyword .else) (hno : StatementBoundary nearest dangling before after no) :
    StatementBoundary nearest dangling (keyword :: opening :: (ts ++ closing :: (us ++ other :: before))) after
      (.branch condition yes (some no))
  | whileLoop {keyword opening closing : Token} {ts before after : List Token} {condition : Expr} {body : Stmt}
    {dangling : Bool} (hkeyword : keyword.kind = .keyword .while) (hopening : opening.kind = .mark .leftParen)
    (hcondition : Derives .assignment ts condition) (hclosing : closing.kind = .mark .rightParen)
    (hbody : StatementBoundary nearest dangling before after body) :
    StatementBoundary nearest dangling (keyword :: opening :: (ts ++ closing :: before)) after (.loop condition body)
  | block {opening closing : Token} {before after : List Token} {body : List Stmt}
    (hopening : opening.kind = .mark .leftBrace)
    (hbody : DeclarationsBoundary nearest before after body) (hclosing : closing.kind = .mark .rightBrace) :
    StatementBoundary nearest false (opening :: before) (after ++ [closing]) (.block body)

/-- The same of a declaration or a statement. -/
inductive DeclarationBoundary (nearest : Bool) : List Token → List Token → Stmt → Prop
  | function {keyword name opening closing brace last : Token} {ts params before after : List Token} {body : List Stmt}
    (hkeyword : keyword.kind = .keyword .fun) (hname : name.kind = .identifier)
    (hopening : opening.kind = .mark .leftParen) (hparams : Parameters ts params)
    (hclosing : closing.kind = .mark .rightParen) (hbrace : brace.kind = .mark .leftBrace)
    (hbody : DeclarationsBoundary nearest before after body) (hlast : last.kind = .mark .rightBrace) :
    DeclarationBoundary nearest (keyword :: name :: opening :: (ts ++ closing :: brace :: before)) (after ++ [last])
      (.function name params body)
  | statement {dangling : Bool} {before after : List Token} {s : Stmt}
    (h : StatementBoundary nearest dangling before after s) : DeclarationBoundary nearest before after s

/-- The tokens on both sides are declarations and statements in order, and between them is a boundary of these or of
    the declarations in one of their blocks. -/
inductive DeclarationsBoundary (nearest : Bool) : List Token → List Token → List Stmt → Prop
  | here {after : List Token} {ss : List Stmt} (h : Declarations nearest after ss) :
    DeclarationsBoundary nearest [] after ss
  | inside {before after us : List Token} {s : Stmt} {ss : List Stmt} (h : DeclarationBoundary nearest before after s)
    (hss : Declarations nearest us ss) : DeclarationsBoundary nearest before (after ++ us) (s :: ss)
  | behind {ts before after : List Token} {s : Stmt} {ss : List Stmt} (h : Declaration nearest ts s)
    (hss : DeclarationsBoundary nearest before after ss) : DeclarationsBoundary nearest (ts ++ before) after (s :: ss)

end

end Grammar

namespace Parse
open Grammar

/-! ### Dropping a broken statement -/

/-- A statement up to its semicolon, without braces, at one of whose tokens an error stops the parse. No keyword stands
    in it that starts a statement, but possibly in front, and it does not begin with what could go on with a statement
    before it. -/
structure Broken (b : List Token) : Prop where
  no_brace : ∀ t ∈ b, t.kind ≠ .mark .leftBrace ∧ t.kind ≠ .mark .rightBrace
  no_end : ∀ t ∈ b, t.isEnd = false
  no_else : ∀ t ∈ b.head?, t.kind ≠ .keyword .else
  semicolon : ∃ ts last, b = ts ++ [last] ∧ last.kind = .mark .semicolon ∧ ∀ t ∈ ts, t.kind ≠ .mark .semicolon
  no_keyword : ∀ t ∈ b.tail, startsStatement t.kind = false
  stopped : ∃ e s, attempt (fuelFor b) (.start b 0) = .error (.refused e) s ∧ s.rest ≠ []

/-- Wherever these tokens stand, no declaration is read from them, and these errors are found. -/
def Dropped (b : List Token) (found : List SyntaxError) : Prop :=
  ∀ n (s : State) rest, s.rest = b ++ rest → Yields (declaration n) s fun r s' =>
    r = none ∧ s'.rest = rest ∧ s'.errors.toList = s.errors.toList ++ found

theorem skipToBoundary_semicolon {dropped : Token} (h : dropped.kind = .mark .semicolon) (rest : List Token) :
    skipToBoundary dropped rest = rest := by
  cases rest with
  | nil => rfl
  | cons t rest => simp [skipToBoundary, h]

/-- Up to the next semicolon all is dropped, if no keyword comes first. -/
theorem skipToBoundary_append {ts rest : List Token} {last : Token} (hlast : last.kind = .mark .semicolon)
    (hkeyword : ∀ t ∈ ts ++ [last], startsStatement t.kind = false) : ∀ {dropped : Token},
    (∀ t ∈ dropped :: ts, t.kind ≠ .mark .semicolon) → skipToBoundary dropped (ts ++ last :: rest) = rest := by
  induction ts with
  | nil =>
    intro dropped hsemicolon
    have hdropped : (dropped.kind == .mark .semicolon) = false :=
      beq_eq_false_iff_ne.mpr (hsemicolon dropped List.mem_cons_self)
    rw [List.nil_append, skipToBoundary, hdropped, hkeyword last (List.mem_append_right _ List.mem_cons_self)]
    exact skipToBoundary_semicolon hlast rest
  | cons t ts ih =>
    intro dropped hsemicolon
    have hdropped : (dropped.kind == .mark .semicolon) = false :=
      beq_eq_false_iff_ne.mpr (hsemicolon dropped List.mem_cons_self)
    rw [List.cons_append, skipToBoundary, hdropped, hkeyword t List.mem_cons_self]
    exact ih (fun u hu => hkeyword u (List.mem_cons_of_mem _ hu)) fun u hu => hsemicolon u (List.mem_cons_of_mem _ hu)

theorem recover_append {ts rest : List Token} {last : Token} (hlast : last.kind = .mark .semicolon)
    (hsemicolon : ∀ t ∈ ts, t.kind ≠ .mark .semicolon)
    (hkeyword : ∀ t ∈ (ts ++ [last]).tail, startsStatement t.kind = false) :
    recover (ts ++ last :: rest) = rest := by
  cases ts with
  | nil => exact skipToBoundary_semicolon hlast rest
  | cons t ts => exact skipToBoundary_append hlast hkeyword hsemicolon

namespace Broken
variable {b : List Token} (h : Broken b)
include h

theorem begins : ∃ t more, b = t :: more ∧ t.kind ≠ .mark .rightBrace := by
  obtain ⟨ts, last, rfl, hlast, -⟩ := h.semicolon
  obtain ⟨t, more, hb⟩ := List.exists_cons_of_ne_nil (List.append_ne_nil_of_right_ne_nil ts (List.cons_ne_nil last []))
  exact ⟨t, more, hb, (h.no_brace t (hb ▸ List.mem_cons_self)).2⟩

theorem stops_else (rest : List Token) : Stops (isKeyword .else) (b ++ rest) := by
  obtain ⟨t, more, hb, -⟩ := h.begins
  have helse := h.no_else t (by rw [hb]; rfl)
  rw [hb]
  exact stops_cons (Bool.eq_false_iff.mpr fun hk => helse (isKeyword_iff.mp hk))

/-- Recovery in a broken statement ends right behind it. -/
theorem recover_suffix {r : List Token} (hr : r <:+ b) (hne : r ≠ []) (rest : List Token) :
    recover (r ++ rest) = rest := by
  have hkeyword : ∀ t ∈ r.tail, startsStatement t.kind = false := by
    intro t ht
    obtain ⟨vs, rfl⟩ := hr
    refine h.no_keyword t ?_
    cases vs with
    | nil => exact ht
    | cons v vs => exact List.mem_append_right _ (List.mem_of_mem_tail ht)
  obtain ⟨ts, last, rfl, hlast, hsemicolon⟩ := h.semicolon
  obtain rfl | ⟨us, rfl, hus⟩ := List.suffix_concat_iff.mp hr
  · exact absurd rfl hne
  · rw [List.append_assoc, List.singleton_append]
    exact recover_append hlast (fun t ht => hsemicolon t (hus.mem ht)) hkeyword

theorem body_eq : body b = b := by
  have hall : body (b ++ []) = b ++ body [] := body_append h.no_end
  rwa [List.append_nil, show body [] = [] from rfl, List.append_nil] at hall

/-- The run of the tokens alone and any run that comes to them go on side by side up to the same error. -/
theorem tracked {e : SyntaxError} {s : State}
    (hstop : attempt (fuelFor b) (.start b 0) = .error (.refused e) s) (n : Nat)
    {t : State} {rest : List Token} (hrest : t.rest = b ++ rest) :
    Tracked Unrelated b rest t.errors.toList (.error (.refused e) s) (attempt n t) := by
  have hbeside : Beside b rest t.errors.toList (.start b 0) t := by
    refine ⟨?_, ?_, ?_, ?_, ?_⟩ <;> simp [State.start, h.body_eq, hrest]
  rw [← hstop]
  exact attempt_tracks (fun tok htok => (h.no_brace tok htok).1) hbeside

/-- A broken statement is dropped wherever it stands, with the same errors, which are in it. If nothing in it makes an
    error that a parse goes on from, there is one only. -/
theorem dropped : ∃ found, Dropped b found ∧ (∀ e ∈ found, e.token ∈ b) ∧ (Calm b → found.length = 1) := by
  obtain ⟨e, s, hstop, hne⟩ := h.stopped
  refine ⟨s.errors.toList ++ [e], ?_, ?_⟩
  · intro n t rest hrest
    cases n with
    | zero => exact .zero
    | succ n =>
      have htracked := h.tracked hstop n hrest
      rw [declaration_succ]
      unfold Yields recovering
      generalize attempt n t = y at htracked
      cases htracked with
      | outOfFuel_right => trivial
      | ended_error hs => exact absurd hs hne
      | refused he hs =>
        refine ⟨rfl, ?_, ?_⟩
        · dsimp only
          rw [hs.rest]
          exact h.recover_suffix hs.suffix hne rest
        · rw [Array.toList_push, hs.errors, List.append_assoc]
  · -- The run of the tokens alone is one of these.
    have hrest : (State.start b 0).rest = b ++ [] := by simp [State.start, h.body_eq]
    have htracked := h.tracked hstop (fuelFor b) hrest
    rw [hstop] at htracked
    cases htracked with
    | ended_error hs => exact absurd hs hne
    | refused he hs =>
      refine ⟨fun e' he' => ?_, fun hcalm => by rw [hs.calm hcalm]; rfl⟩
      rcases List.mem_append.mp he' with he' | he'
      · exact hs.places e' he'
      · exact List.mem_singleton.mp he' ▸ he

end Broken

/-! ### What stands around a broken statement -/

theorem statementBoundary_begins {nearest dangling : Bool} {before after : List Token} {s : Stmt}
    (h : StatementBoundary nearest dangling before after s) :
    ∃ t more, before = t :: more ∧ beginsStatement t.kind = true := by
  cases h with
  | forLoop hk | ifOnly hk | ifYes hk | ifNo hk | whileLoop hk | block hk => exact ⟨_, _, rfl, by rw [hk]; rfl⟩

theorem declarationBoundary_begins {nearest : Bool} {before after : List Token} {s : Stmt}
    (h : DeclarationBoundary nearest before after s) :
    ∃ t more, before = t :: more ∧ beginsDeclaration t.kind = true := by
  cases h with
  | function hk => exact ⟨_, _, rfl, by rw [hk]; rfl⟩
  | statement h =>
    obtain ⟨t, more, rfl, ht⟩ := statementBoundary_begins h
    exact ⟨t, more, rfl, by rw [beginsDeclaration, ht, Bool.or_true]⟩

theorem begins_append {p : Token → Prop} {ts us : List Token} (h : ∃ t more, ts = t :: more ∧ p t) :
    ∃ t more, ts ++ us = t :: more ∧ p t := by
  obtain ⟨t, more, rfl, ht⟩ := h
  exact ⟨t, more ++ us, rfl, ht⟩

section
variable {b : List Token} {found : List SyntaxError}

theorem no_else_boundary (hb : Broken b) {before after : List Token} {ss : List Stmt}
    (hss : DeclarationsBoundary true before after ss)
    (rest : List Token) : Stops (isKeyword .else) (before ++ (b ++ after) ++ rest) := by
  cases hss with
  | here _ =>
    rw [List.nil_append, List.append_assoc]
    exact hb.stops_else _
  | inside h _ =>
    rw [List.append_assoc]
    exact stops_else (declarationBoundary_begins h)
  | behind h _ =>
    rw [List.append_assoc, List.append_assoc]
    exact stops_else (declaration_begins h)

/-- Declarations are parsed behind a broken statement as by themselves. -/
theorem DeclarationsComplete.drop (hb : Broken b) (hd : Dropped b found) {ts : List Token} {ss : List Stmt}
    (hss : DeclarationsComplete [] ts ss) :
    DeclarationsComplete found (b ++ ts) ss := by
  intro n inBlock done s s₁ hrest hdone
  cases n with
  | zero => exact .zero
  | succ n =>
    rw [List.append_assoc] at hrest
    have hrun : Yields (declaration n >>= fun r => declarations n inBlock (r.elim done done.push)) s
        (GivesWith found (Stmt.unnumberedAll ·.toList) (Stmt.unnumberedAll done.toList ++ ss)
          (Stmt.WithinLimitsAll ss) s s₁.rest) := by
      refine .bind ((hd n s _ hrest).mono fun r s₂ ⟨hr, hrest₂, herrors⟩ => ?_)
      subst hr
      refine (hss n inBlock done s₂ s₁ hrest₂ hdone).mono fun all s₃ hall =>
        ⟨hall.view_eq, hall.rest, fun hlimits => ?_⟩
      rw [hall.errors hlimits, herrors, List.append_nil]
    unfold Yields at hrun ⊢
    rwa [declarations_of_not_done (not_done_of_begins hrest hb.begins)]

mutual

/-- With a broken statement between its declarations, a statement is parsed as without it. -/
theorem statementBoundary_completes (hb : Broken b) (hd : Dropped b found) {dangling : Bool}
    {before after : List Token} {stmt : Stmt} :
    StatementBoundary true dangling before after stmt → StatementCompletes found dangling (before ++ (b ++ after)) stmt
  | .forLoop hkeyword hopening hinit hcondition hsemicolon hincrement hclosing hbody => by
    have hcomplete := StatementCompletes.forLoop hkeyword hopening hinit hcondition hsemicolon hincrement hclosing
      (statementBoundary_completes hb hd hbody)
    simpa using hcomplete
  | .ifOnly hkeyword hopening hcondition hclosing hyes => by
    have hcomplete := StatementCompletes.ifOnly hkeyword hopening hcondition hclosing
      (statementBoundary_completes hb hd hyes)
    simpa using hcomplete
  | .ifYes hkeyword hopening hcondition hclosing hyes hnearest hother hno => by
    have hinner := statementBoundary_completes hb hd hyes
    rw [hnearest rfl] at hinner
    have hcomplete := StatementCompletes.ifElse hkeyword hopening hcondition hclosing hinner hother
      (statementCompletes hno)
    simpa using hcomplete
  | .ifNo hkeyword hopening hcondition hclosing hyes hnearest hother hno => by
    have hinner := statementCompletes hyes
    rw [hnearest rfl] at hinner
    have hcomplete := StatementCompletes.ifElse hkeyword hopening hcondition hclosing hinner hother
      (statementBoundary_completes hb hd hno)
    simpa using hcomplete
  | .whileLoop hkeyword hopening hcondition hclosing hbody => by
    have hcomplete := StatementCompletes.whileLoop hkeyword hopening hcondition hclosing
      (statementBoundary_completes hb hd hbody)
    simpa using hcomplete
  | .block hopening hbody hclosing => by
    have hcomplete := StatementCompletes.block hopening (declarationsBoundary_completes hb hd hbody) hclosing
    simpa using hcomplete

theorem declarationBoundary_completes (hb : Broken b) (hd : Dropped b found) {before after : List Token} {stmt : Stmt} :
    DeclarationBoundary true before after stmt → DeclarationCompletes found (before ++ (b ++ after)) stmt
  | .function hkeyword hname hopening hparams hclosing hbrace hbody hlast => by
    have hcomplete := DeclarationCompletes.function hkeyword hname hopening hparams hclosing hbrace
      (declarationsBoundary_completes hb hd hbody) hlast
    simpa using hcomplete
  | .statement hs => .statement (begins_append (statementBoundary_begins hs)) (statementBoundary_completes hb hd hs)

theorem declarationsBoundary_completes (hb : Broken b) (hd : Dropped b found)
    {before after : List Token} {ss : List Stmt} :
    DeclarationsBoundary true before after ss → DeclarationsComplete found (before ++ (b ++ after)) ss
  | .here hss => .drop hb hd (declarationsComplete hss)
  | .inside hs hss => by
    have hcomplete := DeclarationsComplete.cons (begins_append (declarationBoundary_begins hs))
      (DeclarationsComplete.no_else hss) (declarationBoundary_completes hb hd hs) (declarationsComplete hss)
    simpa using hcomplete
  | .behind hs hss => by
    have hcomplete := DeclarationsComplete.cons (declaration_begins hs) (fun _ => no_else_boundary hb hss _)
      (declarationCompletes hs) (declarationsBoundary_completes hb hd hss)
    simpa using hcomplete

end

end

/-! ### Programs with a broken statement -/

/-- A broken statement between the declarations of a program without errors, on the outermost level or in a block or
    a function, changes nothing of what is parsed, but for identities. All errors are at its tokens, and there is
    exactly one if it holds no assignment and at most 254 commas. -/
theorem parse_broken {before after b : List Token} {i : ExprId} (hclean : (parse (before ++ after) i).errors = [])
    (hbefore : ∀ t ∈ before, t.isEnd = false)
    (hboundary : DeclarationsBoundary true before (body after)
      (Stmt.unnumberedAll (parse (before ++ after) i).statements))
    (hb : Broken b) (j : ExprId) :
    Stmt.unnumberedAll (parse (before ++ (b ++ after)) j).statements =
        Stmt.unnumberedAll (parse (before ++ after) i).statements ∧
      (∀ e ∈ (parse (before ++ (b ++ after)) j).errors, e.token ∈ b) ∧
      ((∀ t ∈ b, t.kind ≠ .mark .equal) → b.countP (isMark .comma ·.kind) ≤ 254 →
        (parse (before ++ (b ++ after)) j).errors.length = 1) := by
  obtain ⟨found, hdropped, hplaces, hcalm⟩ := hb.dropped
  obtain ⟨-, hlimits⟩ := parse_sound hclean
  have hbody : body (before ++ (b ++ after)) = before ++ (b ++ body after) := by
    rw [body_append hbefore, body_append hb.no_end]
  obtain ⟨stmts, s, hparse⟩ := declarations_fuelFor (before ++ (b ++ after)) j
  have hend : State.Done { State.start (before ++ (b ++ after)) j with rest := [] } false := .inl rfl
  have hrest : (State.start (before ++ (b ++ after)) j).rest = before ++ (b ++ body after) ++ [] := by
    rw [State.start, hbody, List.append_nil]
  have hgives := (declarationsBoundary_completes hb hdropped hboundary (fuelFor (before ++ (b ++ after))) false #[]
    (.start (before ++ (b ++ after)) j) _ hrest hend).of_ok hparse
  have herrors : (parse (before ++ (b ++ after)) j).errors = found := by
    rw [parse, hparse]
    exact hgives.errors hlimits
  refine ⟨?_, ?_, fun hequal hcommas => ?_⟩
  · rw [parse, hparse]
    exact hgives.view_eq
  · rwa [herrors]
  · rw [herrors]
    exact hcalm ⟨hequal, hcommas⟩

/-- In `fun f()\x7ba;\x7d` the statement `a a;` is dropped from the body. -/
theorem parse_broken_body :
    let token (kind : Kind) (lexeme : String) : Token := ⟨kind, lexeme, 1⟩
    let a := token .identifier "a"
    let semicolon := token (.mark .semicolon) ";"
    let before := [token (.keyword .fun) "fun", token .identifier "f", token (.mark .leftParen) "(",
      token (.mark .rightParen) ")", token (.mark .leftBrace) "\x7b", a, semicolon]
    let after := [token (.mark .rightBrace) "\x7d", .atEnd 1]
    let b := [a, a, semicolon]
    (parse (before ++ after) 0).errors = [] ∧ Broken b ∧
      Stmt.unnumberedAll (parse (before ++ (b ++ after)) 0).statements =
        Stmt.unnumberedAll (parse (before ++ after) 0).statements ∧
      (parse (before ++ (b ++ after)) 0).errors.length = 1 := by
  intro token a semicolon before after b
  have hclean : (parse (before ++ after) 0).errors = [] := by decide +kernel
  have htree : Stmt.unnumberedAll (parse (before ++ after) 0).statements =
      [.function (token .identifier "f") [] [.expression (.var 0 a)]] := by rfl
  have hvar : Derives .assignment [a] (.var 0 a) :=
    .chain (.operand (.operand (.operand (.operand (.operand (.operand (.called (.callee (.variable rfl)))))))))
  have hstatement : Declaration true [a, semicolon] (.expression (.var 0 a)) := .statement (.expression (.mk hvar rfl))
  have hboundary : DeclarationsBoundary true before (body after)
      (Stmt.unnumberedAll (parse (before ++ after) 0).statements) := by
    rw [htree]
    exact .inside (.function rfl rfl rfl .none rfl rfl (.behind hstatement (.here .nil)) rfl) .nil
  have hb : Broken b := by
    refine ⟨by decide, by decide, by decide, ⟨[a, a], semicolon, rfl, rfl, by decide⟩, by decide, ?_⟩
    exact ⟨_, _, rfl, by decide⟩
  obtain ⟨htrees, -, hone⟩ := parse_broken hclean (by decide) hboundary hb 0
  exact ⟨hclean, hb, htrees, hone (by decide) (by decide)⟩

end Parse
end Lox
