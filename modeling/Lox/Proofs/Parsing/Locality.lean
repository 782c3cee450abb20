import Lox.Proofs.Parsing.Fuel

/-! # Parsing inside a stretch of tokens

As long as a parsing function has not read a stretch of tokens to its end, it has seen none of the tokens behind it.
So it does the same wherever the stretch stands: two runs go on side by side (`Beside`) until one of them is out of
fuel or the stretch is at its end (`Tracks`). This is shown for the parsing functions up to an attempt at a
declaration, in stretches without braces (`attempt_tracks`).

Errors that a parse goes on from need an assignment or a list with many commas, so a stretch without these is calm. -/

namespace Lox

/-- The variable that an expression is, which makes it a target of assignments. -/
def Expr.target? : Expr → Option Token
  | .var _ name => some name
  | _ => none

namespace Parse

/-! ### Two runs side by side -/

/-- How many commas there are among the tokens. -/
def commas (ts : List Token) : Nat := ts.countP (isMark .comma ·.kind)

/-- There is no assignment in these tokens, and no list in them has too many members. -/
structure Calm (b : List Token) : Prop where
  no_equal : ∀ t ∈ b, t.kind ≠ .mark .equal
  few_commas : commas b ≤ 254

/-- Two parses are at the same place of the stretch `b`, one of `b` alone and the other with `c` behind it. They have
    found the same errors in it, but for those that the second had found before, and none if it is calm. -/
structure Beside (b c : List Token) (before : List SyntaxError) (s t : State) : Prop where
  suffix : s.rest <:+ b
  rest : t.rest = s.rest ++ c
  errors : t.errors.toList = before ++ s.errors.toList
  places : ∀ e ∈ s.errors.toList, e.token ∈ b
  calm : Calm b → s.errors.toList = []

/-- Two results of runs side by side. Nothing is said if one of them is for want of fuel, or if the first run has read
    the stretch to its end. -/
inductive Tracked {α : Type} (R : α → α → Prop) (b c : List Token) (before : List SyntaxError) :
    EStateM.Result Stop State α → EStateM.Result Stop State α → Prop
  | outOfFuel_left {s : State} {y : EStateM.Result Stop State α} : Tracked R b c before (.error .outOfFuel s) y
  | outOfFuel_right {x : EStateM.Result Stop State α} {t : State} : Tracked R b c before x (.error .outOfFuel t)
  | ended_ok {a : α} {s : State} {y : EStateM.Result Stop State α} (h : s.rest = []) : Tracked R b c before (.ok a s) y
  | ended_error {stop : Stop} {s : State} {y : EStateM.Result Stop State α} (h : s.rest = []) :
    Tracked R b c before (.error stop s) y
  | ok {a a' : α} {s t : State} (h : R a a') (hs : Beside b c before s t) : Tracked R b c before (.ok a s) (.ok a' t)
  | refused {e : SyntaxError} {s t : State} (he : e.token ∈ b) (hs : Beside b c before s t) :
    Tracked R b c before (.error (.refused e) s) (.error (.refused e) t)

/-- The two parsing functions do the same from these two states. -/
def Tracks {α : Type} (R : α → α → Prop) (b c : List Token) (before : List SyntaxError) (p q : Parser α) (s t : State) :
    Prop :=
  Tracked R b c before (p s) (q t)

namespace Beside
variable {b c : List Token} {before : List SyntaxError} {s s' t : State} {test : Kind → Bool} {tok : Token}

theorem mem_of_takes (h : Beside b c before s t) (ht : s.Takes test tok s') : tok ∈ b :=
  h.suffix.mem (ht.rest ▸ List.mem_cons_self)

theorem next_eq (h : Beside b c before s t) (hne : s.rest ≠ []) : t.next = s.next := by
  obtain ⟨u, us, hu⟩ := List.exists_cons_of_ne_nil hne
  simp [State.next, h.rest, hu]

theorem next_mem (h : Beside b c before s t) (hne : s.rest ≠ []) : s.next ∈ b := by
  obtain ⟨u, us, hu⟩ := List.exists_cons_of_ne_nil hne
  refine h.suffix.mem ?_
  simp [State.next, hu]

theorem record (h : Beside b c before s t) {e : SyntaxError} (he : e.token ∈ b) (hcalm : ¬ Calm b) :
    Beside b c before { s with errors := s.errors.push e } { t with errors := t.errors.push e } where
  suffix := h.suffix
  rest := h.rest
  errors := by simp [h.errors]
  places e' he' := by
    rw [Array.toList_push] at he'
    rcases List.mem_append.mp he' with he' | he'
    · exact h.places e' he'
    · rw [List.mem_singleton.mp he']
      exact he
  calm hb := absurd hb hcalm

end Beside

namespace Tracks
variable {α β : Type} {R : α → α → Prop} {R' : β → β → Prop} {b c : List Token} {before : List SyntaxError}
  {p q : Parser α} {f g : α → Parser β} {s t : State}

/-- A run from the end of the stretch stays there. -/
theorem of_ended {x : Parser α} (hx : Advancing x) (hs : s.rest = []) (y : EStateM.Result Stop State α) :
    Tracked R b c before (x s) y := by
  have hrest : (final x s).rest = [] := List.suffix_nil.mp (hs ▸ (hx s).rest)
  unfold final at hrest
  cases hxs : x s with
  | ok a s' =>
    rw [hxs] at hrest
    exact .ended_ok hrest
  | error stop s' =>
    rw [hxs] at hrest
    exact .ended_error hrest

theorem pure {a a' : α} (h : R a a') (hs : Beside b c before s t) :
    Tracks R b c before (Pure.pure a) (Pure.pure a') s t :=
  .ok h hs

theorem bind (h : Tracks R b c before p q s t) (hf : ∀ a, Advancing (f a))
    (hfg : ∀ a a' s' t', p s = .ok a s' → R a a' → Beside b c before s' t' → Tracks R' b c before (f a) (g a') s' t') :
    Tracks R' b c before (p >>= f) (q >>= g) s t := by
  unfold Tracks at h ⊢
  rw [bind_apply, bind_apply]
  generalize hp : p s = x at h
  generalize q t = y at h
  cases h with
  | outOfFuel_left => exact .outOfFuel_left
  | outOfFuel_right =>
    dsimp only
    exact .outOfFuel_right
  | ended_ok hs => exact of_ended (hf _) hs _
  | ended_error hs => exact .ended_error hs
  | ok hr hs => exact hfg _ _ _ _ hp hr hs
  | refused he hs => exact .refused he hs

theorem map {k : α → β} (h : Tracks R b c before p q s t) (hk : ∀ a a', R a a' → R' (k a) (k a')) :
    Tracks R' b c before (k <$> p) (k <$> q) s t :=
  h.bind (fun _ => Advancing.pure _) fun _ _ _ _ _ hr hs => pure (hk _ _ hr) hs

section
variable {test : Kind → Bool} {cause : SyntaxError.Cause}

theorem refuse (hs : Beside b c before s t) : Tracks R b c before (refuse cause) (refuse cause) s t := by
  unfold Tracks Parse.refuse
  by_cases hrest : s.rest = []
  · exact .ended_error hrest
  · rw [hs.next_eq hrest]
    exact .refused (hs.next_mem hrest) hs

theorem take?_bind {f g : Option Token → Parser β} (hs : Beside b c before s t) (hf : ∀ r, Advancing (f r))
    (hnone : s.Lacks test → Tracks R' b c before (f none) (g none) s t)
    (hsome : ∀ tok s' t', s.Takes test tok s' → Beside b c before s' t' →
      Tracks R' b c before (f (some tok)) (g (some tok)) s' t') :
    Tracks R' b c before (take? test >>= f) (take? test >>= g) s t := by
  unfold Tracks at hnone hsome ⊢
  rw [bind_apply, bind_apply]
  cases hrest : s.rest with
  | nil => simpa [take?, hrest] using of_ended (hf none) hrest _
  | cons tok rest =>
    have hrest' : t.rest = tok :: (rest ++ c) := by rw [hs.rest, hrest, List.cons_append]
    cases htest : test tok.kind with
    | true =>
      have hbeside : Beside b c before { s with rest } { t with rest := rest ++ c } :=
        ⟨(List.suffix_cons tok rest).trans (hrest ▸ hs.suffix), rfl, hs.errors, hs.places, hs.calm⟩
      simpa [take?, hrest, hrest', htest] using hsome tok _ _ ⟨hrest, htest, rfl⟩ hbeside
    | false =>
      have hlacks : s.Lacks test := by
        intro u us hu
        rw [hrest] at hu
        cases hu
        exact htest
      simpa [take?, hrest, hrest', htest] using hnone hlacks

theorem expect_bind {f g : Token → Parser β} (hs : Beside b c before s t) (hf : ∀ tok, Advancing (f tok))
    (hsome : ∀ tok s' t', s.Takes test tok s' → Beside b c before s' t' →
      Tracks R' b c before (f tok) (g tok) s' t') :
    Tracks R' b c before (expect test cause >>= f) (expect test cause >>= g) s t := by
  have hexpect : Tracks (· = ·) b c before (expect test cause) (expect test cause) s t := by
    refine take?_bind hs ?_ (fun _ => refuse hs) fun tok s' t' _ hs' => pure rfl hs'
    intro r
    cases r with
    | none => exact .refuse _
    | some tok => exact .pure tok
  refine hexpect.bind hf fun tok tok' s' t' htok heq hs' => ?_
  subst heq
  exact hsome tok s' t' (expect_ok htok) hs'

/-- A list that gets too long has as many commas. -/
theorem checkArity_bind {f g : Unit → Parser β} {size : Nat} (hs : Beside b c before s t) (hf : Advancing (f ()))
    (hsize : size ≤ commas b)
    (hfg : ∀ s' t', s'.rest = s.rest → Beside b c before s' t' → Tracks R' b c before (f ()) (g ()) s' t') :
    Tracks R' b c before (checkArity size cause >>= f) (checkArity size cause >>= g) s t := by
  unfold Tracks at hfg ⊢
  rw [bind_apply, bind_apply]
  unfold checkArity
  by_cases hmax : maxArity ≤ size
  · rw [if_pos hmax]
    by_cases hrest : s.rest = []
    · exact of_ended (s := { s with errors := s.errors.push ⟨s.next, cause⟩ }) hf hrest _
    · have hcalm : ¬ Calm b := fun h => by
        have := h.few_commas
        unfold maxArity at hmax
        omega
      have hrecord := hs.record (e := ⟨s.next, cause⟩) (hs.next_mem hrest) hcalm
      have hnext : recordHere cause t = .ok () { t with errors := t.errors.push ⟨s.next, cause⟩ } := by
        rw [← hs.next_eq hrest]
        rfl
      rw [hnext]
      exact hfg _ _ rfl hrecord
  · rw [if_neg hmax]
    exact hfg s t rfl hs

theorem unlessNext {a a' : α} (hs : Beside b c before s t) (hp : Advancing p) (ha : R a a')
    (h : Tracks R b c before p q s t) :
    Tracks R b c before (unlessNext test a p) (unlessNext test a' q) s t := by
  unfold Tracks at h ⊢
  unfold Parse.unlessNext
  rw [bind_apply, bind_apply]
  cases hrest : s.rest with
  | nil => simpa [sees, hrest] using of_ended hp hrest _
  | cons tok rest =>
    have hrest' : t.rest = tok :: (rest ++ c) := by rw [hs.rest, hrest, List.cons_append]
    cases htest : test tok.kind with
    | true => simpa [sees, hrest, hrest', htest, Pure.pure, EStateM.pure] using Tracked.ok ha hs
    | false => simpa [sees, hrest, hrest', htest] using h

theorem after? {S : Option α → Option α → Prop} (hs : Beside b c before s t) (hp : Advancing p) (hS : S none none)
    (hR : ∀ a a', R a a' → S (some a) (some a'))
    (h : ∀ tok s' t', s.Takes test tok s' → Beside b c before s' t' → Tracks R b c before p q s' t') :
    Tracks S b c before (after? test p) (after? test q) s t := by
  refine take?_bind hs ?_ (fun _ => pure hS hs) fun tok s' t' htok hs' => (h tok s' t' htok hs').map hR
  intro r
  cases r with
  | none => exact .pure none
  | some tok => exact hp.map

end
end Tracks

/-! ### Expressions -/

/-- Both are the same variable, or none is a variable. -/
def SameTarget (e e' : Expr) : Prop := e.target? = e'.target?

theorem SameTarget.join (level : Level) (l l' r r' : Expr) (operator : Token) :
    SameTarget (level.join l operator r) (level.join l' operator r') := by
  cases level <;> rfl

/-- What stands for an assignment once its value has been read. -/
def assigned (equals : Token) (value target : Expr) : Parser Expr :=
  match target.target? with
  | some name => do pure (.assign (← freshId) name value)
  | none => do
    record ⟨equals, .invalidTarget⟩
    pure value

theorem expression_succ (n : Nat) : expression (n + 1) = (do
    let target ← binary n .or
    match ← take? (isMark .equal) with
    | none => pure target
    | some equals => do
      let value ← expression n
      assigned equals value target) := by
  rw [expression]
  congr 1
  funext target
  congr 1
  funext r
  cases r with
  | none => rfl
  | some equals => cases target <;> rfl

theorem assigned_advancing (equals : Token) (value target : Expr) : Advancing (assigned equals value target) := by
  unfold assigned
  split
  · exact Advancing.freshId.bind fun _ => .pure _
  · exact (Advancing.record _).bind fun _ => .pure _

/-- An expression after its first token, which is an atom. -/
def atom (n : Nat) (t : Token) : Parser Expr :=
  match literal? t.kind with
  | some v => pure (.literal v)
  | none =>
    if isIdentifier t.kind then do pure (.var (← freshId) t)
    else do
      let inner ← expression n
      let _ ← expect (isMark .rightParen) (.noRightParen "expression")
      pure (.grouping inner)

theorem primary_succ (n : Nat) :
    primary (n + 1) = take? isAtom >>= fun r => r.elim (refuse .noExpression) (atom n) := by
  rw [primary]
  congr 1
  funext r
  cases r <;> rfl

theorem atom_advancing (n : Nat) (t : Token) : Advancing (atom n t) := by
  unfold atom
  split
  · exact .pure _
  · split
    · exact Advancing.freshId.bind fun _ => .pure _
    · exact (expression_advancing n).bind fun _ => (Advancing.expect _ _).bind fun _ => .pure _

theorem commas_le_of_suffix {ts us : List Token} (h : ts <:+ us) : commas ts ≤ commas us := h.sublist.countP_le

theorem commas_of_takes {s s' : State} {comma : Token} (h : s.Takes (isMark .comma) comma s') :
    commas s.rest = commas s'.rest + 1 := by
  rw [commas, h.rest, List.countP_cons, if_pos h.test]
  rfl

section
variable {b c : List Token} {before : List SyntaxError} {n m : Nat} {s t : State}

theorem assigned_tracks {equals : Token} {value value' target target' : Expr} (hs : Beside b c before s t)
    (hequals : equals ∈ b) (hkind : equals.kind = .mark .equal) (hvalue : SameTarget value value')
    (htarget : SameTarget target target') :
    Tracks SameTarget b c before (assigned equals value target) (assigned equals value' target') s t := by
  unfold assigned
  rw [htarget]
  cases target'.target? with
  | some name => exact .ok rfl ⟨hs.suffix, hs.rest, hs.errors, hs.places, hs.calm⟩
  | none => exact .ok hvalue (hs.record hequals fun h => h.no_equal equals hequals hkind)

/-- With this fuel, parsing functions of expressions do the same in two runs side by side, whatever the fuel of the
    other. -/
structure ExpressionsTrack (b c : List Token) (before : List SyntaxError) (n : Nat) : Prop where
  expression : ∀ {m : Nat} {s t : State}, Beside b c before s t →
    Tracks SameTarget b c before (expression n) (expression m) s t
  binary : ∀ {m : Nat} {level : Level} {s t : State}, Beside b c before s t →
    Tracks SameTarget b c before (binary n level) (binary m level) s t
  chain : ∀ {m : Nat} {level : Level} {left left' : Expr} {s t : State}, SameTarget left left' → Beside b c before s t →
    Tracks SameTarget b c before (chain n level left) (chain m level left') s t
  unary : ∀ {m : Nat} {s t : State}, Beside b c before s t → Tracks SameTarget b c before (unary n) (unary m) s t
  calls : ∀ {m : Nat} {callee callee' : Expr} {s t : State}, SameTarget callee callee' → Beside b c before s t →
    Tracks SameTarget b c before (calls n callee) (calls m callee') s t
  arguments : ∀ {m : Nat} {done done' : Array Expr} {s t : State}, done.size = done'.size →
    done.size + commas s.rest ≤ commas b → Beside b c before s t →
    Tracks (fun _ _ => True) b c before (arguments n done) (arguments m done') s t
  primary : ∀ {m : Nat} {s t : State}, Beside b c before s t → Tracks SameTarget b c before (primary n) (primary m) s t

namespace ExpressionsTrack
variable (ih : ExpressionsTrack b c before n)
include ih

theorem operand {level : Level} (hs : Beside b c before s t) :
    Tracks SameTarget b c before (operand n level) (operand m level) s t := by
  cases level with
  | factor => exact ih.unary hs
  | or | and | equality | comparison | term => exact ih.binary hs

theorem expression_succ (hs : Beside b c before s t) :
    Tracks SameTarget b c before (Parse.expression (n + 1)) (Parse.expression m) s t := by
  cases m with
  | zero => exact .outOfFuel_right
  | succ m =>
    have hrest : ∀ target r, Advancing (match r with
        | none => pure target
        | some equals => Parse.expression n >>= fun value => assigned equals value target) := by
      intro target r
      cases r with
      | none => exact .pure _
      | some equals => exact (expression_advancing n).bind fun value => assigned_advancing equals value target
    rw [Parse.expression_succ, Parse.expression_succ]
    refine (ih.binary hs).bind (fun target => (Advancing.take? _).bind (hrest target)) ?_
    intro target target' s₁ t₁ _ htarget hs₁
    refine .take?_bind hs₁ (hrest target) (fun _ => .pure htarget hs₁) fun equals s₂ t₂ hequals hs₂ => ?_
    refine (ih.expression hs₂).bind (fun value => assigned_advancing equals value target) ?_
    intro value value' s₃ t₃ _ hvalue hs₃
    exact assigned_tracks hs₃ (hs₁.mem_of_takes hequals) (isMark_iff.mp hequals.test) hvalue htarget

theorem binary_succ {level : Level} (hs : Beside b c before s t) :
    Tracks SameTarget b c before (Parse.binary (n + 1) level) (Parse.binary m level) s t := by
  cases m with
  | zero => exact .outOfFuel_right
  | succ m =>
    rw [Parse.binary, Parse.binary]
    refine (ih.operand hs).bind (fun left => (expressionsAdvance n).chain level left) ?_
    exact fun left left' s₁ t₁ _ hleft hs₁ => ih.chain hleft hs₁

theorem chain_succ {level : Level} {left left' : Expr} (hleft : SameTarget left left') (hs : Beside b c before s t) :
    Tracks SameTarget b c before (Parse.chain (n + 1) level left) (Parse.chain m level left') s t := by
  cases m with
  | zero => exact .outOfFuel_right
  | succ m =>
    rw [Parse.chain, Parse.chain]
    refine .take?_bind hs ?_ (fun _ => .pure hleft hs) fun operator s₁ t₁ hop hs₁ => ?_
    · intro r
      cases r with
      | none => exact .pure _
      | some operator => exact ((expressionsAdvance n).operand level).bind fun _ => (expressionsAdvance n).chain level _
    · refine (ih.operand hs₁).bind (fun _ => (expressionsAdvance n).chain level _) ?_
      exact fun right right' s₂ t₂ _ _ hs₂ => ih.chain (.join level left left' right right' operator) hs₂

theorem unary_succ (hs : Beside b c before s t) :
    Tracks SameTarget b c before (Parse.unary (n + 1)) (Parse.unary m) s t := by
  cases m with
  | zero => exact .outOfFuel_right
  | succ m =>
    rw [Parse.unary, Parse.unary]
    refine .take?_bind hs ?_ (fun _ => ?_) fun operator s₁ t₁ hop hs₁ => ?_
    · intro r
      cases r with
      | none => exact (expressionsAdvance n).primary.bind fun _ => (expressionsAdvance n).calls _
      | some operator => exact (expressionsAdvance n).unary.bind fun _ => .pure _
    · exact (ih.primary hs).bind
        (fun _ => (expressionsAdvance n).calls _) fun _ _ _ _ _ hcallee hs₁ => ih.calls hcallee hs₁
    · exact (ih.unary hs₁).bind (fun _ => .pure _) fun _ _ _ _ _ _ hs₂ => .pure rfl hs₂

theorem calls_succ {callee callee' : Expr} (hcallee : SameTarget callee callee') (hs : Beside b c before s t) :
    Tracks SameTarget b c before (Parse.calls (n + 1) callee) (Parse.calls m callee') s t := by
  cases m with
  | zero => exact .outOfFuel_right
  | succ m =>
    have hclose : ∀ args : Array Expr,
        Advancing (expect (isMark .rightParen) (.noRightParen "arguments") >>= fun paren =>
          Parse.calls n (.call callee paren args.toList)) := fun args =>
      (Advancing.expect _ _).bind fun _ => (expressionsAdvance n).calls _
    rw [Parse.calls, Parse.calls]
    refine .take?_bind hs ?_ (fun _ => .pure hcallee hs) fun opening s₁ t₁ hopening hs₁ => ?_
    · intro r
      cases r with
      | none => exact .pure _
      | some opening => exact ((expressionsAdvance n).arguments #[]).unlessNext.bind hclose
    · have hargs : Tracks (fun _ _ => True) b c before (Parse.arguments n #[]) (Parse.arguments m #[]) s₁ t₁ :=
        ih.arguments rfl (by simpa using commas_le_of_suffix hs₁.suffix) hs₁
      refine (Tracks.unlessNext hs₁ ((expressionsAdvance n).arguments #[]) trivial hargs).bind hclose ?_
      intro args args' s₂ t₂ _ _ hs₂
      exact .expect_bind hs₂ (fun _ => (expressionsAdvance n).calls _) fun paren s₃ t₃ _ hs₃ => ih.calls rfl hs₃

theorem arguments_succ {done done' : Array Expr} (hsize : done.size = done'.size)
    (hcommas : done.size + commas s.rest ≤ commas b) (hs : Beside b c before s t) :
    Tracks (fun _ _ => True) b c before (Parse.arguments (n + 1) done) (Parse.arguments m done') s t := by
  cases m with
  | zero => exact .outOfFuel_right
  | succ m =>
    have hmore : ∀ (e : Expr) (r : Option Token), Advancing (match r with
        | none => pure (done.push e)
        | some _ => Parse.arguments n (done.push e)) := by
      intro e r
      cases r with
      | none => exact .pure _
      | some comma => exact (expressionsAdvance n).arguments _
    rw [Parse.arguments, Parse.arguments, ← hsize]
    refine .checkArity_bind hs ((expression_advancing n).bind fun e => (Advancing.take? _).bind (hmore e)) (by omega) ?_
    intro s₁ t₁ hrest hs₁
    refine (ih.expression hs₁).bind (fun e => (Advancing.take? _).bind (hmore e)) fun e e' s₂ t₂ he _ hs₂ => ?_
    have hle : commas s₂.rest ≤ commas s.rest :=
      commas_le_of_suffix (hrest ▸ ((expression_advancing n).of_ok he).rest)
    refine .take?_bind hs₂ (hmore e) (fun _ => .pure trivial hs₂) fun comma s₃ t₃ hcomma hs₃ => ?_
    have hone := commas_of_takes hcomma
    exact ih.arguments (by simp [hsize]) (by rw [Array.size_push]; omega) hs₃

theorem atom (tok : Token) (hs : Beside b c before s t) :
    Tracks SameTarget b c before (Parse.atom n tok) (Parse.atom m tok) s t := by
  unfold Parse.atom
  split
  · exact .pure rfl hs
  · split
    · exact .ok rfl ⟨hs.suffix, hs.rest, hs.errors, hs.places, hs.calm⟩
    · refine (ih.expression hs).bind (fun _ => (Advancing.expect _ _).bind fun _ => .pure _) fun _ _ s₁ t₁ _ _ hs₁ => ?_
      exact .expect_bind hs₁ (fun _ => .pure _) fun _ _ _ _ hs₂ => .pure rfl hs₂

theorem primary_succ (hs : Beside b c before s t) :
    Tracks SameTarget b c before (Parse.primary (n + 1)) (Parse.primary m) s t := by
  cases m with
  | zero => exact .outOfFuel_right
  | succ m =>
    rw [Parse.primary_succ, Parse.primary_succ]
    refine .take?_bind hs ?_ (fun _ => .refuse hs) fun tok s₁ t₁ _ hs₁ => ih.atom tok hs₁
    intro r
    cases r with
    | none => exact .refuse _
    | some tok => exact atom_advancing n tok

end ExpressionsTrack

theorem expressionsTrack (b c : List Token) (before : List SyntaxError) : ∀ n, ExpressionsTrack b c before n
  | 0 => by
    refine ⟨?_, ?_, ?_, ?_, ?_, ?_, ?_⟩ <;> intros <;> exact .outOfFuel_left
  | n + 1 =>
    have ih := expressionsTrack b c before n
    { expression := ih.expression_succ
      binary := ih.binary_succ
      chain := ih.chain_succ
      unary := ih.unary_succ
      calls := ih.calls_succ
      arguments := ih.arguments_succ
      primary := ih.primary_succ }

end

/-! ### Statements -/

section
variable {b c : List Token} {before : List SyntaxError} {n m : Nat} {s t : State}

/-- Of what is not an expression only the tokens matter that were read for it. -/
abbrev Unrelated {α : Type} (_ _ : α) : Prop := True

theorem expression_tracks (hs : Beside b c before s t) :
    Tracks SameTarget b c before (expression n) (expression m) s t :=
  (expressionsTrack b c before n).expression hs

theorem semicolon_tracks {α : Type} {a a' : α} {cause : SyntaxError.Cause} (hs : Beside b c before s t) :
    Tracks Unrelated b c before (expect (isMark .semicolon) cause >>= fun _ => pure a)
      (expect (isMark .semicolon) cause >>= fun _ => pure a') s t :=
  .expect_bind hs (fun _ => .pure _) fun _ _ _ _ hs₁ => .pure trivial hs₁

theorem semicolon_advancing {α : Type} (a : α) (cause : SyntaxError.Cause) :
    Advancing (expect (isMark .semicolon) cause >>= fun _ => pure a) :=
  (Advancing.expect _ _).bind fun _ => .pure _

theorem expressionStatement_tracks (hs : Beside b c before s t) :
    Tracks Unrelated b c before (expressionStatement n) (expressionStatement m) s t :=
  (expression_tracks hs).bind (fun _ => semicolon_advancing _ _) fun _ _ _ _ _ _ hs₁ => semicolon_tracks hs₁

theorem printStatement_tracks (hs : Beside b c before s t) :
    Tracks Unrelated b c before (printStatement n) (printStatement m) s t :=
  (expression_tracks hs).bind (fun _ => semicolon_advancing _ _) fun _ _ _ _ _ _ hs₁ => semicolon_tracks hs₁

theorem varDeclaration_tracks (hs : Beside b c before s t) :
    Tracks Unrelated b c before (varDeclaration n) (varDeclaration m) s t := by
  have hrest : ∀ name : Token, Advancing (after? (isMark .equal) (expression n) >>= fun initializer =>
      expect (isMark .semicolon) (.noSemicolon "variable declaration") >>= fun _ => pure (Stmt.var name initializer)) :=
    fun _ => (expression_advancing n).after?.bind fun _ => semicolon_advancing _ _
  refine .expect_bind hs hrest fun name s₁ t₁ _ hs₁ => ?_
  have hinit : Tracks Unrelated b c before (after? (isMark .equal) (expression n))
      (after? (isMark .equal) (expression m)) s₁ t₁ :=
    .after? hs₁ (expression_advancing n) trivial (fun _ _ _ => trivial) fun _ _ _ _ hs₂ => expression_tracks hs₂
  exact hinit.bind (fun _ => semicolon_advancing _ _) fun _ _ _ _ _ _ hs₂ => semicolon_tracks hs₂

theorem maybe_tracks {test : Kind → Bool} (hs : Beside b c before s t) :
    Tracks Unrelated b c before (unlessNext test none (some <$> expression n))
      (unlessNext test none (some <$> expression m)) s t :=
  .unlessNext hs (expression_advancing n).map trivial ((expression_tracks hs).map fun _ _ _ => trivial)

theorem returnStatement_tracks {keyword : Token} (hs : Beside b c before s t) :
    Tracks Unrelated b c before (returnStatement n keyword) (returnStatement m keyword) s t :=
  (maybe_tracks hs).bind (fun _ => semicolon_advancing _ _) fun _ _ _ _ _ _ hs₁ => semicolon_tracks hs₁

theorem parameters_tracks : ∀ {n m : Nat} {done done' : Array Token} {s t : State}, done.size = done'.size →
    done.size + commas s.rest ≤ commas b → Beside b c before s t →
      Tracks Unrelated b c before (parameters n done) (parameters m done') s t
  | 0, _, _, _, _, _, _, _, _ => .outOfFuel_left
  | n + 1, 0, _, _, _, _, _, _, _ => .outOfFuel_right
  | n + 1, m + 1, done, done', s, t, hsize, hcommas, hs => by
    have hmore : ∀ (p : Token) (r : Option Token), Advancing (match r with
        | none => pure (done.push p)
        | some _ => parameters n (done.push p)) := by
      intro p r
      cases r with
      | none => exact .pure _
      | some comma => exact parameters_advancing n _
    rw [parameters, parameters, ← hsize]
    refine .checkArity_bind hs ((Advancing.expect _ _).bind fun p => (Advancing.take? _).bind (hmore p)) (by omega) ?_
    intro s₁ t₁ hrest hs₁
    refine .expect_bind hs₁ (fun p => (Advancing.take? _).bind (hmore p)) fun p s₂ t₂ hp hs₂ => ?_
    have hle : commas s₂.rest ≤ commas s.rest := commas_le_of_suffix (hrest ▸ hp.advances.rest)
    refine .take?_bind hs₂ (hmore p) (fun _ => .pure trivial hs₂) fun comma s₃ t₃ hcomma hs₃ => ?_
    have hone := commas_of_takes hcomma
    exact parameters_tracks (by simp [hsize]) (by rw [Array.size_push]; omega) hs₃

theorem forInitializer_tracks (hs : Beside b c before s t) :
    Tracks Unrelated b c before (forInitializer n) (forInitializer m) s t := by
  have hvar : ∀ r : Option Token, Advancing (match r with
      | some _ => some <$> varDeclaration n
      | none => some <$> expressionStatement n) := by
    intro r
    cases r with
    | some _ => exact (varDeclaration_advancing n).map
    | none => exact (expressionStatement_advancing n).map
  refine .take?_bind hs ?_ (fun _ => .take?_bind hs hvar (fun _ => ?_) fun _ s₁ t₁ _ hs₁ => ?_) fun _ _ _ _ hs₁ =>
    .pure trivial hs₁
  · intro r
    cases r with
    | some _ => exact .pure _
    | none => exact (Advancing.take? _).bind hvar
  · exact (expressionStatement_tracks hs).map fun _ _ _ => trivial
  · exact (varDeclaration_tracks hs₁).map fun _ _ _ => trivial

theorem forClauses_tracks (hs : Beside b c before s t) :
    Tracks Unrelated b c before (forClauses n) (forClauses m) s t := by
  have hclosing : ∀ clauses : ForClauses, Advancing (expect (isMark .rightParen) (.noRightParen "for clauses") >>=
      fun _ => pure clauses) := fun _ => (Advancing.expect _ _).bind fun _ => .pure _
  have hincrement : ∀ init condition, Advancing (expect (isMark .semicolon) (.noSemicolon "loop condition") >>= fun _ =>
      unlessNext (isMark .rightParen) none (some <$> expression n) >>= fun increment =>
        expect (isMark .rightParen) (.noRightParen "for clauses") >>= fun _ =>
          pure (ForClauses.mk init condition increment)) := fun _ _ =>
    (Advancing.expect _ _).bind fun _ => maybe_advancing.bind fun _ => hclosing _
  have hcondition : ∀ init, Advancing (unlessNext (isMark .semicolon) none (some <$> expression n) >>= fun condition =>
      expect (isMark .semicolon) (.noSemicolon "loop condition") >>= fun _ =>
        unlessNext (isMark .rightParen) none (some <$> expression n) >>= fun increment =>
          expect (isMark .rightParen) (.noRightParen "for clauses") >>= fun _ =>
            pure (ForClauses.mk init condition increment)) := fun _ =>
    maybe_advancing.bind fun _ => hincrement _ _
  refine .expect_bind hs (fun _ => (forInitializer_advancing n).bind hcondition) fun _ s₁ t₁ _ hs₁ => ?_
  refine (forInitializer_tracks hs₁).bind hcondition fun init init' s₂ t₂ _ _ hs₂ => ?_
  refine (maybe_tracks hs₂).bind (hincrement init) fun condition condition' s₃ t₃ _ _ hs₃ => ?_
  refine .expect_bind hs₃ (fun _ => maybe_advancing.bind fun _ => hclosing _) fun _ s₄ t₄ _ hs₄ => ?_
  refine (maybe_tracks hs₄).bind (fun _ => hclosing _) fun increment increment' s₅ t₅ _ _ hs₅ => ?_
  exact .expect_bind hs₅ (fun _ => .pure _) fun _ _ _ _ hs₆ => .pure trivial hs₆

theorem condition_tracks {keyword clause : String} (hs : Beside b c before s t) :
    Tracks Unrelated b c before (condition n keyword clause) (condition m keyword clause) s t := by
  refine .expect_bind hs (fun _ => (expression_advancing n).bind fun _ => (Advancing.expect _ _).bind fun _ => .pure _)
    fun _ s₁ t₁ _ hs₁ => ?_
  refine (expression_tracks hs₁).bind (fun _ => (Advancing.expect _ _).bind fun _ => .pure _)
    fun _ _ s₂ t₂ _ _ hs₂ => ?_
  exact .expect_bind hs₂ (fun _ => .pure _) fun _ _ _ _ hs₃ => .pure trivial hs₃

/-- A statement goes on in the same way behind its first token, which is no brace. -/
theorem inner_tracks {tok : Token} (htok : statement.startsInner tok.kind = true) (hbrace : tok.kind ≠ .mark .leftBrace)
    (ih : ∀ {s t : State}, Beside b c before s t → Tracks Unrelated b c before (statement n) (statement m) s t)
    (hs : Beside b c before s t) : Tracks Unrelated b c before (inner n tok) (inner m tok) s t := by
  have hstatement := (statementsAdvance n).statement
  unfold inner
  rcases startsInner_cases htok with hk | hk | hk | hk | hk | hk <;> simp only [hk]
  · refine (forClauses_tracks hs).bind (fun _ => hstatement.bind fun _ => .pure _) fun _ _ s₁ t₁ _ _ hs₁ => ?_
    exact (ih hs₁).bind (fun _ => .pure _) fun _ _ _ _ _ _ hs₂ => .pure trivial hs₂
  · refine (condition_tracks hs).bind (fun _ => hstatement.bind fun _ => hstatement.after?.bind fun _ => .pure _) ?_
    intro _ _ s₁ t₁ _ _ hs₁
    refine (ih hs₁).bind (fun _ => hstatement.after?.bind fun _ => .pure _) fun _ _ s₂ t₂ _ _ hs₂ => ?_
    have hother : Tracks Unrelated b c before (after? (isKeyword .else) (statement n))
        (after? (isKeyword .else) (statement m)) s₂ t₂ :=
      .after? hs₂ hstatement trivial (fun _ _ _ => trivial) fun _ _ _ _ hs₃ => ih hs₃
    exact hother.bind (fun _ => .pure _) fun _ _ _ _ _ _ hs₃ => .pure trivial hs₃
  · exact printStatement_tracks hs
  · exact returnStatement_tracks hs
  · refine (condition_tracks hs).bind (fun _ => hstatement.bind fun _ => .pure _) fun _ _ s₁ t₁ _ _ hs₁ => ?_
    exact (ih hs₁).bind (fun _ => .pure _) fun _ _ _ _ _ _ hs₂ => .pure trivial hs₂
  · exact absurd hk hbrace

theorem statement_tracks (hbrace : ∀ tok ∈ b, tok.kind ≠ .mark .leftBrace) : ∀ {n m : Nat} {s t : State},
    Beside b c before s t → Tracks Unrelated b c before (statement n) (statement m) s t
  | 0, _, _, _, _ => .outOfFuel_left
  | _ + 1, 0, _, _, _ => .outOfFuel_right
  | n + 1, m + 1, s, t, hs => by
    rw [statement_succ, statement_succ]
    refine .take?_bind hs ?_ (fun _ => expressionStatement_tracks hs) fun tok s₁ t₁ htok hs₁ => ?_
    · intro r
      cases r with
      | none => exact expressionStatement_advancing n
      | some tok => exact (statementsAdvance n).inner tok
    · exact inner_tracks htok.test (hbrace tok (hs.mem_of_takes htok)) (statement_tracks hbrace) hs₁

/-- Where no brace opens a body, a function is read to the end of its parameters at most. -/
theorem function_tracks (hbrace : ∀ tok ∈ b, tok.kind ≠ .mark .leftBrace) (hs : Beside b c before s t) :
    Tracks Unrelated b c before (function n) (function m) s t := by
  cases n with
  | zero => exact .outOfFuel_left
  | succ n => cases m with
    | zero => exact .outOfFuel_right
    | succ m =>
      have hbody : ∀ name (ps : Array Token), Advancing (expect (isMark .leftBrace) .noBodyBrace >>= fun _ =>
          block n >>= fun body => pure (Stmt.function name ps.toList body)) := fun _ _ =>
        (Advancing.expect _ _).bind fun _ => (statementsAdvance n).block.bind fun _ => .pure _
      have hparameters : ∀ name, Advancing (unlessNext (isMark .rightParen) #[] (parameters n #[]) >>= fun ps =>
          expect (isMark .rightParen) (.noRightParen "parameters") >>= fun _ =>
            expect (isMark .leftBrace) .noBodyBrace >>= fun _ =>
              block n >>= fun body => pure (Stmt.function name ps.toList body)) := fun _ =>
        (parameters_advancing n #[]).unlessNext.bind fun _ => (Advancing.expect _ _).bind fun _ => hbody _ _
      rw [function, function]
      refine .expect_bind hs (fun name => (Advancing.expect _ _).bind fun _ => hparameters name)
        fun name s₁ t₁ _ hs₁ => ?_
      refine .expect_bind hs₁ (fun _ => hparameters name) fun _ s₂ t₂ _ hs₂ => ?_
      have hps : Tracks Unrelated b c before (parameters n #[]) (parameters m #[]) s₂ t₂ :=
        parameters_tracks rfl (by simpa using commas_le_of_suffix hs₂.suffix) hs₂
      refine (Tracks.unlessNext hs₂ (parameters_advancing n #[]) trivial hps).bind
        (fun _ => (Advancing.expect _ _).bind fun _ => hbody _ _) fun ps ps' s₃ t₃ _ _ hs₃ => ?_
      refine .expect_bind hs₃ (fun _ => hbody _ _) fun _ s₄ t₄ _ hs₄ => ?_
      refine .expect_bind hs₄ (fun _ => (statementsAdvance n).block.bind fun _ => .pure _)
        fun brace s₅ t₅ hopening _ => ?_
      exact absurd (isMark_iff.mp hopening.test) (hbrace brace (hs₄.mem_of_takes hopening))

/-- In a stretch without braces an attempt at a declaration does the same wherever the stretch stands. -/
theorem attempt_tracks (hbrace : ∀ tok ∈ b, tok.kind ≠ .mark .leftBrace) (hs : Beside b c before s t) :
    Tracks Unrelated b c before (attempt n) (attempt m) s t := by
  have hvar : ∀ r : Option Token, Advancing (match r with
      | some _ => varDeclaration n
      | none => statement n) := by
    intro r
    cases r with
    | some _ => exact varDeclaration_advancing n
    | none => exact (statementsAdvance n).statement
  refine .take?_bind hs ?_ (fun _ => .take?_bind hs hvar (fun _ => statement_tracks hbrace hs) ?_) ?_
  · intro r
    cases r with
    | some _ => exact (statementsAdvance n).function
    | none => exact (Advancing.take? _).bind hvar
  · exact fun _ _ _ _ hs₁ => varDeclaration_tracks hs₁
  · exact fun _ _ _ _ hs₁ => function_tracks hbrace hs₁

end

end Parse
end Lox
