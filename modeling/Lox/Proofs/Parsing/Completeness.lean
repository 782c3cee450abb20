import Lox.Proofs.Parsing.Soundness

/-! # What the grammar derives is parsed

Where the next tokens derive a tree and what stands behind them does not go on with it, the parsing
function of its category gives that tree and stops behind them; calls and functions within their limits
record no error (`completes`). Chains and calls are read by a loop that is handed
what is read so far, so for them the statement is about everything that the loop goes on to do. -/

namespace Lox
namespace Parse
open Grammar

/-! ### Parsing functions that are not refused -/

/-- The parsing function is not refused here, and what it gives with enough fuel has the property. -/
def Yields {α : Type} (p : Parser α) (s : State) (P : α → State → Prop) : Prop :=
  match p s with
  | .ok a s' => P a s'
  | .error .outOfFuel _ => True
  | .error (.refused _) _ => False

namespace Yields
variable {α β : Type} {p : Parser α} {f : α → Parser β} {s s' : State} {a : α} {P Q : α → State → Prop}
  {R : β → State → Prop}

theorem of_ok (h : Yields p s P) (hok : p s = .ok a s') : P a s' := by
  unfold Yields at h
  rwa [hok] at h

theorem zero : Yields outOfFuel s P := trivial

theorem pure (h : P a s) : Yields (Pure.pure a) s P := h

theorem bind (h : Yields p s fun a s' => Yields (f a) s' R) : Yields (p >>= f) s R := by
  unfold Yields at h ⊢
  rw [bind_apply]
  cases hp : p s with
  | ok a s' =>
    rw [hp] at h
    exact h
  | error stop s' =>
    rw [hp] at h
    cases stop <;> exact h

theorem mono (h : Yields p s P) (hPQ : ∀ a s', P a s' → Q a s') : Yields p s Q := by
  unfold Yields at h ⊢
  cases hp : p s with
  | ok a s' =>
    rw [hp] at h
    exact hPQ a s' h
  | error stop s' =>
    rw [hp] at h
    cases stop <;> exact h

theorem map {g : α → β} (h : Yields p s fun a s' => R (g a) s') : Yields (g <$> p) s R := by
  unfold Yields at h ⊢
  simp only [Functor.map, EStateM.map]
  cases hp : p s with
  | ok a s' =>
    rw [hp] at h
    exact h
  | error stop s' =>
    rw [hp] at h
    cases stop <;> exact h

section
variable {test : Kind → Bool} {cause : SyntaxError.Cause} {t : Token} {rest : List Token}

theorem take?_some {f : Option Token → Parser β} (hrest : s.rest = t :: rest) (ht : test t.kind = true)
    (h : Yields (f (some t)) { s with rest } R) : Yields (take? test >>= f) s R := by
  refine bind ?_
  have htake : take? test s = .ok (some t) { s with rest } := by simp [take?, hrest, ht]
  unfold Yields
  rw [htake]
  exact h

theorem take?_none {f : Option Token → Parser β} (hl : s.Lacks test) (h : Yields (f none) s R) :
    Yields (take? test >>= f) s R := by
  refine bind ?_
  have htake : take? test s = .ok none s := by
    unfold take?
    cases hrest : s.rest with
    | nil => rfl
    | cons t rest => simp [hl t rest hrest]
  unfold Yields
  rw [htake]
  exact h

theorem expect {f : Token → Parser β} (hrest : s.rest = t :: rest) (ht : test t.kind = true)
    (h : Yields (f t) { s with rest } R) : Yields (expect test cause >>= f) s R :=
  bind (take?_some hrest ht h)

theorem unlessNext_of_next (hrest : s.rest = t :: rest) (ht : test t.kind = true) (h : P a s) :
    Yields (unlessNext test a p) s P := by
  have hsees : sees test s = .ok true s := by simp [sees, hrest, ht]
  refine bind ?_
  unfold Yields
  rw [hsees]
  exact h

theorem unlessNext_of_lacks {default : α} (hl : s.Lacks test) (h : Yields p s P) :
    Yields (unlessNext test default p) s P := by
  have hsees : sees test s = .ok false s := by
    unfold sees
    cases hrest : s.rest with
    | nil => rfl
    | cons t rest => simp [hl t rest hrest]
  refine bind ?_
  unfold Yields
  rw [hsees]
  exact h

theorem after?_some {P : Option α → State → Prop} (hrest : s.rest = t :: rest) (ht : test t.kind = true)
    (h : Yields p { s with rest } fun a s' => P (some a) s') : Yields (after? test p) s P :=
  take?_some hrest ht (map h)

theorem after?_none {P : Option α → State → Prop} (hl : s.Lacks test) (h : P none s) : Yields (after? test p) s P :=
  take?_none hl (pure h)

theorem checkArity {size : Nat} {f : Unit → Parser β}
    (h : ∀ s', s'.rest = s.rest → (size < maxArity → s'.errors = s.errors) → Yields (f ()) s' R) :
    Yields (checkArity size cause >>= f) s R := by
  refine bind ?_
  unfold Parse.checkArity
  by_cases hs : maxArity ≤ size
  · rw [if_pos hs]
    exact h _ rfl fun hlt => absurd hs (Nat.not_le_of_lt hlt)
  · rw [if_neg hs]
    exact h s rfl fun _ => rfl

end
end Yields

/-! ### What goes on with an expression -/

/-- A level and the tighter ones. -/
def andTighter : Level → List Level
  | .or => [.or, .and, .equality, .comparison, .term, .factor]
  | .and => [.and, .equality, .comparison, .term, .factor]
  | .equality => [.equality, .comparison, .term, .factor]
  | .comparison => [.comparison, .term, .factor]
  | .term => [.term, .factor]
  | .factor => [.factor]

/-- The tokens that go on with a chain of operators of a level, or with one of its operands. -/
def continuesChain (level : Level) (k : Kind) : Bool :=
  (andTighter level).any (·.admits k) || isMark .leftParen k

/-- The tokens that go on with an expression of a category. -/
def continues : Category → Kind → Bool
  | .assignment, k => isMark .equal k || continuesChain .or k
  | .chain level, k => continuesChain level k
  | .unary, k | .call, k => isMark .leftParen k
  | .primary, _ => false

/-- The first of these tokens, if there is one, fails the test. -/
def Stops (test : Kind → Bool) (rest : List Token) : Prop := ∀ t more, rest = t :: more → test t.kind = false

theorem stops_cons {test : Kind → Bool} {t : Token} {rest : List Token} (h : test t.kind = false) :
    Stops test (t :: rest) := by
  rintro _ _ ⟨⟩
  exact h

theorem Stops.imp {test test' : Kind → Bool} {rest : List Token} (h : Stops test rest)
    (himp : ∀ k, test' k = true → test k = true) : Stops test' rest := fun t more hrest =>
  Bool.eq_false_iff.mpr fun ht => Bool.eq_false_iff.mp (h t more hrest) (himp _ ht)

theorem continues_operand (level : Level) (k : Kind) (h : continues (Grammar.operand level) k = true) :
    continuesChain level k = true := by
  cases level with
  | factor => exact Bool.or_eq_true_iff.mpr (.inr h)
  | or | and | equality | comparison | term =>
    simp only [Grammar.operand, continues, continuesChain, andTighter, List.any_cons, Bool.or_assoc] at h ⊢
    exact Bool.or_eq_true_iff.mpr (.inr h)

theorem continues_of_admits (level : Level) (k : Kind) (h : level.admits k = true) : continuesChain level k = true := by
  cases level <;> simp [continuesChain, andTighter, h]

theorem not_continues_of_mem {level : Level} {k : Kind} (h : k ∈ operators level) :
    continues (Grammar.operand level) k = false := by
  have hall : ∀ k ∈ operators level, continues (Grammar.operand level) k = false := by
    cases level <;>
      simp [operators, Grammar.operand, continues, continuesChain, andTighter, Level.admits, isMark]
  exact hall k h

/-! ### How an expression begins -/

/-- The tokens that an expression of a category can begin with. -/
def begins : Category → Kind → Bool
  | .call, k | .primary, k => isAtom k
  | .assignment, k | .chain _, k | .unary, k => isAtom k || isPrefixOperator k

theorem begins_of_isAtom (c : Category) {k : Kind} (h : isAtom k = true) : begins c k = true := by
  cases c <;> simp [begins, h]

theorem begins_operand (level : Level) : begins (Grammar.operand level) = begins (.chain level) := by
  cases level <;> rfl

theorem isAtom_of_constant {k : Kind} {v : Literal} (h : Constant k v) : isAtom k = true := by
  cases h <;> rfl

theorem derives_begins : ∀ {c : Category} {ts : List Token} {e : Expr}, Derives c ts e →
    ∃ t more, ts = t :: more ∧ begins c t.kind = true
  | _, _, _, .assign hname _ _ => ⟨_, _, rfl, begins_of_isAtom _ (by rw [hname]; rfl)⟩
  | _, _, _, .chain h => by
    obtain ⟨t, more, rfl, ht⟩ := derives_begins h
    exact ⟨t, more, rfl, ht⟩
  | _, _, _, @Derives.operand level _ _ h => by
    rw [← begins_operand level]
    exact derives_begins h
  | _, _, _, .join hl _ _ => by
    obtain ⟨t, more, rfl, ht⟩ := derives_begins hl
    exact ⟨t, _, rfl, ht⟩
  | _, _, _, .sign hop _ => by
    refine ⟨_, _, rfl, ?_⟩
    rw [begins, isPrefixOperator_iff.mpr hop, Bool.or_true]
  | _, _, _, .called h => by
    obtain ⟨t, more, rfl, ht⟩ := derives_begins h
    exact ⟨t, more, rfl, begins_of_isAtom .unary ht⟩
  | _, _, _, .callee h => by
    obtain ⟨t, more, rfl, ht⟩ := derives_begins h
    exact ⟨t, more, rfl, ht⟩
  | _, _, _, .call hf _ _ _ => by
    obtain ⟨t, more, rfl, ht⟩ := derives_begins hf
    exact ⟨t, _, rfl, ht⟩
  | _, _, _, .constant h => ⟨_, _, rfl, isAtom_of_constant h⟩
  | _, _, _, .variable h => ⟨_, _, rfl, begins_of_isAtom .primary (by rw [h]; rfl)⟩
  | _, _, _, .grouping hopening _ _ => ⟨_, _, rfl, begins_of_isAtom .primary (by rw [hopening]; rfl)⟩

/-- What no expression begins with does not stand before one. -/
theorem derives_stops {test : Kind → Bool} {c : Category} {ts rest : List Token} {e : Expr} (h : Derives c ts e)
    (htest : ∀ k, test k = true → begins c k = false) : Stops test (ts ++ rest) := by
  obtain ⟨t, more, rfl, ht⟩ := derives_begins h
  exact stops_cons (Bool.eq_false_iff.mpr fun hk => by simp [htest _ hk] at ht)

/-! ### Expressions -/

/-- What was parsed between the two states has this view, tokens were read up to these, and no error was
    recorded within the limits. -/
structure Gives {α β : Type} (view : α → β) (b : β) (limits : Prop) (s : State) (rest : List Token)
    (a : α) (s' : State) :
    Prop where
  view_eq : view a = b
  rest : s'.rest = rest
  errors : limits → s'.errors = s.errors

/-- An expression with this tree was parsed. -/
abbrev Built (s : State) (rest : List Token) (e : Expr) : Expr → State → Prop :=
  Gives Expr.unnumbered e e.WithinLimits s rest

/-- What derives this tree is parsed to it. A chain and a call stand before whatever is done with what the
    loop for more of them has read. -/
def Completes : Category → List Token → Expr → Prop
  | .assignment, ts, e => ∀ n s rest, s.rest = ts ++ rest → Stops (continues .assignment) rest →
      Yields (expression n) s (Built s rest e)
  | .chain level, ts, e => ∀ n m s rest P, s.rest = ts ++ rest → Stops (continues (Grammar.operand level)) rest →
      (∀ k e' s', Built s rest e e' s' → Yields (chain k level e') s' P) →
      Yields (operand n level >>= chain m level) s P
  | .unary, ts, e => ∀ n s rest, s.rest = ts ++ rest → Stops (continues .unary) rest →
      Yields (unary n) s (Built s rest e)
  | .call, ts, e => ∀ n m s rest P, s.rest = ts ++ rest →
      (∀ k e' s', Built s rest e e' s' → Yields (calls k e') s' P) → Yields (primary n >>= calls m) s P
  | .primary, ts, e => ∀ n s rest, s.rest = ts ++ rest → Yields (primary n) s (Built s rest e)

/-- Arguments with these trees were parsed behind those in `done`. -/
abbrev BuiltAll (done : Array Expr) (s : State) (rest : List Token) (es : List Expr) : Array Expr → State → Prop :=
  Gives (Expr.unnumberedAll ·.toList) (Expr.unnumberedAll done.toList ++ es)
    (Expr.WithinLimitsAll es ∧ done.size + es.length ≤ 255) s rest

/-- What derives these arguments is parsed to them. -/
def ListCompletes (ts : List Token) (es : List Expr) : Prop :=
  ∀ n done s closing rest, s.rest = ts ++ closing :: rest → closing.kind = .mark .rightParen →
    Yields (arguments n done) s (BuiltAll done s (closing :: rest) es)

/-- What derives these arguments, or nothing, is parsed to them. -/
def ArgumentsComplete (ts : List Token) (es : List Expr) : Prop :=
  ∀ n s closing rest, s.rest = ts ++ closing :: rest → closing.kind = .mark .rightParen →
    Yields (unlessNext (isMark .rightParen) #[] (arguments n #[])) s (BuiltAll #[] s (closing :: rest) es)

namespace Completes
variable {level : Level} {ts us : List Token} {e : Expr}

theorem binary (h : Completes (.chain level) ts e) {n : Nat} {s : State} {rest : List Token}
    (hrest : s.rest = ts ++ rest)
    (hstops : Stops (continues (.chain level)) rest) : Yields (Parse.binary n level) s (Built s rest e) := by
  cases n with
  | zero => exact .zero
  | succ n =>
    rw [Parse.binary]
    refine h n n s rest _ hrest (hstops.imp (continues_operand level)) ?_
    intro k e' s' hb
    cases k with
    | zero => exact .zero
    | succ k =>
      rw [Parse.chain]
      refine .take?_none ?_ (.pure hb)
      have hlacks := hstops.imp (continues_of_admits level)
      rwa [← hb.rest] at hlacks

theorem operand (h : Completes (Grammar.operand level) ts e) {n : Nat} {s : State} {rest : List Token}
    (hrest : s.rest = ts ++ rest) (hstops : Stops (continues (Grammar.operand level)) rest) :
    Yields (Parse.operand n level) s (Built s rest e) := by
  cases level with
  | factor => exact h n s rest hrest hstops
  | or | and | equality | comparison | term => exact h.binary hrest hstops

theorem chain (h : Completes (.chain .or) ts e) : Completes .assignment ts e := by
  intro n s rest hrest hstops
  cases n with
  | zero => exact .zero
  | succ n =>
    rw [Parse.expression]
    refine .bind ((h.binary hrest (hstops.imp fun k hk => Bool.or_eq_true_iff.mpr (.inr hk))).mono fun e' s' hb => ?_)
    refine .take?_none ?_ (.pure hb)
    have hequal : Stops (isMark .equal) rest := hstops.imp fun k hk => Bool.or_eq_true_iff.mpr (.inl hk)
    rwa [← hb.rest] at hequal

theorem ofOperand (h : Completes (Grammar.operand level) ts e) :
    Completes (.chain level) ts e := by
  intro n m s rest P hrest hstops hP
  exact .bind ((h.operand hrest hstops).mono fun e' s' hb => hP m e' s' hb)

theorem join {l r : Expr} {operator : Token} (hl : Completes (.chain level) ts l)
    (hop : operator.kind ∈ operators level) (hr : Completes (Grammar.operand level) us r) :
    Completes (.chain level) (ts ++ operator :: us) (joined level l operator r) := by
  intro n m s rest P hrest hstops hP
  refine hl n m s (operator :: (us ++ rest)) P (by simpa using hrest) (stops_cons (not_continues_of_mem hop))
    ?_
  intro k l' s₁ hleft
  cases k with
  | zero => exact .zero
  | succ k =>
    rw [Parse.chain]
    refine .take?_some hleft.rest (admits_iff.mpr hop) (.bind ((hr.operand rfl hstops).mono fun r' s₂ hright => ?_))
    refine hP k _ s₂ ⟨?_, hright.rest, ?_⟩
    · rw [join_unnumbered, hleft.view_eq, hright.view_eq]
    · intro hlimits
      rw [joined_withinLimits] at hlimits
      exact (hright.errors hlimits.2).trans (hleft.errors hlimits.1)

theorem sign {operator : Token} (hop : operator.kind = .mark .bang ∨ operator.kind = .mark .minus)
    (h : Completes .unary ts e) : Completes .unary (operator :: ts) (.unary operator e) := by
  intro n s rest hrest hstops
  cases n with
  | zero => exact .zero
  | succ n =>
    rw [Parse.unary]
    refine .take?_some hrest (isPrefixOperator_iff.mpr hop) (.bind ((h n _ rest rfl hstops).mono fun e' s' hb => ?_))
    exact .pure ⟨congrArg _ hb.view_eq, hb.rest, hb.errors⟩

theorem called (hd : Derives .call ts e) (h : Completes .call ts e) : Completes .unary ts e := by
  intro n s rest hrest hstops
  cases n with
  | zero => exact .zero
  | succ n =>
    rw [Parse.unary]
    have hsign : Stops isPrefixOperator (ts ++ rest) := derives_stops hd fun k hk => by
      rcases isPrefixOperator_iff.mp hk with rfl | rfl <;> rfl
    rw [← hrest] at hsign
    refine .take?_none hsign (h n n s rest _ hrest fun k e' s' hb => ?_)
    cases k with
    | zero => exact .zero
    | succ k =>
      rw [Parse.calls]
      rw [← hb.rest] at hstops
      exact .take?_none hstops (.pure hb)

theorem callee (h : Completes .primary ts e) : Completes .call ts e := by
  intro n m s rest P hrest hP
  exact .bind ((h n s rest hrest).mono fun e' s' hb => hP m e' s' hb)

theorem call {f : Expr} {args : List Expr} {opening closing : Token} (hf : Completes .call ts f)
    (hopening : opening.kind = .mark .leftParen) (hargs : ArgumentsComplete us args)
    (hclosing : closing.kind = .mark .rightParen) :
    Completes .call (ts ++ opening :: (us ++ [closing])) (.call f closing args) := by
  intro n m s rest P hrest hP
  refine hf n m s (opening :: (us ++ closing :: rest)) P (by simpa using hrest) ?_
  intro k f' s₁ hcallee
  cases k with
  | zero => exact .zero
  | succ k =>
    rw [Parse.calls]
    refine .take?_some hcallee.rest (isMark_iff.mpr hopening)
      (.bind ((hargs k _ closing rest rfl hclosing).mono fun args' s₂ hall => ?_))
    refine .expect hall.rest (isMark_iff.mpr hclosing) (hP k _ _ ⟨?_, rfl, ?_⟩)
    · rw [Expr.unnumbered, hcallee.view_eq, hall.view_eq]
      rfl
    · intro hlimits
      obtain ⟨hf, hlength, hargs⟩ := hlimits
      exact (hall.errors ⟨hargs, by simpa using hlength⟩).trans (hcallee.errors hf)

theorem constant {t : Token} {v : Literal} (h : Constant t.kind v) : Completes .primary [t] (.literal v) := by
  intro n s rest hrest
  cases n with
  | zero => exact .zero
  | succ n =>
    rw [Parse.primary]
    refine .take?_some hrest (isAtom_of_constant h) ?_
    simp only [literal?_eq_some_iff.mpr h]
    exact .pure ⟨rfl, rfl, fun _ => rfl⟩

theorem identifier {t : Token} (h : t.kind = .identifier) : Completes .primary [t] (.var 0 t) := by
  intro n s rest hrest
  cases n with
  | zero => exact .zero
  | succ n =>
    rw [Parse.primary]
    refine .take?_some hrest (by rw [h]; rfl) ?_
    simp only [h]
    exact .bind (p := freshId) ⟨rfl, rfl, fun _ => rfl⟩

theorem grouping {opening closing : Token} (hopening : opening.kind = .mark .leftParen) (h : Completes .assignment ts e)
    (hclosing : closing.kind = .mark .rightParen) :
    Completes .primary (opening :: (ts ++ [closing])) (.grouping e) := by
  intro n s rest hrest
  cases n with
  | zero => exact .zero
  | succ n =>
    rw [Parse.primary]
    have hrest : s.rest = opening :: (ts ++ closing :: rest) := by simpa using hrest
    refine .take?_some hrest (by rw [hopening]; rfl) ?_
    simp only [hopening]
    have hstops : Stops (continues .assignment) (closing :: rest) := stops_cons (by rw [hclosing]; rfl)
    refine .bind ((h n _ (closing :: rest) rfl hstops).mono fun e' s' hb => ?_)
    exact .expect hb.rest (isMark_iff.mpr hclosing) ⟨congrArg _ hb.view_eq, rfl, hb.errors⟩

theorem target {name : Token} (h : name.kind = .identifier) : Completes (.chain .or) [name] (.var 0 name) :=
  have hunary : Completes .unary [name] (.var 0 name) := .called (.callee (.variable h)) (.callee (.identifier h))
  .ofOperand <| .ofOperand <| .ofOperand <| .ofOperand <| .ofOperand <| .ofOperand hunary

theorem assign {name equals : Token} (hname : name.kind = .identifier) (hequals : equals.kind = .mark .equal)
    (h : Completes .assignment ts e) : Completes .assignment (name :: equals :: ts) (.assign 0 name e) := by
  intro n s rest hrest hstops
  cases n with
  | zero => exact .zero
  | succ n =>
    rw [Parse.expression]
    have hstopsTarget : Stops (continues (.chain .or)) (equals :: (ts ++ rest)) := stops_cons (by rw [hequals]; rfl)
    refine .bind (((target hname).binary hrest hstopsTarget).mono fun target s₁ ht => ?_)
    refine .take?_some ht.rest (isMark_iff.mpr hequals) (.bind ((h n _ rest rfl hstops).mono fun e' s₂ hb => ?_))
    have htarget := ht.view_eq
    cases target with
    | var id name' =>
      cases htarget
      refine .bind (p := freshId) ⟨?_, hb.rest, fun hlimits => ?_⟩
      · rw [Expr.unnumbered, hb.view_eq]
      · exact (hb.errors hlimits).trans (ht.errors trivial)
    | literal _ | grouping _ | unary _ _ | binary _ _ _ | logical _ _ _ | assign _ _ _ | call _ _ _ => cases htarget

end Completes

theorem ListCompletes.last {ts : List Token} {e : Expr} (h : Completes .assignment ts e) : ListCompletes ts [e] := by
  intro n done s closing rest hrest hclosing
  cases n with
  | zero => exact .zero
  | succ n =>
    rw [arguments]
    refine .checkArity ?_
    intro s₁ hrest₁ hsize
    have hstops : Stops (continues .assignment) (closing :: rest) := stops_cons (by rw [hclosing]; rfl)
    refine .bind ((h n s₁ _ (hrest₁.trans hrest) hstops).mono fun e' s₂ hb => ?_)
    have hlacks : s₂.Lacks (isMark .comma) := by
      have hstops : Stops (isMark .comma) (closing :: rest) := stops_cons (by rw [hclosing]; rfl)
      rwa [← hb.rest] at hstops
    refine .take?_none hlacks (.pure ⟨?_, hb.rest, fun hlimits => ?_⟩)
    · rw [Array.toList_push, unnumberedAll_append, ← hb.view_eq]
      rfl
    · exact (hb.errors hlimits.1.1).trans (hsize hlimits.2)

theorem ListCompletes.more {ts us : List Token} {e : Expr} {es : List Expr} {comma : Token}
    (h : Completes .assignment ts e) (hcomma : comma.kind = .mark .comma) (hes : ListCompletes us es) :
    ListCompletes (ts ++ comma :: us) (e :: es) := by
  intro n done s closing rest hrest hclosing
  cases n with
  | zero => exact .zero
  | succ n =>
    rw [arguments]
    refine .checkArity ?_
    intro s₁ hrest₁ hsize
    have hstops : Stops (continues .assignment) (comma :: (us ++ closing :: rest)) := stops_cons (by rw [hcomma]; rfl)
    refine .bind ((h n s₁ _ (by simpa using hrest₁.trans hrest) hstops).mono fun e' s₂ hb => ?_)
    refine .take?_some hb.rest (isMark_iff.mpr hcomma)
      ((hes n _ _ closing rest rfl hclosing).mono fun args s₃ hall => ?_)
    refine ⟨?_, hall.rest, ?_⟩
    · rw [hall.view_eq, Array.toList_push, unnumberedAll_append, ← hb.view_eq, List.append_assoc]
      rfl
    · intro hboth
      obtain ⟨hlimits, hlength⟩ := hboth
      rw [List.length_cons] at hlength
      have hall := hall.errors ⟨hlimits.2, by rw [Array.size_push]; omega⟩
      exact hall.trans ((hb.errors hlimits.1).trans (hsize (by unfold maxArity; omega)))

theorem ArgumentsComplete.none : ArgumentsComplete [] [] := by
  intro n s closing rest hrest hclosing
  exact .unlessNext_of_next hrest (isMark_iff.mpr hclosing) ⟨rfl, hrest, fun _ => rfl⟩

theorem ArgumentsComplete.some {ts : List Token} {es : List Expr} (hd : ArgumentList ts es) (h : ListCompletes ts es) :
    ArgumentsComplete ts es := by
  intro n s closing rest hrest hclosing
  have hfirst : Stops (isMark .rightParen) (ts ++ closing :: rest) := by
    cases hd with
    | last hd => exact derives_stops hd fun k hk => by rw [isMark_iff.mp hk]; rfl
    | more hd hcomma hes =>
      rw [List.append_assoc]
      exact derives_stops hd fun k hk => by rw [isMark_iff.mp hk]; rfl
  rw [← hrest] at hfirst
  exact .unlessNext_of_lacks hfirst (h n #[] s closing rest hrest hclosing)

mutual

theorem completes : ∀ {c : Category} {ts : List Token} {e : Expr}, Derives c ts e → Completes c ts e
  | _, _, _, .assign hname hequals h => .assign hname hequals (completes h)
  | _, _, _, .chain h => .chain (completes h)
  | _, _, _, .operand h => .ofOperand (completes h)
  | _, _, _, .join hl hop hr => .join (completes hl) hop (completes hr)
  | _, _, _, .sign hop h => .sign hop (completes h)
  | _, _, _, .called h => .called h (completes h)
  | _, _, _, .callee h => .callee (completes h)
  | _, _, _, .call hf hopening hargs hclosing => .call (completes hf) hopening (argumentsComplete hargs) hclosing
  | _, _, _, .constant h => .constant h
  | _, _, _, .variable h => .identifier h
  | _, _, _, .grouping hopening h hclosing => .grouping hopening (completes h) hclosing

theorem argumentsComplete : ∀ {ts : List Token} {es : List Expr}, Arguments ts es → ArgumentsComplete ts es
  | _, _, .none => .none
  | _, _, .some h => .some h (listCompletes h)

theorem listCompletes : ∀ {ts : List Token} {es : List Expr}, ArgumentList ts es → ListCompletes ts es
  | _, _, .last h => .last (completes h)
  | _, _, .more h hcomma hes => .more (completes h) hcomma (listCompletes hes)

end

end Parse
end Lox
