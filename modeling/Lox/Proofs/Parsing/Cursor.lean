import Lox.Proofs.Parsing.Seams
import Lox.Proofs.Parsing.Composition

/-! # Parsing with an index into an array

The tokens can be held in an array that ends with an end marker, with an index for the place of the parse. A read at an
index may then miss the array, which stops the parse; and all indices that were read are kept in a log. Every parsing
function is put together from steps of this kind as from its own (`OnArray`), and both do the same from the same place
(`OnArray.agrees`). So the index never passes the first end marker, and no read misses the array (`parse_total`). -/

namespace Lox.Parse

/-! ### The array -/

/-- The tokens with an end marker behind them, unless the last one is. -/
def sealed (tokens : List Token) : Array Token :=
  if tokens.getLast?.any (·.isEnd) then tokens.toArray
  else tokens.toArray.push (.atEnd ((tokens.getLast?.map (·.line)).getD 1))

/-- The place of the first end marker. -/
def endIndex (tokens : List Token) : Nat := (sealed tokens).toList.findIdx (·.isEnd)

/-- The tokens up to the first end marker, with it. -/
def upToEnd (tokens : List Token) : List Token := body tokens ++ [finalOf tokens]

theorem not_end_of_mem_body {tokens : List Token} {t : Token} (h : t ∈ body tokens) : t.isEnd = false := by
  have hall := List.all_eq_true.mp (List.all_takeWhile (p := (!Token.isEnd ·)) (l := tokens)) t h
  simpa using hall

theorem finalOf_isEnd (tokens : List Token) : (finalOf tokens).isEnd = true := by
  unfold finalOf
  split
  · rename_i hfind
    exact List.find?_some hfind
  · rfl

theorem sealed_toList (tokens : List Token) : ∃ after, (sealed tokens).toList = upToEnd tokens ++ after := by
  unfold upToEnd sealed finalOf
  cases hfind : tokens.find? (·.isEnd) with
  | some final =>
    obtain ⟨hfinal, before, after, htokens, hbefore⟩ := List.find?_eq_some_iff_append.mp hfind
    have hbody : body tokens = before := by
      have hno : ∀ t ∈ before, t.isEnd = false := fun t ht => by simpa using hbefore t ht
      rw [htokens, body_append hno, body, List.takeWhile_cons_of_neg (by simp [hfinal]), List.append_nil]
    split
    · exact ⟨after, by rw [hbody]; simpa using htokens⟩
    · refine ⟨after ++ [.atEnd ((tokens.getLast?.map (·.line)).getD 1)], ?_⟩
      rw [Array.toList_push, List.toList_toArray, hbody, ← List.append_assoc]
      congr 1
      simpa using htokens
  | none =>
    have hno : ∀ t ∈ tokens, t.isEnd = false := fun t ht => by simpa using List.find?_eq_none.mp hfind t ht
    have hlast : tokens.getLast?.any (·.isEnd) = false := by
      cases hl : tokens.getLast? with
      | none => rfl
      | some t => exact hno t (List.mem_of_getLast? hl)
    have hbody : body tokens = tokens := by
      have happend : body (tokens ++ []) = tokens ++ body [] := body_append hno
      simpa [body] using happend
    rw [hlast, hbody]
    exact ⟨[], by simp⟩

theorem endIndex_eq (tokens : List Token) : endIndex tokens = (body tokens).length := by
  obtain ⟨after, hafter⟩ := sealed_toList tokens
  have hnone : (body tokens).findIdx (·.isEnd) = (body tokens).length :=
    List.findIdx_eq_length.mpr fun t ht => not_end_of_mem_body ht
  rw [endIndex, hafter, upToEnd, List.append_assoc, List.findIdx_append, hnone, if_neg (Nat.lt_irrefl _),
    List.singleton_append, List.findIdx_cons, finalOf_isEnd, cond_true, Nat.zero_add]

theorem endIndex_lt_size (tokens : List Token) : endIndex tokens < (sealed tokens).size := by
  obtain ⟨after, hafter⟩ := sealed_toList tokens
  rw [endIndex_eq, ← Array.length_toList, hafter, upToEnd, List.length_append, List.length_append]
  exact Nat.lt_add_right _ (Nat.lt_succ_self _)

theorem sealed_getElem? {tokens : List Token} {i : Nat} (h : i ≤ (body tokens).length) :
    (sealed tokens)[i]? = (upToEnd tokens)[i]? := by
  obtain ⟨after, hafter⟩ := sealed_toList tokens
  rw [← Array.getElem?_toList, hafter, List.getElem?_append_left]
  rw [upToEnd, List.length_append]
  exact Nat.lt_succ_of_le h

/-! ### Steps of the index -/

/-- The place of a parse, what it has found, and the indices that it has read, the last first. -/
structure Cursor where
  current : Nat
  errors : Array SyntaxError
  nextId : ExprId
  reads : List Nat

def Cursor.start (nextId : ExprId) : Cursor := ⟨0, #[], nextId, []⟩

/-- Why a parse over an array gave no result. -/
inductive Halt where
  | refused (e : SyntaxError)
  | outOfFuel
  /-- There is no token at this index. -/
  | outside (i : Nat)

/-- A parsing function over an array. -/
abbrev Reader := ReaderT (Array Token) (EStateM Halt Cursor)

namespace Reader

def outOfFuel {α : Type} : Reader α := fun _ => throw .outOfFuel

/-- The token at an index. -/
def look (i : Nat) : Reader Token := fun tokens c =>
  match tokens[i]? with
  | some t => .ok t { c with reads := i :: c.reads }
  | none => .error (.outside i) c

def peek : Reader Token := do look (← get).current

def previous : Reader Token := do look ((← get).current - 1)

def isAtEnd : Reader Bool := do pure (← peek).isEnd

/-- Whether the kind of the next token passes the test, which the end marker never does. -/
def check (test : Kind → Bool) : Reader Bool := do
  if ← isAtEnd then pure false else pure (test (← peek).kind)

/-- Moves behind the next token, but not behind the end marker. -/
def advance : Reader Token := do
  unless ← isAtEnd do modify fun c => { c with current := c.current + 1 }
  previous

def take? (test : Kind → Bool) : Reader (Option Token) := do
  if ← check test then pure (some (← advance)) else pure none

def refuse {α : Type} (cause : SyntaxError.Cause) : Reader α := do throw (.refused ⟨← peek, cause⟩)

def record (e : SyntaxError) : Reader Unit := modify fun c => { c with errors := c.errors.push e }

def recordHere (cause : SyntaxError.Cause) : Reader Unit := do record ⟨← peek, cause⟩

def freshId : Reader ExprId := modifyGet fun c => (c.nextId, { c with nextId := c.nextId + 1 })

/-- Moves on until behind a semicolon or before a keyword that starts a statement. -/
def skip : Nat → Reader Unit
  | 0 => outOfFuel
  | n + 1 => do
    if ← isAtEnd then pure ()
    else if (← previous).kind == .mark .semicolon then pure ()
    else if startsStatement (← peek).kind then pure ()
    else do
      let _ ← advance
      skip n

def synchronize : Reader Unit := do
  let _ ← advance
  skip (← read).size

def recovering (r : Reader Stmt) : Reader (Option Stmt) := fun tokens c =>
  match r tokens c with
  | .ok stmt c => .ok (some stmt) c
  | .error (.refused e) c => (do record e; synchronize; pure none : Reader (Option Stmt)) tokens c
  | .error halt c => .error halt c

end Reader

/-- The parsing function over an array is put together from these steps as the other is from its own. -/
inductive OnArray : ∀ {α : Type}, Parser α → Reader α → Prop
  | outOfFuel {α : Type} : OnArray (outOfFuel : Parser α) Reader.outOfFuel
  | pure {α : Type} (a : α) : OnArray (pure a) (pure a)
  | bind {α β : Type} {p : Parser α} {r : Reader α} {f : α → Parser β} {g : α → Reader β} (h : OnArray p r)
    (hf : ∀ a, OnArray (f a) (g a)) : OnArray (p >>= f) (r >>= g)
  | take? (test : Kind → Bool) : OnArray (take? test) (Reader.take? test)
  | sees (test : Kind → Bool) : OnArray (sees test) (Reader.check test)
  | atEnd : OnArray atEnd Reader.isAtEnd
  | refuse {α : Type} (cause : SyntaxError.Cause) : OnArray (refuse cause : Parser α) (Reader.refuse cause)
  | record (e : SyntaxError) : OnArray (record e) (Reader.record e)
  | recordHere (cause : SyntaxError.Cause) : OnArray (recordHere cause) (Reader.recordHere cause)
  | freshId : OnArray freshId Reader.freshId
  | recovering {p : Parser Stmt} {r : Reader Stmt} (h : OnArray p r) : OnArray (recovering p) (Reader.recovering r)

/-- Every parsing function has a counterpart over an array. -/
theorem Alike.onArray {α : Type} {p q : Parser α} (h : Alike Recording p q) : ∃ r, OnArray p r := by
  induction h with
  | base h =>
    cases h with
    | record e => exact ⟨_, .record e⟩
  | outOfFuel => exact ⟨_, .outOfFuel⟩
  | pure a => exact ⟨_, .pure a⟩
  | bind _ _ ih ihf =>
    obtain ⟨r, hr⟩ := ih
    exact ⟨r >>= fun a => (ihf a).choose, .bind hr fun a => (ihf a).choose_spec⟩
  | take? test => exact ⟨_, .take? test⟩
  | sees test => exact ⟨_, .sees test⟩
  | atEnd => exact ⟨_, .atEnd⟩
  | refuse cause => exact ⟨_, .refuse cause⟩
  | recordHere cause => exact ⟨_, .recordHere cause⟩
  | freshId => exact ⟨_, .freshId⟩
  | recovering _ ih =>
    obtain ⟨r, hr⟩ := ih
    exact ⟨_, .recovering hr⟩

/-! ### The same place -/

/-- The cursor is not behind the first end marker, and has read nothing behind it. -/
structure Cursor.Within (tokens : List Token) (c : Cursor) : Prop where
  current : c.current ≤ endIndex tokens
  reads : ∀ i ∈ c.reads, i ≤ endIndex tokens

/-- The cursor stands at the first token that is left. -/
structure Stands (tokens : List Token) (s : State) (c : Cursor) : Prop where
  rest : s.rest = (body tokens).drop c.current
  final : s.final = finalOf tokens
  errors : c.errors = s.errors
  nextId : c.nextId = s.nextId
  within : c.Within tokens

/-- From where the first state stands, the reader gives `a` and comes to where the second stands. -/
def Reaches (tokens : List Token) (s : State) {α : Type} (r : Reader α) (a : α) (s' : State) : Prop :=
  ∀ c, Stands tokens s c → ∃ c', r (sealed tokens) c = .ok a c' ∧ Stands tokens s' c'

theorem Reader.bind_apply {α β : Type} {r : Reader α} {f : α → Reader β} {tokens : Array Token} {c : Cursor} :
    (r >>= f) tokens c = match r tokens c with
      | .ok a c' => f a tokens c'
      | .error halt c' => .error halt c' := by
  simp only [bind, ReaderT.bind, EStateM.bind]
  cases r tokens c <;> rfl

section
variable {tokens : List Token} {s s' s₁ : State} {c : Cursor} {t : Token} {rest : List Token}

theorem Stands.at_next (h : Stands tokens s c) : (upToEnd tokens)[c.current]? = some s.next := by
  have hle := endIndex_eq tokens ▸ h.within.current
  rw [upToEnd, State.next, h.rest, h.final, List.head?_drop]
  rcases Nat.lt_or_eq_of_le hle with hlt | heq
  · rw [List.getElem?_append_left hlt, List.getElem?_eq_getElem hlt, Option.getD_some]
  · rw [heq, List.getElem?_eq_none (Nat.le_refl _), List.getElem?_append_right (Nat.le_refl _), Nat.sub_self]
    rfl

theorem Stands.read (h : Stands tokens s c) {i : Nat} (hi : i ≤ endIndex tokens) :
    Stands tokens s { c with reads := i :: c.reads } := by
  refine ⟨h.rest, h.final, h.errors, h.nextId, h.within.current, ?_⟩
  intro j hj
  rcases List.mem_cons.mp hj with rfl | hj
  · exact hi
  · exact h.within.reads j hj

theorem look_eq {i : Nat} (hi : i ≤ endIndex tokens) (ht : (upToEnd tokens)[i]? = some t) :
    Reader.look i (sealed tokens) c = .ok t { c with reads := i :: c.reads } := by
  rw [Reader.look, sealed_getElem? (endIndex_eq tokens ▸ hi), ht]

namespace Reaches
variable {α β : Type} {r : Reader α} {f : α → Reader β} {a : α} {b : β} {test : Kind → Bool}

theorem pure (a : α) : Reaches tokens s (pure a) a s := fun c hc => ⟨c, rfl, hc⟩

theorem bind (hr : Reaches tokens s r a s₁) (hf : Reaches tokens s₁ (f a) b s') : Reaches tokens s (r >>= f) b s' := by
  intro c hc
  obtain ⟨c₁, hc₁, hs₁⟩ := hr c hc
  obtain ⟨c', hc', hs'⟩ := hf c₁ hs₁
  exact ⟨c', by rw [Reader.bind_apply, hc₁]; exact hc', hs'⟩

theorem peek : Reaches tokens s Reader.peek s.next s := by
  intro c hc
  exact ⟨_, look_eq hc.within.current hc.at_next, hc.read hc.within.current⟩

/-- Where the parse stands, tokens of the list are left. -/
theorem assume (h : s.rest <:+ body tokens → s.final = finalOf tokens → Reaches tokens s r a s') :
    Reaches tokens s r a s' := by
  intro c hc
  exact h (hc.rest ▸ List.drop_suffix _ _) hc.final c hc

/-- The token before the place, if one was read. -/
theorem previous (h : t :: s.rest <:+ body tokens) : Reaches tokens s Reader.previous t s := by
  intro c hc
  have hi : c.current - 1 ≤ endIndex tokens := Nat.le_trans (Nat.sub_le _ _) hc.within.current
  refine ⟨_, look_eq hi ?_, hc.read hi⟩
  obtain ⟨before, hbefore⟩ := h
  have hle := endIndex_eq tokens ▸ hc.within.current
  have hlength := congrArg List.length hc.rest
  rw [List.length_drop] at hlength
  rw [← hbefore, List.length_append, List.length_cons] at hle hlength
  have hplace : c.current - 1 = before.length := by omega
  rw [hplace, upToEnd, ← hbefore, List.append_assoc, List.getElem?_append_right (Nat.le_refl _), Nat.sub_self]
  rfl

theorem isAtEnd : Reaches tokens s Reader.isAtEnd s.rest.isEmpty s := by
  refine assume fun hsuffix hfinal => peek.bind ?_
  have hend : s.next.isEnd = s.rest.isEmpty := by
    unfold State.next
    cases hrest : s.rest with
    | nil => simpa [hfinal] using finalOf_isEnd tokens
    | cons t rest => simpa using not_end_of_mem_body (hsuffix.mem (hrest ▸ List.mem_cons_self))
  rw [← hend]
  exact pure _

theorem check : Reaches tokens s (Reader.check test) (s.rest.head?.any fun t => test t.kind) s := by
  refine isAtEnd.bind ?_
  cases hrest : s.rest with
  | nil => exact pure false
  | cons t rest =>
    have hnext : s.next = t := by simp [State.next, hrest]
    exact peek.bind (by rw [hnext]; exact pure _)

theorem advance (hrest : s.rest = t :: rest) : Reaches tokens s Reader.advance t { s with rest } := by
  refine assume fun hsuffix _ => isAtEnd.bind ?_
  rw [hrest]
  suffices hmoves : Reaches tokens s (modify fun c => { c with current := c.current + 1 }) () { s with rest } from
    hmoves.bind (previous (hrest ▸ hsuffix))
  intro c hc
  refine ⟨{ c with current := c.current + 1 }, rfl, ?_, hc.final, hc.errors, hc.nextId, ?_, hc.within.reads⟩
  · have hdrop := congrArg List.tail (hrest.symm.trans hc.rest)
    rwa [List.tail_drop] at hdrop
  · have hlength := congrArg List.length (hrest.symm.trans hc.rest)
    rw [List.length_drop, List.length_cons] at hlength
    rw [endIndex_eq]
    show c.current + 1 ≤ (body tokens).length
    omega

/-- At the end there is nothing to move behind, and the token before is looked at, or the first if there is none. -/
theorem advance_end (hrest : s.rest = []) (hc : Stands tokens s c) :
    ∃ t c', Reader.advance (sealed tokens) c = .ok t c' ∧ Stands tokens s c' := by
  obtain ⟨c₁, hc₁, hs₁⟩ := isAtEnd c hc
  have hi : c₁.current - 1 ≤ endIndex tokens := Nat.le_trans (Nat.sub_le _ _) hs₁.within.current
  have hlt : c₁.current - 1 < (upToEnd tokens).length := by
    rw [upToEnd, List.length_append, ← endIndex_eq]
    exact Nat.lt_succ_of_le hi
  refine ⟨(upToEnd tokens)[c₁.current - 1], { c₁ with reads := (c₁.current - 1) :: c₁.reads }, ?_, hs₁.read hi⟩
  rw [Reader.advance, Reader.bind_apply, hc₁, hrest]
  exact look_eq hi (List.getElem?_eq_getElem hlt)

theorem skip_end {n : Nat} (hrest : s.rest = []) (hn : 0 < n) : Reaches tokens s (Reader.skip n) () s := by
  cases n with
  | zero => exact absurd hn (Nat.lt_irrefl 0)
  | succ n => exact isAtEnd.bind (by rw [hrest]; exact pure ())

theorem skip {n : Nat} (hn : s.rest.length < n) (h : t :: s.rest <:+ body tokens) :
    Reaches tokens s (Reader.skip n) () { s with rest := skipToBoundary t s.rest } := by
  induction n generalizing s t with
  | zero => exact absurd hn (Nat.not_lt_zero _)
  | succ n ih =>
    cases hrest : s.rest with
    | nil =>
      have hs : s = { s with rest := skipToBoundary t [] } := by rw [skipToBoundary, ← hrest]
      rw [← hs]
      exact skip_end hrest (Nat.succ_pos n)
    | cons u rest =>
      have hnext : s.next = u := by simp [State.next, hrest]
      have hs : s = { s with rest := u :: rest } := by rw [← hrest]
      have hstays : Reaches tokens s (Pure.pure ()) () { s with rest := u :: rest } := hs ▸ pure ()
      refine isAtEnd.bind ((congrArg List.isEmpty hrest) ▸ (previous h).bind ?_)
      unfold skipToBoundary
      cases hsemicolon : t.kind == .mark .semicolon with
      | true => exact hstays
      | false =>
        refine peek.bind ?_
        rw [hnext]
        cases hkeyword : startsStatement u.kind with
        | true => exact hstays
        | false =>
          rw [hrest] at hn h
          exact (advance hrest).bind (ih (Nat.lt_of_succ_lt_succ hn) ((List.suffix_cons t _).trans h))

theorem synchronize : Reaches tokens s Reader.synchronize () { s with rest := recover s.rest } := by
  have hsize : (body tokens).length < (sealed tokens).size := endIndex_eq tokens ▸ endIndex_lt_size tokens
  cases hrest : s.rest with
  | nil =>
    intro c hc
    obtain ⟨t, c₁, hc₁, hs₁⟩ := advance_end hrest hc
    obtain ⟨c₂, hc₂, hs₂⟩ := skip_end hrest (Nat.zero_lt_of_lt hsize) c₁ hs₁
    have hs : s = { s with rest := recover [] } := by rw [recover, ← hrest]
    refine ⟨c₂, ?_, hs ▸ hs₂⟩
    rw [Reader.synchronize, Reader.bind_apply, hc₁]
    exact hc₂
  | cons t rest =>
    refine assume fun hsuffix _ => (advance hrest).bind ?_
    have hlength : rest.length < (sealed tokens).size := by
      have hle := hsuffix.length_le
      rw [hrest, List.length_cons] at hle
      omega
    intro c hc
    exact skip hlength (hrest ▸ hsuffix) c hc

theorem take?_some (hrest : s.rest = t :: rest) (ht : test t.kind = true) :
    Reaches tokens s (Reader.take? test) (some t) { s with rest } := by
  refine check.bind ?_
  rw [hrest, List.head?_cons, Option.any_some, ht]
  exact (advance hrest).bind (pure _)

theorem take?_none (h : s.Lacks test) : Reaches tokens s (Reader.take? test) none s := by
  have hnone : (s.rest.head?.any fun t => test t.kind) = false := by
    cases hrest : s.rest with
    | nil => rfl
    | cons t rest => exact h t rest hrest
  refine check.bind ?_
  rw [hnone]
  exact pure none

theorem record (e : SyntaxError) : Reaches tokens s (Reader.record e) () { s with errors := s.errors.push e } := by
  intro c hc
  refine ⟨{ c with errors := c.errors.push e }, rfl, hc.rest, hc.final, ?_, hc.nextId, hc.within.current, ?_⟩
  · rw [hc.errors]
  · exact hc.within.reads

theorem recordHere (cause : SyntaxError.Cause) :
    Reaches tokens s (Reader.recordHere cause) () { s with errors := s.errors.push ⟨s.next, cause⟩ } :=
  peek.bind (record _)

theorem freshId : Reaches tokens s Reader.freshId s.nextId { s with nextId := s.nextId + 1 } := by
  intro c hc
  refine ⟨{ c with nextId := c.nextId + 1 }, ?_, hc.rest, hc.final, hc.errors, ?_, hc.within.current, hc.within.reads⟩
  · rw [← hc.nextId]
    rfl
  · rw [hc.nextId]

end Reaches
end

/-! ### The same parse -/

/-- The results of a parse over a list and of one over an array: both end in the same way, at the same place. -/
inductive Agrees (tokens : List Token) {α : Type} : EStateM.Result Stop State α → EStateM.Result Halt Cursor α → Prop
  | ok (a : α) {s : State} {c : Cursor} (h : Stands tokens s c) : Agrees tokens (.ok a s) (.ok a c)
  | refused (e : SyntaxError) {s : State} {c : Cursor} (h : Stands tokens s c) :
    Agrees tokens (.error (.refused e) s) (.error (.refused e) c)
  | outOfFuel {s : State} {c : Cursor} (h : Stands tokens s c) :
    Agrees tokens (.error .outOfFuel s) (.error .outOfFuel c)

theorem Reaches.agrees {tokens : List Token} {α : Type} {r : Reader α} {a : α} {s s' : State} {c : Cursor}
    (h : Reaches tokens s r a s') (hc : Stands tokens s c) : Agrees tokens (.ok a s') (r (sealed tokens) c) := by
  obtain ⟨c', hc', hs'⟩ := h c hc
  rw [hc']
  exact .ok a hs'

theorem OnArray.agrees {tokens : List Token} {α : Type} {p : Parser α} {r : Reader α} (h : OnArray p r) {s : State}
    {c : Cursor} (hc : Stands tokens s c) : Agrees tokens (p s) (r (sealed tokens) c) := by
  induction h generalizing s c with
  | outOfFuel => exact .outOfFuel hc
  | pure a => exact .ok a hc
  | @bind _ _ p r f g _ _ ih ihf =>
    have hp := ih hc
    rw [Parse.bind_apply, Reader.bind_apply]
    generalize p s = x at hp
    generalize r (sealed tokens) c = y at hp
    cases hp with
    | ok a hs' => exact ihf a hs'
    | refused e hs' => exact .refused e hs'
    | outOfFuel hs' => exact .outOfFuel hs'
  | take? test =>
    rcases take?_cases test s with ⟨hl, htake⟩ | ⟨t, s', ht, htake⟩
    · rw [htake]
      exact (Reaches.take?_none hl).agrees hc
    · rw [htake, ht.state]
      exact (Reaches.take?_some ht.rest ht.test).agrees hc
  | sees test => exact Reaches.check.agrees hc
  | atEnd => exact Reaches.isAtEnd.agrees hc
  | refuse cause =>
    obtain ⟨c', hc', hs'⟩ := Reaches.peek c hc
    rw [Reader.refuse, Reader.bind_apply, hc']
    exact .refused _ hs'
  | record e => exact (Reaches.record e).agrees hc
  | recordHere cause => exact (Reaches.recordHere cause).agrees hc
  | freshId => exact Reaches.freshId.agrees hc
  | @recovering p r _ ih =>
    have hp := ih hc
    unfold Parse.recovering Reader.recovering
    generalize p s = x at hp
    generalize r (sealed tokens) c = y at hp
    cases hp with
    | ok a hs' => exact .ok _ hs'
    | @refused e s' c' hs' =>
      have hrecovers : Reaches tokens s' (do Reader.record e; Reader.synchronize; return (none : Option Stmt)) none
          { s' with errors := s'.errors.push e, rest := recover s'.rest } :=
        (Reaches.record e).bind (Reaches.synchronize.bind (.pure none))
      exact hrecovers.agrees hs'
    | outOfFuel hs' => exact .outOfFuel hs'

theorem Cursor.start_within (tokens : List Token) (nextId : ExprId) : (Cursor.start nextId).Within tokens :=
  ⟨Nat.zero_le _, nofun⟩

/-- Where a cursor may be, a parse stands. -/
theorem Cursor.Within.stands {tokens : List Token} {c : Cursor} (h : c.Within tokens) :
    Stands tokens ⟨(body tokens).drop c.current, finalOf tokens, c.errors, c.nextId⟩ c :=
  ⟨rfl, rfl, rfl, rfl, h⟩

/-! ### Total parses -/

section
variable {tokens : List Token} (nextId : ExprId) {n : Nat}

theorem declarations_of_le (h : fuelFor tokens ≤ n) :
    declarations n false #[] (.start tokens nextId) = declarations (fuelFor tokens) false #[] (.start tokens nextId) :=
  ((statementsLast _).declarations false #[] _ (start_fits tokens nextId)).eq
    ((statementsAlike h).declarations false #[]).flatten

theorem expression_lasts (h : fuelFor tokens ≤ n) : Lasts (expression n) (.start tokens nextId) := by
  refine (expressionsLast n).expression _ ?_
  have hfits := start_fits tokens nextId
  unfold State.Fits at hfits ⊢
  omega

theorem expression_of_le (h : fuelFor tokens ≤ n) :
    expression n (.start tokens nextId) = expression (fuelFor tokens) (.start tokens nextId) :=
  (expression_lasts nextId (Nat.le_refl _)).eq (expressionsAlike h).expression

variable {tokens' : List Token}

theorem start_of_upToEnd (h : upToEnd tokens' = upToEnd tokens) :
    State.start tokens' nextId = State.start tokens nextId := by
  obtain ⟨hbody, hfinal⟩ := List.append_inj' h rfl
  rw [State.start, State.start, hbody, (List.cons.inj hfinal).1]

/-- Only the tokens up to the first end marker count. -/
theorem parse_of_upToEnd (h : upToEnd tokens' = upToEnd tokens) : parse tokens' nextId = parse tokens nextId := by
  have hparse := declarations_of_le nextId (Nat.le_max_left (fuelFor tokens) (fuelFor tokens'))
  have hparse' := declarations_of_le nextId (Nat.le_max_right (fuelFor tokens) (fuelFor tokens'))
  rw [start_of_upToEnd nextId h] at hparse'
  rw [parse, parse, start_of_upToEnd nextId h, ← hparse, ← hparse']

theorem parseExpression_of_upToEnd (h : upToEnd tokens' = upToEnd tokens) :
    parseExpression tokens' nextId = parseExpression tokens nextId := by
  have hparse := expression_of_le nextId (Nat.le_max_left (fuelFor tokens) (fuelFor tokens'))
  have hparse' := expression_of_le nextId (Nat.le_max_right (fuelFor tokens) (fuelFor tokens'))
  rw [start_of_upToEnd nextId h] at hparse'
  rw [parseExpression, parseExpression, start_of_upToEnd nextId h, ← hparse, ← hparse']

end

/-- The parses of these tokens end, and read nothing outside the array nor behind the first end marker. -/
structure Total (tokens : List Token) (nextId : ExprId) : Prop where
  /-- Any amount of fuel from here on is enough, and gives the same. -/
  program_ends : ∀ n, fuelFor tokens ≤ n → ∃ stmts s, declarations n false #[] (.start tokens nextId) = .ok stmts s ∧
    parse tokens nextId = ⟨stmts.toList, s.errors.toList, s.nextId⟩
  expression_ends : ∀ n, fuelFor tokens ≤ n → Lasts (expression n) (.start tokens nextId) ∧
    expression n (.start tokens nextId) = expression (fuelFor tokens) (.start tokens nextId)
  inside : endIndex tokens < (sealed tokens).size
  program_on_array : ∃ r, OnArray (declarations (fuelFor tokens) false #[]) r
  program_reads : ∀ r, OnArray (declarations (fuelFor tokens) false #[]) r →
    ∃ stmts c, r (sealed tokens) (.start nextId) = .ok stmts c ∧ c.Within tokens ∧
      parse tokens nextId = ⟨stmts.toList, c.errors.toList, c.nextId⟩
  expression_on_array : ∃ r, OnArray (expression (fuelFor tokens)) r
  expression_reads : ∀ r, OnArray (expression (fuelFor tokens)) r → ∃ c, c.Within tokens ∧
    ((∃ e, r (sealed tokens) (.start nextId) = .ok e c ∧
        parseExpression tokens nextId = ⟨if c.errors.isEmpty then some e else none, c.errors.toList, c.nextId⟩) ∨
      ∃ e, r (sealed tokens) (.start nextId) = .error (.refused e) c ∧
        parseExpression tokens nextId = ⟨none, (c.errors.push e).toList, c.nextId⟩)
  /-- From a place before the end marker, a declaration moves on; less fuel than this may run out. -/
  declaration_moves : ∀ n r c, OnArray (declaration n) r → c.Within tokens → c.current < endIndex tokens →
    (n < fuelFor tokens ∧ ∃ c', r (sealed tokens) c = .error .outOfFuel c') ∨
      ∃ stmt? c', r (sealed tokens) c = .ok stmt? c' ∧ c.current < c'.current ∧ c'.Within tokens
  up_to_end : ∀ tokens', upToEnd tokens' = upToEnd tokens →
    parse tokens' nextId = parse tokens nextId ∧ parseExpression tokens' nextId = parseExpression tokens nextId

section
variable {tokens : List Token} {nextId : ExprId}

theorem program_reads {r : Reader (Array Stmt)} (hr : OnArray (declarations (fuelFor tokens) false #[]) r) :
    ∃ stmts c, r (sealed tokens) (.start nextId) = .ok stmts c ∧ c.Within tokens ∧
      parse tokens nextId = ⟨stmts.toList, c.errors.toList, c.nextId⟩ := by
  have hagrees := hr.agrees (Cursor.start_within tokens nextId).stands
  obtain ⟨stmts, s, hparse⟩ := declarations_fuelFor tokens nextId
  have hstart : declarations (fuelFor tokens) false #[] ⟨(body tokens).drop 0, finalOf tokens, #[], nextId⟩ =
      .ok stmts s := hparse
  unfold Cursor.start at hagrees ⊢
  rw [hstart] at hagrees
  generalize r (sealed tokens) ⟨0, #[], nextId, []⟩ = y at hagrees
  cases hagrees with
  | @ok _ _ c h => exact ⟨stmts, c, rfl, h.within, by rw [parse, hparse, h.errors, h.nextId]⟩

theorem expression_reads {r : Reader Expr} (hr : OnArray (expression (fuelFor tokens)) r) :
    ∃ c, c.Within tokens ∧
      ((∃ e, r (sealed tokens) (.start nextId) = .ok e c ∧
          parseExpression tokens nextId = ⟨if c.errors.isEmpty then some e else none, c.errors.toList, c.nextId⟩) ∨
        ∃ e, r (sealed tokens) (.start nextId) = .error (.refused e) c ∧
          parseExpression tokens nextId = ⟨none, (c.errors.push e).toList, c.nextId⟩) := by
  have hagrees := hr.agrees (Cursor.start_within tokens nextId).stands
  have hlasts := expression_lasts nextId (Nat.le_refl (fuelFor tokens))
  unfold Lasts at hlasts
  unfold Cursor.start at hagrees ⊢
  rw [parseExpression]
  unfold State.start at hlasts ⊢
  rw [List.drop_zero] at hagrees
  generalize expression (fuelFor tokens) ⟨body tokens, finalOf tokens, #[], nextId⟩ = x at hagrees hlasts
  generalize r (sealed tokens) ⟨0, #[], nextId, []⟩ = y at hagrees
  cases hagrees with
  | @ok e s c h => exact ⟨c, h.within, .inl ⟨e, rfl, by simp only [h.errors, h.nextId]⟩⟩
  | @refused e s c h => exact ⟨c, h.within, .inr ⟨e, rfl, by simp only [h.errors, h.nextId]⟩⟩
  | outOfFuel h => exact absurd rfl (hlasts _)

theorem declaration_moves {n : Nat} {r : Reader (Option Stmt)} {c : Cursor} (hr : OnArray (declaration n) r)
    (hc : c.Within tokens) (hlt : c.current < endIndex tokens) :
    (n < fuelFor tokens ∧ ∃ c', r (sealed tokens) c = .error .outOfFuel c') ∨
      ∃ stmt? c', r (sealed tokens) c = .ok stmt? c' ∧ c.current < c'.current ∧ c'.Within tokens := by
  have hagrees := hr.agrees hc.stands
  have hlength : ((body tokens).drop c.current).length = endIndex tokens - c.current := by
    rw [List.length_drop, endIndex_eq]
  cases hrun : declaration n ⟨(body tokens).drop c.current, finalOf tokens, c.errors, c.nextId⟩ with
  | ok stmt? s' =>
    have hless := declaration_consumes (List.ne_nil_of_length_pos (by dsimp only; omega)) hrun
    rw [hrun] at hagrees
    generalize r (sealed tokens) c = y at hagrees
    cases hagrees with
    | @ok _ _ c' h =>
      refine .inr ⟨stmt?, c', rfl, ?_, h.within⟩
      have hle := h.within.current
      rw [h.rest, List.length_drop, ← endIndex_eq, hlength] at hless
      omega
  | error stop s' =>
    cases stop with
    | refused e => exact absurd hrun (declaration_not_refused _ _ _ _)
    | outOfFuel =>
      rw [hrun] at hagrees
      generalize r (sealed tokens) c = y at hagrees
      cases hagrees with
      | @outOfFuel _ c' h =>
        refine .inl ⟨?_, c', rfl⟩
        -- With as much fuel as this the declaration would not have run out.
        refine Nat.lt_of_not_le fun hle => (statementsLast n).declaration _ ?_ s' hrun
        have hfits := start_fits tokens c.nextId
        unfold State.Fits State.start at hfits
        unfold State.Fits
        dsimp only at hfits ⊢
        rw [hlength, endIndex_eq]
        omega

end

theorem parse_total (tokens : List Token) (nextId : ExprId) : Total tokens nextId where
  program_ends n h := by
    obtain ⟨stmts, s, hparse⟩ := declarations_fuelFor tokens nextId
    exact ⟨stmts, s, (declarations_of_le nextId h).trans hparse, by rw [parse, hparse]⟩
  expression_ends n h := ⟨expression_lasts nextId h, expression_of_le nextId h⟩
  inside := endIndex_lt_size tokens
  program_on_array := ((statementsAlike (Nat.le_refl _)).declarations false #[]).flatten.onArray
  program_reads _ := program_reads
  expression_on_array := (expressionsAlike (Nat.le_refl _)).expression.onArray
  expression_reads _ := expression_reads
  declaration_moves _ _ _ := declaration_moves
  up_to_end _ h := ⟨parse_of_upToEnd nextId h, parseExpression_of_upToEnd nextId h⟩

end Lox.Parse
