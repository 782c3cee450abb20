import Lox.Proofs.Evaluation.Indistinct
import Lox.Proofs.ForLoops.Resolution
import Lox.Proofs.Outward
import Lox.Proofs.Sessions

/-! # `for` statements

A `for` statement is executed as the loop that it means (`Session.for_is_loop`): wherever a run comes to what the parser
has made of it, that has the result, the output and the effect on bindings of `Session.forLoop`. The loop has no frames
but that of its initializer, while what the parser makes has one more in every round; so frames are compared up to their
identities, and the distances of references up to the scopes of these frames. -/

namespace Lox

/-! ### One machine -/

section
variable {Q : Site → Prop} {m : Machine} {roster : Roster} {tables : Tables}

/-- A function whose distances both tables hold stands for itself. -/
theorem Closure.Sound.matches_self {fs : Frames} {c : Closure} (h : c.Sound Q fs roster)
    (hexist : Frames.globals < fs.next)
    (hleft : ∀ t, Q t → tables.left[t.reference.id]? = t.distance?)
    (hright : ∀ t, Q t → tables.right[t.reference.id]? = t.distance?) : c.Matches tables ⟨fs, fs, id⟩ c := by
  obtain ⟨rs, hchain, hsites, hplain⟩ := h
  have hlt := hchain.lt_next hexist
  have hbody : Stmt.SkipsAll tables none c.decl.body c.decl.body :=
    (Stmt.LikeAll.refl Likeness.shift_zero c.decl.body).skips (Likeness.shift_exact 0) (.same _)
      (fun hc => nomatch hc) hplain (fun t ht => hleft t (hsites t ht)) fun t ht => hright t (hsites t ht)
  refine ⟨rfl, none, ⟨hlt, hlt, fun d => ?_⟩, .function (fun hc => nomatch hc) hbody⟩
  exact (congrFun Option.map_id _).symm

/-- A sound machine stands for itself. -/
theorem World.Sound.tandem (h : World.Sound Q ⟨m, roster⟩)
    (hleft : ∀ t, Q t → tables.left[t.reference.id]? = t.distance?)
    (hright : ∀ t, Q t → tables.right[t.reference.id]? = t.distance?) : Tandem.Matches tables ⟨m, m, id⟩ where
  frames :=
    { exist := h.exist
      globals := rfl
      frame_lt := fun _ hf => hf
      injective := fun _ _ _ _ hfg => hfg
      here := fun f hf n => by
        show Option.Rel _ (m.frames.here? f n) (m.frames.here? f n)
        cases hv : m.frames.here? f n with
        | none => exact .none
        | some v =>
          refine .some ?_
          have hsound := h.values f n v hv
          cases v with
          | function c => exact .function (hsound.matches_self h.exist hleft hright)
          | nil | bool _ | number _ | string _ | host _ => exact .plain nofun
      bare := fun g hg n => by
        show m.frames.here? g n = none
        have hnone : ¬ (m.frames.here? g n).isSome := fun hc => hg g (Frames.lt_next_of_here? hc) rfl
        simpa using hnone
      inward := h.inward
      inward_right := h.inward
      outermost := h.outermost
      outermost_right := h.outermost }
  depth := rfl
  sink := rfl
  nextIdentity := rfl
  hostCalls := rfl

end

/-! ### Endings -/

namespace Eval

/-- The step did not run out of fuel. -/
def Finished {α : Type} (result : EStateM.Result Stop Machine α) : Prop := ∀ m, result ≠ .error .outOfFuel m

theorem finished_of_isOk {α : Type} {x : Eval α} {s : Session} (h : (s.step x).1.isOk = true) :
    Finished (x s.machine) := by
  intro m hm
  rw [Session.step, hm] at h
  cases h

/-- Two steps that began in the same machine ended alike, each with the frame of before current: they yielded the same
    or stopped for the same reason, and their machines are the same up to the identity of frames. -/
def EndAlike (tables : Tables) (m : Machine) (result result' : EStateM.Result Stop Machine Flow) : Prop :=
  Meet tables False False ⟨m, m, id⟩ (Pairing.Ended tables) result result'

theorem Meet.endAlike {tables : Tables} {spare spare' : Prop} {m : Machine}
    {result result' : EStateM.Result Stop Machine Flow}
    (h : Meet tables spare spare' ⟨m, m, id⟩ (Pairing.Ended tables) result result') (hleft : spare → Finished result)
    (hright : spare' → Finished result') : EndAlike tables m result result' := by
  cases h with
  | ok hmatches hlater hR => exact .ok hmatches hlater hR
  | error hmatches hlater stop => exact .error hmatches hlater stop
  | exhausted hspare m => exact absurd rfl (hleft hspare m)
  | exhausted_right hspare m => exact absurd rfl (hright hspare m)

end Eval

/-! ### The statement -/

/-- The parser takes these for the clauses and the body of a `for` statement. -/
def Parse.For (clauses : ForClauses) (body : Stmt) : Prop :=
  ∃ n s s₁ s₂, forClauses n s = .ok clauses s₁ ∧ statement n s₁ = .ok body s₂

namespace Parse.For
variable {clauses : ForClauses} {body : Stmt} (h : Parse.For clauses body)
include h

theorem nodup : ((clauses.toStmt body).references.map (·.id)).Nodup := by
  obtain ⟨n, s, s₁, s₂, hclauses, hbody⟩ := h
  exact (toStmt_kept hclauses (statement_le hbody) ((statementsKept n).statement hbody)).fresh.nodup

theorem initializer_plain : ∀ i ∈ clauses.initializer, i.Plain := by
  obtain ⟨n, s, s₁, s₂, hclauses, -⟩ := h
  obtain ⟨_, _, _, _, _, _, _, _, -, hinit, -⟩ := forClauses_ok hclauses
  exact (forInitializer_kept hinit).2.2

theorem body_plain : body.isDeclaration = false ∧ body.Plain := by
  obtain ⟨n, _, s₁, s₂, -, hbody⟩ := h
  have hkept := (statementsKept n).statement hbody
  exact ⟨hkept.notDeclaration, hkept.plain⟩

end Parse.For

namespace Session

/-- The distances of a session, and those with a loop beside it. -/
def tables (s : Session) (inFunction : Bool) (scopes : Resolve.Scopes) (clauses : Parse.ForClauses) (body : Stmt) :
    Tables where
  left := s.distances
  right := Resolve.withLoop s.distances s.nextId inFunction scopes clauses body

/-- The loop that a `for` statement means, inside these scopes. It has identities of its own in the session. -/
def forLoop (s : Session) (host : Host) (inFunction : Bool) (scopes : Resolve.Scopes) (clauses : Parse.ForClauses)
    (body : Stmt) (n : Nat) : Eval Flow :=
  Eval.forLoop ⟨.resolved (s.tables inFunction scopes clauses body).right, host⟩ n (clauses.shifted s.nextId)
    (body.shifted s.nextId)

/-- Whenever a run comes to what the parser has made of a `for` statement, that is executed as the loop that the
    statement means: if either ends, so does the other, with the same result and the same output, and with the same
    bindings up to the identity of frames. What the parser has made of it needs at most 8 more of fuel. -/
theorem for_is_loop {host : Host} (hhost : host.Indifferent) {s s' : Session} {texts : List String} {text : String}
    {program : List Stmt} (h : s.Reachable host texts) (hs : s.Starts text program s')
    {origin : List Stmt} (horigin : origin ∈ program :: programsOf texts) {clauses : Parse.ForClauses} {body : Stmt}
    (hfor : Parse.For clauses body) {inFunction : Bool} {scopes : Resolve.Scopes} {rest : List Stmt}
    (hreach : Resolve.Reaches origin inFunction scopes (clauses.toStmt body :: rest)) {fuel : Nat} {mo : Moment}
    (hv : Moment.Visits (s'.context host) ⟨fuel, .program program, s'.machine⟩ mo)
    (htask : mo.task = .stmt (clauses.toStmt body)) :
    let statement n := Eval.stmt (s'.context host) n (clauses.toStmt body) mo.machine
    let loop n := s'.forLoop host inFunction scopes clauses body n mo.machine
    let tables := s'.tables inFunction scopes clauses body
    (∀ n, Eval.Finished (statement n) → Eval.EndAlike tables mo.machine (statement n) (loop n)) ∧
      ∀ n, Eval.Finished (loop n) → Eval.EndAlike tables mo.machine (statement (n + 8)) (loop n) := by
  intro statement loop tables
  have hhonest := hhost.honest
  have hsound := (h.sound hhonest).starts hs
  obtain ⟨roster, hworld, hready⟩ := hv.sound hhonest (hsound.moment hs.plain)
  rw [htask] at hready
  obtain ⟨_, hready, -⟩ := hready
  obtain ⟨rs, hrs, hsites⟩ := hreach.regions
  have hleft : Recorded tables.left ((clauses.toStmt body).sites rs) := fun t ht =>
    hsound.table t ⟨origin, horigin, hsites t (List.mem_append_left _ ht)⟩
  have hright : Recorded tables.right ((clauses.shifted s'.nextId).sites rs (body.shifted s'.nextId)) :=
    Resolve.recorded_withLoop hrs hfor.nodup hsound.unused
  have hloops := loops_of_recorded (Likeness.shift_exact s'.nextId) clauses.shifted_like body.shifted_like
    hfor.body_plain.1 hfor.body_plain.2 hfor.initializer_plain hleft hright
  have hmatches : Tandem.Matches tables ⟨mo.machine, mo.machine, id⟩ := hworld.tandem hsound.table fun t ht =>
    (Resolve.getElem?_withLoop_of_lt hrs (hsound.used t ht)).trans (hsound.table t ht)
  have hat : Tandem.At ⟨mo.machine, mo.machine, id⟩ none :=
    ⟨hready.place.lt_next hworld, hready.place.lt_next hworld, fun d => (congrFun Option.map_id _).symm⟩
  -- The run that is known to have ended is the one that may have less fuel than it needs.
  refine ⟨fun n hn => ?_, fun n hn => ?_⟩
  · have hmeet : Eval.Meet tables True False ⟨_, _, id⟩ (Pairing.Ended tables) (statement n) (loop n) :=
      Eval.forLoop_abreast hhost (.inl ⟨Nat.le_refl n, trivial⟩) hmatches hat hloops
    exact hmeet.endAlike (fun _ => hn) False.elim
  · have hmeet : Eval.Meet tables False True ⟨_, _, id⟩ (Pairing.Ended tables) (statement (n + 8)) (loop n) :=
      Eval.forLoop_abreast hhost (.inr ⟨Nat.le_refl (n + 8), trivial⟩) hmatches hat hloops
    exact hmeet.endAlike False.elim fun _ => hn

/-- A loop that goes round twice. The function made in the first round is called in both, and sees what the increment
    has assigned to the loop's variable in between. -/
theorem for_is_loop_closures : ∃ (s' : Session) (clauses : Parse.ForClauses) (body : Stmt) (m : Machine),
    (Host.withTime fun _ => 0).Indifferent ∧ (Session.new .unlimited).Reachable (Host.withTime fun _ => 0) [] ∧
      (Session.new .unlimited).Starts
        "var g;for(var i=nil;i!=true;i=i==false)\x7bfun f()\x7breturn i;\x7dif(g==nil)g=f;print g();\x7d"
        [.var ⟨.identifier, "g", 1⟩ none, clauses.toStmt body] s' ∧ Parse.For clauses body ∧
      Moment.Visits (s'.context (Host.withTime fun _ => 0))
        ⟨30, .program [.var ⟨.identifier, "g", 1⟩ none, clauses.toStmt body], s'.machine⟩
        ⟨30, .stmt (clauses.toStmt body), m⟩ ∧
      ((Eval.stmt (s'.context (Host.withTime fun _ => 0)) 30 (clauses.toStmt body)).final m).sink.written =
        "nil\nfalse\n".toUTF8 ∧
      Eval.EndAlike (s'.tables false [] clauses body) m
        (Eval.stmt (s'.context (Host.withTime fun _ => 0)) 30 (clauses.toStmt body) m)
        (s'.forLoop (Host.withTime fun _ => 0) false [] clauses body 30 m) := by
  let host := Host.withTime fun _ => 0
  let name (n : String) : Token := ⟨.identifier, n, 1⟩
  let mark (m : Mark) : Token := .ofMark m 1
  let keyword (k : Keyword) : Token := .ofKeyword k 1
  let clauses : Parse.ForClauses := ⟨some (.var (name "i") (some (.literal .nil))),
    some (.binary (.var 0 (name "i")) (mark .bangEqual) (.literal (.bool true))),
    some (.assign 3 (name "i") (.binary (.var 2 (name "i")) (mark .equalEqual) (.literal (.bool false))))⟩
  let body : Stmt := .block [.function (name "f") [] [.ret (keyword .return) (some (.var 4 (name "i")))],
    .branch (.binary (.var 5 (name "g")) (mark .equalEqual) (.literal .nil))
      (.expression (.assign 8 (name "g") (.var 7 (name "f")))) none,
    .print (.call (.var 9 (name "g")) (mark .rightParen) [])]
  let program : List Stmt := [.var (name "g") none, clauses.toStmt body]
  let behind : List Token := [mark .leftParen, keyword .var, name "i", mark .equal, keyword .nil, mark .semicolon,
    name "i", mark .bangEqual, keyword .true, mark .semicolon, name "i", mark .equal, name "i", mark .equalEqual,
    keyword .false, mark .rightParen, mark .leftBrace, keyword .fun, name "f", mark .leftParen, mark .rightParen,
    mark .leftBrace, keyword .return, name "i", mark .semicolon, mark .rightBrace, keyword .if, mark .leftParen,
    name "g", mark .equalEqual, keyword .nil, mark .rightParen, name "g", mark .equal, name "f", mark .semicolon,
    keyword .print, name "g", mark .leftParen, mark .rightParen, mark .semicolon, mark .rightBrace, .atEnd 1]
  have hfor : Parse.For clauses body := ⟨40, .start behind 0, _, _, by cbv, by cbv⟩
  have hstarts : (Session.new .unlimited).Starts
      "var g;for(var i=nil;i!=true;i=i==false)\x7bfun f()\x7breturn i;\x7dif(g==nil)g=f;print g();\x7d" program _ :=
    starts_of_tokens 0 (keyword .var :: name "g" :: mark .semicolon :: keyword .for :: behind) rfl (by decide +kernel)
      (by cbv) (by decide +kernel)
  have hhost := Host.withTime_indifferent fun _ => 0
  have hreach : (Session.new .unlimited).Reachable host [] := .new .unlimited
  -- No reference stands before its declaration, so distances may be left out when the loop is evaluated.
  have hagree := agreeFrom_outward hhost.honest hreach hstarts (by decide +kernel) 30
  generalize addDistances _ _ = s' at hstarts hagree
  have hmachine : s'.machine = (Session.new .unlimited).machine := hstarts.machine_eq
  let declared : Session := (Session.new .unlimited).define "g" .nil
  let m : Machine := declared.machine
  have hdeclared : Moment.Enters (s'.context host) ⟨30, .program program, s'.machine⟩
      ⟨30, .program [clauses.toStmt body], m⟩ := by
    rw [hmachine]
    exact .proceed rfl
  have hsameHost : (s'.context host).host = (⟨.outward, host⟩ : Context).host := rfl
  have hsame : Eval.stmt (s'.context host) 30 (clauses.toStmt body) m =
      Eval.stmt ⟨.outward, host⟩ 30 (clauses.toStmt body) m :=
    Moment.same_of_agree hsameHost 30 (.stmt (clauses.toStmt body)) m ((hagree.enter hdeclared).enter .begin)
  have hdone : (declared.step (Eval.stmt ⟨.outward, host⟩ 30 (clauses.toStmt body))).1.isOk = true := by decide +kernel
  have hprinted : ((Eval.stmt ⟨.outward, host⟩ 30 (clauses.toStmt body)).final m).sink.written =
      "nil\nfalse\n".toUTF8 := by decide +kernel
  have hfinished : Eval.Finished (Eval.stmt (s'.context host) 30 (clauses.toStmt body) m) := by
    rw [hsame]
    exact Eval.finished_of_isOk hdone
  have hv : Moment.Visits (s'.context host) ⟨30, .program program, s'.machine⟩ ⟨30, .stmt (clauses.toStmt body), m⟩ :=
    .enter hdeclared (.enter .begin .here)
  have hreaches : Resolve.Reaches program false [] [clauses.toStmt body] := .next .program
  have halike := (for_is_loop hhost hreach hstarts List.mem_cons_self hfor hreaches hv rfl).1 30 hfinished
  have hprints : ((Eval.stmt (s'.context host) 30 (clauses.toStmt body)).final m).sink.written =
      "nil\nfalse\n".toUTF8 := by
    rw [← hprinted, Eval.final, hsame, Eval.final]
  exact ⟨s', clauses, body, m, hhost, hreach, hstarts, hfor, hv, hprints, halike⟩

end Session
end Lox
