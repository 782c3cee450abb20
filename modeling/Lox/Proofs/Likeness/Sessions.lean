import Lox.Proofs.Likeness.Evaluation
import Lox.Proofs.Likeness.Parsing
import Lox.Proofs.Likeness.Resolution
import Lox.Proofs.Reachable
import Lox.Proofs.Scanning.Seams
import Lox.Proofs.Sessions

/-! # Sessions and likeness

A source without errors begins to run in every session, whatever identities it gets (`Source.Clean.starts`).
What a session holds comes from the sources that were run in it: all tokens in its functions are theirs, and
all identities have been handed out (`Session.Reachable.known`). -/

namespace Lox

/-- A token of one of the sources. -/
def TokenOf (texts : List String) (t : Token) : Prop := ∃ text ∈ texts, t ∈ Scan.tokens (Scan.items text)

theorem TokenOf.cons {texts : List String} {t : Token} (h : TokenOf texts t) (text : String) :
    TokenOf (text :: texts) t := by
  obtain ⟨text', htext', ht⟩ := h
  exact ⟨text', List.mem_cons_of_mem _ htext', ht⟩

/-! ### What stands for itself -/

namespace Likeness

/-- Tokens of these sources stand for themselves. -/
def known (texts : List String) (id : ExprId → ExprId → Prop) : Likeness where
  token t t' := t' = t ∧ TokenOf texts t
  id := id
  kind_eq h := by rw [h.1]
  lexeme_eq h := by rw [h.1]

/-- The tokens and identities of a session in which these sources were run stand for themselves. -/
def ofSession (texts : List String) (nextId : ExprId) : Likeness := known texts fun a a' => a' = a ∧ a < nextId

theorem known_admits (texts : List String) (text : String) (id id' : ExprId → ExprId → Prop) :
    (known (text :: texts) id').Admits (known texts id) := fun h => ⟨h.1, h.2.cons text⟩

theorem ofSession_id {texts texts' : List String} {n n' : ExprId} (hn : n ≤ n') {a a' : ExprId}
    (h : (ofSession texts n).id a a') : (ofSession texts' n').id a a' := ⟨h.1, Nat.lt_of_lt_of_le h.2 hn⟩

theorem sameDistances_ofSession (texts : List String) (nextId : ExprId) (distances : Distances) :
    (ofSession texts nextId).SameDistances distances distances := by
  rintro a a' ⟨rfl, -⟩
  rfl

end Likeness

/-! ### Sources without errors -/

theorem tokens_end (text : String) : ∃ t ∈ Scan.tokens (Scan.items text), t.isEnd = true :=
  ⟨_, Scan.tokens_items text ▸ List.mem_append_right _ (List.mem_singleton_self _), rfl⟩

/-- A source is parsed to like trees, whatever identities it gets. -/
theorem Source.read_like {L : Likeness} {text text' : String} {i j : ExprId}
    (htokens : List.Forall₂ L.token (Scan.tokens (Scan.items text)) (Scan.tokens (Scan.items text')))
    (hids : ∀ k, L.id (i + k) (j + k)) : Parsed.Like L (Source.read text i).parsed (Source.read text' j).parsed :=
  Parse.parse_like htokens (Parse.finalOf_like htokens (tokens_end text)) hids

/-- All tokens in a program are of its source. -/
theorem Source.read_known (texts : List String) (text : String) (i : ExprId) :
    Stmt.LikeAll (.known (text :: texts) Eq) (Source.read text i).parsed.statements
      (Source.read text i).parsed.statements := by
  let L : Likeness := .known (text :: texts) Eq
  have htokens : List.Forall₂ L.token (Scan.tokens (Scan.items text)) (Scan.tokens (Scan.items text)) :=
    List.forall₂_same.mpr fun t ht => ⟨rfl, text, List.mem_cons_self, ht⟩
  exact (Source.read_like htokens fun _ => rfl).statements

/-- The source scans, parses and resolves without errors. -/
def Source.Clean (text : String) : Prop :=
  ∃ id, (Source.read text id).diagnostics.isEmpty = true ∧ (resolve (Source.read text id).parsed.statements).isOk = true

theorem Resolution.isOk_like {L : Likeness} (hL : L.Injective) {program program' : List Stmt}
    (h : Stmt.LikeAll L program program') (hok : (resolve program).isOk = true) : (resolve program').isOk = true := by
  have herrors := (resolve_like hL h).1
  rw [isOk, List.isEmpty_iff] at *
  rw [hok] at herrors
  exact List.forall₂_nil_left_iff.mp herrors

/-- A source that has no errors has none in any session. -/
theorem Source.Clean.starts {text : String} (h : Source.Clean text) (s : Session) :
    ∃ program s', s.Starts text program s' := by
  obtain ⟨i, hread, hresolved⟩ := h
  let L : Likeness :=
    ⟨Eq, fun a a' => ∃ k, a = i + k ∧ a' = s.nextId + k, fun h => h ▸ rfl, fun h => h ▸ rfl⟩
  have hL : L.Injective := by
    rintro _ _ _ _ ⟨k, rfl, rfl⟩ ⟨k', rfl, rfl⟩
    exact Nat.add_left_cancel_iff.trans Nat.add_left_cancel_iff.symm
  have htokens : List.Forall₂ L.token (Scan.tokens (Scan.items text)) (Scan.tokens (Scan.items text)) :=
    List.forall₂_same.mpr fun _ _ => rfl
  have hlike := Source.read_like (i := i) (j := s.nextId) htokens fun k => ⟨k, rfl, rfl⟩
  refine ⟨_, _, ⟨?_, rfl, Resolution.isOk_like hL hlike.statements hresolved, rfl⟩⟩
  rw [Source.diagnostics_isEmpty] at *
  have herrors := hlike.errors
  rw [hread.2] at herrors
  exact ⟨hread.1, List.forall₂_nil_left_iff.mp herrors⟩

/-! ### Like runs -/

/-- The second run ends as the first, with a like error if any, and leaves a like machine. -/
structure Run.Like (L : Likeness) (run run' : Run) : Prop where
  ending : run'.ending = run.ending
  failure : Option.Rel (RuntimeError.Like L) run.failure run'.failure
  machine : run.session.machine.Like L run'.session.machine

namespace Session

section
variable {L : Likeness} {t t' : Session} {fuel fuel' : Nat} {context context' : Context} {program program' : List Stmt}

theorem finish_like (h : t.machine.Like L t'.machine) (status : Status) {failure failure' : Option RuntimeError}
    (hfailure : Option.Rel (RuntimeError.Like L) failure failure') :
    Run.Like L (t.finish status failure) (t'.finish status failure') where
  ending := by
    unfold finish Sink.flush
    rw [h.sink.flushFails]
    cases t.machine.sink.flushFails <;> rfl
  failure := by
    rw [finish_failure, finish_failure]
    exact hfailure
  machine := by
    rw [finish_session, finish_session]
    exact h.flush

/-- Runs of programs are like when evaluating one follows evaluating the other, which ends if the one has fuel
    to spare. -/
theorem interpretIn_like {spare : Prop} {R : Unit → Unit → Prop}
    (h : Eval.Follows L spare R (Eval.program context fuel program t.machine)
      (Eval.program context' fuel' program' t'.machine))
    (hends : spare → (t.interpretIn context fuel program).ending ≠ .outOfFuel) :
    Run.Like L (t.interpretIn context fuel program) (t'.interpretIn context' fuel' program') := by
  unfold interpretIn at *
  generalize Eval.program context fuel program t.machine = result,
    Eval.program context' fuel' program' t'.machine = result' at *
  cases h with
  | exhausted hspare => exact absurd rfl (hends hspare)
  | ok hm =>
    dsimp only
    exact finish_like hm _ .none
  | error hm hstop =>
    cases hstop with
    | failed he =>
      dsimp only
      exact finish_like hm _ (.some he)
    | sink fault => exact ⟨rfl, .none, hm⟩
    | outOfFuel => exact ⟨rfl, .none, hm⟩

end
end Session

/-! ### What a session knows -/

namespace Session
variable {host : Host} {texts : List String} {s s' : Session} {text : String} {program : List Stmt} {fuel : Nat}

/-- The tokens in the functions of the session are of these sources, and what identities they have has been
    handed out. -/
structure Known (texts : List String) (s : Session) : Prop where
  machine : s.machine.Like (.ofSession texts s.nextId) s.machine
  unused : ∀ id, s.nextId ≤ id → s.distances[id]? = none

theorem Known.mono (h : s.Known texts) (text : String) {n : ExprId} (hn : s.nextId ≤ n) :
    s.machine.Like (.ofSession (text :: texts) n) s.machine :=
  h.machine.mono (Likeness.known_admits texts text _ _) (Likeness.ofSession_id hn)

theorem known_new (sink : Sink) : (Session.new sink).Known [] where
  machine :=
    { frames := {
        next := rfl
        enclosing := fun _ => rfl
        here := fun f n => by
          have hnone : Frames.initial.here? f n = none := Frames.here?_initial
          rw [new, Machine.initial, Frames.here?_define, hnone]
          split
          · exact .some (.host _)
          · exact .none }
      current := rfl
      depth := rfl
      sink := ⟨rfl, rfl, rfl⟩
      nextIdentity := rfl
      hostCalls := rfl }
  unused _ _ := Std.HashMap.getElem?_empty

theorem Known.register (h : s.Known texts) (key name : String) (arity : Nat) :
    (s.register key name arity).Known texts where
  machine := { h.machine with
    frames := h.machine.frames.define Frames.globals name (.host _)
    nextIdentity := rfl }
  unused := h.unused

/-- A program has only tokens of its source, and identities that it was given. -/
theorem Starts.known (hs : s.Starts text program s') (texts : List String) :
    Stmt.LikeAll (.ofSession (text :: texts) s'.nextId) program program := by
  have hknown := Source.read_known texts text s.nextId
  rw [hs.parsed] at hknown
  have hadmits : (Likeness.ofSession (text :: texts) s'.nextId).Admits (.known (text :: texts) Eq) := fun h => h
  refine hknown.renumber hadmits fun q hq => ?_
  have hsame := List.forall₂_zip (List.forall₂_same.mpr fun (r : Reference) _ => (rfl : r = r)) hq
  exact ⟨congrArg Reference.id hsame.symm, hs.fresh.upper _ (List.of_mem_zip hq).1⟩

theorem Known.starts (h : s.Known texts) (hs : s.Starts text program s') : s'.Known (text :: texts) where
  machine := by
    rw [hs.machine_eq]
    exact h.mono text hs.nextId_le
  unused id hid := by
    rw [hs.distances_eq, hs.distances_other (.inr hid), Option.none_or]
    exact h.unused id (Nat.le_trans hs.nextId_le hid)

/-- However a run of a program ends, what its machine holds is known. -/
theorem Known.interpret (h : s.Known texts) (hhost : host.Uniform)
    (hprogram : Stmt.LikeAll (.ofSession texts s.nextId) program program) :
    (s.interpret host fuel program).session.Known texts := by
  have hsame := Eval.program_simulates (Likeness.sameDistances_ofSession _ _ s.distances) hhost (Nat.le_refl fuel)
    (fun hlt => Nat.lt_irrefl _ hlt) hprogram h.machine
  have hlike : Run.Like (.ofSession texts s.nextId) (s.interpret host fuel program) (s.interpret host fuel program) :=
    interpretIn_like hsame False.elim
  obtain ⟨-, -, hdistances, hnextId⟩ := @interpretIn_session s program fuel (s.context host)
  unfold Session.interpret at *
  refine ⟨hnextId ▸ hlike.machine, fun id hid => ?_⟩
  rw [hdistances]
  exact h.unused id (hnextId ▸ hid)

/-- A run adds its source to those that the session knows. -/
theorem Known.run (h : s.Known texts) (hhost : host.Uniform) (fuel : Nat) (text : String) :
    (s.run host fuel text).session.Known (text :: texts) := by
  by_cases hs : ∃ program s', s.Starts text program s'
  · obtain ⟨program, s', hs⟩ := hs
    rw [run_of_starts hs]
    exact (h.starts hs).interpret hhost (hs.known texts)
  · rw [run_of_not_starts fun program s' hs' => hs ⟨program, s', hs'⟩]
    have hle : s.nextId ≤ (Source.read text s.nextId).parsed.nextId := Parse.nextId_le_parse _ _
    exact ⟨h.mono text hle, fun id hid => h.unused id (Nat.le_trans hle hid)⟩

/-- What a session knows comes from the sources that were run in it. -/
theorem Reachable.known (hhost : host.Uniform) (h : s.Reachable host texts) : s.Known texts := by
  induction h with
  | new sink => exact known_new sink
  | register _ key name arity ih => exact ih.register key name arity
  | run _ fuel text ih => exact ih.run hhost fuel text

end Session
end Lox
