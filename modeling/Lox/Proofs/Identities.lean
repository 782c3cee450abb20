import Lox.Proofs.Functions

/-! # Identities and the table of distances

Parsing hands out identities from a counter, to each reference another one, and a session keeps the counter. What a
run enters in the table of distances is about identities that its own source was given; all that was handed out
before keeps its entry, or has none, through all later runs (`identities_kept`). -/

namespace Lox

/-! ### References in functions -/

mutual

/-- What a function inside of a statement refers to, the statement refers to. -/
theorem Stmt.references_of_mem_decls {d : FunctionDecl} {r : Reference} (hr : r ∈ Stmt.referencesAll d.body) :
    ∀ {s : Stmt}, d ∈ s.decls → r ∈ s.references
  | .function _ _ body, hd => by
    rcases List.mem_cons.mp hd with rfl | hd
    · exact hr
    · exact Stmt.referencesAll_of_mem_decls hr hd
  | .block _, hd => Stmt.referencesAll_of_mem_decls hr hd
  | .branch _ yes no, hd =>
    (List.mem_append.mp hd).elim
      (fun hd => List.mem_append_left _ (List.mem_append_right _ (Stmt.references_of_mem_decls hr hd)))
      fun hd => List.mem_append_right _ (Stmt.references?_of_mem_decls hr hd)
  | .loop _ _, hd => List.mem_append_right _ (Stmt.references_of_mem_decls hr hd)
  | .expression _, hd | .print _, hd | .var _ _, hd | .ret _ _, hd => nomatch hd

theorem Stmt.references?_of_mem_decls {d : FunctionDecl} {r : Reference} (hr : r ∈ Stmt.referencesAll d.body) :
    ∀ {s : Option Stmt}, d ∈ Stmt.decls? s → r ∈ Stmt.references? s
  | none, hd => nomatch hd
  | some _, hd => Stmt.references_of_mem_decls hr hd

theorem Stmt.referencesAll_of_mem_decls {d : FunctionDecl} {r : Reference} (hr : r ∈ Stmt.referencesAll d.body) :
    ∀ {ss : List Stmt}, d ∈ Stmt.declsAll ss → r ∈ Stmt.referencesAll ss
  | [], hd => nomatch hd
  | _ :: _, hd =>
    (List.mem_append.mp hd).elim (fun hd => List.mem_append_left _ (Stmt.references_of_mem_decls hr hd))
      fun hd => List.mem_append_right _ (Stmt.referencesAll_of_mem_decls hr hd)

end

/-- The references in the body have identities below this one. -/
def FunctionDecl.Below (n : ExprId) (d : FunctionDecl) : Prop := ∀ r ∈ Stmt.referencesAll d.body, r.id < n

theorem FunctionDecl.inherited_below (n : ExprId) : FunctionDecl.Inherited (FunctionDecl.Below n) :=
  fun _ h _ hinner r hr => h r (Stmt.referencesAll_of_mem_decls hr hinner)

namespace Session

/-- What later runs, and functions that the host adds between them, make of a session. -/
inductive Continues (host : Host) (s : Session) : Session → Prop
  | here : Continues host s s
  | register {s' : Session} (h : Continues host s s') (key name : String) (arity : Nat) :
    Continues host s (s'.register key name arity)
  | run {s' : Session} (h : Continues host s s') (fuel : Nat) (text : String) :
    Continues host s (s'.run host fuel text).session

section
variable {host : Host} {s s' later : Session} {texts : List String} {text : String} {program : List Stmt} {id : ExprId}

/-! ### The counter and the table after a run -/

theorem nextId_le_run (host : Host) (fuel : Nat) (text : String) (s : Session) :
    s.nextId ≤ (s.run host fuel text).session.nextId :=
  nextId_run host fuel text s ▸ Parse.nextId_le_parse _ _

/-- A program that is run enters its distances. -/
theorem distances_run_of_starts (hs : s.Starts text program s') (host : Host) (fuel : Nat) :
    (s.run host fuel text).session.distances = s'.distances := by
  rw [run_of_starts hs]
  exact (@interpretIn_session s' program fuel (s'.context host)).2.2.1

/-- A run changes the table only at the identities that its source was given. -/
theorem distances_run (host : Host) (fuel : Nat) (text : String)
    (hid : id < s.nextId ∨ (s.run host fuel text).session.nextId ≤ id) :
    (s.run host fuel text).session.distances[id]? = s.distances[id]? := by
  by_cases hs : ∃ program s', s.Starts text program s'
  · obtain ⟨program, s', hs⟩ := hs
    rw [nextId_run, ← hs.nextId_eq] at hid
    rw [distances_run_of_starts hs, hs.distances_eq, hs.distances_other hid, Option.none_or]
  · rw [run_of_not_starts fun program s' h' => hs ⟨program, s', h'⟩]

theorem Continues.nextId_le (h : s.Continues host later) : s.nextId ≤ later.nextId := by
  induction h with
  | here => exact Nat.le_refl _
  | register _ key name arity ih => exact ih
  | @run s' _ fuel text ih => exact Nat.le_trans ih (nextId_le_run host fuel text s')

/-- Entries of identities that have been handed out do not change any more. -/
theorem Continues.distances_eq (h : s.Continues host later) (hid : id < s.nextId) :
    later.distances[id]? = s.distances[id]? := by
  induction h with
  | here => rfl
  | register _ key name arity ih => exact ih
  | @run s' h fuel text ih => exact (distances_run host fuel text (.inl (Nat.lt_of_lt_of_le hid h.nextId_le))).trans ih

/-! ### Reachable sessions -/

/-- There are no entries for identities that have not been handed out. -/
theorem Reachable.unused (h : s.Reachable host texts) (hid : s.nextId ≤ id) : s.distances[id]? = none := by
  induction h with
  | new sink => exact Std.HashMap.getElem?_empty
  | register _ key name arity ih => exact ih hid
  | @run _ s _ fuel text ih =>
    exact (distances_run host fuel text (.inr hid)).trans (ih (Nat.le_trans (nextId_le_run host fuel text s) hid))

/-- The functions that frames hold refer by identities that have been handed out. -/
theorem Reachable.functions_below (hhost : host.Honest) (h : s.Reachable host texts) :
    s.machine.frames.Obey (FunctionDecl.Below s.nextId) := by
  induction h with
  | new sink => exact obeys_new sink
  | register _ key name arity ih => exact obeys_register ih key name arity
  | @run _ s _ fuel text ih =>
    have hle := nextId_le_run host fuel text s
    refine run_obeys (FunctionDecl.inherited_below _) hhost.obeys ?_ ?_ fuel
    · exact ih.mono fun d hd r hr => Nat.lt_of_lt_of_le (hd r hr) hle
    · intro program s' hs d hd r hr
      rw [nextId_run]
      obtain ⟨-, rfl, -, -⟩ := hs
      exact (Parse.parse_fresh _ _).upper r (Stmt.referencesAll_of_mem_decls hr hd)

/-- The references that a parse yields, an unfinished one too, have identities that are all different and were handed
    out by it. So no later run, however it ends, changes what the table says about the references of a source: for one
    that was run what resolving has found, an entry or none. The same goes for references in functions that frames
    still hold. -/
theorem identities_kept :
    (∀ (tokens : List Token) (c : ExprId),
      Fresh c (parse tokens c).nextId (Stmt.referencesAll (parse tokens c).statements)) ∧
    ∀ (host : Host) (texts : List String) (s : Session), s.Reachable host texts →
      (∀ (fuel : Nat) (text : String) (later : Session), (s.run host fuel text).session.Continues host later →
        ∀ r ∈ Stmt.referencesAll (Source.read text s.nextId).parsed.statements,
          later.distances[r.id]? = (s.run host fuel text).session.distances[r.id]? ∧
          ∀ program s', s.Starts text program s' → later.distances[r.id]? = (resolve program).distances[r.id]?) ∧
      (host.Honest → ∀ later : Session, s.Continues host later → ∀ f name closure,
        s.machine.frames.here? f name = some (.function closure) → ∀ r ∈ Stmt.referencesAll closure.decl.body,
          later.distances[r.id]? = s.distances[r.id]?) := by
  refine ⟨Parse.parse_fresh, fun host texts s h => ⟨fun fuel text later hlater r hr => ?_, fun hhost later hlater f name
    closure hf r hr => hlater.distances_eq (h.functions_below hhost f name _ hf closure rfl r hr)⟩⟩
  have hfresh := Parse.parse_fresh (Scan.tokens (Scan.items text)) s.nextId
  have hid : r.id < (s.run host fuel text).session.nextId := nextId_run host fuel text s ▸ hfresh.upper r hr
  refine ⟨hlater.distances_eq hid, fun program s' hs => ?_⟩
  rw [hlater.distances_eq hid, distances_run_of_starts hs, hs.distances_eq,
    h.unused (hfresh.lower r hr), Option.or_none]

/-- The reading in a block keeps its distance through a run that fails, one that is refused, and one that enters the
    distance of another. -/
theorem identities_kept_failing : ∃ s later : Session,
    s = ((Session.new .unlimited).run (Host.withTime fun _ => 0) 9 "\x7bvar a;a;\x7d").session ∧
      later = (((s.run (Host.withTime fun _ => 0) 9 "-nil;").session.run (Host.withTime fun _ => 0) 9
        "return b;").session.run (Host.withTime fun _ => 0) 9 "\x7bvar c;\x7bc;\x7d\x7d").session ∧
      s.distances[0]? = some 0 ∧ later.distances[0]? = some 0 := by
  have hs : (Session.new .unlimited).Starts "\x7bvar a;a;\x7d" _ _ := ⟨by decide +kernel, rfl, by decide +kernel, rfl⟩
  have hkept :=
    (identities_kept.2 (Host.withTime fun _ => 0) [] (.new .unlimited) (.new .unlimited)).1 9 "\x7bvar a;a;\x7d"
  have hmem : (⟨false, 0, ⟨.identifier, "a", 1⟩⟩ : Reference) ∈ Stmt.referencesAll
      (Source.read "\x7bvar a;a;\x7d" (Session.new .unlimited).nextId).parsed.statements := by decide +kernel
  obtain ⟨heq, hresolved⟩ :=
    hkept _ (.run (.run (.run .here 9 "-nil;") 9 "return b;") 9 "\x7bvar c;\x7bc;\x7d\x7d") _ hmem
  have hfound := (hresolved _ _ hs).trans (by decide +kernel : _ = some 0)
  exact ⟨_, _, rfl, rfl, heq.symm.trans hfound, hfound⟩

end
end Session
end Lox
