import Lox.Proofs.Evaluation.Visits
import Lox.Proofs.Parsing.Trees
import Lox.Proofs.Reachable
import Lox.Proofs.Resolution

/-! # Sessions

Which programs run in a session depends on the sources alone (`Session.programsOf`), whichever way the runs end. All
through a session the machine is sound with regard to the programs that have been run, and the table holds the
distance of each of their references (`Reachable.sound`). Hence a reference with a distance finds its frame at any
moment of any run. -/

namespace Lox

namespace Token

/-- A mark on a line, with its spelling. -/
def ofMark (m : Mark) (line : Nat) : Token := ⟨.mark m, m.spelling, line⟩

/-- A keyword on a line, with its spelling. -/
def ofKeyword (k : Keyword) (line : Nat) : Token := ⟨.keyword k, k.spelling, line⟩

end Token

namespace Session

/-- The source has no static error, so its program begins to run in `s'`. -/
structure Starts (s : Session) (text : String) (program : List Stmt) (s' : Session) : Prop where
  read : (Source.read text s.nextId).diagnostics.isEmpty = true
  parsed : (Source.read text s.nextId).parsed.statements = program
  resolved : (resolve program).isOk = true
  session : s' = addDistances { s with nextId := (Source.read text s.nextId).parsed.nextId } (resolve program).distances

/-- The next identity after these sources have been read one after the other, the first of them last in the list. -/
def idAfter : List String → ExprId
  | [] => 0
  | text :: texts => (Source.read text (idAfter texts)).parsed.nextId

/-- The programs that begin to run when these sources are run one after the other, the first of them last in the
    list: those without a static error. -/
def programsOf : List String → List (List Stmt)
  | [] => []
  | text :: texts =>
    let source := Source.read text (idAfter texts)
    if source.diagnostics.isEmpty ∧ (resolve source.parsed.statements).isOk then
      source.parsed.statements :: programsOf texts
    else programsOf texts

section
variable {host : Host} {s s' : Session} {text : String} {program : List Stmt} {programs : List (List Stmt)} {fuel : Nat}
  {texts : List String}

theorem run_of_starts (h : s.Starts text program s') : s.run host fuel text = s'.interpret host fuel program := by
  obtain ⟨hread, rfl, hresolved, rfl⟩ := h
  unfold run
  rw [if_pos hread, if_pos hresolved]

theorem Starts.unique {program' : List Stmt} {s'' : Session} (h : s.Starts text program s')
    (h' : s.Starts text program' s'') :
    program = program' ∧ s' = s'' := by
  obtain ⟨-, rfl, -, rfl⟩ := h
  obtain ⟨-, rfl, -, rfl⟩ := h'
  exact ⟨rfl, rfl⟩

/-- A source of these tokens and without errors begins to run as the program that they parse to. -/
theorem starts_of_tokens (id : ExprId) (tokens : List Token) {n : ExprId} (hid : s.nextId = id)
    (hitems : Scan.items text = tokens.map .ok) (hparsed : parse tokens id = ⟨program, [], n⟩)
    (hresolved : (resolve program).isOk = true) :
    s.Starts text program (addDistances { s with nextId := n } (resolve program).distances) := by
  have htokens : Scan.tokens (Scan.items text) = tokens := by
    rw [hitems, Scan.tokens, List.filterMap_map]
    exact List.filterMap_some
  have herrors : Scan.errors (Scan.items text) = [] := by
    rw [hitems, Scan.errors, List.filterMap_map]
    exact List.filterMap_eq_nil_iff.mpr fun _ _ => rfl
  have hread : Source.read text s.nextId = ⟨tokens.map .ok, ⟨program, [], n⟩⟩ := by
    rw [Source.read, htokens, hid, hparsed, hitems]
  refine ⟨?_, ?_, hresolved, ?_⟩
  · exact Source.diagnostics_isEmpty.mpr (hread ▸ ⟨hitems ▸ herrors, rfl⟩)
  · rw [hread]
  · rw [hread]

/-- A source with a static error is refused in all sessions that have given out the same identities. -/
theorem run_refused_of_nextId_eq (h : ∀ program s', ¬ s.Starts text program s') : ∃ diagnostics,
    ∀ t : Session, t.nextId = s.nextId → ∀ host fuel, t.run host fuel text =
      ⟨.status .compileError, diagnostics, none, { t with nextId := (Source.read text s.nextId).parsed.nextId }⟩ := by
  unfold run
  by_cases hread : (Source.read text s.nextId).diagnostics.isEmpty = true
  · by_cases hresolved : (resolve (Source.read text s.nextId).parsed.statements).isOk = true
    · exact absurd ⟨hread, rfl, hresolved, rfl⟩ (h _ _)
    · refine ⟨(resolve (Source.read text s.nextId).parsed.statements).errors.map ScopeError.diagnostic,
        fun t hid _ _ => ?_⟩
      rw [hid]
      exact (if_pos hread).trans (if_neg hresolved)
  · refine ⟨(Source.read text s.nextId).diagnostics, fun t hid _ _ => ?_⟩
    rw [hid]
    exact if_neg hread

/-- A source with a static error is refused, whatever the host and however much fuel there is. -/
theorem run_refused (h : ∀ program s', ¬ s.Starts text program s') : ∃ diagnostics, ∀ host fuel, s.run host fuel text =
    ⟨.status .compileError, diagnostics, none, { s with nextId := (Source.read text s.nextId).parsed.nextId }⟩ := by
  obtain ⟨diagnostics, hrun⟩ := run_refused_of_nextId_eq h
  exact ⟨diagnostics, hrun s rfl⟩

theorem run_of_not_starts (h : ∀ program s', ¬ s.Starts text program s') :
    (s.run host fuel text).session = { s with nextId := (Source.read text s.nextId).parsed.nextId } := by
  obtain ⟨diagnostics, hrun⟩ := run_refused h
  rw [hrun]

/-- A run of a program changes the session only in what evaluation changes in the machine, and in the
    output. -/
theorem interpretIn_session (context : Context) :
    (s.interpretIn context fuel program).session.machine.frames =
        ((Eval.program context fuel program).final s.machine).frames ∧
      (s.interpretIn context fuel program).session.machine.current =
        ((Eval.program context fuel program).final s.machine).current ∧
      (s.interpretIn context fuel program).session.distances = s.distances ∧
      (s.interpretIn context fuel program).session.nextId = s.nextId := by
  unfold interpretIn Eval.final
  cases Eval.program context fuel program s.machine with
  | ok u m =>
    dsimp only
    rw [finish_session]
    exact ⟨rfl, rfl, rfl, rfl⟩
  | error stop m =>
    cases stop with
    | failed e =>
      dsimp only
      rw [finish_session]
      exact ⟨rfl, rfl, rfl, rfl⟩
    | sink fault => exact ⟨rfl, rfl, rfl, rfl⟩
    | outOfFuel => exact ⟨rfl, rfl, rfl, rfl⟩

/-! ### The programs of a session -/

theorem nextId_run (host : Host) (fuel : Nat) (text : String) (s : Session) :
    (s.run host fuel text).session.nextId = (Source.read text s.nextId).parsed.nextId := by
  by_cases hs : ∃ program s', s.Starts text program s'
  · obtain ⟨program, s', hs⟩ := hs
    rw [run_of_starts hs]
    refine (@interpretIn_session s' program fuel (s'.context host)).2.2.2.trans ?_
    obtain ⟨-, -, -, rfl⟩ := hs
    rfl
  · rw [run_of_not_starts fun program s' h' => hs ⟨program, s', h'⟩]

theorem Reachable.nextId_eq (h : s.Reachable host texts) : s.nextId = idAfter texts := by
  induction h with
  | new sink => rfl
  | register _ key name arity ih => exact ih
  | @run _ s _ fuel text ih => rw [nextId_run, ih, idAfter]

theorem Reachable.programsOf_of_starts (h : s.Reachable host texts) (hs : s.Starts text program s') :
    programsOf (text :: texts) = program :: programsOf texts := by
  obtain ⟨hread, rfl, hresolved, -⟩ := hs
  rw [h.nextId_eq] at hread hresolved ⊢
  exact if_pos ⟨hread, hresolved⟩

theorem Reachable.programsOf_of_not_starts (h : s.Reachable host texts)
    (hs : ∀ program s', ¬ s.Starts text program s') :
    programsOf (text :: texts) = programsOf texts := by
  refine if_neg ?_
  rintro ⟨hread, hresolved⟩
  rw [← h.nextId_eq] at hread hresolved
  exact hs _ _ ⟨hread, rfl, hresolved, rfl⟩

/-! ### The invariant of a session -/

/-- A site of one of the programs. -/
def OfPrograms (programs : List (List Stmt)) (t : Site) : Prop := ∃ program ∈ programs, t ∈ sitesOf program

/-- The machine is sound with regard to the programs that have been run, and the table holds the distances
    of their references and of no others. -/
structure Sound (s : Session) (programs : List (List Stmt)) : Prop where
  world : ∃ roster, World.Sound (OfPrograms programs) ⟨s.machine, roster⟩
  current : s.machine.current = Frames.globals
  resolved : ∀ program ∈ programs, (resolve program).isOk = true
  table : ∀ t, OfPrograms programs t → s.distances[t.reference.id]? = t.distance?
  used : ∀ t, OfPrograms programs t → t.reference.id < s.nextId
  unused : ∀ id, s.nextId ≤ id → s.distances[id]? = none

theorem sound_new (sink : Sink) : (Session.new sink).Sound [] where
  world := by
    refine ⟨fun _ => [], ?_, ?_, ?_, ?_, ?_⟩
    · have hnext : (Session.new sink).machine.frames.next = 1 := Frames.next_define
      exact Nat.lt_of_lt_of_eq Nat.zero_lt_one hnext.symm
    · exact Frames.enclosing?_define.trans Frames.enclosing?_initial
    · intro f g hg
      have hnone := hg.symm.trans (Frames.enclosing?_define.trans Frames.enclosing?_initial)
      cases hnone
    · intro f name hf hb
      have hb := (congrArg Option.isSome Frames.here?_define).symm.trans hb
      rw [if_neg fun hc => hf hc.1, Frames.here?_initial] at hb
      cases hb
    · intro f name v hv
      have hv := Frames.here?_define.symm.trans hv
      split at hv
      · cases hv
        trivial
      · rw [Frames.here?_initial] at hv
        cases hv
  current := rfl
  resolved := by simp
  table := by
    rintro t ⟨program, hp, -⟩
    cases hp
  used := by
    rintro t ⟨program, hp, -⟩
    cases hp
  unused _ _ := Std.HashMap.getElem?_empty

theorem Starts.fresh (hs : s.Starts text program s') : Fresh s.nextId s'.nextId (Stmt.referencesAll program) := by
  obtain ⟨-, rfl, -, rfl⟩ := hs
  exact Parse.parse_fresh _ _

theorem Starts.sites_fresh (hs : s.Starts text program s') :
    ((sitesOf program).map (·.reference.id)).Nodup ∧
      ∀ t ∈ sitesOf program, s.nextId ≤ t.reference.id ∧ t.reference.id < s'.nextId := by
  have hfresh := hs.fresh
  rw [← Stmt.sitesAll_references []] at hfresh
  refine ⟨?_, ?_⟩
  · have hnodup := hfresh.nodup
    rw [List.map_map] at hnodup
    exact hnodup
  · intro t ht
    exact ⟨hfresh.lower _ (List.mem_map_of_mem ht), hfresh.upper _ (List.mem_map_of_mem ht)⟩

theorem Starts.nextId_le (hs : s.Starts text program s') : s.nextId ≤ s'.nextId := by
  obtain ⟨-, -, -, rfl⟩ := hs
  exact Parse.nextId_le_parse _ _

theorem Starts.plain (hs : s.Starts text program s') : Stmt.PlainAll program := by
  obtain ⟨-, rfl, -, -⟩ := hs
  exact Parse.parse_plain _ _

theorem Starts.machine_eq (hs : s.Starts text program s') : s'.machine = s.machine := by
  obtain ⟨-, -, -, rfl⟩ := hs
  rfl

theorem Starts.nextId_eq (hs : s.Starts text program s') : s'.nextId = (Source.read text s.nextId).parsed.nextId := by
  obtain ⟨-, -, -, rfl⟩ := hs
  rfl

theorem Starts.table_eq (hs : s.Starts text program s') : s'.distances = s.distances ∪ (resolve program).distances := by
  obtain ⟨-, -, -, rfl⟩ := hs
  rfl

theorem Starts.distances_eq (hs : s.Starts text program s') (id : ExprId) :
    s'.distances[id]? = (resolve program).distances[id]?.or s.distances[id]? := by
  rw [hs.table_eq]
  exact Std.HashMap.getElem?_union

/-- Resolving a program puts nothing down for identities from before it or behind it. -/
theorem Starts.distances_other (hs : s.Starts text program s') {id : ExprId} (hid : id < s.nextId ∨ s'.nextId ≤ id) :
    (resolve program).distances[id]? = none := by
  refine Resolve.distances_resolve_of_notMem fun hmem => ?_
  obtain ⟨t, ht, rfl⟩ := List.mem_map.mp hmem
  obtain ⟨hlower, hupper⟩ := hs.sites_fresh.2 t ht
  rcases hid with hid | hid
  · exact Nat.not_le_of_lt hid hlower
  · exact Nat.not_le_of_lt hupper hid

/-- A program whose references all stand on the outermost level leaves the table as it was. -/
theorem Starts.distances_outermost (hs : s.Starts text program s') (houtermost : ∀ t ∈ sitesOf program, t.regions = [])
    (id : ExprId) : s'.distances[id]? = s.distances[id]? := by
  rw [hs.distances_eq, Resolve.distances_outermost hs.sites_fresh.1 houtermost, Option.none_or]

theorem Sound.starts (h : s.Sound programs) (hs : s.Starts text program s') : s'.Sound (program :: programs) := by
  have hfresh := hs.sites_fresh
  have hmachine := hs.machine_eq
  have hcases : ∀ t, OfPrograms (program :: programs) t → t ∈ sitesOf program ∨ OfPrograms programs t := by
    rintro t ⟨P, hP, ht⟩
    rcases List.mem_cons.mp hP with rfl | hP
    · exact .inl ht
    · exact .inr ⟨P, hP, ht⟩
  refine ⟨?_, hmachine ▸ h.current, ?_, ?_, ?_, ?_⟩
  · obtain ⟨roster, hworld⟩ := h.world
    refine ⟨roster, hmachine ▸ hworld.imp ?_⟩
    rintro t ⟨P, hP, ht⟩
    exact ⟨P, List.mem_cons_of_mem _ hP, ht⟩
  · intro P hP
    rcases List.mem_cons.mp hP with rfl | hP
    · exact hs.resolved
    · exact h.resolved P hP
  · intro t ht
    rw [hs.distances_eq]
    rcases hcases t ht with ht | ht
    · rw [Resolve.distances_resolve hfresh.1 t ht, h.unused _ (hfresh.2 t ht).1, Option.or_none]
    · rw [hs.distances_other (.inl (h.used t ht)), Option.none_or]
      exact h.table t ht
  · intro t ht
    rcases hcases t ht with ht | ht
    · exact (hfresh.2 t ht).2
    · exact Nat.lt_of_lt_of_le (h.used t ht) hs.nextId_le
  · intro id hid
    rw [hs.distances_eq, hs.distances_other (.inr hid), Option.none_or]
    exact h.unused id (Nat.le_trans hs.nextId_le hid)

/-- The moment at which a program begins to run is sound. -/
theorem Sound.moment (h : s.Sound (program :: programs)) (hplain : Stmt.PlainAll program) :
    Moment.Sound (OfPrograms (program :: programs)) ⟨fuel, .program program, s.machine⟩ := by
  obtain ⟨roster, hworld⟩ := h.world
  exact ⟨roster, hworld, h.current, fun t ht => ⟨program, List.mem_cons_self, ht⟩, hplain⟩

theorem Sound.interpret (h : s.Sound (program :: programs)) (hhost : host.Honest) (hplain : Stmt.PlainAll program) :
    (s.interpret host fuel program).session.Sound (program :: programs) := by
  obtain ⟨hframes, hcurrent, hdistances, hnextId⟩ :=
    @interpretIn_session s program fuel (s.context host)
  obtain ⟨roster, hworld, -, hsites, -⟩ := @Sound.moment s program programs fuel h hplain
  obtain ⟨roster', hlater, hsound, -⟩ :=
    Eval.program_ensures (c := s.context host) hhost fuel hworld h.current hsites hplain
  unfold Session.interpret
  refine ⟨⟨roster', hsound.congr hframes⟩, hcurrent.trans (hlater.keeps.current.trans h.current),
    h.resolved, ?_, ?_, ?_⟩
  · rw [hdistances]
    exact h.table
  · rw [hnextId]
    exact h.used
  · rw [hdistances, hnextId]
    exact h.unused

/-- A function of the host is bound to a global, and nothing else changes. -/
theorem Sound.register (h : s.Sound programs) (key name : String) (arity : Nat) :
    (s.register key name arity).Sound programs := by
  obtain ⟨roster, hworld⟩ := h.world
  let f : Value := .host ⟨s.machine.nextIdentity, key, name, arity⟩
  have hbound : World.Sound _ (World.withFrames ⟨s.machine, roster⟩ (s.machine.frames.define Frames.globals name f)) :=
    hworld.define trivial fun hne => absurd rfl hne
  exact ⟨⟨roster, hbound.congr rfl⟩, h.current, h.resolved, h.table, h.used, h.unused⟩

/-- A source with a static error only uses up identities. -/
theorem Sound.refused (h : s.Sound programs) {n : ExprId} (hle : s.nextId ≤ n) :
    Sound { s with nextId := n } programs :=
  ⟨h.world, h.current, h.resolved, h.table, fun t ht => Nat.lt_of_lt_of_le (h.used t ht) hle,
    fun id hid => h.unused id (Nat.le_trans hle hid)⟩

/-- All through a session it is sound with regard to the programs that have been run. -/
theorem Reachable.sound (hhost : host.Honest) (h : s.Reachable host texts) : s.Sound (programsOf texts) := by
  induction h with
  | new sink => exact sound_new sink
  | register _ key name arity ih => exact ih.register key name arity
  | @run _ s h fuel text ih =>
    by_cases hs : ∃ program s', s.Starts text program s'
    · obtain ⟨program, s', hs⟩ := hs
      rw [run_of_starts hs, h.programsOf_of_starts hs]
      exact (ih.starts hs).interpret hhost hs.plain
    · have hs : ∀ program s', ¬ s.Starts text program s' := fun program s' h' => hs ⟨program, s', h'⟩
      rw [run_of_not_starts hs, h.programsOf_of_not_starts hs]
      exact ih.refused (Parse.nextId_le_parse _ _)

/-! ### References at any moment -/

/-- The frame that the distance of a reference leads to is the frame of the innermost region that has begun
    to declare its name. -/
theorem reference_frame (hhost : host.Honest) (h : s.Reachable host texts) (hs : s.Starts text program s') {mo : Moment}
    (hv : Moment.Visits (s'.context host) ⟨fuel, .program program, s'.machine⟩ mo) {ref : Reference}
    (href : mo.reference? = some ref) {distance : Nat} (hd : s'.distances[ref.id]? = some distance) :
    ∃ t r g, OfPrograms (program :: programsOf texts) t ∧ t.reference = ref ∧ t.distance? = some distance ∧
      t.regions[distance]? = some r ∧ mo.machine.frames.ancestor? distance mo.machine.current = some g ∧
        g ≠ Frames.globals ∧ ∀ name ∈ r.declared, (mo.machine.frames.here? g name).isSome := by
  have hsound := (h.sound hhost).starts hs
  have hmo := hv.sound hhost (hsound.moment hs.plain)
  obtain ⟨roster, rs, hworld, hat, hQ⟩ := hmo.reference href
  have ht : (⟨rs, ref⟩ : Site).distance? = some distance := (hsound.table _ hQ).symm.trans hd
  obtain ⟨hlt, -, -⟩ := List.findIdx?_eq_some_iff_getElem.mp ht
  obtain ⟨g, hg, hne, -, hdeclared⟩ := Frames.Chain.ancestor? hworld.outermost hat (List.getElem?_eq_getElem hlt)
  exact ⟨⟨rs, ref⟩, _, g, hQ, rfl, ht, List.getElem?_eq_getElem hlt, hg, hne, hdeclared⟩

end
end Session
end Lox
