import Lox.Proofs.Evaluation.Indistinct
import Lox.Proofs.Sessions

/-! # What distances lead to

The distance of a reference leads from the current frame to the frame of the region that declares its
name, at every moment of every run of a session (`reference_at_distance`). That frame binds the name,
but for one case: the value of a variable's first initializer may assign to the variable itself, which
is not bound yet. -/

namespace Lox.Session
variable {s s' : Session} {texts : List String} {text : String} {program : List Stmt}

/-- A reference with a distance is evaluated in a machine in which the distance leads to a frame that is
    not the globals. If it is read, the frame binds its name, and reading succeeds. If it is assigned, the
    frame binds its name too, unless the assignment is in the initializer of the first declaration of the
    name in its innermost region. -/
theorem reference_at_distance {host : Host} (hhost : host.Honest) (h : s.Reachable host texts)
    (hs : s.Starts text program s') {fuel : Nat} {mo : Moment}
    (hv : Moment.Visits (s'.context host) ⟨fuel, .program program, s'.machine⟩ mo)
    {ref : Reference} (href : mo.reference? = some ref) {distance : Nat}
    (hd : s'.distances[ref.id]? = some distance) :
    ∃ g, mo.machine.frames.ancestor? distance mo.machine.current = some g ∧ g ≠ Frames.globals ∧
      (ref.assigns = false → (mo.machine.frames.here? g ref.name.lexeme).isSome ∧
        ∃ v, Eval.read (s'.context host) ref.id ref.name mo.machine = .ok v mo.machine) ∧
      (ref.assigns = true → (mo.machine.frames.here? g ref.name.lexeme).isSome ∨
        ∃ t, OfPrograms (program :: programsOf texts) t ∧ t.reference = ref ∧ t.Premature) := by
  obtain ⟨t, r, g, ht, rfl, hdist, hr, hg, hne, hdeclared⟩ := reference_frame hhost h hs hv href hd
  obtain ⟨P, hP, htP⟩ := ht
  have hresolved := ((h.sound hhost).starts hs).resolved P hP
  have hcases := Site.declared_or_premature htP hdist hr
  refine ⟨g, hg, hne, ?_, ?_⟩
  · intro hreads
    have hown := Resolve.not_inOwnInitializer hresolved htP hreads
    have hbound := hdeclared _ (hcases.resolve_right fun hp => hown hp.2)
    refine ⟨hbound, ?_⟩
    obtain ⟨v, hv⟩ := Option.isSome_iff_exists.mp hbound
    refine ⟨v, ?_⟩
    have hget : (s'.context host).access.get? mo.machine.frames mo.machine.current t.reference.id
        t.reference.name.lexeme = some v := by
      simp only [context, Access.get?, hd, Frames.getAt?, hg, Option.bind_some]
      exact hv
    rw [Eval.read, hget]
  · intro _
    rcases hcases with hdecl | ⟨hpremature, -⟩
    · exact .inl (hdeclared _ hdecl)
    · exact .inr ⟨t, ⟨P, hP, htP⟩, rfl, hpremature⟩

/-- The reading in `\x7bvar a;a;\x7d`, run after a source that failed: its distance leads to the frame of the
    block, which binds the name. -/
theorem reading_after_failure : ∃ (s s' : Session) (program : List Stmt) (mo : Moment),
    (Host.withTime fun _ => 0).Honest ∧ s.Reachable (Host.withTime fun _ => 0) ["y;"] ∧
    s.Starts "\x7bvar a;a;\x7d" program s' ∧
      Moment.Visits (s'.context (Host.withTime fun _ => 0)) ⟨8, .program program, s'.machine⟩ mo ∧
      mo.reference? = some ⟨false, 1, ⟨.identifier, "a", 1⟩⟩ ∧ s'.distances[1]? = some 0 ∧
      ∃ g, mo.machine.frames.ancestor? 0 mo.machine.current = some g ∧ g ≠ Frames.globals ∧
        (mo.machine.frames.here? g "a").isSome := by
  let a : Token := ⟨.identifier, "a", 1⟩
  let program : List Stmt := [.block [.var a none, .expression (.var 1 a)]]
  have hhonest := Host.withTime_honest fun _ => 0
  have hreach := (@Reachable.new (Host.withTime fun _ => 0) .unlimited).run 8 "y;"
  generalize (Session.run (Host.withTime fun _ => 0) 8 "y;" (.new .unlimited)).session = s at hreach
  have hid : s.nextId = 1 := hreach.nextId_eq.trans (by decide +kernel)
  have hstarts : s.Starts "\x7bvar a;a;\x7d" program _ :=
    starts_of_tokens 1 [.ofMark .leftBrace 1, .ofKeyword .var 1, a, .ofMark .semicolon 1, a, .ofMark .semicolon 1,
      .ofMark .rightBrace 1, .atEnd 1] hid (by decide +kernel) (by cbv) (by decide +kernel)
  generalize addDistances { s with nextId := 2 } (resolve program).distances = s' at hstarts
  have hd : s'.distances[1]? = some 0 := by
    rw [hstarts.distances_eq]
    have hone : (resolve program).distances[1]? = some 0 :=
      Resolve.distances_resolve (by decide) ⟨[⟨["a"], none, ["a"]⟩], ⟨false, 1, a⟩⟩ (List.mem_singleton_self _)
    rw [hone, Option.some_or]
  have hv := Moment.Visits.enter (c := s'.context (Host.withTime fun _ => 0))
    (a := ⟨8, .program program, s'.machine⟩) Moment.Enters.begin
    (.enter .block (.enter (.stmts rfl) (.enter .stmt (.enter .expression .here))))
  obtain ⟨g, hg, hne, hread, -⟩ := reference_at_distance hhonest hreach hstarts hv rfl hd
  exact ⟨s, _, program, _, hhonest, hreach, hstarts, hv, rfl, hd, g, hg, hne, (hread rfl).1⟩

end Lox.Session
