import Lox.Proofs.Evaluation.Bindings
import Lox.Proofs.Sessions
import Lox.Proofs.Reachable

/-! # The globals after a run

Evaluation binds names only where they are declared. Therefore a run leaves bound in the globals what was bound
there before, and the names of those declarations on the outermost level of its program that came to their end
(`bound_by_declarations`). -/

namespace Lox

/-- The statement declares the name for the statements behind it. -/
def Stmt.DeclarationOf (s : Stmt) (name : String) : Prop := s.isDeclaration = true ∧ name ∈ s.declares

instance (s : Stmt) (name : String) : Decidable (s.DeclarationOf name) := inferInstanceAs (Decidable (_ ∧ _))

namespace Machine
variable {m m' : Machine} {name : String} {names : List String}

/-- The name is bound in the globals. -/
def BindsGlobal (m : Machine) (name : String) : Prop := (m.frames.here? Frames.globals name).isSome = true

instance (m : Machine) (name : String) : Decidable (m.BindsGlobal name) := inferInstanceAs (Decidable (_ = _))

/-- The globals are current, and they are there. -/
structure Outermost (m : Machine) : Prop where
  current : m.current = Frames.globals
  exist : Frames.globals < m.frames.next

theorem Outermost.later (h : m.Outermost) (hkeeps : m.Keeps m') : m'.Outermost :=
  ⟨hkeeps.current.trans h.current, Nat.lt_of_lt_of_le h.exist hkeeps.frames.next⟩

theorem Binds.global_iff (h : m.Binds names m') (hm : m.Outermost) (hbound : ∀ n ∈ names, m'.BindsGlobal n) :
    m'.BindsGlobal name ↔ m.BindsGlobal name ∨ name ∈ names := by
  constructor
  · intro hname
    exact (h.names Frames.globals name hm.exist hname).imp_right And.right
  · rintro (hname | hname)
    · exact h.keeps.frames.names Frames.globals name hname
    · exact hbound name hname

end Machine

namespace Eval

/-- The statements of a program that come to their end, up to the first one that stops. -/
def completed (c : Context) (n : Nat) : List Stmt → Machine → List Stmt
  | [], _ => []
  | s :: rest, m =>
    match Eval.stmt c n s m with
    | .ok _ m' => s :: completed c n rest m'
    | .error _ _ => []

section
variable {c : Context} {n : Nat} {s : Stmt} {m m' : Machine} {name : String}

/-- A statement on the outermost level that comes to its end has bound what it declares there. -/
theorem stmt_global_iff {flow : Flow} (hm : m.Outermost) (hs : s.Plain) (h : Eval.stmt c n s m = .ok flow m') :
    m'.BindsGlobal name ↔ m.BindsGlobal name ∨ s.DeclarationOf name := by
  have hbinds : m.Binds s.declares m' := final_of_ok h ▸ (binding c n).stmt s m
  cases hdecl : s.isDeclaration with
  | true =>
    have hbound := stmt_bound hdecl (hm.current ▸ hm.exist) h
    rw [hbinds.keeps.current, hm.current] at hbound
    simpa [Stmt.DeclarationOf, hdecl] using hbinds.global_iff hm hbound
  | false =>
    rw [Stmt.declares_eq_nil hdecl hs] at hbinds
    simpa [Stmt.DeclarationOf, hdecl] using hbinds.global_iff hm nofun

/-- One that stops has bound nothing. -/
theorem stopped_global_iff {stop : Stop} (hm : m.Outermost) (hs : s.Plain) (h : Eval.stmt c n s m = .error stop m') :
    m'.BindsGlobal name ↔ m.BindsGlobal name := by
  have hbinds : m.Binds [] m' := by
    cases hdecl : s.isDeclaration with
    | true => exact declaration_binds hdecl h
    | false => exact Stmt.declares_eq_nil hdecl hs ▸ final_of_error h ▸ (binding c n).stmt s m
  simpa using hbinds.global_iff hm nofun

theorem program_global_iff : ∀ {program : List Stmt} {m : Machine}, m.Outermost → Stmt.PlainAll program →
    (((Eval.program c n program).final m).BindsGlobal name ↔
      m.BindsGlobal name ∨ ∃ d ∈ completed c n program m, d.DeclarationOf name)
  | [], m, _, _ => by simp [completed, Eval.program, final_of_ok (x := pure ()) (m := m) rfl]
  | s :: rest, m, hm, hplain => by
    simp only [Stmt.PlainAll] at hplain
    rw [Eval.program, completed]
    cases h : Eval.stmt c n s m with
    | error stop m' =>
      rw [final_bind_of_error h, stopped_global_iff hm hplain.1 h]
      simp
    | ok flow m' =>
      have hlater : m'.Outermost := hm.later (final_of_ok h ▸ ((binding c n).stmt s m).keeps)
      rw [final_bind_of_ok h, program_global_iff hlater hplain.2, stmt_global_iff hm hplain.1 h]
      simp [or_assoc]

end
end Eval

namespace Session
variable {host : Host} {s s' : Session} {texts : List String}

/-- Between runs the machine is at the outermost level. -/
theorem Reachable.outermost (h : s.Reachable host texts) : s.machine.Outermost := by
  induction h with
  | new sink =>
    have hnext : (Session.new sink).machine.frames.next = 1 := Frames.next_define
    exact ⟨rfl, Nat.lt_of_lt_of_eq Nat.zero_lt_one hnext.symm⟩
  | @register _ s _ key name arity ih =>
    exact ⟨ih.current, Nat.lt_of_lt_of_eq ih.exist Frames.next_define.symm⟩
  | @run _ s _ fuel text ih => exact ih.later (run_respects Machine.Keeps.respected fun m => .of_eq rfl rfl rfl)

/-- However evaluation ends, no name is lost; an expression, calls included, and an assignment bind none in a frame
    that was there before, and a statement only what it declares outside its blocks and functions, in the current
    frame. After a run the globals bind what they bound before, and besides the names of those declarations on the
    outermost level of the program that came to their end: nothing if the program was refused. -/
theorem bound_by_declarations :
    (∀ (c : Context) (n : Nat) (m : Machine),
      (∀ e, m.Binds [] ((Eval.expr c n e).final m)) ∧
      (∀ id name v, m.Binds [] ((Eval.assign c id name v).final m)) ∧
      ∀ s, m.Binds s.declares ((Eval.stmt c n s).final m)) ∧
    ∀ (host : Host) (texts : List String) (s : Session), s.Reachable host texts → ∀ (fuel : Nat) (text name : String),
      ((s.run host fuel text).session.machine.BindsGlobal name ↔
        s.machine.BindsGlobal name ∨ ∃ program s', s.Starts text program s' ∧
          ∃ d ∈ Eval.completed (s'.context host) fuel program s'.machine, d.DeclarationOf name) := by
  refine ⟨fun c n m => ⟨fun e => (Eval.binding c n).expr e m, Eval.assign_binds, fun s => (Eval.binding c n).stmt s m⟩,
    fun host texts s h fuel text name => ?_⟩
  by_cases hs : ∃ program s', s.Starts text program s'
  · obtain ⟨program, s', hs⟩ := hs
    have hframes := (@interpretIn_session s' program fuel (s'.context host)).1
    have hiff := @Eval.program_global_iff (s'.context host) fuel name program s'.machine
      (hs.machine_eq ▸ h.outermost) hs.plain
    rw [run_of_starts hs, interpret, Machine.BindsGlobal, hframes, ← hs.machine_eq]
    refine hiff.trans (or_congr_right ⟨fun hd => ⟨program, s', hs, hd⟩, ?_⟩)
    rintro ⟨program', s'', hs', hd⟩
    obtain ⟨rfl, rfl⟩ := hs.unique hs'
    exact hd
  · have hnot : ∀ program s', ¬ s.Starts text program s' := fun program s' h' => hs ⟨program, s', h'⟩
    rw [run_of_not_starts hnot]
    exact ⟨.inl, fun hname => hname.resolve_right fun ⟨program, s', h', _⟩ => hnot program s' h'⟩

/-- Of the names that a program declares, a run binds in the globals those on the outermost level in front of the
    declaration that fails; the name of that one, and what is in blocks and functions, no statement that came to its
    end declares. -/
theorem bound_before_failure : ∃ (text : String) (program : List Stmt) (s' : Session) (run : Run),
    text = "var a; \x7b var b; \x7d fun f(c) \x7b var d; \x7d f(nil); var e = -nil; var g;" ∧
    run = (Session.new .unlimited).run (Host.withTime fun _ => 0) 9 text ∧
    (Session.new .unlimited).Starts text program s' ∧
    run.ending = .status .runtimeError ∧ (∀ name ∈ ["clock", "a", "f"], run.session.machine.BindsGlobal name) ∧
    ∀ name ∈ ["b", "c", "d", "e", "g"], ¬ run.session.machine.BindsGlobal name ∧
      ∀ d ∈ Eval.completed (s'.context (Host.withTime fun _ => 0)) 9 program s'.machine, ¬ d.DeclarationOf name := by
  let text := "var a; \x7b var b; \x7d fun f(c) \x7b var d; \x7d f(nil); var e = -nil; var g;"
  have hs : (Session.new .unlimited).Starts text _ _ := ⟨by decide +kernel, rfl, by decide +kernel, rfl⟩
  have hiff := bound_by_declarations.2 (Host.withTime fun _ => 0) [] (.new .unlimited) (.new .unlimited) 9 text
  refine ⟨text, _, _, _, rfl, rfl, hs, by decide +kernel, fun name hname => ?_, fun name hname => ?_⟩
  · refine (hiff name).mpr (.imp_right (fun hd => ⟨_, _, hs, hd⟩) ?_)
    revert name
    decide +kernel
  · have hnot :
        ¬ ((Session.new .unlimited).run (Host.withTime fun _ => 0) 9 text).session.machine.BindsGlobal name := by
      revert name
      decide +kernel
    exact ⟨hnot, fun d hd hdecl => hnot ((hiff name).mpr (.inr ⟨_, _, hs, d, hd, hdecl⟩))⟩

end Session
end Lox
