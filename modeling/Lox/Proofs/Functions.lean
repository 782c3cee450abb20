import Lox.Proofs.Evaluation.Origins
import Lox.Proofs.Reachable
import Lox.Proofs.Sessions

/-! # The functions of a session

A session holds the functions of the programs that have been run in it, and what the host has put in or made. So
it keeps to a condition on declarations if these programs and the host do (`Reachable.obeys`). -/

namespace Lox.Session

section
variable {D : FunctionDecl → Prop} {host : Host} {s : Session} {texts : List String} {text : String}

/-- If the source begins to run, the functions that its program declares meet the condition. -/
def Declares (s : Session) (text : String) (D : FunctionDecl → Prop) : Prop :=
  ∀ program s', s.Starts text program s' → ∀ d ∈ Stmt.declsAll program, D d

variable (hD : FunctionDecl.Inherited D) (hhost : host.Obeys D)
include hD hhost

theorem run_obeys (h : s.machine.frames.Obey D) (hdeclares : s.Declares text D) (fuel : Nat) :
    (s.run host fuel text).session.machine.frames.Obey D := by
  by_cases hs : ∃ program s', s.Starts text program s'
  · obtain ⟨program, s', hs⟩ := hs
    have hframes := (@interpretIn_session s' program fuel (s'.context host)).1
    rw [run_of_starts hs, interpret, hframes]
    exact Eval.program_obeys hD hhost fuel (hs.machine_eq ▸ h) (hdeclares program s' hs)
  · rw [run_of_not_starts fun program s' h' => hs ⟨program, s', h'⟩]
    exact h

end

theorem obeys_new {D : FunctionDecl → Prop} (sink : Sink) : (Session.new sink).machine.frames.Obey D := by
  have hnone : Frames.initial.Obey D := by
    intro f name v hv
    rw [Frames.here?_initial] at hv
    cases hv
  exact hnone.define nofun

theorem obeys_register {D : FunctionDecl → Prop} {s : Session} (h : s.machine.frames.Obey D) (key name : String)
    (arity : Nat) : (s.register key name arity).machine.frames.Obey D := h.define nofun

/-- A session keeps to a condition that holds of all functions of programs that may have been run in it. -/
theorem Reachable.obeys {D : FunctionDecl → Prop} {host : Host} {s : Session} {texts : List String}
    (hD : FunctionDecl.Inherited D) (hhost : host.Obeys D) (h : s.Reachable host texts)
    (htexts : ∀ text ∈ texts, ∀ s : Session, s.Declares text D) : s.machine.frames.Obey D := by
  induction h with
  | new sink => exact obeys_new sink
  | register _ key name arity ih => exact obeys_register (ih htexts) key name arity
  | run _ fuel text ih =>
    obtain ⟨htext, htexts⟩ := List.forall_mem_cons.mp htexts
    exact run_obeys hD hhost (ih htexts) (htext _) fuel

end Lox.Session
