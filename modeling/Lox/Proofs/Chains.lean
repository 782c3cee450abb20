import Lox.Proofs.Frames
import Lox.Proofs.Scopes

/-! # Chains of frames

While a statement is evaluated, each region around it has a frame: the innermost region has the current
frame, and every frame stands inside the one of the next region, the last inside the globals
(`Frames.Chain`). The frame of a region binds at least what the region has declared so far, and no frame
of a region ever binds a name that the region does not declare at all. Which names these are is fixed
when the frame is made; no frame records it, so chains are seen together with a roster. -/

namespace Lox

/-- For each frame, the names that its region declares. -/
abbrev Roster := FrameId → List String

/-- The roster of all frames so far, and one for the next frame. -/
def Roster.add (roster : Roster) (fs : Frames) (names : List String) : Roster :=
  fun f => if f = fs.next then names else roster f

/-- Both rosters say the same about the frames that there are. -/
def Roster.Agrees (roster roster' : Roster) (fs : Frames) : Prop := ∀ f, f < fs.next → roster' f = roster f

namespace Frames

/-- From `f` outward stand the frames of these regions and then the globals. -/
def Chain (fs : Frames) (roster : Roster) : FrameId → List Region → Prop
  | f, [] => f = globals
  | f, r :: outer =>
    roster f = r.names ∧ (∀ name ∈ r.declared, (fs.here? f name).isSome) ∧
      ∃ g, fs.enclosing? f = some g ∧ fs.Chain roster g outer

namespace Chain
variable {fs fs' : Frames} {roster roster' : Roster} {f : FrameId} {rs : List Region}

/-- Later frames have the chain too. -/
theorem later (hgrow : fs.Grows fs') (hroster : roster.Agrees roster' fs) :
    ∀ {rs : List Region} {f : FrameId}, fs.Chain roster f rs → fs'.Chain roster' f rs
  | [], _, h => h
  | _ :: _, f, ⟨hnames, hdeclared, g, hg, houter⟩ =>
    ⟨(hroster f (lt_next_of_enclosing? hg)).trans hnames, fun name hn => hgrow.names f name (hdeclared name hn), g,
      hgrow.enclosing_some hg, later hgrow hroster houter⟩

theorem lt_next (h0 : globals < fs.next) : ∀ {rs : List Region} {f : FrameId}, fs.Chain roster f rs → f < fs.next
  | [], _, h => by
    cases h
    exact h0
  | _ :: _, _, ⟨_, _, _, hg, _⟩ => lt_next_of_enclosing? hg

/-- What a region declares next is bound in its frame when the declaration has been executed. -/
theorem declare {names : List String} (h : fs.Chain roster f rs)
    (hnames : rs ≠ [] → ∀ n ∈ names, (fs.here? f n).isSome) :
    fs.Chain roster f (Region.declare names rs) := by
  cases rs with
  | nil => exact h
  | cons r outer =>
    refine ⟨h.1, ?_, h.2.2⟩
    intro name hn
    rcases List.mem_append.mp hn with hn | hn
    · exact h.2.1 name hn
    · exact hnames (List.cons_ne_nil r outer) name hn

/-- Whether the place is in an initializer makes no difference to the frames. -/
theorem openVar (h : fs.Chain roster f rs) (name : String) : fs.Chain roster f (Region.openVar name rs) := by
  cases rs with
  | nil => exact h
  | cons r outer => exact h

/-- A new frame inside the first one. -/
theorem push {frame : Frame} {r : Region} (h : fs.Chain roster f rs)
    (hencl : frame.enclosing = some f) (hdeclared : ∀ name ∈ r.declared, (frame.get? name).isSome) :
    (fs.push frame).Chain (roster.add fs r.names) fs.next (r :: rs) := by
  refine ⟨if_pos rfl, ?_, f, ?_, ?_⟩
  · intro name hn
    rw [here?_push, if_pos rfl]
    exact hdeclared name hn
  · rw [enclosing?_push, if_pos rfl, hencl]
  · exact h.later .push fun g hg => if_neg (Nat.ne_of_lt hg)

/-- The frame at the distance of a region is the frame of the region, and it is not the globals. -/
theorem ancestor? (h0 : fs.enclosing? globals = .none) : ∀ {rs : List Region} {f : FrameId} {distance : Nat}
    {r : Region}, fs.Chain roster f rs → rs[distance]? = some r →
      ∃ g, fs.ancestor? distance f = some g ∧ g ≠ globals ∧ roster g = r.names ∧
        ∀ name ∈ r.declared, (fs.here? g name).isSome
  | r :: _, f, 0, _, ⟨hnames, hdeclared, g, hg, _⟩, hr => by
    cases hr
    refine ⟨f, rfl, ?_, hnames, hdeclared⟩
    intro hf
    rw [hf, h0] at hg
    cases hg
  | _ :: outer, f, distance + 1, r, ⟨_, _, g, hg, houter⟩, hr => by
    obtain ⟨g', hg', hrest⟩ := ancestor? h0 houter hr
    refine ⟨g', ?_, hrest⟩
    rw [Frames.ancestor?, hg]
    exact hg'

end Chain
end Frames
end Lox
