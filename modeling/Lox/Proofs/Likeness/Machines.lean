import Lox.Proofs.Frames
import Lox.Proofs.Likeness.Values
import Lox.Machine

/-! # Machines of like programs

Machines are like when their frames stand inside one another in the same way and bind the same names to like
values, and all else is the same, but for how often the output was flushed (`Machine.Like`). References that
stand for each other find like values, and assignments to them leave like frames, when the tables give them
the same distances. -/

namespace Lox

/-- Frames that stand in the same place and bind the same names to like values. -/
structure Frame.Like (L : Likeness) (frame frame' : Frame) : Prop where
  enclosing : frame'.enclosing = frame.enclosing
  values : ∀ n, Option.Rel (Value.Like L) (frame.get? n) (frame'.get? n)

structure Frames.Like (L : Likeness) (fs fs' : Frames) : Prop where
  next : fs'.next = fs.next
  enclosing : ∀ f, fs'.enclosing? f = fs.enclosing? f
  here : ∀ f n, Option.Rel (Value.Like L) (fs.here? f n) (fs'.here? f n)

/-- The same output, however often it was flushed. -/
structure Sink.Like (s s' : Sink) : Prop where
  written : s'.written = s.written
  room : s'.room = s.room
  flushFails : s'.flushFails = s.flushFails

structure Machine.Like (L : Likeness) (m m' : Machine) : Prop where
  frames : m.frames.Like L m'.frames
  current : m'.current = m.current
  depth : m'.depth = m.depth
  sink : m.sink.Like m'.sink
  nextIdentity : m'.nextIdentity = m.nextIdentity
  hostCalls : m'.hostCalls = m.hostCalls

/-- References that stand for each other have the same distances. -/
def Likeness.SameDistances (L : Likeness) (distances distances' : Distances) : Prop :=
  ∀ ⦃a a' : ExprId⦄, L.id a a' → distances'[a']? = distances[a]?

section
variable {L L' : Likeness}

/-! ### One frame -/

namespace Frame.Like
variable {frame frame' : Frame}

theorem empty (outer : Option FrameId) : (Frame.empty outer).Like L (.empty outer) := ⟨rfl, fun _ => .none⟩

theorem define (h : frame.Like L frame') (n : String) {v v' : Value} (hv : v.Like L v') :
    (frame.define n v).Like L (frame'.define n v') where
  enclosing := h.enclosing
  values m := by
    rw [Frame.get?_define, Frame.get?_define]
    split
    · exact .some hv
    · exact h.values m

theorem callFrame {c c' : Closure} (h : c.Like L c') {arguments arguments' : List Value}
    (hargs : List.Forall₂ (Value.Like L) arguments arguments') :
    (c.callFrame arguments).Like L (c'.callFrame arguments') := by
  have hfold : ∀ {ps ps' : List Token}, List.Forall₂ L.token ps ps' → ∀ {vs vs' : List Value} {frame frame' : Frame},
      List.Forall₂ (Value.Like L) vs vs' → frame.Like L frame' →
        Frame.Like L ((ps.zip vs).foldl (fun frame q => frame.define q.1.lexeme q.2) frame)
          ((ps'.zip vs').foldl (fun frame q => frame.define q.1.lexeme q.2) frame') := by
    intro ps ps' hps
    induction hps with
    | nil => exact fun _ h => h
    | cons hp _ ih =>
      intro vs vs' frame frame' hvs h
      cases hvs with
      | nil => exact h
      | cons hv hvs =>
        rw [List.zip_cons_cons, List.zip_cons_cons, List.foldl_cons, List.foldl_cons, L.lexeme_eq hp]
        exact ih hvs (h.define _ hv)
  rw [Closure.callFrame_eq, Closure.callFrame_eq, h.frame]
  exact hfold h.decl.parameters hargs (empty _)

end Frame.Like

/-! ### All frames -/

namespace Frames.Like
variable {fs fs' : Frames}

theorem refl (hL : L.Reflexive) (fs : Frames) : fs.Like L fs where
  next := rfl
  enclosing _ := rfl
  here f n := by
    cases fs.here? f n with
    | none => exact .none
    | some v => exact .some (.refl hL v)

theorem mono (htoken : L'.Admits L) (hid : ∀ {a a' : ExprId}, L.id a a' → L'.id a a') (h : fs.Like L fs') :
    fs.Like L' fs' where
  next := h.next
  enclosing := h.enclosing
  here f n := by
    generalize fs.here? f n = v, fs'.here? f n = v', h.here f n = hv
    cases hv with
    | none => exact .none
    | some hv => exact .some (hv.mono htoken hid)

theorem isSome_here? (h : fs.Like L fs') (f : FrameId) (n : String) :
    (fs'.here? f n).isSome = (fs.here? f n).isSome := by
  generalize fs.here? f n = v, fs'.here? f n = v', h.here f n = hv
  cases hv <;> rfl

theorem define (h : fs.Like L fs') (f : FrameId) (n : String) {v v' : Value} (hv : v.Like L v') :
    (fs.define f n v).Like L (fs'.define f n v') where
  next := Frames.next_define.trans (h.next.trans Frames.next_define.symm)
  enclosing g := Frames.enclosing?_define.trans ((h.enclosing g).trans Frames.enclosing?_define.symm)
  here g m := by
    rw [Frames.here?_define, Frames.here?_define, h.next]
    split
    · exact .some hv
    · exact h.here g m

theorem push (h : fs.Like L fs') {frame frame' : Frame} (hframe : frame.Like L frame') :
    (fs.push frame).Like L (fs'.push frame') where
  next := Frames.next_push.trans ((congrArg (· + 1) h.next).trans Frames.next_push.symm)
  enclosing g := by rw [Frames.enclosing?_push, Frames.enclosing?_push, h.next, h.enclosing, hframe.enclosing]
  here g m := by
    rw [Frames.here?_push, Frames.here?_push, h.next]
    split
    · exact hframe.values m
    · exact h.here g m

/-! ### References -/

theorem ancestor?_eq (h : fs.Like L fs') : ∀ (d : Nat) (f : FrameId), fs'.ancestor? d f = fs.ancestor? d f
  | 0, _ => rfl
  | d + 1, f => by
    rw [Frames.ancestor?, Frames.ancestor?, h.enclosing f]
    cases fs.enclosing? f with
    | none => rfl
    | some outer => exact h.ancestor?_eq d outer

theorem holderWithin?_eq (h : fs.Like L fs') (name : String) : ∀ (n : Nat) (f : FrameId),
    fs'.holderWithin? name n f = fs.holderWithin? name n f
  | 0, _ => rfl
  | n + 1, f => by
    rw [Frames.holderWithin?, Frames.holderWithin?, h.enclosing f, h.isSome_here?]
    cases fs.enclosing? f with
    | none => rfl
    | some outer =>
      dsimp only
      rw [h.holderWithin?_eq name n outer]

theorem holder?_eq (h : fs.Like L fs') (f : FrameId) (name : String) : fs'.holder? f name = fs.holder? f name := by
  have hsize : fs'.all.size = fs.all.size := h.next
  rw [Frames.holder?, Frames.holder?, hsize, h.holderWithin?_eq]

/-- Like values are found in the same frame, if one was found. -/
theorem bind_here? (h : fs.Like L fs') (holder : Option FrameId) (name : String) :
    Option.Rel (Value.Like L) (holder.bind (fs.here? · name)) (holder.bind (fs'.here? · name)) := by
  cases holder with
  | none => exact .none
  | some f => exact h.here f name

theorem assignAt? (h : fs.Like L fs') (f : FrameId) (distance : Nat) (name : String) {v v' : Value} (hv : v.Like L v') :
    Option.Rel (Frames.Like L) (fs.assignAt? f distance name v) (fs'.assignAt? f distance name v') := by
  rw [Frames.assignAt?, Frames.assignAt?, h.ancestor?_eq]
  cases fs.ancestor? distance f with
  | none => exact .none
  | some g =>
    dsimp only
    rw [h.isSome_here?]
    split
    · exact .some (h.define g name hv)
    · exact .none

theorem assign? (h : fs.Like L fs') (f : FrameId) (name : String) {v v' : Value} (hv : v.Like L v') :
    Option.Rel (Frames.Like L) (fs.assign? f name v) (fs'.assign? f name v') := by
  rw [Frames.assign?, Frames.assign?, h.holder?_eq]
  cases fs.holder? f name with
  | none => exact .none
  | some g => exact .some (h.define g name hv)

variable {distances distances' : Distances} {id id' : ExprId}

theorem access_get? (h : fs.Like L fs') (hd : L.SameDistances distances distances') (hid : L.id id id')
    (current : FrameId) (name : String) :
    Option.Rel (Value.Like L) ((Access.resolved distances).get? fs current id name)
      ((Access.resolved distances').get? fs' current id' name) := by
  simp only [Access.get?, hd hid]
  cases distances[id]? with
  | some distance =>
    simp only [Frames.getAt?, h.ancestor?_eq]
    exact h.bind_here? _ name
  | none =>
    simp only [Frames.get?, h.holder?_eq]
    exact h.bind_here? _ name

theorem access_assign? (h : fs.Like L fs') (hd : L.SameDistances distances distances') (hid : L.id id id')
    (current : FrameId) (name : String) {v v' : Value} (hv : v.Like L v') :
    Option.Rel (Frames.Like L) ((Access.resolved distances).assign? fs current id name v)
      ((Access.resolved distances').assign? fs' current id' name v') := by
  simp only [Access.assign?, hd hid]
  cases distances[id]? with
  | some distance => exact h.assignAt? current distance name hv
  | none => exact h.assign? Frames.globals name hv

end Frames.Like

/-! ### The output -/

theorem Sink.Like.eq {s s' : Sink} (h : s.Like s') (hflushes : s'.flushes = s.flushes) : s' = s := by
  obtain ⟨written, room, flushFails, flushes⟩ := s
  obtain ⟨rfl, rfl, rfl⟩ := h
  exact congrArg (Sink.mk _ _ _) hflushes

theorem Sink.Like.write {s s' : Sink} (h : s.Like s') (text : String) :
    (s.write text).1.Like (s'.write text).1 ∧ (s'.write text).2 = (s.write text).2 := by
  unfold Sink.write
  rw [h.room]
  cases s.room with
  | none => exact ⟨⟨congrArg (· ++ text.toUTF8) h.written, rfl, h.flushFails⟩, rfl⟩
  | some room =>
    dsimp only
    split
    · exact ⟨⟨congrArg (· ++ text.toUTF8) h.written, rfl, h.flushFails⟩, rfl⟩
    · exact ⟨⟨congrArg (· ++ text.toUTF8.extract 0 room) h.written, rfl, h.flushFails⟩, rfl⟩

/-! ### The machine -/

namespace Machine.Like
variable {m m' : Machine}

theorem refl (hL : L.Reflexive) (m : Machine) : m.Like L m :=
  { frames := .refl hL m.frames
    current := rfl
    depth := rfl
    sink := ⟨rfl, rfl, rfl⟩
    nextIdentity := rfl
    hostCalls := rfl }

theorem mono (htoken : L'.Admits L) (hid : ∀ {a a' : ExprId}, L.id a a' → L'.id a a') (h : m.Like L m') :
    m.Like L' m' := { h with frames := h.frames.mono htoken hid }

/-- New frames in both machines, and both current. -/
theorem enter (h : m.Like L m') {frame frame' : Frame} (hframe : frame.Like L frame') :
    Machine.Like L { m with frames := m.frames.push frame, current := m.frames.next }
      { m' with frames := m'.frames.push frame', current := m'.frames.next } :=
  { h with frames := h.frames.push hframe, current := h.frames.next }

theorem flush (h : m.Like L m') :
    Machine.Like L { m with sink := m.sink.flush.1 } { m' with sink := m'.sink.flush.1 } :=
  { h with sink := ⟨h.sink.written, h.sink.room, h.sink.flushFails⟩ }

theorem flush_left (h : m.Like L m') : Machine.Like L { m with sink := m.sink.flush.1 } m' :=
  { h with sink := ⟨h.sink.written, h.sink.room, h.sink.flushFails⟩ }

end Machine.Like
end
end Lox
