import Lox.Value

/-! # Frames

A frame binds names to values and may stand inside another frame. Frames are only ever added, so a
frame is known by its place in the order of creation; the first one holds the globals. A name is
looked up in two ways: outward from a frame, up to the first frame that binds it, or in the frame
that stands a given number of links outward and in no other. -/

namespace Lox

/-- Bindings and the enclosing frame. Of several bindings of a name the first counts. -/
structure Frame where
  enclosing : Option FrameId
  bindings : List (String × Value)

namespace Frame

def empty (enclosing : Option FrameId) : Frame := ⟨enclosing, []⟩

def get? (f : Frame) (name : String) : Option Value := f.bindings.lookup name

def binds (f : Frame) (name : String) : Bool := (f.get? name).isSome

/-- Changes the binding of the name, or adds one at the end. -/
def put (name : String) (v : Value) : List (String × Value) → List (String × Value)
  | [] => [(name, v)]
  | (n, old) :: rest => if n == name then (n, v) :: rest else (n, old) :: put name v rest

/-- Binds the name, in place of an earlier binding of it. -/
def define (f : Frame) (name : String) (v : Value) : Frame :=
  { f with bindings := put name v f.bindings }

end Frame

/-- All frames, in the order of creation. -/
structure Frames where
  all : Array Frame

namespace Frames

/-- The frame of the globals. -/
def globals : FrameId := 0

/-- No frame at all. -/
def none : Frames := ⟨#[]⟩

/-- The globals alone, with nothing bound. -/
def initial : Frames := ⟨#[.empty .none]⟩

def frame? (fs : Frames) (f : FrameId) : Option Frame := fs.all[f]?

/-- The identity that the next new frame gets. -/
def next (fs : Frames) : FrameId := fs.all.size

/-- Adds a frame, which is `fs.next`. -/
def push (fs : Frames) (frame : Frame) : Frames := ⟨fs.all.push frame⟩

def enclosing? (fs : Frames) (f : FrameId) : Option FrameId := (fs.frame? f).bind (·.enclosing)

/-- The value of a name in this frame alone. -/
def here? (fs : Frames) (f : FrameId) (name : String) : Option Value :=
  (fs.frame? f).bind (·.get? name)

/-- Binds a name in this frame. -/
def define (fs : Frames) (f : FrameId) (name : String) (v : Value) : Frames :=
  ⟨fs.all.modify f (·.define name v)⟩

/-! ### At a distance -/

/-- The frame that stands so many links outward. -/
def ancestor? (fs : Frames) : Nat → FrameId → Option FrameId
  | 0, f => some f
  | n + 1, f =>
    match fs.enclosing? f with
    | some outer => fs.ancestor? n outer
    | .none => .none

/-- The value of a name in the frame at a distance. -/
def getAt? (fs : Frames) (f : FrameId) (distance : Nat) (name : String) : Option Value :=
  (fs.ancestor? distance f).bind (fs.here? · name)

/-- Changes a binding in the frame at a distance. It has to be there already. -/
def assignAt? (fs : Frames) (f : FrameId) (distance : Nat) (name : String) (v : Value) :
    Option Frames :=
  match fs.ancestor? distance f with
  | some g => if (fs.here? g name).isSome then some (fs.define g name v) else .none
  | .none => .none

/-! ### Outward -/

/-- The first frame from `f` outward that binds the name, looking at `n` frames at most. -/
def holderWithin? (fs : Frames) (name : String) : Nat → FrameId → Option FrameId
  | 0, _ => .none
  | n + 1, f =>
    if (fs.here? f name).isSome then some f
    else
      match fs.enclosing? f with
      | some outer => fs.holderWithin? name n outer
      | .none => .none

/-- The first frame from `f` outward that binds the name. No way outward is longer than there are
    frames. -/
def holder? (fs : Frames) (f : FrameId) (name : String) : Option FrameId :=
  fs.holderWithin? name fs.all.size f

/-- The value of a name, looked up outward. -/
def get? (fs : Frames) (f : FrameId) (name : String) : Option Value :=
  (fs.holder? f name).bind (fs.here? · name)

/-- Changes the binding that looking up outward finds. It makes none. -/
def assign? (fs : Frames) (f : FrameId) (name : String) (v : Value) : Option Frames :=
  (fs.holder? f name).map fun g => fs.define g name v

end Frames
end Lox
