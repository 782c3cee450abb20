import Lox.Proofs.Renaming.Values

/-! # Machines under renaming

A program and the renamed one run side by side in machines that differ in what their frames bind only.
Every frame of the renamed scope binds the new name where its counterpart binds the old one, all other
names are bound as they were, and the values are alike (`Pair.Alike`). The elementary steps of evaluation
keep the machines alike and yield alike values, or they stop for the same reason (`Couples`). -/

namespace Lox

/-- The machines of both runs, of which the second differs in its frames, and which frames are frames of the
    renamed scope. -/
structure Pair where
  left : Machine
  frames : Frames
  marks : Marks

namespace Pair

def right (p : Pair) : Machine := { p.left with frames := p.frames }

/-- What the second run calls a name in this frame. -/
def name (r : Renaming) (p : Pair) (f : FrameId) (n : String) : String := if p.marks f = true then r.name n else n

/-- Values of the two runs are alike. -/
abbrev Same (r : Renaming) (distances : Distances) (p : Pair) : Value → Value → Prop :=
  Value.Alike r distances p.marks p.left.frames

structure Alike (r : Renaming) (distances : Distances) (p : Pair) : Prop where
  next : p.frames.next = p.left.frames.next
  enclosing : ∀ f, p.frames.enclosing? f = p.left.frames.enclosing? f
  here : ∀ f n, (p.marks f = true → n ≠ r.new) →
    Option.Rel (p.Same r distances) (p.left.frames.here? f n) (p.frames.here? f (p.name r f n))
  exist : Frames.globals < p.left.frames.next
  inward : ∀ f g, p.left.frames.enclosing? f = some g → g < f
  outermost : p.left.frames.enclosing? Frames.globals = none
  globals : p.marks Frames.globals = false

/-- The second pair comes after the first, with the same frame current. -/
structure Later (p p' : Pair) : Prop where
  keeps : p.left.Keeps p'.left
  marks : ∀ f, f < p.left.frames.next → p'.marks f = p.marks f

/-- The current frame is at this depth of the renamed scope. -/
structure At (p : Pair) (depth : Option Nat) : Prop where
  exist : p.left.current < p.left.frames.next
  lies : p.marks.Lies p.left.frames p.left.current depth

section
variable {r : Renaming} {distances : Distances} {p p' p'' : Pair} {depth : Option Nat}

theorem Later.refl (p : Pair) : p.Later p := ⟨.of_eq rfl rfl rfl, fun _ _ => rfl⟩

theorem Later.trans (h : p.Later p') (h' : p'.Later p'') : p.Later p'' where
  keeps := h.keeps.trans h'.keeps
  marks f hf := (h'.marks f (Nat.lt_of_lt_of_le hf h.keeps.frames.next)).trans (h.marks f hf)

theorem Later.value (hlater : p.Later p') (h : p.Alike r distances) {v v' : Value} (hv : p.Same r distances v v') :
    p'.Same r distances v v' := hv.later hlater.keeps.frames hlater.marks h.inward

theorem At.later (hat : p.At depth) (h : p.Alike r distances) (hlater : p.Later p') : p'.At depth where
  exist := by
    rw [hlater.keeps.current]
    exact Nat.lt_of_lt_of_le hat.exist hlater.keeps.frames.next
  lies := by
    rw [hlater.keeps.current]
    exact hat.lies.later hlater.keeps.frames hlater.marks h.inward hat.exist

/-- Only the frames of the machines matter. -/
theorem Alike.congr (h : p.Alike r distances) {m : Machine} (hframes : m.frames = p.left.frames) :
    Pair.Alike r distances ⟨m, p.frames, p.marks⟩ := by
  obtain ⟨left, frames, marks⟩ := p
  cases m
  cases left
  cases hframes
  exact ⟨h.next, h.enclosing, h.here, h.exist, h.inward, h.outermost, h.globals⟩

theorem Alike.exist_right (h : p.Alike r distances) : Frames.globals < p.frames.next :=
  Nat.lt_of_lt_of_eq h.exist h.next.symm

theorem Alike.outermost_right (h : p.Alike r distances) : p.frames.enclosing? Frames.globals = none :=
  (h.enclosing Frames.globals).trans h.outermost

theorem At.marks_iff (hat : p.At depth) : p.marks p.left.current = true ↔ depth = some 0 :=
  hat.lies 0 p.left.current rfl

/-! ### Looking names up -/

/-- The frame in which a reference is looked up. -/
def target? (distances : Distances) (fs : Frames) (current : FrameId) (id : ExprId) : Option FrameId :=
  match distances[id]? with
  | some distance => fs.ancestor? distance current
  | none => some Frames.globals

section
variable {fs : Frames} {current : FrameId} {id : ExprId} {n : String} {v : Value}

theorem get?_eq_target (houter : fs.enclosing? Frames.globals = none) (hexist : Frames.globals < fs.next) :
    (Access.resolved distances).get? fs current id n = (target? distances fs current id).bind (fs.here? · n) := by
  simp only [Access.get?, target?]
  cases distances[id]? with
  | some distance => rfl
  | none => exact Frames.get?_globals houter hexist

theorem assign?_eq_target (houter : fs.enclosing? Frames.globals = none) (hexist : Frames.globals < fs.next) :
    (Access.resolved distances).assign? fs current id n v = (target? distances fs current id).bind fun g =>
      if (fs.here? g n).isSome then some (fs.define g n v) else none := by
  simp only [Access.assign?, target?]
  cases distances[id]? with
  | some distance =>
    simp only [Frames.assignAt?]
    cases fs.ancestor? distance current <;> rfl
  | none => exact Frames.assign?_globals houter hexist

end

theorem Alike.ancestor?_eq (h : p.Alike r distances) : ∀ (d : Nat) (f : FrameId),
    p.frames.ancestor? d f = p.left.frames.ancestor? d f
  | 0, _ => rfl
  | d + 1, f => by
    rw [Frames.ancestor?, Frames.ancestor?, h.enclosing f]
    cases p.left.frames.enclosing? f with
    | none => rfl
    | some outer => exact h.ancestor?_eq d outer

theorem Alike.target?_eq (h : p.Alike r distances) (id : ExprId) :
    target? distances p.frames p.left.current id = target? distances p.left.frames p.left.current id := by
  unfold target?
  cases distances[id]? with
  | none => rfl
  | some distance => exact h.ancestor?_eq distance _

/-- A reference is called in the second run what its frame calls its name there. -/
theorem Alike.reference_eq (h : p.Alike r distances) (hat : p.At depth) {ref : Reference}
    (hadmits : r.Admits distances depth [ref]) {g : FrameId}
    (hg : target? distances p.left.frames p.left.current ref.id = some g) :
    (r.reference depth ref.id ref.name).lexeme = p.name r g ref.name.lexeme ∧
      (p.marks g = true → ref.name.lexeme ≠ r.new) := by
  have hmark : p.marks g = true ↔ ∃ k, depth = some k ∧ distances[ref.id]? = some k := by
    unfold target? at hg
    cases hd : distances[ref.id]? with
    | none =>
      rw [hd] at hg
      cases hg
      simp [h.globals]
    | some d =>
      rw [hd] at hg
      rw [hat.lies d g hg]
      simp
  refine ⟨?_, ?_⟩
  · unfold name
    cases depth with
    | none => simp [Renaming.reference, hmark]
    | some k =>
      have hids := (hadmits k rfl ref (List.mem_singleton_self _)).2
      have hiff : p.marks g = true ↔ r.distances[ref.id]? = some k := by
        rw [hmark, ← hids]
        simp
      simp only [Renaming.reference, hiff]
      split <;> rfl
  · intro hm
    obtain ⟨k, hk, -⟩ := hmark.mp hm
    exact (hadmits k hk ref (List.mem_singleton_self _)).1

/-! ### Binding names -/

/-- A name bound in both runs. -/
def define (r : Renaming) (p : Pair) (f : FrameId) (n : String) (v v' : Value) : Pair :=
  ⟨{ p.left with frames := p.left.frames.define f n v }, p.frames.define f (p.name r f n) v', p.marks⟩

theorem later_define (p : Pair) (f : FrameId) (n : String) (v v' : Value) : p.Later (p.define r f n v v') :=
  ⟨⟨rfl, rfl, .define⟩, fun _ _ => rfl⟩

theorem name_eq_iff {f : FrameId} {n m : String} (hn : p.marks f = true → n ≠ r.new)
    (hm : p.marks f = true → m ≠ r.new) :
    p.name r f m = p.name r f n ↔ m = n := by
  unfold name
  split
  · rename_i hf
    exact ⟨Renaming.name_injective (hm hf) (hn hf), fun h => h ▸ rfl⟩
  · exact Iff.rfl

theorem Alike.define (h : p.Alike r distances) {f : FrameId} {n : String} {v v' : Value}
    (hn : p.marks f = true → n ≠ r.new) (hv : p.Same r distances v v') : (p.define r f n v v').Alike r distances where
  next := Frames.next_define.trans (h.next.trans Frames.next_define.symm)
  enclosing g := Frames.enclosing?_define.trans ((h.enclosing g).trans Frames.enclosing?_define.symm)
  here g m hm := by
    have hlater := p.later_define (r := r) f n v v'
    have hleft : (p.define r f n v v').left.frames.here? g m =
        if g = f ∧ m = n ∧ f < p.left.frames.next then some v else p.left.frames.here? g m := Frames.here?_define
    have hright : (p.define r f n v v').frames.here? g ((p.define r f n v v').name r g m) =
        if g = f ∧ p.name r g m = p.name r f n ∧ f < p.frames.next then some v' else p.frames.here? g (p.name r g m) :=
      Frames.here?_define
    have hsame :
        (g = f ∧ p.name r g m = p.name r f n ∧ f < p.frames.next) ↔ (g = f ∧ m = n ∧ f < p.left.frames.next) := by
      rw [h.next]
      refine and_congr_right fun hgf => and_congr_left ?_
      intro _
      subst hgf
      exact name_eq_iff hn hm
    rw [hleft, hright]
    by_cases hc : g = f ∧ m = n ∧ f < p.left.frames.next
    · rw [if_pos hc, if_pos (hsame.mpr hc)]
      exact .some (hlater.value h hv)
    · rw [if_neg hc, if_neg (hsame.not.mpr hc)]
      exact Value.Alike.later_option (h.here g m hm) hlater.keeps.frames hlater.marks h.inward
  exist := Nat.lt_of_lt_of_eq h.exist Frames.next_define.symm
  inward g g' hg := h.inward g g' (Frames.enclosing?_define.symm.trans hg)
  outermost := Frames.enclosing?_define.trans h.outermost
  globals := h.globals

/-! ### References -/

section
variable {ref : Reference}

/-- What a reference stands for in the two runs. -/
theorem Alike.get?_rel (h : p.Alike r distances) (hat : p.At depth) (hadmits : r.Admits distances depth [ref]) :
    Option.Rel (p.Same r distances)
      ((Access.resolved distances).get? p.left.frames p.left.current ref.id ref.name.lexeme)
      ((Access.resolved distances).get? p.frames p.left.current ref.id (r.reference depth ref.id ref.name).lexeme) := by
  rw [get?_eq_target h.outermost h.exist, get?_eq_target h.outermost_right h.exist_right, h.target?_eq]
  cases hg : target? distances p.left.frames p.left.current ref.id with
  | none => exact .none
  | some g =>
    obtain ⟨hname, hnew⟩ := h.reference_eq hat hadmits hg
    rw [hname]
    exact h.here g ref.name.lexeme hnew

/-- An assignment fails in both runs, or changes alike bindings. -/
theorem Alike.assign?_cases (h : p.Alike r distances) (hat : p.At depth) (hadmits : r.Admits distances depth [ref])
    (v v' : Value) :
    ((Access.resolved distances).assign? p.left.frames p.left.current ref.id ref.name.lexeme v = none ∧
      (Access.resolved distances).assign? p.frames p.left.current ref.id (r.reference depth ref.id ref.name).lexeme v' =
        none) ∨
    ∃ g, (p.marks g = true → ref.name.lexeme ≠ r.new) ∧
      (Access.resolved distances).assign? p.left.frames p.left.current ref.id ref.name.lexeme v =
        some (p.define r g ref.name.lexeme v v').left.frames ∧
      (Access.resolved distances).assign? p.frames p.left.current ref.id (r.reference depth ref.id ref.name).lexeme v' =
        some (p.define r g ref.name.lexeme v v').frames := by
  rw [assign?_eq_target h.outermost h.exist, assign?_eq_target h.outermost_right h.exist_right, h.target?_eq]
  cases hg : target? distances p.left.frames p.left.current ref.id with
  | none => exact .inl ⟨rfl, rfl⟩
  | some g =>
    obtain ⟨hname, hnew⟩ := h.reference_eq hat hadmits hg
    have hbound : (p.frames.here? g (p.name r g ref.name.lexeme)).isSome =
        (p.left.frames.here? g ref.name.lexeme).isSome := by
      generalize p.left.frames.here? g ref.name.lexeme = u, p.frames.here? g (p.name r g ref.name.lexeme) = u',
        h.here g ref.name.lexeme hnew = hrel
      cases hrel <;> rfl
    rw [Option.bind_some, Option.bind_some, hname, hbound]
    split
    · exact .inr ⟨g, hnew, rfl, rfl⟩
    · exact .inl ⟨rfl, rfl⟩

end

/-! ### Entering scopes -/

/-- What the second frame binds, for a scope at this depth. -/
def FrameAlike (r : Renaming) (distances : Distances) (p : Pair) (inner : Option Nat) (frame frame' : Frame) : Prop :=
  ∀ n, (inner = some 0 → n ≠ r.new) →
    Option.Rel (p.Same r distances) (frame.get? n) (frame'.get? (if inner = some 0 then r.name n else n))

theorem frameAlike_empty {inner : Option Nat} {outer : Option FrameId} :
    p.FrameAlike r distances inner (.empty outer) (.empty outer) := fun _ _ => .none

theorem FrameAlike.define {inner : Option Nat} {frame frame' : Frame} {t : Token} {v v' : Value}
    (h : p.FrameAlike r distances inner frame frame') (ht : inner = some 0 → t.lexeme ≠ r.new)
    (hv : p.Same r distances v v') :
    p.FrameAlike r distances inner (frame.define t.lexeme v) (frame'.define (r.declared inner t).lexeme v') := by
  intro n hn
  have hsame : (if inner = some 0 then r.name n else n) = (r.declared inner t).lexeme ↔ n = t.lexeme := by
    unfold Renaming.declared
    split
    · rename_i hinner
      exact ⟨Renaming.name_injective (hn hinner) (ht hinner), fun h => h ▸ rfl⟩
    · exact Iff.rfl
  rw [Frame.get?_define, Frame.get?_define]
  by_cases hc : n = t.lexeme
  · rw [if_pos hc, if_pos (hsame.mpr hc)]
    exact .some hv
  · rw [if_neg hc, if_neg (hsame.not.mpr hc)]
    exact h n hn

/-- The frames of a call of alike functions. -/
theorem frameAlike_callFrame {inner : Option Nat} {c c' : Closure} {arguments arguments' : List Value}
    (hframe : c'.frame = c.frame) (hparameters : c'.decl.parameters = c.decl.parameters.map (r.declared inner))
    (hnew : inner = some 0 → ∀ t ∈ c.decl.parameters, t.lexeme ≠ r.new)
    (hargs : List.Forall₂ (p.Same r distances) arguments arguments') :
    p.FrameAlike r distances inner (c.callFrame arguments) (c'.callFrame arguments') := by
  have hfold : ∀ (ts : List Token) {vs vs' : List Value} {frame frame' : Frame},
      (inner = some 0 → ∀ t ∈ ts, t.lexeme ≠ r.new) → List.Forall₂ (p.Same r distances) vs vs' →
        p.FrameAlike r distances inner frame frame' →
          p.FrameAlike r distances inner ((ts.zip vs).foldl (fun frame q => frame.define q.1.lexeme q.2) frame)
            (((ts.map (r.declared inner)).zip vs').foldl (fun frame q => frame.define q.1.lexeme q.2) frame') := by
    intro ts
    induction ts with
    | nil => exact fun _ _ h => h
    | cons t ts ih =>
      intro vs vs' frame frame' hts hvs h
      cases hvs with
      | nil => exact h
      | cons hv hvs =>
        exact ih (fun hi u hu => hts hi u (List.mem_cons_of_mem _ hu)) hvs
          (h.define (fun hi => hts hi t List.mem_cons_self) hv)
  rw [Closure.callFrame_eq, Closure.callFrame_eq, hparameters, hframe]
  exact hfold _ hnew hargs frameAlike_empty

/-- A new frame in both runs, current, for a scope at this depth. -/
def enter (p : Pair) (inner : Option Nat) (frame frame' : Frame) : Pair where
  left := { p.left with frames := p.left.frames.push frame, current := p.left.frames.next }
  frames := p.frames.push frame'
  marks f := if f = p.left.frames.next then inner = some 0 else p.marks f

section
variable {inner : Option Nat} {frame frame' : Frame} {f g : FrameId}

theorem enter_marks (hf : f < p.left.frames.next) : (p.enter inner frame frame').marks f = p.marks f :=
  if_neg (Nat.ne_of_lt hf)

theorem enter_marks_next : (p.enter inner frame frame').marks p.left.frames.next = decide (inner = some 0) := if_pos rfl

/-- Being inside the new frame ends with the frame of before current again. -/
theorem Later.leave (h : (p.enter inner frame frame').Later p') :
    p.Later ⟨{ p'.left with current := p.left.current }, p'.frames, p'.marks⟩ where
  keeps := ⟨rfl, h.keeps.depth, Frames.Grows.push.trans h.keeps.frames⟩
  marks f hf := (h.marks f (Nat.lt_of_lt_of_le hf Frames.Grows.push.next)).trans (enter_marks hf)

theorem Alike.enter (h : p.Alike r distances) (hg : frame.enclosing = some g) (hg' : frame'.enclosing = some g)
    (hlt : g < p.left.frames.next) (hframe : p.FrameAlike r distances inner frame frame') :
    (p.enter inner frame frame').Alike r distances where
  next := Frames.next_push.trans ((congrArg (· + 1) h.next).trans Frames.next_push.symm)
  enclosing f := by
    unfold Pair.enter
    rw [Frames.enclosing?_push, Frames.enclosing?_push, h.next, h.enclosing, hg, hg']
  here f n hn := by
    have hlift : ∀ {v v' : Option Value}, Option.Rel (p.Same r distances) v v' →
        Option.Rel ((p.enter inner frame frame').Same r distances) v v' := fun hv =>
      Value.Alike.later_option hv Frames.Grows.push (fun _ hf => enter_marks hf) h.inward
    have hleft : (p.enter inner frame frame').left.frames.here? f n =
        if f = p.left.frames.next then frame.get? n else p.left.frames.here? f n := Frames.here?_push
    have hright : ∀ m, (p.enter inner frame frame').frames.here? f m =
        if f = p.left.frames.next then frame'.get? m else p.frames.here? f m := fun m => h.next ▸ Frames.here?_push
    unfold name at *
    rw [hleft, hright]
    by_cases hf : f = p.left.frames.next
    · subst hf
      rw [if_pos rfl, if_pos rfl]
      simp only [enter_marks_next, decide_eq_true_iff] at hn ⊢
      exact hlift (hframe n hn)
    · have hmark : (p.enter inner frame frame').marks f = p.marks f := if_neg hf
      rw [hmark] at hn ⊢
      rw [if_neg hf, if_neg hf]
      exact hlift (h.here f n hn)
  exist := Nat.lt_of_lt_of_le h.exist Frames.Grows.push.next
  inward f g' hf := by
    have hf : (p.left.frames.push frame).enclosing? f = some g' := hf
    rw [Frames.enclosing?_push] at hf
    split at hf
    · rename_i hnext
      rw [hg] at hf
      cases hf
      exact hnext ▸ hlt
    · exact h.inward f g' hf
  outermost := by
    have hpush : (p.left.frames.push frame).enclosing? Frames.globals = p.left.frames.enclosing? Frames.globals :=
      Frames.Grows.push.enclosing Frames.globals h.exist
    exact hpush.trans h.outermost
  globals := (enter_marks h.exist).trans h.globals

/-- The new frame is at the depth of its scope. -/
theorem Alike.at_enter (h : p.Alike r distances) (hg : frame.enclosing = some g) (hlt : g < p.left.frames.next)
    (hlies : p.marks.Lies p.left.frames g depth) (henters : Renaming.Enters depth inner) :
    (p.enter inner frame frame').At inner where
  exist := Nat.lt_of_lt_of_eq (Nat.lt_succ_self _) Frames.next_push.symm
  lies := by
    intro d f hf
    cases d with
    | zero =>
      cases hf
      exact (Bool.eq_iff_iff.mp enter_marks_next).trans decide_eq_true_iff
    | succ d =>
      have hself : (p.left.frames.push frame).enclosing? p.left.frames.next = some g := by
        rw [Frames.enclosing?_push, if_pos rfl, hg]
      have hf : (p.left.frames.push frame).ancestor? (d + 1) p.left.frames.next = some f := hf
      rw [Frames.ancestor?, hself] at hf
      have hf : (p.left.frames.push frame).ancestor? d g = some f := hf
      rw [Frames.Grows.push.ancestor?_eq h.inward hlt] at hf
      rw [enter_marks (Nat.lt_of_le_of_lt (Frames.ancestor?_le h.inward hf) hlt), hlies d f hf]
      rcases henters with rfl | ⟨rfl, rfl⟩
      · cases depth <;> simp
      · simp

end
end
end Pair
end Lox
