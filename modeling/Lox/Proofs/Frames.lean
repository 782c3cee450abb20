import Lox.Frames

/-! # Laws of frames

What binding a name and adding a frame do to the two views of frames that evaluation uses: the value a
frame itself gives a name (`here?`) and the frame it stands inside (`enclosing?`). Frames only ever
grow: no frame loses a name or changes the frame it stands inside (`Grows`). -/

namespace Lox

/-! ### One frame -/

namespace Frame

theorem lookup_cons_eq (n m : String) (v : Value) (rest : List (String × Value)) :
    ((n, v) :: rest).lookup m = if m = n then some v else rest.lookup m := by
  rw [List.lookup_cons]
  by_cases h : m = n
  · simp [h]
  · rw [beq_eq_false_iff_ne.mpr h, if_neg h]

theorem lookup_put (name m : String) (v : Value) :
    ∀ bindings : List (String × Value),
      (put name v bindings).lookup m = if m = name then some v else bindings.lookup m
  | [] => lookup_cons_eq name m v []
  | (n, old) :: rest => by
    by_cases hn : n = name
    · subst hn
      simp only [put, beq_self_eq_true, if_true, lookup_cons_eq]
      split <;> rfl
    · have hput : put name v ((n, old) :: rest) = (n, old) :: put name v rest := by simp [put, hn]
      rw [hput, lookup_cons_eq, lookup_cons_eq, lookup_put name m v rest]
      by_cases hm : m = n
      · subst hm
        simp [hn]
      · simp [hm]

@[simp] theorem get?_define (f : Frame) (name m : String) (v : Value) :
    (f.define name v).get? m = if m = name then some v else f.get? m :=
  lookup_put name m v f.bindings

@[simp] theorem enclosing_define (f : Frame) (name : String) (v : Value) :
    (f.define name v).enclosing = f.enclosing := rfl

@[simp] theorem get?_empty (outer : Option FrameId) (m : String) : (Frame.empty outer).get? m = none := rfl

end Frame

/-! ### All frames -/

namespace Frames
variable {fs : Frames} {f g : FrameId} {name m : String} {v : Value}

@[simp] theorem next_define : (fs.define f name v).next = fs.next := by simp [define, next]

@[simp] theorem next_push {frame : Frame} : (fs.push frame).next = fs.next + 1 := by simp [push, next]

theorem frame?_define :
    (fs.define f name v).frame? g = if f = g then (fs.frame? g).map (·.define name v) else fs.frame? g := by
  simp [define, frame?, Array.getElem?_modify]

theorem frame?_push {frame : Frame} :
    (fs.push frame).frame? g = if g = fs.next then some frame else fs.frame? g := by
  unfold push frame? next
  exact Array.getElem?_push

theorem frame?_isSome_iff : (fs.frame? f).isSome ↔ f < fs.next := by simp [frame?, next]

theorem frame?_of_le (h : fs.next ≤ f) : fs.frame? f = Option.none := by
  simpa [frame?, next] using h

@[simp] theorem enclosing?_define : (fs.define f name v).enclosing? g = fs.enclosing? g := by
  unfold enclosing?
  rw [frame?_define]
  by_cases h : f = g
  · subst h
    cases fs.frame? f <;> simp
  · simp [h]

theorem here?_define : (fs.define f name v).here? g m =
    if g = f ∧ m = name ∧ f < fs.next then some v else fs.here? g m := by
  unfold here?
  rw [frame?_define]
  by_cases h : f = g
  · subst h
    by_cases hf : f < fs.next
    · obtain ⟨frame, hframe⟩ := Option.isSome_iff_exists.mp (frame?_isSome_iff.mpr hf)
      simp [hframe, hf]
    · simp only [frame?_of_le (Nat.le_of_not_lt hf), hf, and_false, if_false, if_true, Option.map_none]
  · simp [h, Ne.symm h]

theorem enclosing?_push {frame : Frame} :
    (fs.push frame).enclosing? g = if g = fs.next then frame.enclosing else fs.enclosing? g := by
  unfold enclosing?
  rw [frame?_push]
  by_cases h : g = fs.next <;> simp [h]

theorem here?_push {frame : Frame} :
    (fs.push frame).here? g m = if g = fs.next then frame.get? m else fs.here? g m := by
  unfold here?
  rw [frame?_push]
  by_cases h : g = fs.next <;> simp [h]

@[simp] theorem enclosing?_initial : initial.enclosing? f = Option.none := by
  cases f <;> rfl

@[simp] theorem here?_initial : initial.here? f name = Option.none := by
  cases f <;> rfl

theorem lt_next_of_enclosing? (h : fs.enclosing? f = some g) : f < fs.next := by
  rw [← frame?_isSome_iff]
  unfold enclosing? at h
  cases hf : fs.frame? f with
  | none => simp [hf] at h
  | some frame => rfl

theorem lt_next_of_here? (h : (fs.here? f name).isSome) : f < fs.next := by
  rw [← frame?_isSome_iff]
  unfold here? at h
  cases hf : fs.frame? f with
  | none => simp [hf] at h
  | some frame => rfl

/-! ### Growth -/

/-- What was in `fs` is still in `fs'`: every frame, inside the same frame as before and with at least
    the same names. -/
structure Grows (fs fs' : Frames) : Prop where
  next : fs.next ≤ fs'.next
  enclosing : ∀ f, f < fs.next → fs'.enclosing? f = fs.enclosing? f
  names : ∀ f name, (fs.here? f name).isSome → (fs'.here? f name).isSome

namespace Grows

theorem refl (fs : Frames) : fs.Grows fs := ⟨Nat.le_refl _, fun _ _ => rfl, fun _ _ h => h⟩

theorem trans {fs' fs'' : Frames} (h : fs.Grows fs') (h' : fs'.Grows fs'') : fs.Grows fs'' where
  next := Nat.le_trans h.next h'.next
  enclosing f hf := (h'.enclosing f (Nat.lt_of_lt_of_le hf h.next)).trans (h.enclosing f hf)
  names f name hn := h'.names f name (h.names f name hn)

theorem define : fs.Grows (fs.define f name v) where
  next := by simp
  enclosing _ _ := enclosing?_define
  names g m h := by
    rw [here?_define]
    split
    · rfl
    · exact h

theorem push {frame : Frame} : fs.Grows (fs.push frame) where
  next := by simp
  enclosing g hg := by rw [enclosing?_push, if_neg (Nat.ne_of_lt hg)]
  names g m h := by rwa [here?_push, if_neg (Nat.ne_of_lt (lt_next_of_here? h))]

theorem enclosing_some {fs' : Frames} (h : fs.Grows fs') (hg : fs.enclosing? f = some g) :
    fs'.enclosing? f = some g :=
  (h.enclosing f (lt_next_of_enclosing? hg)).trans hg

end Grows

/-! ### Changing a binding that is there -/

theorem assignAt?_eq_some {distance : Nat} {fs' : Frames} (h : fs.assignAt? f distance name v = some fs') :
    ∃ g, fs.ancestor? distance f = some g ∧ (fs.here? g name).isSome ∧ fs' = fs.define g name v := by
  unfold assignAt? at h
  cases hg : fs.ancestor? distance f with
  | none => simp [hg] at h
  | some g =>
    by_cases hb : (fs.here? g name).isSome
    · simp only [hg, hb, if_true, Option.some.injEq] at h
      exact ⟨g, rfl, hb, h.symm⟩
    · simp [hg, hb] at h

theorem holderWithin?_binds : ∀ {n : Nat} {f g : FrameId},
    fs.holderWithin? name n f = some g → (fs.here? g name).isSome
  | 0, _, _, h => by simp [holderWithin?] at h
  | n + 1, f, g, h => by
    unfold holderWithin? at h
    by_cases hb : (fs.here? f name).isSome
    · simp only [hb, if_true, Option.some.injEq] at h
      exact h ▸ hb
    · cases ho : fs.enclosing? f with
      | none => simp [hb, ho] at h
      | some outer =>
        simp only [hb, ho] at h
        exact holderWithin?_binds h

theorem assign?_eq_some {fs' : Frames} (h : fs.assign? f name v = some fs') :
    ∃ g, fs.holder? f name = some g ∧ (fs.here? g name).isSome ∧ fs' = fs.define g name v := by
  unfold assign? at h
  cases hg : fs.holder? f name with
  | none => simp [hg] at h
  | some g =>
    simp only [hg, Option.map_some, Option.some.injEq] at h
    exact ⟨g, rfl, holderWithin?_binds hg, h.symm⟩

theorem getAt?_eq_some {distance : Nat} (h : fs.getAt? f distance name = some v) :
    ∃ g, fs.ancestor? distance f = some g ∧ fs.here? g name = some v :=
  Option.bind_eq_some_iff.mp h

theorem get?_eq_some (h : fs.get? f name = some v) : ∃ g, fs.holder? f name = some g ∧ fs.here? g name = some v :=
  Option.bind_eq_some_iff.mp h

/-! ### Looking up globals -/

/-- At the globals the walk outward ends. -/
theorem holderWithin?_globals (houter : fs.enclosing? globals = .none) {n : Nat} :
    fs.holderWithin? name (n + 1) globals = if (fs.here? globals name).isSome then some globals else .none := by
  rw [holderWithin?, houter]

theorem holder?_globals (houter : fs.enclosing? globals = .none) (hexist : globals < fs.next) :
    fs.holder? globals name = if (fs.here? globals name).isSome then some globals else .none := by
  obtain ⟨n, hn⟩ := Nat.exists_eq_succ_of_ne_zero (Nat.ne_of_gt hexist)
  have hsize : fs.all.size = n + 1 := hn
  rw [holder?, hsize]
  exact holderWithin?_globals houter

theorem get?_globals (houter : fs.enclosing? globals = .none) (hexist : globals < fs.next) :
    fs.get? globals name = fs.here? globals name := by
  rw [get?, holder?_globals houter hexist]
  cases hv : fs.here? globals name with
  | none => rfl
  | some u => exact hv

theorem assign?_globals (houter : fs.enclosing? globals = .none) (hexist : globals < fs.next) :
    fs.assign? globals name v = if (fs.here? globals name).isSome then some (fs.define globals name v) else .none := by
  rw [assign?, holder?_globals houter hexist]
  split <;> rfl

/-! ### Walking outward -/

/-- Frames that stand outward are older. -/
theorem ancestor?_le (hinward : ∀ f g, fs.enclosing? f = some g → g < f) : ∀ {d : Nat} {f g : FrameId},
    fs.ancestor? d f = some g → g ≤ f
  | 0, _, _, h => Nat.le_of_eq (Option.some.inj h).symm
  | d + 1, f, g, h => by
    unfold ancestor? at h
    cases ho : fs.enclosing? f with
    | none => simp [ho] at h
    | some outer =>
      rw [ho] at h
      exact Nat.le_trans (ancestor?_le hinward h) (Nat.le_of_lt (hinward f outer ho))

/-- From a frame that was there already the way outward stays the same. -/
theorem Grows.ancestor?_eq {fs' : Frames} (h : fs.Grows fs') (hinward : ∀ f g, fs.enclosing? f = some g → g < f) :
    ∀ {d : Nat} {f : FrameId}, f < fs.next → fs'.ancestor? d f = fs.ancestor? d f
  | 0, _, _ => rfl
  | d + 1, f, hf => by
    rw [ancestor?, ancestor?, h.enclosing f hf]
    cases ho : fs.enclosing? f with
    | none => rfl
    | some outer => exact h.ancestor?_eq hinward (Nat.lt_trans (hinward f outer ho) hf)

end Frames
end Lox
