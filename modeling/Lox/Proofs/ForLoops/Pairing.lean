import Lox.Proofs.ForLoops.Trees
import Lox.Proofs.Renaming.Machines

/-! # Frames of two runs

The frames of what the parser makes of a `for` statement and those of the loop itself are the same up to their
identities, but for the frames of the rounds, which are there in the first run only and bind nothing
(`Pairing.Matches`). From two frames that stand for each other, the distances that skip such a frame and those of
the loop lead to frames that stand for each other again (`Pairing.Leads`). So references find matching values, and
assignments change matching bindings. -/

namespace Lox

/-- The frames of two runs, and which frame of the first stands for each frame of the second. -/
structure Pairing where
  left : Frames
  right : Frames
  frame : FrameId → FrameId

/-- From both frames the same distances lead to frames that stand for each other, when those on the left skip an
    extra frame. -/
structure Pairing.Leads (q : Pairing) (extra : Option Nat) (f f' : FrameId) : Prop where
  left : f < q.left.next
  right : f' < q.right.next
  ancestor : ∀ d, q.left.ancestor? (skip extra d) f = (q.right.ancestor? d f').map q.frame

/-- The same function up to the identity of its frame, and up to the distances in its declaration, which lead
    from there to frames that stand for each other. -/
structure Closure.Matches (tables : Tables) (q : Pairing) (c c' : Closure) : Prop where
  identity : c'.identity = c.identity
  declared : ∃ extra, q.Leads extra c.frame c'.frame ∧ Stmt.Skips tables extra
    (.function c.decl.name c.decl.parameters c.decl.body) (.function c'.decl.name c'.decl.parameters c'.decl.body)

namespace Pairing

/-- The same value up to the identity of frames. -/
abbrev Same (tables : Tables) (q : Pairing) : Value → Value → Prop :=
  Value.Through (Closure.Matches tables q)

/-- The same ending of a statement up to the identity of frames. -/
abbrev Ended (tables : Tables) (q : Pairing) : Flow → Flow → Prop := Flow.Through (Closure.Matches tables q)

/-- Every frame of the second run has one that stands for it in the first, and that binds the same names to the
    same values. All other frames of the first run bind nothing. -/
structure Matches (tables : Tables) (q : Pairing) : Prop where
  exist : Frames.globals < q.right.next
  globals : q.frame Frames.globals = Frames.globals
  frame_lt : ∀ f, f < q.right.next → q.frame f < q.left.next
  injective : ∀ f g, f < q.right.next → g < q.right.next → q.frame f = q.frame g → f = g
  here : ∀ f, f < q.right.next → ∀ n,
    Option.Rel (q.Same tables) (q.left.here? (q.frame f) n) (q.right.here? f n)
  bare : ∀ g, (∀ f, f < q.right.next → q.frame f ≠ g) → ∀ n, q.left.here? g n = none
  inward : ∀ f g, q.left.enclosing? f = some g → g < f
  inward_right : ∀ f g, q.right.enclosing? f = some g → g < f
  outermost : q.left.enclosing? Frames.globals = none
  outermost_right : q.right.enclosing? Frames.globals = none

/-- Frames have been added, and those that were there still stand for each other. -/
structure Later (q q' : Pairing) : Prop where
  left : q.left.Grows q'.left
  right : q.right.Grows q'.right
  frame : ∀ f, f < q.right.next → q'.frame f = q.frame f

end Pairing

section
variable {tables : Tables} {q q' q'' : Pairing} {extra : Option Nat} {f f' g g' : FrameId} {n : String}
  {v v' : Value} {c c' : Closure}

theorem Closure.Matches.indistinct (h : c.Matches tables q c') : c.Indistinct c' := by
  obtain ⟨extra, -, hskips⟩ := h.declared
  obtain ⟨_, ⟨name, parameters, body⟩, _⟩ := c
  obtain ⟨_, ⟨name', parameters', body'⟩, _⟩ := c'
  cases hskips
  exact ⟨h.identity, rfl, rfl⟩

namespace Pairing

theorem Same.indistinct (h : q.Same tables v v') : v.Indistinct v' := h.mono Closure.Matches.indistinct

/-! ### Later frames -/

theorem Later.refl (q : Pairing) : q.Later q := ⟨.refl _, .refl _, fun _ _ => rfl⟩

theorem Later.trans (h : q.Later q') (h' : q'.Later q'') : q.Later q'' where
  left := h.left.trans h'.left
  right := h.right.trans h'.right
  frame f hf := (h'.frame f (Nat.lt_of_lt_of_le hf h.right.next)).trans (h.frame f hf)

section
variable (h : q.Matches tables) (hlater : q.Later q')
include h hlater

theorem Leads.later (hleads : q.Leads extra f f') : q'.Leads extra f f' where
  left := Nat.lt_of_lt_of_le hleads.left hlater.left.next
  right := Nat.lt_of_lt_of_le hleads.right hlater.right.next
  ancestor d := by
    rw [hlater.left.ancestor?_eq h.inward hleads.left, hlater.right.ancestor?_eq h.inward_right hleads.right,
      hleads.ancestor d]
    cases hg : q.right.ancestor? d f' with
    | none => rfl
    | some g =>
      have hlt := Nat.lt_of_le_of_lt (Frames.ancestor?_le h.inward_right hg) hleads.right
      exact congrArg some (hlater.frame g hlt).symm

theorem Same.later (hv : q.Same tables v v') : q'.Same tables v v' :=
  hv.mono fun hc =>
    let ⟨extra, hleads, hskips⟩ := hc.declared
    ⟨hc.identity, extra, hleads.later h hlater, hskips⟩

theorem Same.later_option {v v' : Option Value} (hv : Option.Rel (q.Same tables) v v') :
    Option.Rel (q'.Same tables) v v' := by
  cases hv with
  | some hv => exact .some (Same.later h hlater hv)
  | none => exact .none

end

/-! ### Looking names up -/

/-- Where the extra frame is not the innermost one, the two frames stand for each other. -/
theorem Leads.frame_eq (hleads : q.Leads extra f f') (hextra : extra ≠ some 0) : q.frame f' = f := by
  have hzero := hleads.ancestor 0
  rw [skip_zero hextra] at hzero
  exact (Option.some.inj hzero).symm

theorem Matches.exist_left (h : q.Matches tables) : Frames.globals < q.left.next :=
  h.globals ▸ h.frame_lt _ h.exist

section
variable (h : q.Matches tables) (hleads : q.Leads extra f f') {id id' : ExprId}
  (hid : tables.left[id]? = (tables.right[id']?).map (skip extra))
include h hleads

/-- A reference is looked up in frames that stand for each other. -/
theorem Matches.target?_eq (hid : tables.left[id]? = (tables.right[id']?).map (skip extra)) :
    Pair.target? tables.left q.left f id = (Pair.target? tables.right q.right f' id').map q.frame := by
  unfold Pair.target?
  rw [hid]
  cases tables.right[id']? with
  | none => exact congrArg some h.globals.symm
  | some distance => exact hleads.ancestor distance

theorem Matches.target?_lt (hg : Pair.target? tables.right q.right f' id' = some g) : g < q.right.next := by
  unfold Pair.target? at hg
  split at hg
  · exact Nat.lt_of_le_of_lt (Frames.ancestor?_le h.inward_right hg) hleads.right
  · cases hg
    exact h.exist

include hid

/-- What a reference stands for in the two runs. -/
theorem Matches.get?_rel (n : String) : Option.Rel (q.Same tables)
    ((Access.resolved tables.left).get? q.left f id n) ((Access.resolved tables.right).get? q.right f' id' n) := by
  rw [Pair.get?_eq_target h.outermost h.exist_left, Pair.get?_eq_target h.outermost_right h.exist,
    h.target?_eq hleads hid]
  cases hg : Pair.target? tables.right q.right f' id' with
  | none => exact .none
  | some g => exact h.here g (h.target?_lt hleads hg) n

/-- An assignment fails in both runs, or changes the bindings in frames that stand for each other. -/
theorem Matches.assign?_cases (n : String) (v v' : Value) :
    ((Access.resolved tables.left).assign? q.left f id n v = none ∧
      (Access.resolved tables.right).assign? q.right f' id' n v' = none) ∨
    ∃ g, g < q.right.next ∧
      (Access.resolved tables.left).assign? q.left f id n v = some (q.left.define (q.frame g) n v) ∧
      (Access.resolved tables.right).assign? q.right f' id' n v' = some (q.right.define g n v') := by
  rw [Pair.assign?_eq_target h.outermost h.exist_left, Pair.assign?_eq_target h.outermost_right h.exist,
    h.target?_eq hleads hid]
  cases hg : Pair.target? tables.right q.right f' id' with
  | none => exact .inl ⟨rfl, rfl⟩
  | some g =>
    have hlt := h.target?_lt hleads hg
    have hbound : (q.left.here? (q.frame g) n).isSome = (q.right.here? g n).isSome := by
      generalize q.left.here? (q.frame g) n = u, q.right.here? g n = u', h.here g hlt n = hrel
      cases hrel <;> rfl
    rw [Option.map_some, Option.bind_some, Option.bind_some, hbound]
    split
    · exact .inr ⟨g, hlt, rfl, rfl⟩
    · exact .inl ⟨rfl, rfl⟩

end

/-! ### Changing a binding -/

/-- A binding in frames that stand for each other. -/
def define (q : Pairing) (g : FrameId) (n : String) (v v' : Value) : Pairing :=
  ⟨q.left.define (q.frame g) n v, q.right.define g n v', q.frame⟩

theorem later_define (q : Pairing) (g : FrameId) (n : String) (v v' : Value) : q.Later (q.define g n v v') :=
  ⟨.define, .define, fun _ _ => rfl⟩

theorem Matches.define (h : q.Matches tables) (hg : g < q.right.next)
    (hv : q.Same tables v v') : (q.define g n v v').Matches tables where
  exist := Nat.lt_of_lt_of_eq h.exist Frames.next_define.symm
  globals := h.globals
  frame_lt f hf := Nat.lt_of_lt_of_eq (h.frame_lt f (Nat.lt_of_lt_of_eq hf Frames.next_define)) Frames.next_define.symm
  injective f g hf hg :=
    h.injective f g (Nat.lt_of_lt_of_eq hf Frames.next_define) (Nat.lt_of_lt_of_eq hg Frames.next_define)
  here f hf m := by
    have hf : f < q.right.next := Nat.lt_of_lt_of_eq hf Frames.next_define
    have hlater := q.later_define g n v v'
    have hleft : (q.define g n v v').left.here? (q.frame f) m =
        if q.frame f = q.frame g ∧ m = n ∧ q.frame g < q.left.next then some v else q.left.here? (q.frame f) m :=
      Frames.here?_define
    have hright : (q.define g n v v').right.here? f m =
        if f = g ∧ m = n ∧ g < q.right.next then some v' else q.right.here? f m := Frames.here?_define
    have hsame : (q.frame f = q.frame g ∧ m = n ∧ q.frame g < q.left.next) ↔ (f = g ∧ m = n ∧ g < q.right.next) :=
      ⟨fun hc => ⟨h.injective f g hf hg hc.1, hc.2.1, hg⟩, fun hc => ⟨congrArg q.frame hc.1, hc.2.1, h.frame_lt g hg⟩⟩
    show Option.Rel _ ((q.define g n v v').left.here? (q.frame f) m) _
    rw [hleft, hright]
    by_cases hc : f = g ∧ m = n ∧ g < q.right.next
    · rw [if_pos hc, if_pos (hsame.mpr hc)]
      exact .some (Same.later h hlater hv)
    · rw [if_neg hc, if_neg (hsame.not.mpr hc)]
      exact Same.later_option h hlater (h.here f hf m)
  bare f hf m := by
    have hf : ∀ f', f' < q.right.next → q.frame f' ≠ f := fun f' hf' =>
      hf f' (Nat.lt_of_lt_of_eq hf' Frames.next_define.symm)
    have hne : ¬ (f = q.frame g ∧ m = n ∧ q.frame g < q.left.next) := fun hc => hf g hg hc.1.symm
    exact Frames.here?_define.trans ((if_neg hne).trans (h.bare f hf m))
  inward f f' hf := h.inward f f' (Frames.enclosing?_define.symm.trans hf)
  inward_right f f' hf := h.inward_right f f' (Frames.enclosing?_define.symm.trans hf)
  outermost := Frames.enclosing?_define.trans h.outermost
  outermost_right := Frames.enclosing?_define.trans h.outermost_right

/-! ### New frames -/

/-- A new frame in both runs. -/
def enter (q : Pairing) (frame frame' : Frame) : Pairing :=
  ⟨q.left.push frame, q.right.push frame', fun f => if f = q.right.next then q.left.next else q.frame f⟩

section
variable {frame frame' : Frame}

theorem later_enter (q : Pairing) (frame frame' : Frame) : q.Later (q.enter frame frame') :=
  ⟨.push, .push, fun _ hf => if_neg (Nat.ne_of_lt hf)⟩

theorem enter_frame_next (q : Pairing) (frame frame' : Frame) :
    (q.enter frame frame').frame q.right.next = q.left.next :=
  if_pos rfl

/-- The frames of a block or a call that bind the same names to the same values, inside frames from which the
    same distances lead to frames that stand for each other. -/
structure Twins (tables : Tables) (q : Pairing) (extra : Option Nat) (frame frame' : Frame) : Prop where
  enclosing : ∃ f f', frame.enclosing = some f ∧ frame'.enclosing = some f' ∧ q.Leads extra f f'
  values : ∀ n, Option.Rel (q.Same tables) (frame.get? n) (frame'.get? n)

theorem Leads.twins (hleads : q.Leads extra f f') :
    q.Twins tables extra (.empty (some f)) (.empty (some f')) :=
  ⟨⟨f, f', rfl, rfl, hleads⟩, fun _ => .none⟩

theorem Twins.define (h : q.Twins tables extra frame frame') (n : String)
    (hv : q.Same tables v v') :
    q.Twins tables extra (frame.define n v) (frame'.define n v') where
  enclosing := h.enclosing
  values m := by
    rw [Frame.get?_define, Frame.get?_define]
    split
    · exact .some hv
    · exact h.values m

/-- The frames of a call of matching functions. -/
theorem Leads.twins_callFrame (hleads : q.Leads extra c.frame c'.frame)
    (hparameters : c'.decl.parameters = c.decl.parameters) {arguments arguments' : List Value}
    (hargs : List.Forall₂ (q.Same tables) arguments arguments') :
    q.Twins tables extra (c.callFrame arguments) (c'.callFrame arguments') := by
  have hfold : ∀ (ts : List Token) {vs vs' : List Value} {frame frame' : Frame},
      List.Forall₂ (q.Same tables) vs vs' → q.Twins tables extra frame frame' →
        q.Twins tables extra ((ts.zip vs).foldl (fun frame p => frame.define p.1.lexeme p.2) frame)
          ((ts.zip vs').foldl (fun frame p => frame.define p.1.lexeme p.2) frame') := by
    intro ts
    induction ts with
    | nil => exact fun _ h => h
    | cons t ts ih =>
      intro vs vs' frame frame' hvs h
      cases hvs with
      | nil => exact h
      | cons hv hvs => exact ih hvs (h.define t.lexeme hv)
  rw [Closure.callFrame_eq, Closure.callFrame_eq, hparameters]
  exact hfold _ hargs hleads.twins

theorem Matches.enter (h : q.Matches tables) (htwins : q.Twins tables extra frame frame') :
    (q.enter frame frame').Matches tables := by
  obtain ⟨⟨e, e', he, he', hleads⟩, hvalues⟩ := htwins
  have hlater := q.later_enter frame frame'
  have hcases : ∀ f, f < (q.right.push frame').next → f = q.right.next ∨ f < q.right.next := fun f hf =>
    (Nat.lt_succ_iff_lt_or_eq.mp (Nat.lt_of_lt_of_eq hf Frames.next_push)).symm
  have hold : ∀ f, f < q.right.next → (q.enter frame frame').frame f = q.frame f := hlater.frame
  have hne : ∀ f, f < q.right.next → q.frame f ≠ q.left.next := fun f hf => Nat.ne_of_lt (h.frame_lt f hf)
  refine
    { exist := Nat.lt_of_lt_of_le h.exist hlater.right.next
      globals := (hold _ h.exist).trans h.globals
      frame_lt := ?_
      injective := ?_
      here := ?_
      bare := ?_
      inward := ?_
      inward_right := ?_
      outermost := (hlater.left.enclosing _ h.exist_left).trans h.outermost
      outermost_right := (hlater.right.enclosing _ h.exist).trans h.outermost_right }
  · intro f hf
    have hnext : (q.enter frame frame').left.next = q.left.next + 1 := Frames.next_push
    rcases hcases f hf with rfl | hf
    · rw [enter_frame_next, hnext]
      exact Nat.lt_succ_self _
    · rw [hold f hf, hnext]
      exact Nat.lt_succ_of_lt (h.frame_lt f hf)
  · intro f g hf hg hfg
    rcases hcases f hf with rfl | hf <;> rcases hcases g hg with rfl | hg
    · rfl
    · rw [enter_frame_next, hold g hg] at hfg
      exact absurd hfg.symm (hne g hg)
    · rw [enter_frame_next, hold f hf] at hfg
      exact absurd hfg (hne f hf)
    · rw [hold f hf, hold g hg] at hfg
      exact h.injective f g hf hg hfg
  · intro f hf n
    have hleft : ∀ f, (q.enter frame frame').left.here? f n =
        if f = q.left.next then frame.get? n else q.left.here? f n :=
      fun _ => Frames.here?_push
    have hright : (q.enter frame frame').right.here? f n =
        if f = q.right.next then frame'.get? n else q.right.here? f n :=
      Frames.here?_push
    rw [hleft, hright]
    rcases hcases f hf with rfl | hf
    · rw [enter_frame_next, if_pos rfl, if_pos rfl]
      exact Same.later_option h hlater (hvalues n)
    · rw [hold f hf, if_neg (hne f hf), if_neg (Nat.ne_of_lt hf)]
      exact Same.later_option h hlater (h.here f hf n)
  · intro f hf n
    have hlast : q.right.next < (q.right.push frame').next :=
      Nat.lt_of_lt_of_eq (Nat.lt_succ_self _) Frames.next_push.symm
    have hnext : f ≠ q.left.next := fun hc => hf q.right.next hlast ((enter_frame_next q frame frame').trans hc.symm)
    have hbare := h.bare f (fun g hg hc => hf g (Nat.lt_trans hg hlast) ((hold g hg).trans hc)) n
    exact Frames.here?_push.trans ((if_neg hnext).trans hbare)
  · intro f g hg
    have hg := Frames.enclosing?_push.symm.trans hg
    split at hg
    · rename_i hf
      cases he.symm.trans hg
      exact hf ▸ hleads.left
    · exact h.inward f g hg
  · intro f g hg
    have hg := Frames.enclosing?_push.symm.trans hg
    split at hg
    · rename_i hf
      cases he'.symm.trans hg
      exact hf ▸ hleads.right
    · exact h.inward_right f g hg

/-- Seen from the new frames, the extra one stands one link further outward. -/
theorem Matches.leads_enter (h : q.Matches tables)
    (htwins : q.Twins tables extra frame frame') :
    (q.enter frame frame').Leads (inside extra) q.left.next q.right.next := by
  obtain ⟨⟨e, e', he, he', hleads⟩, -⟩ := htwins
  have hlater := q.later_enter frame frame'
  refine ⟨Nat.lt_of_lt_of_eq (Nat.lt_succ_self _) Frames.next_push.symm,
    Nat.lt_of_lt_of_eq (Nat.lt_succ_self _) Frames.next_push.symm, fun d => ?_⟩
  cases d with
  | zero =>
    rw [skip_inside_zero]
    exact congrArg some (enter_frame_next q frame frame').symm
  | succ d =>
    have hself : (q.enter frame frame').left.enclosing? q.left.next = some e :=
      Frames.enclosing?_push.trans ((if_pos rfl).trans he)
    have hself' : (q.enter frame frame').right.enclosing? q.right.next = some e' :=
      Frames.enclosing?_push.trans ((if_pos rfl).trans he')
    rw [skip_inside_succ, Frames.ancestor?, Frames.ancestor?, hself, hself']
    exact (hleads.later h hlater).ancestor d

end

/-- A new frame in the first run only, for a round of its loop. -/
def enterRound (q : Pairing) (outer : FrameId) : Pairing := ⟨q.left.push (.empty (some outer)), q.right, q.frame⟩

theorem later_enterRound (q : Pairing) (outer : FrameId) : q.Later (q.enterRound outer) :=
  ⟨.push, .refl _, fun _ _ => rfl⟩

theorem Matches.enterRound (h : q.Matches tables) (houter : f < q.left.next) :
    (q.enterRound f).Matches tables where
  exist := h.exist
  globals := h.globals
  frame_lt g hg := Nat.lt_of_lt_of_le (h.frame_lt g hg) (q.later_enterRound f).left.next
  injective := h.injective
  here g hg n := by
    have hold : (q.enterRound f).left.here? (q.frame g) n = q.left.here? (q.frame g) n :=
      Frames.here?_push.trans (if_neg (Nat.ne_of_lt (h.frame_lt g hg)))
    show Option.Rel _ ((q.enterRound f).left.here? (q.frame g) n) _
    rw [hold]
    exact Same.later_option h (q.later_enterRound f) (h.here g hg n)
  bare g hg n := by
    have hpush : (q.enterRound f).left.here? g n = if g = q.left.next then none else q.left.here? g n :=
      Frames.here?_push
    rw [hpush]
    split
    · rfl
    · exact h.bare g hg n
  inward g g' hg := by
    have hg := Frames.enclosing?_push.symm.trans hg
    split at hg
    · rename_i hnext
      cases hg
      exact hnext ▸ houter
    · exact h.inward g g' hg
  inward_right := h.inward_right
  outermost := ((q.later_enterRound f).left.enclosing _ h.exist_left).trans h.outermost
  outermost_right := h.outermost_right

/-- Seen from the frame of a round, that frame is the extra one. -/
theorem Matches.leads_enterRound (h : q.Matches tables) (hleads : q.Leads none f f') :
    (q.enterRound f).Leads (some 0) q.left.next f' where
  left := Nat.lt_of_lt_of_eq (Nat.lt_succ_self _) Frames.next_push.symm
  right := hleads.right
  ancestor d := by
    have hself : (q.enterRound f).left.enclosing? q.left.next = some f := Frames.enclosing?_push.trans (if_pos rfl)
    have hskip : skip (some 0) d = d + 1 := rfl
    rw [hskip, Frames.ancestor?, hself]
    exact (hleads.later h (q.later_enterRound f)).ancestor d

end Pairing
end
end Lox
