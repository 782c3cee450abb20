import Lox.Proofs.Chains
import Lox.Proofs.Evaluation.Effects

/-! # Sound machines

A machine is sound when each of its functions was made at a place of a known program: the frame it was
made in begins the chain of the regions around that place (`Closure.Sound`). Evaluation at a place keeps
the machine sound, whatever it does and however it ends, and yields sound values (`Preserves`). What is
known about the places is left open, as a property `Q` of the sites in them. -/

namespace Lox

/-! ### Values -/

/-- The function was made inside some regions, and the sites in its body have the property. -/
def Closure.Sound (Q : Site → Prop) (fs : Frames) (roster : Roster) (c : Closure) : Prop :=
  ∃ rs, fs.Chain roster c.frame rs ∧
    (∀ t ∈ Stmt.sitesAll (.ofFunction c.decl.parameters c.decl.body :: rs) c.decl.body, Q t) ∧
    Stmt.PlainAll c.decl.body

def Value.Sound (Q : Site → Prop) (fs : Frames) (roster : Roster) : Value → Prop
  | .function c => c.Sound Q fs roster
  | .nil | .bool _ | .number _ | .string _ | .host _ => True

def Flow.Sound (Q : Site → Prop) (fs : Frames) (roster : Roster) : Flow → Prop
  | .normal => True
  | .returned v => v.Sound Q fs roster

/-- The host makes no functions of the program: it yields only those that it was given. -/
def Host.Honest (host : Host) : Prop :=
  ∀ n key arguments c, host n key arguments = .ok (.function c) → .function c ∈ arguments

/-- A machine, and the names that the regions of its frames declare. -/
structure World where
  machine : Machine
  roster : Roster

namespace World

abbrev frames (w : World) : Frames := w.machine.frames

abbrev current (w : World) : FrameId := w.machine.current

/-- Frames stand inside earlier frames, those of regions bind only names that their regions declare,
    and all values are sound. -/
structure Sound (Q : Site → Prop) (w : World) : Prop where
  exist : Frames.globals < w.frames.next
  outermost : w.frames.enclosing? Frames.globals = none
  inward : ∀ f g, w.frames.enclosing? f = some g → g < f
  names : ∀ f name, f ≠ Frames.globals → (w.frames.here? f name).isSome → name ∈ w.roster f
  values : ∀ f name v, w.frames.here? f name = some v → v.Sound Q w.frames w.roster

/-- The second world comes after the first, with the same frame current. -/
structure Later (w w' : World) : Prop where
  keeps : w.machine.Keeps w'.machine
  roster : w.roster.Agrees w'.roster w.frames

/-- The current frame begins the chain of these regions. -/
def At (w : World) (rs : List Region) : Prop := w.frames.Chain w.roster w.current rs

end World

section
variable {Q : Site → Prop} {w w' w'' : World} {rs : List Region}

theorem Value.Sound.later {fs fs' : Frames} {roster roster' : Roster} {v : Value} (h : v.Sound Q fs roster)
    (hgrow : fs.Grows fs') (hroster : roster.Agrees roster' fs) : v.Sound Q fs' roster' := by
  cases v with
  | function c =>
    obtain ⟨rs, hchain, hrest⟩ := h
    exact ⟨rs, hchain.later hgrow hroster, hrest⟩
  | nil | bool _ | number _ | string _ | host _ => trivial

theorem Value.Sound.imp {fs : Frames} {roster : Roster} {v : Value} {Q' : Site → Prop} (h : v.Sound Q fs roster)
    (hQ : ∀ t, Q t → Q' t) : v.Sound Q' fs roster := by
  cases v with
  | function c =>
    obtain ⟨rs, hchain, hsites, hplain⟩ := h
    exact ⟨rs, hchain, fun t ht => hQ t (hsites t ht), hplain⟩
  | nil | bool _ | number _ | string _ | host _ => trivial

namespace World

theorem Later.refl (w : World) : w.Later w := ⟨.of_eq rfl rfl rfl, fun _ _ => rfl⟩

theorem Later.trans (h : w.Later w') (h' : w'.Later w'') : w.Later w'' where
  keeps := h.keeps.trans h'.keeps
  roster f hf := (h'.roster f (Nat.lt_of_lt_of_le hf h.keeps.frames.next)).trans (h.roster f hf)

theorem At.later (h : w.At rs) (hlater : w.Later w') : w'.At rs := by
  unfold At current
  rw [hlater.keeps.current]
  exact Frames.Chain.later hlater.keeps.frames hlater.roster h

theorem Later.value (hlater : w.Later w') {v : Value} (h : v.Sound Q w.frames w.roster) :
    v.Sound Q w'.frames w'.roster := h.later hlater.keeps.frames hlater.roster

theorem At.lt_next (h : w.At rs) (hs : w.Sound Q) : w.current < w.frames.next := Frames.Chain.lt_next hs.exist h

/-- Only the frames of the machine matter. -/
theorem Sound.congr {m m' : Machine} {roster : Roster} (h : Sound Q ⟨m, roster⟩) (hframes : m'.frames = m.frames) :
    Sound Q ⟨m', roster⟩ := by
  cases m
  cases m'
  cases hframes
  exact ⟨h.exist, h.outermost, h.inward, h.names, h.values⟩

/-- Less may be known of the sites. -/
theorem Sound.imp {Q' : Site → Prop} (h : w.Sound Q) (hQ : ∀ t, Q t → Q' t) : w.Sound Q' :=
  ⟨h.exist, h.outermost, h.inward, h.names, fun f name v hv => (h.values f name v hv).imp hQ⟩

/-! ### Changes of the frames -/

/-- The world with other frames. -/
def withFrames (w : World) (frames : Frames) : World := ⟨{ w.machine with frames }, w.roster⟩

theorem later_define (w : World) (f : FrameId) (name : String) (v : Value) :
    w.Later (w.withFrames (w.frames.define f name v)) :=
  ⟨⟨rfl, rfl, .define⟩, fun _ _ => rfl⟩

/-- Binding a name that the frame may bind. -/
theorem Sound.define {f : FrameId} {name : String} {v : Value} (h : w.Sound Q)
    (hv : v.Sound Q (w.frames.define f name v) w.roster) (hname : f ≠ Frames.globals → name ∈ w.roster f) :
    (w.withFrames (w.frames.define f name v)).Sound Q where
  exist := Nat.lt_of_lt_of_eq h.exist Frames.next_define.symm
  outermost := Frames.enclosing?_define.trans h.outermost
  inward g g' hg := h.inward g g' (Frames.enclosing?_define.symm.trans hg)
  names g m hg hm := by
    have hm : ((w.frames.define f name v).here? g m).isSome := hm
    rw [Frames.here?_define] at hm
    split at hm
    · rename_i hc
      obtain ⟨rfl, rfl, -⟩ := hc
      exact hname hg
    · exact h.names g m hg hm
  values g m u hu := by
    have hu : (w.frames.define f name v).here? g m = some u := hu
    have hlater := w.later_define f name v
    rw [Frames.here?_define] at hu
    split at hu
    · cases hu
      exact hv
    · exact hlater.value (h.values g m u hu)

/-- A new frame inside the current one, current, for a region that declares these names. -/
def enter (w : World) (frame : Frame) (names : List String) : World :=
  ⟨{ w.machine with frames := w.frames.push frame, current := w.frames.next }, w.roster.add w.frames names⟩

theorem agrees_add (w : World) (names : List String) : w.roster.Agrees (w.roster.add w.frames names) w.frames :=
  fun _ hf => if_neg (Nat.ne_of_lt hf)

theorem Sound.enter {frame : Frame} {names : List String} (h : w.Sound Q)
    (hencl : ∀ f ∈ frame.enclosing, f < w.frames.next) (hnames : ∀ m, (frame.get? m).isSome → m ∈ names)
    (hvalues : ∀ m v, frame.get? m = some v → v.Sound Q w.frames w.roster) : (w.enter frame names).Sound Q where
  exist := Nat.lt_of_lt_of_le h.exist Frames.Grows.push.next
  outermost := by
    rw [World.enter, Frames.enclosing?_push, if_neg (Nat.ne_of_lt h.exist)]
    exact h.outermost
  inward f g hg := by
    rw [World.enter, Frames.enclosing?_push] at hg
    split at hg
    · rename_i hf
      exact hf ▸ hencl g hg
    · exact h.inward f g hg
  names f m hf hm := by
    rw [World.enter, Frames.here?_push] at hm
    split at hm
    · rename_i hnext
      have hroster : (w.enter frame names).roster f = names := if_pos hnext
      rw [hroster]
      exact hnames m hm
    · rename_i hnext
      have hroster : (w.enter frame names).roster f = w.roster f := if_neg hnext
      rw [hroster]
      exact h.names f m hf hm
  values f m v hv := by
    rw [World.enter, Frames.here?_push] at hv
    split at hv
    · exact (hvalues m v hv).later .push (w.agrees_add names)
    · exact (h.values f m v hv).later .push (w.agrees_add names)

end World
end

/-! ### Steps -/

namespace Eval

/-- The step leads from a sound world to a later sound one, however it ends, and what it yields has the
    property `P`. -/
def Ensures {α : Type} (Q : Site → Prop) (x : Eval α) (w : World) (P : World → α → Prop) : Prop :=
  ∃ roster, w.Later ⟨x.final w.machine, roster⟩ ∧ World.Sound Q ⟨x.final w.machine, roster⟩ ∧
    ∀ a m, x w.machine = .ok a m → P ⟨m, roster⟩ a

namespace Ensures
variable {α β : Type} {Q : Site → Prop} {w : World} {x : Eval α} {f : α → Eval β} {P : World → α → Prop}
  {R : World → β → Prop}

theorem pure {a : α} (h : w.Sound Q) (ha : P w a) : Ensures Q (pure a) w P :=
  ⟨w.roster, .refl w, h, fun _ _ hok => by cases hok; exact ha⟩

theorem of_error {stop : Stop} (h : w.Sound Q) (hx : x w.machine = .error stop w.machine) : Ensures Q x w P := by
  refine ⟨w.roster, ?_, ?_, ?_⟩
  · rw [final_of_error hx]
    exact .refl w
  · rw [final_of_error hx]
    exact h
  · intro a m hok
    rw [hx] at hok
    cases hok

theorem bind (hx : Ensures Q x w P)
    (hf : ∀ a w', x w.machine = .ok a w'.machine → w.Later w' → w'.Sound Q → P w' a → Ensures Q (f a) w' R) :
    Ensures Q (x >>= f) w R := by
  obtain ⟨roster, hlater, hsound, hP⟩ := hx
  cases h : x w.machine with
  | ok a m' =>
    rw [final_of_ok h] at hlater hsound
    obtain ⟨roster', hlater', hsound', hR⟩ := hf a ⟨m', roster⟩ h hlater hsound (hP a m' h)
    refine ⟨roster', ?_, ?_, fun b m hok => hR b m ?_⟩
    · rw [final_bind_of_ok h]
      exact hlater.trans hlater'
    · rw [final_bind_of_ok h]
      exact hsound'
    · rwa [bind_of_ok h] at hok
  | error stop m' =>
    rw [final_of_error h] at hlater hsound
    refine ⟨roster, ?_, ?_, ?_⟩
    · rw [final_bind_of_error h]
      exact hlater
    · rw [final_bind_of_error h]
      exact hsound
    · intro b m hok
      rw [bind_of_error h] at hok
      cases hok

theorem imp {P' : World → α → Prop} (hx : Ensures Q x w P) (h : ∀ w' a, w.Later w' → P w' a → P' w' a) :
    Ensures Q x w P' := by
  obtain ⟨roster, hlater, hsound, hP⟩ := hx
  refine ⟨roster, hlater, hsound, fun a m hok => h _ a ?_ (hP a m hok)⟩
  rwa [final_of_ok hok] at hlater

/-- A step that ends in a world that is known. -/
theorem of_final {m : Machine} (hx : x.final w.machine = m) (hlater : w.Later ⟨m, w.roster⟩)
    (hsound : World.Sound Q ⟨m, w.roster⟩) (hP : ∀ a, x w.machine = .ok a m → P ⟨m, w.roster⟩ a) : Ensures Q x w P := by
  refine ⟨w.roster, hx ▸ hlater, hx ▸ hsound, ?_⟩
  intro a m' hok
  have hm : m' = m := (final_of_ok hok).symm.trans hx
  subst hm
  exact hP a hok

theorem ofExcept {result : Except RuntimeError α} (h : w.Sound Q) (hP : ∀ a, result = .ok a → P w a) :
    Ensures Q (ofExcept result) w P := by
  cases result with
  | ok a => exact pure h (hP a rfl)
  | error e => exact of_error h rfl

end Ensures

/-! ### The elementary steps -/

section
variable {Q : Site → Prop} {w : World} {c : Context}

/-- What a step yields is sound. -/
def Yields (Q : Site → Prop) (w : World) (v : Value) : Prop := v.Sound Q w.frames w.roster

theorem read_ensures (h : w.Sound Q) (id : ExprId) (name : Token) : Ensures Q (Eval.read c id name) w (Yields Q) := by
  refine .of_final final_read (.refl w) h fun v hok => ?_
  unfold Eval.read at hok
  split at hok
  · rename_i u hu
    cases hok
    obtain ⟨g, hg⟩ := Access.get?_here? hu
    exact h.values g _ _ hg
  · cases hok

theorem assign_ensures (h : w.Sound Q) (id : ExprId) (name : Token) {v : Value} (hv : Yields Q w v) :
    Ensures Q (Eval.assign c id name v) w fun _ _ => True := by
  cases hfs : c.access.assign? w.frames w.current id name.lexeme v with
  | none => exact .of_error h (by rw [assign_apply, hfs])
  | some fs =>
    obtain ⟨g, hg, rfl⟩ := Access.assign?_eq_define hfs
    have hx : Eval.assign c id name v w.machine = .ok () (w.withFrames (w.frames.define g name.lexeme v)).machine := by
      rw [assign_apply, hfs]
      rfl
    exact .of_final (final_of_ok hx) (w.later_define g name.lexeme v)
      (h.define ((w.later_define g name.lexeme v).value hv) fun hne => h.names g _ hne hg) fun _ _ => trivial

theorem define_ensures (h : w.Sound Q) {name : Token} {v : Value} (hv : Yields Q w v)
    (hname : w.current ≠ Frames.globals → name.lexeme ∈ w.roster w.current) (hlt : w.current < w.frames.next) :
    Ensures Q (Eval.define name v) w fun w' _ => (w'.frames.here? w.current name.lexeme).isSome := by
  have hlater := w.later_define w.current name.lexeme v
  refine .of_final (final_of_ok (define_apply name v)) hlater (h.define (hlater.value hv) hname) fun _ _ => ?_
  have hhere : (w.frames.define w.current name.lexeme v).here? w.current name.lexeme = some v := by
    rw [Frames.here?_define, if_pos ⟨rfl, rfl, hlt⟩]
  exact Option.isSome_of_eq_some hhere

theorem declare_ensures (h : w.Sound Q) (decl : FunctionDecl) {rs : List Region} (hat : w.At rs)
    (hsites : ∀ t ∈ Stmt.sitesAll (.ofFunction decl.parameters decl.body ::
      Region.declare [decl.name.lexeme] rs) decl.body, Q t) (hplain : Stmt.PlainAll decl.body)
    (hname : w.current ≠ Frames.globals → decl.name.lexeme ∈ w.roster w.current) :
    Ensures Q (Eval.declare decl) w fun w' _ => (w'.frames.here? w.current decl.name.lexeme).isSome := by
  let v := Value.function ⟨w.machine.nextIdentity, decl, w.current⟩
  have hhere : (w.frames.define w.current decl.name.lexeme v).here? w.current decl.name.lexeme = some v := by
    rw [Frames.here?_define, if_pos ⟨rfl, rfl, hat.lt_next h⟩]
  have hlater := w.later_define w.current decl.name.lexeme v
  have hchain : (w.frames.define w.current decl.name.lexeme v).Chain w.roster w.current
      (Region.declare [decl.name.lexeme] rs) := by
    refine Frames.Chain.declare (hat.later hlater) ?_
    intro _ n hn
    rw [List.mem_singleton.mp hn]
    exact Option.isSome_of_eq_some hhere
  have hsound := h.define (v := v) ⟨_, hchain, hsites, hplain⟩ hname
  refine .of_final (final_of_ok (declare_apply decl)) ⟨⟨rfl, rfl, hlater.keeps.frames⟩, hlater.roster⟩ ?_
    fun _ _ => Option.isSome_of_eq_some hhere
  exact hsound.congr rfl

theorem callHost_ensures (hc : c.host.Honest) (h : w.Sound Q) (f : HostFunction) {arguments : List Value}
    (hargs : ∀ v ∈ arguments, Yields Q w v) (paren : Token) :
    Ensures Q (Eval.callHost c f arguments paren) w (Yields Q) := by
  refine .of_final (final_callHost f arguments paren) ⟨.of_eq rfl rfl rfl, fun _ _ => rfl⟩
    (h.congr rfl) fun v hok => ?_
  rw [callHost_apply] at hok
  cases hr : c.host w.machine.hostCalls f.key arguments with
  | error message => simp [hr] at hok
  | ok u =>
    rw [hr] at hok
    cases hok
    cases v with
    | function closure => exact hargs _ (hc _ _ _ _ hr)
    | nil | bool _ | number _ | string _ | host _ => trivial

theorem printLine_ensures (h : w.Sound Q) (text : String) : Ensures Q (Eval.printLine text) w fun _ _ => True :=
  .of_final (final_printLine text) ⟨.of_eq rfl rfl rfl, fun _ _ => rfl⟩ (h.congr rfl) fun _ _ => trivial

/-- A step that is another step in another world, but for what the machine is besides its frames. -/
theorem Ensures.within {α : Type} {w₀ : World} {x y : Eval α} {g : Machine → Machine} {P : Frames → Roster → α → Prop}
    (hx : Ensures Q x w₀ fun w' => P w'.frames w'.roster)
    (hy : y w.machine = match x w₀.machine with
      | .ok a m => .ok a (g m)
      | .error stop m => .error stop (g m))
    (hframes : ∀ m, (g m).frames = m.frames) (hlater : ∀ roster m, w₀.Later ⟨m, roster⟩ → w.Later ⟨g m, roster⟩) :
    Ensures Q y w fun w' => P w'.frames w'.roster := by
  obtain ⟨roster, hl, hsound, hP⟩ := hx
  have hfinal : y.final w.machine = g (x.final w₀.machine) := by
    rw [final, final, hy]
    cases x w₀.machine <;> rfl
  refine ⟨roster, ?_, ?_, ?_⟩
  · rw [hfinal]
    exact hlater roster _ hl
  · rw [hfinal]
    exact hsound.congr (hframes _)
  · intro a m hok
    cases hstep : x w₀.machine with
    | ok b m' =>
      rw [hy, hstep] at hok
      cases hok
      have hb := hP _ m' hstep
      simp only [World.frames] at hb ⊢
      rwa [hframes]
    | error stop m' =>
      rw [hy, hstep] at hok
      cases hok

/-- A step in a new frame, where what it yields does not depend on which frame is current. -/
theorem inFrame_ensures {α : Type} {frame : Frame} {names : List String} {x : Eval α}
    {P : Frames → Roster → α → Prop} (hx : Ensures Q x (w.enter frame names) fun w' => P w'.frames w'.roster) :
    Ensures Q (inFrame frame x) w fun w' => P w'.frames w'.roster := by
  refine hx.within (inFrame_apply frame x) (fun _ => rfl) fun roster m hlater => ⟨?_, fun f hf => ?_⟩
  · exact ⟨rfl, hlater.keeps.depth, Frames.Grows.push.trans hlater.keeps.frames⟩
  · have hroster := hlater.roster f (Nat.lt_of_lt_of_le hf Frames.Grows.push.next)
    exact hroster.trans (w.agrees_add names f hf)

theorem asCall_ensures {α : Type} {paren : Token} {x : Eval α} {P : Frames → Roster → α → Prop} (h : w.Sound Q)
    (hx : Ensures Q x ⟨{ w.machine with depth := w.machine.depth + 1 }, w.roster⟩ fun w' => P w'.frames w'.roster) :
    Ensures Q (asCall paren x) w fun w' => P w'.frames w'.roster := by
  by_cases hd : maxDepth ≤ w.machine.depth
  · exact .of_error h (by rw [asCall_apply, if_pos hd])
  · have happly := (asCall_apply (m := w.machine) paren x).trans (if_neg hd)
    refine hx.within (g := fun m => { m with depth := m.depth - 1 }) happly (fun _ => rfl) fun roster m hlater => ?_
    have hdepth : m.depth - 1 = w.machine.depth := congrArg (· - 1) hlater.keeps.depth
    exact ⟨⟨hlater.keeps.current, hdepth, hlater.keeps.frames⟩, hlater.roster⟩

end
end Eval
end Lox
