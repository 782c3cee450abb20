import Lox.Proofs.ForLoops.Pairing

/-! # Steps of two runs

What the parser makes of a `for` statement and the loop itself run in machines that are the same up to the identity
of frames (`Tandem.Matches`). Two steps are abreast when both yield, and `R` holds of the results, or both stop for
the same reason, with machines that match in any case (`Eval.Abreast`). Either may have fuel to spare while the
other runs out. The elementary steps are abreast, and so is what is put together from such steps. -/

namespace Lox

/-- The machines of two runs, and which frame of the first stands for each frame of the second. -/
structure Tandem where
  left : Machine
  right : Machine
  frame : FrameId → FrameId

namespace Tandem

def pairing (p : Tandem) : Pairing := ⟨p.left.frames, p.right.frames, p.frame⟩

/-- The frames match, and all else is the same but for the frames that are current. -/
structure Matches (tables : Tables) (p : Tandem) : Prop where
  frames : p.pairing.Matches tables
  depth : p.right.depth = p.left.depth
  sink : p.right.sink = p.left.sink
  nextIdentity : p.right.nextIdentity = p.left.nextIdentity
  hostCalls : p.right.hostCalls = p.left.hostCalls

/-- The second pair of machines comes after the first, with the same frames current. -/
structure Later (p p' : Tandem) : Prop where
  frames : p.pairing.Later p'.pairing
  current : p'.left.current = p.left.current
  current_right : p'.right.current = p.right.current

/-- From the current frames the same distances lead to frames that stand for each other, when those on the left
    skip an extra frame. -/
def At (p : Tandem) (extra : Option Nat) : Prop := p.pairing.Leads extra p.left.current p.right.current

variable {tables : Tables} {p p' p'' : Tandem} {extra : Option Nat}

theorem Later.refl (p : Tandem) : p.Later p := ⟨.refl _, rfl, rfl⟩

theorem Later.trans (h : p.Later p') (h' : p'.Later p'') : p.Later p'' :=
  ⟨h.frames.trans h'.frames, h'.current.trans h.current, h'.current_right.trans h.current_right⟩

theorem At.later (hat : p.At extra) (h : p.Matches tables) (hlater : p.Later p') : p'.At extra := by
  unfold At
  rw [hlater.current, hlater.current_right]
  exact Pairing.Leads.later h.frames hlater.frames hat

theorem Later.same (hlater : p.Later p') (h : p.Matches tables) {v v' : Value}
    (hv : p.pairing.Same tables v v') : p'.pairing.Same tables v v' :=
  Pairing.Same.later h.frames hlater.frames hv

/-- The frames of both machines are changed, and nothing else is. -/
theorem Matches.change {q : Pairing} (h : p.Matches tables) (hq : q.Matches tables) (hlater : p.pairing.Later q) :
    Matches tables ⟨{ p.left with frames := q.left }, { p.right with frames := q.right }, q.frame⟩ ∧
      p.Later ⟨{ p.left with frames := q.left }, { p.right with frames := q.right }, q.frame⟩ :=
  ⟨⟨hq, h.depth, h.sink, h.nextIdentity, h.hostCalls⟩, ⟨hlater, rfl, rfl⟩⟩

/-- New frames in both runs, and both current. -/
def enter (p : Tandem) (frame frame' : Frame) : Tandem where
  left := { p.left with frames := p.left.frames.push frame, current := p.left.frames.next }
  right := { p.right with frames := p.right.frames.push frame', current := p.right.frames.next }
  frame := (p.pairing.enter frame frame').frame

theorem Matches.enter (h : p.Matches tables) {frame frame' : Frame}
    (htwins : p.pairing.Twins tables extra frame frame') : (p.enter frame frame').Matches tables :=
  ⟨h.frames.enter htwins, h.depth, h.sink, h.nextIdentity, h.hostCalls⟩

theorem Matches.at_enter (h : p.Matches tables) {frame frame' : Frame}
    (htwins : p.pairing.Twins tables extra frame frame') : (p.enter frame frame').At (inside extra) :=
  h.frames.leads_enter htwins

/-- The frame of a round, in the first run only. -/
def enterRound (p : Tandem) : Tandem where
  left := { p.left with frames := p.left.frames.push (.empty (some p.left.current)), current := p.left.frames.next }
  right := p.right
  frame := p.frame

theorem Matches.enterRound (h : p.Matches tables) (hat : p.At none) :
    p.enterRound.Matches tables :=
  ⟨h.frames.enterRound hat.left, h.depth, h.sink, h.nextIdentity, h.hostCalls⟩

theorem Matches.at_enterRound (h : p.Matches tables) (hat : p.At none) : p.enterRound.At (some 0) :=
  h.frames.leads_enterRound hat

end Tandem

namespace Eval

/-- How two steps that begin in these machines may end. The first may run out of fuel if `spare` holds, whatever
    the second does, and the second if `spare'` holds. -/
inductive Meet {α β : Type} (tables : Tables) (spare spare' : Prop) (p : Tandem)
    (R : Pairing → α → β → Prop) : EStateM.Result Stop Machine α → EStateM.Result Stop Machine β → Prop
  | ok {p' : Tandem} {a : α} {b : β} (h : p'.Matches tables) (hlater : p.Later p') (hR : R p'.pairing a b) :
    Meet tables spare spare' p R (.ok a p'.left) (.ok b p'.right)
  | error {p' : Tandem} (h : p'.Matches tables) (hlater : p.Later p') (stop : Stop) :
    Meet tables spare spare' p R (.error stop p'.left) (.error stop p'.right)
  | exhausted (h : spare) (m : Machine) (result : EStateM.Result Stop Machine β) :
    Meet tables spare spare' p R (.error .outOfFuel m) result
  | exhausted_right (h : spare') (m : Machine) (result : EStateM.Result Stop Machine α) :
    Meet tables spare spare' p R result (.error .outOfFuel m)

def Abreast {α β : Type} (tables : Tables) (spare spare' : Prop) (x : Eval α) (y : Eval β) (p : Tandem)
    (R : Pairing → α → β → Prop) : Prop :=
  Meet tables spare spare' p R (x p.left) (y p.right)

section
variable {tables : Tables} {spare spare' : Prop} {p : Tandem} {α α' β β' : Type} {x : Eval α} {y : Eval α'}
  {R : Pairing → α → α' → Prop}

/-- What comes after a later pair of machines comes after the first. -/
theorem Meet.after {p₁ : Tandem} {result : EStateM.Result Stop Machine α}
    {result' : EStateM.Result Stop Machine α'} (hlater : p.Later p₁)
    (h : Meet tables spare spare' p₁ R result result') : Meet tables spare spare' p R result result' := by
  cases h with
  | ok h hlater' hR => exact .ok h (hlater.trans hlater') hR
  | error h hlater' stop => exact .error h (hlater.trans hlater') stop
  | exhausted h => exact .exhausted h _ _
  | exhausted_right h m => exact .exhausted_right h m _

namespace Abreast

theorem exhausted (h : spare) (y : Eval α') : Abreast tables spare spare' (throw .outOfFuel) y p R :=
  Meet.exhausted h _ _

theorem exhausted_right (h : spare') (x : Eval α) : Abreast tables spare spare' x (throw .outOfFuel) p R :=
  Meet.exhausted_right h _ _

theorem pure {a : α} {b : α'} (h : p.Matches tables) (hR : R p.pairing a b) :
    Abreast tables spare spare' (pure a) (pure b) p R := .ok h (.refl p) hR

theorem throw (h : p.Matches tables) (stop : Stop) :
    Abreast tables spare spare' (throw stop) (throw stop) p R := .error h (.refl p) stop

theorem fail (h : p.Matches tables) (e : RuntimeError) :
    Abreast tables spare spare' (Eval.fail e) (Eval.fail e) p R := .error h (.refl p) _

theorem bind {f : α → Eval β} {g : α' → Eval β'} {S : Pairing → β → β' → Prop}
    (hx : Abreast tables spare spare' x y p R)
    (hf : ∀ p' a b, p'.Matches tables → p.Later p' → R p'.pairing a b → Abreast tables spare spare' (f a) (g b) p' S) :
    Abreast tables spare spare' (x >>= f) (y >>= g) p S := by
  unfold Abreast at *
  rw [bind_apply, bind_apply]
  generalize x p.left = result, y p.right = result' at hx ⊢
  cases hx with
  | @ok p' a b h hlater hR => exact (hf p' a b h hlater hR).after hlater
  | error h hlater stop => exact .error h hlater stop
  | exhausted h => exact .exhausted h _ _
  | exhausted_right h m => exact .exhausted_right h m _

/-- Behind one of the steps there may be one more. -/
theorem bind_right {g : α' → Eval β'} {S : Pairing → α → β' → Prop} (hx : Abreast tables spare spare' x y p R)
    (hg : ∀ p' a b, p'.Matches tables → p.Later p' → R p'.pairing a b →
      Abreast tables spare spare' (Pure.pure a) (g b) p' S) : Abreast tables spare spare' x (y >>= g) p S := by
  have hbind := hx.bind hg
  rwa [bind_pure] at hbind

theorem bind_left {f : α → Eval β} {S : Pairing → β → α' → Prop} (hx : Abreast tables spare spare' x y p R)
    (hf : ∀ p' a b, p'.Matches tables → p.Later p' → R p'.pairing a b →
      Abreast tables spare spare' (f a) (Pure.pure b) p' S) : Abreast tables spare spare' (x >>= f) y p S := by
  have hbind := hx.bind hf
  rwa [bind_pure] at hbind

theorem ofExcept {result : Except RuntimeError α} {R : Pairing → α → α → Prop} (h : p.Matches tables)
    (hR : ∀ a, result = .ok a → R p.pairing a a) :
    Abreast tables spare spare' (Eval.ofExcept result) (Eval.ofExcept result) p R := by
  cases result with
  | ok a => exact pure h (hR a rfl)
  | error e => exact fail h e

/-- Steps that are abreast in other machines, but for what is done to these before and after. -/
theorem within {p₁ : Tandem} {x' : Eval α} {y' : Eval α'} (g g' : Machine → Machine)
    (hx : Abreast tables spare spare' x y p₁ R)
    (hleft : x' p.left = match x p₁.left with
      | .ok a m => .ok a (g m)
      | .error stop m => .error stop (g m))
    (hright : y' p.right = match y p₁.right with
      | .ok a m => .ok a (g' m)
      | .error stop m => .error stop (g' m))
    (hframes : ∀ m, (g m).frames = m.frames) (hframes' : ∀ m, (g' m).frames = m.frames)
    (hends : ∀ p₂ : Tandem, p₂.Matches tables → p₁.Later p₂ →
      Tandem.Matches tables ⟨g p₂.left, g' p₂.right, p₂.frame⟩ ∧ p.Later ⟨g p₂.left, g' p₂.right, p₂.frame⟩) :
    Abreast tables spare spare' x' y' p R := by
  unfold Abreast at *
  rw [hleft, hright]
  generalize x p₁.left = result, y p₁.right = result' at hx ⊢
  cases hx with
  | @ok p₂ a b h hlater hR =>
    obtain ⟨h', hlater'⟩ := hends p₂ h hlater
    refine .ok h' hlater' ?_
    rwa [Tandem.pairing, hframes, hframes']
  | @error p₂ h hlater stop =>
    obtain ⟨h', hlater'⟩ := hends p₂ h hlater
    exact .error h' hlater' stop
  | exhausted h => exact .exhausted h _ _
  | exhausted_right h m => exact .exhausted_right h (g' m) _

end Abreast

/-! ### The elementary steps -/

section
variable {extra : Option Nat} {host : Host} {v v' : Value}

theorem read_abreast (h : p.Matches tables) (hat : p.At extra) {id id' : ExprId} (name : Token)
    (hid : tables.left[id]? = (tables.right[id']?).map (skip extra)) :
    Abreast tables spare spare' (read ⟨.resolved tables.left, host⟩ id name)
      (read ⟨.resolved tables.right, host⟩ id' name) p (Pairing.Same tables) := by
  have hrel := h.frames.get?_rel hat hid name.lexeme
  unfold Abreast read
  unfold Tandem.pairing at hrel
  dsimp only at hrel ⊢
  generalize (Access.resolved tables.left).get? p.left.frames p.left.current id name.lexeme = u,
    (Access.resolved tables.right).get? p.right.frames p.right.current id' name.lexeme = u' at hrel ⊢
  cases hrel with
  | none => exact .error h (.refl p) _
  | some hsame => exact .ok h (.refl p) hsame

theorem assign_abreast (h : p.Matches tables) (hat : p.At extra) {id id' : ExprId} (name : Token)
    (hid : tables.left[id]? = (tables.right[id']?).map (skip extra)) (hv : p.pairing.Same tables v v') :
    Abreast tables spare spare' (assign ⟨.resolved tables.left, host⟩ id name v)
      (assign ⟨.resolved tables.right, host⟩ id' name v') p fun _ _ _ => True := by
  unfold Abreast
  rw [assign_apply, assign_apply]
  dsimp only
  rcases h.frames.assign?_cases hat hid name.lexeme v v' with ⟨hleft, hright⟩ | ⟨g, hg, hleft, hright⟩
  · unfold Tandem.pairing at hleft hright
    dsimp only at hleft hright
    rw [hleft, hright]
    exact .error h (.refl p) _
  · obtain ⟨h', hlater⟩ := h.change (h.frames.define hg hv) (Pairing.later_define _ g name.lexeme v v')
    unfold Tandem.pairing at hleft hright
    dsimp only at hleft hright
    rw [hleft, hright]
    exact .ok h' hlater trivial

theorem define_abreast (h : p.Matches tables) (hat : p.At extra) (hextra : extra ≠ some 0) (name : Token)
    (hv : p.pairing.Same tables v v') :
    Abreast tables spare spare' (define name v) (define name v') p fun _ _ _ => True := by
  obtain ⟨h', hlater⟩ := h.change (h.frames.define hat.right hv)
    (Pairing.later_define _ p.right.current name.lexeme v v')
  unfold Abreast
  rw [define_apply, define_apply]
  rw [Pairing.define, hat.frame_eq hextra] at h' hlater
  exact .ok h' hlater trivial

theorem declare_abreast (h : p.Matches tables) (hat : p.At extra) (hextra : extra ≠ some 0) {name : Token}
    {parameters : List Token} {body body' : List Stmt}
    (hskips : Stmt.SkipsAll tables (inside extra) body body') :
    Abreast tables spare spare' (declare ⟨name, parameters, body⟩) (declare ⟨name, parameters, body'⟩) p
      fun _ _ _ => True := by
  have hsame : p.pairing.Same tables (.function ⟨p.left.nextIdentity, ⟨name, parameters, body⟩, p.left.current⟩)
      (.function ⟨p.left.nextIdentity, ⟨name, parameters, body'⟩, p.right.current⟩) :=
    .function ⟨rfl, extra, hat, .function hextra hskips⟩
  obtain ⟨h', hlater⟩ := h.change (h.frames.define hat.right hsame)
    (Pairing.later_define _ p.right.current name.lexeme _ _)
  unfold Abreast
  rw [declare_apply, declare_apply, h.nextIdentity]
  rw [Pairing.define, hat.frame_eq hextra] at h' hlater
  have hend : Tandem.Matches tables
      ⟨{ p.left with
          frames := p.left.frames.define p.left.current name.lexeme _, nextIdentity := p.left.nextIdentity + 1 },
        { p.right with
          frames := p.right.frames.define p.right.current name.lexeme _, nextIdentity := p.left.nextIdentity + 1 },
        p.frame⟩ := ⟨h'.frames, h.depth, h.sink, rfl, h.hostCalls⟩
  exact .ok hend ⟨hlater.frames, rfl, rfl⟩ trivial

theorem callHost_abreast {host : Host} (hhost : host.Indifferent) {access access' : Access}
    (h : p.Matches tables) (f : HostFunction)
    {arguments arguments' : List Value} (hargs : List.Forall₂ (p.pairing.Same tables) arguments arguments')
    (paren : Token) :
    Abreast tables spare spare' (callHost ⟨access, host⟩ f arguments paren)
      (callHost ⟨access', host⟩ f arguments' paren) p (Pairing.Same tables) := by
  have hresult := hhost _ Closure.Matches.indistinct p.left.hostCalls f.key hargs
  unfold Abreast
  rw [callHost_apply, callHost_apply, h.hostCalls]
  dsimp only
  generalize host p.left.hostCalls f.key arguments = result, host p.left.hostCalls f.key arguments' = result' at hresult
  let p' : Tandem := ⟨{ p.left with hostCalls := p.left.hostCalls + 1 },
    { p.right with hostCalls := p.left.hostCalls + 1 }, p.frame⟩
  have h' : p'.Matches tables := ⟨h.frames, h.depth, h.sink, h.nextIdentity, rfl⟩
  have hlater : p.Later p' := ⟨.refl _, rfl, rfl⟩
  cases hresult with
  | ok hv => exact .ok h' hlater hv
  | error hmessage =>
    cases hmessage
    exact .error h' hlater _

theorem printLine_abreast (h : p.Matches tables) (text : String) :
    Abreast tables spare spare' (printLine text) (printLine text) p fun _ _ _ => True := by
  unfold Abreast
  rw [printLine_apply, printLine_apply, h.sink]
  rcases p.left.sink.write (text ++ "\n") with ⟨sink, fault⟩
  let p' : Tandem := ⟨{ p.left with sink }, { p.right with sink }, p.frame⟩
  have h' : p'.Matches tables := ⟨h.frames, h.depth, rfl, h.nextIdentity, h.hostCalls⟩
  have hlater : p.Later p' := ⟨.refl _, rfl, rfl⟩
  cases fault with
  | none => exact .ok h' hlater trivial
  | some fault => exact .error h' hlater _

/-! ### Frames and calls -/

/-- Steps in new frames, after which the frames of before are current again. -/
theorem inFrame_abreast {frame frame' : Frame} (hx : Abreast tables spare spare' x y (p.enter frame frame') R) :
    Abreast tables spare spare' (inFrame frame x) (inFrame frame' y) p R := by
  refine hx.within (fun m => { m with current := p.left.current }) (fun m => { m with current := p.right.current })
    (inFrame_apply frame x) (inFrame_apply frame' y) (fun _ => rfl) (fun _ => rfl) fun p₂ h hlater => ?_
  exact ⟨⟨h.frames, h.depth, h.sink, h.nextIdentity, h.hostCalls⟩,
    ⟨(p.pairing.later_enter frame frame').trans hlater.frames, rfl, rfl⟩⟩

/-- A step in the frame of a round on the left, and a step in the frame of the loop on the right. -/
theorem inRound_abreast (hx : Abreast tables spare spare' x y p.enterRound R) :
    Abreast tables spare spare' (inBlock x) y p R := by
  have hsame : ∀ result : EStateM.Result Stop Machine α', result = match result with
      | .ok a m => .ok a m
      | .error stop m => .error stop m := fun result => by cases result <;> rfl
  refine hx.within (fun m => { m with current := p.left.current }) id (inFrame_apply (.empty (some p.left.current)) x)
    (hsame _) (fun _ => rfl) (fun _ => rfl) fun p₂ h hlater => ?_
  exact ⟨⟨h.frames, h.depth, h.sink, h.nextIdentity, h.hostCalls⟩,
    ⟨(p.pairing.later_enterRound p.left.current).trans hlater.frames, rfl, hlater.current_right⟩⟩

theorem asCall_abreast {paren : Token} (h : p.Matches tables)
    (hx : Abreast tables spare spare' x y
      ⟨{ p.left with depth := p.left.depth + 1 }, { p.right with depth := p.right.depth + 1 }, p.frame⟩ R) :
    Abreast tables spare spare' (asCall paren x) (asCall paren y) p R := by
  by_cases hd : maxDepth ≤ p.left.depth
  · unfold Abreast
    rw [asCall_apply, asCall_apply, h.depth, if_pos hd, if_pos hd]
    exact .error h (.refl p) _
  · have hleft := (asCall_apply (m := p.left) paren x).trans (if_neg hd)
    have hright := (asCall_apply (m := p.right) paren y).trans (if_neg (h.depth.symm ▸ hd))
    refine hx.within (fun m => { m with depth := m.depth - 1 }) (fun m => { m with depth := m.depth - 1 })
      hleft hright (fun _ => rfl) (fun _ => rfl) fun p₂ h₂ hlater => ?_
    exact ⟨⟨h₂.frames, congrArg (· - 1) h₂.depth, h₂.sink, h₂.nextIdentity, h₂.hostCalls⟩,
      ⟨hlater.frames, hlater.current, hlater.current_right⟩⟩

end
end
end Eval
end Lox
