import Lox.Proofs.Renaming.Machines

/-! # Steps under renaming

A step of the program and the step of the renamed program in its place either both yield, alike machines
and what the relation `R` says of the results, or both stop, for the same reason up to the renamed
variable and with the same output (`Couples`). The elementary steps are so coupled, and what is put
together from coupled steps is. -/

namespace Lox

/-- The second run stops for the same reason: only the name of a variable that is not bound may be the new
    one in place of the old. -/
inductive Stop.Renamed (r : Renaming) : Stop → Stop → Prop
  | same (stop : Stop) : Stop.Renamed r stop stop
  | undefined {name : Token} (h : name.lexeme = r.old) :
    Stop.Renamed r (.failed (.undefined name)) (.failed (.undefined { name with lexeme := r.new }))

theorem Renaming.undefined_reference (r : Renaming) (depth : Option Nat) (id : ExprId) (name : Token) :
    Stop.Renamed r (.failed (.undefined name)) (.failed (.undefined (r.reference depth id name))) := by
  have htoken : Stop.Renamed r (.failed (.undefined name)) (.failed (.undefined (r.token name))) := by
    by_cases h : name.lexeme = r.old
    · rw [Renaming.token, Renaming.name, if_pos h]
      exact .undefined h
    · rw [Renaming.token, Renaming.name_of_ne h]
      exact .same _
  cases depth with
  | none => exact .same _
  | some k =>
    simp only [Renaming.reference]
    split
    · exact htoken
    · exact .same _

namespace Eval

inductive Agree {α : Type} (r : Renaming) (distances : Distances) (p : Pair) (R : Pair → α → α → Prop) :
    EStateM.Result Stop Machine α → EStateM.Result Stop Machine α → Prop
  | ok {p' : Pair} {a b : α} (alike : p'.Alike r distances) (later : p.Later p') (h : R p' a b) :
    Agree r distances p R (.ok a p'.left) (.ok b p'.right)
  | error {stop stop' : Stop} {m m' : Machine} (sink : m'.sink = m.sink) (h : stop.Renamed r stop') :
    Agree r distances p R (.error stop m) (.error stop' m')

def Couples {α : Type} (r : Renaming) (distances : Distances) (x y : Eval α) (p : Pair) (R : Pair → α → α → Prop) :
    Prop :=
  Agree r distances p R (x p.left) (y p.right)

section
variable {r : Renaming} {distances : Distances} {p : Pair} {α β : Type} {x y : Eval α} {R : Pair → α → α → Prop}

namespace Couples

theorem pure {a b : α} (h : p.Alike r distances) (hR : R p a b) : Couples r distances (pure a) (pure b) p R :=
  .ok h (.refl p) hR

theorem fail (e : RuntimeError) : Couples r distances (Eval.fail e) (Eval.fail e) p R := .error rfl (.same _)

theorem throw (stop : Stop) : Couples r distances (throw stop) (throw stop) p R := .error rfl (.same _)

theorem bind {f g : α → Eval β} {S : Pair → β → β → Prop} (hx : Couples r distances x y p R)
    (hf : ∀ p' a b, p'.Alike r distances → p.Later p' → R p' a b → Couples r distances (f a) (g b) p' S) :
    Couples r distances (x >>= f) (y >>= g) p S := by
  unfold Couples at *
  rw [bind_apply, bind_apply]
  generalize x p.left = result, y p.right = result' at hx ⊢
  cases hx with
  | error hsink h => exact .error hsink h
  | @ok p' a b halike hlater hR =>
    have hf := hf p' a b halike hlater hR
    dsimp only
    generalize f a p'.left = result, g b p'.right = result' at hf ⊢
    cases hf with
    | error hsink h => exact .error hsink h
    | ok halike' hlater' hS => exact .ok halike' (hlater.trans hlater') hS

theorem ofExcept {result : Except RuntimeError α} (h : p.Alike r distances) (hR : ∀ a, result = .ok a → R p a a) :
    Couples r distances (Eval.ofExcept result) (Eval.ofExcept result) p R := by
  cases result with
  | ok a => exact pure h (hR a rfl)
  | error e => exact fail e

end Couples
end

/-! ### The elementary steps -/

section
variable {r : Renaming} {distances : Distances} {host : Host} {p : Pair} {depth : Option Nat}

theorem read_couples (h : p.Alike r distances) (hat : p.At depth) {id : ExprId} {name : Token}
    (hadmits : r.Admits distances depth [⟨false, id, name⟩]) :
    Couples r distances (read ⟨.resolved distances, host⟩ id name)
      (read ⟨.resolved distances, host⟩ id (r.reference depth id name)) p (Pair.Same r distances) := by
  have hrel := h.get?_rel hat hadmits
  unfold Couples read Pair.right
  dsimp only at hrel ⊢
  generalize (Access.resolved distances).get? p.left.frames p.left.current id name.lexeme = u,
    (Access.resolved distances).get? p.frames p.left.current id (r.reference depth id name).lexeme = u' at hrel ⊢
  cases hrel with
  | none => exact .error rfl (r.undefined_reference depth id name)
  | some hsame => exact .ok h (.refl p) hsame

theorem assign_couples (h : p.Alike r distances) (hat : p.At depth) {id : ExprId} {name : Token}
    (hadmits : r.Admits distances depth [⟨true, id, name⟩]) {v v' : Value} (hv : p.Same r distances v v') :
    Couples r distances (assign ⟨.resolved distances, host⟩ id name v)
      (assign ⟨.resolved distances, host⟩ id (r.reference depth id name) v') p fun _ _ _ => True := by
  unfold Couples
  rw [assign_apply, assign_apply]
  unfold Pair.right
  dsimp only
  rcases h.assign?_cases hat hadmits v v' with ⟨hleft, hright⟩ | ⟨g, hnew, hleft, hright⟩
  · dsimp only at hleft hright
    rw [hleft, hright]
    exact .error rfl (r.undefined_reference depth id name)
  · dsimp only at hleft hright
    rw [hleft, hright]
    exact .ok (h.define hnew hv) (p.later_define g _ v v') trivial

theorem define_couples (h : p.Alike r distances) (hat : p.At depth) {name : Token}
    (hname : depth ≠ none → name.lexeme ≠ r.new) {v v' : Value} (hv : p.Same r distances v v') :
    Couples r distances (define name v) (define (r.declared depth name) v') p fun _ _ _ => True := by
  have hnew : p.marks p.left.current = true → name.lexeme ≠ r.new := fun hm => hname (by simp [hat.marks_iff.mp hm])
  have hlexeme : (r.declared depth name).lexeme = p.name r p.left.current name.lexeme := by
    simp only [Renaming.declared, Pair.name, hat.marks_iff]
    split <;> rfl
  unfold Couples
  rw [define_apply, define_apply, hlexeme]
  exact .ok (h.define hnew hv) (p.later_define _ _ v v') trivial

theorem declare_couples (h : p.Alike r distances) (hat : p.At depth) {name : Token}
    {parameters parameters' : List Token}
    {body body' : List Stmt} (hname : depth ≠ none → name.lexeme ≠ r.new) (hold : depth = some 0 → name.lexeme ≠ r.old)
    (hrenames : Stmt.Renames r distances depth (.function name parameters body) (.function name parameters' body')) :
    Couples r distances (declare ⟨name, parameters, body⟩)
      (declare ⟨name, parameters', body'⟩) p fun _ _ _ => True := by
  let v := Value.function ⟨p.left.nextIdentity, ⟨name, parameters, body⟩, p.left.current⟩
  let v' := Value.function ⟨p.left.nextIdentity, ⟨name, parameters', body'⟩, p.left.current⟩
  have hnew : p.marks p.left.current = true → name.lexeme ≠ r.new := fun hm => hname (by simp [hat.marks_iff.mp hm])
  have hsame : p.Same r distances v v' := .function ⟨rfl, rfl, hat.exist, depth, hat.lies, hrenames⟩
  have hlexeme : name.lexeme = p.name r p.left.current name.lexeme := by
    unfold Pair.name
    split
    · rename_i hm
      exact (Renaming.name_of_ne (hold (hat.marks_iff.mp hm))).symm
    · rfl
  have halike := h.define hnew hsame
  have hlater := p.later_define (r := r) p.left.current name.lexeme v v'
  have hframes : (p.define r p.left.current name.lexeme v v').frames = p.frames.define p.left.current name.lexeme v' :=
    congrArg (p.frames.define p.left.current · v') hlexeme.symm
  let m : Machine := { (p.define r p.left.current name.lexeme v v').left with nextIdentity := p.left.nextIdentity + 1 }
  have hcongr : Pair.Alike r distances ⟨m, p.frames.define p.left.current name.lexeme v', p.marks⟩ :=
    hframes ▸ halike.congr rfl
  exact .ok hcongr ⟨⟨rfl, rfl, hlater.keeps.frames⟩, hlater.marks⟩ trivial

theorem callHost_couples (hhost : host.Indifferent) (access : Access) (h : p.Alike r distances) (f : HostFunction)
    {arguments arguments' : List Value}
    (hargs : List.Forall₂ (p.Same r distances) arguments arguments') (paren : Token) :
    Couples r distances (callHost ⟨access, host⟩ f arguments paren) (callHost ⟨access, host⟩ f arguments' paren) p
      (Pair.Same r distances) := by
  have hresult := hhost _ Closure.Alike.indistinct p.left.hostCalls f.key hargs
  unfold Couples
  rw [callHost_apply, callHost_apply]
  unfold Pair.right
  dsimp only
  generalize host p.left.hostCalls f.key arguments = result,
    host p.left.hostCalls f.key arguments' = result' at hresult ⊢
  let m : Machine := { p.left with hostCalls := p.left.hostCalls + 1 }
  have halike : Pair.Alike r distances ⟨m, p.frames, p.marks⟩ := h.congr rfl
  have hlater : p.Later ⟨m, p.frames, p.marks⟩ := ⟨.of_eq rfl rfl rfl, fun _ _ => rfl⟩
  cases hresult with
  | ok hv => exact .ok halike hlater hv
  | error hmessage =>
    cases hmessage
    exact .error rfl (.same _)

theorem printLine_couples (h : p.Alike r distances) (text : String) :
    Couples r distances (printLine text) (printLine text) p fun _ _ _ => True := by
  unfold Couples
  rw [printLine_apply, printLine_apply]
  unfold Pair.right
  dsimp only
  rcases p.left.sink.write (text ++ "\n") with ⟨sink, _ | fault⟩
  · let m : Machine := { p.left with sink }
    have halike : Pair.Alike r distances ⟨m, p.frames, p.marks⟩ := h.congr rfl
    exact .ok halike ⟨.of_eq rfl rfl rfl, fun _ _ => rfl⟩ trivial
  · exact .error rfl (.same _)

/-! ### Scopes and calls -/

/-- What is said of results does not depend on which frame is current, nor on how many calls are active. -/
theorem inFrame_couples {α : Type} {x y : Eval α} {P : Marks → Frames → α → α → Prop} {inner : Option Nat}
    {frame frame' : Frame} (h : p.Alike r distances)
    (hx : Couples r distances x y (p.enter inner frame frame') fun p' => P p'.marks p'.left.frames) :
    Couples r distances (inFrame frame x) (inFrame frame' y) p fun p' => P p'.marks p'.left.frames := by
  have hright : { p.right with frames := p.frames.push frame', current := p.frames.next } =
      (p.enter inner frame frame').right := by
    rw [h.next]
    rfl
  unfold Couples at *
  rw [inFrame_apply, inFrame_apply]
  have hframes : p.right.frames = p.frames := rfl
  rw [hframes, hright]
  have hleft : { p.left with frames := p.left.frames.push frame, current := p.left.frames.next } =
      (p.enter inner frame frame').left := rfl
  rw [hleft]
  generalize x (p.enter inner frame frame').left = result, y (p.enter inner frame frame').right = result' at hx ⊢
  cases hx with
  | error hsink hstop => exact .error hsink hstop
  | @ok p' a b halike hlater hR =>
    let m : Machine := { p'.left with current := p.left.current }
    have halike' : Pair.Alike r distances ⟨m, p'.frames, p'.marks⟩ := halike.congr rfl
    exact .ok halike' hlater.leave hR

theorem asCall_couples {α : Type} {paren : Token} {x y : Eval α} {P : Marks → Frames → α → α → Prop}
    (hx : Couples r distances x y ⟨{ p.left with depth := p.left.depth + 1 }, p.frames, p.marks⟩
      fun p' => P p'.marks p'.left.frames) :
    Couples r distances (asCall paren x) (asCall paren y) p fun p' => P p'.marks p'.left.frames := by
  unfold Couples at *
  rw [asCall_apply, asCall_apply]
  have hdepth : p.right.depth = p.left.depth := rfl
  rw [hdepth]
  split
  · exact .error rfl (.same _)
  · have hright : { p.right with depth := p.left.depth + 1 } =
        Pair.right ⟨{ p.left with depth := p.left.depth + 1 }, p.frames, p.marks⟩ := rfl
    rw [hright]
    dsimp only at hx
    generalize x { p.left with depth := p.left.depth + 1 } = result,
      y (Pair.right ⟨{ p.left with depth := p.left.depth + 1 }, p.frames, p.marks⟩) = result' at hx ⊢
    cases hx with
    | error hsink hstop => exact .error hsink hstop
    | @ok p' a b halike hlater hR =>
      let m : Machine := { p'.left with depth := p'.left.depth - 1 }
      have halike' : Pair.Alike r distances ⟨m, p'.frames, p'.marks⟩ := halike.congr rfl
      have hsame : p'.left.depth - 1 = p.left.depth := congrArg (· - 1) hlater.keeps.depth
      exact .ok halike' ⟨⟨hlater.keeps.current, hsame, hlater.keeps.frames⟩, hlater.marks⟩ hR

end
end Eval
end Lox
