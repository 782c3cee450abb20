import Lox.Proofs.Evaluation.Fuel
import Lox.Proofs.Evaluation.Stops

/-! # Output that is cut

The same evaluation with a sink that takes all, and with one that takes some number of bytes in all. If all the bytes
fit, both do the same. If not, there is a first line that does not fit, evaluation stops when it is written, and the
output ends where the room does; nothing else has changed since the value of that line was there, but that frames and
calls have been left (`Cut`, `cuts`). -/

namespace Lox

namespace Machine

/-- The machine with a sink that takes no more than `cap` bytes in all. -/
def limited (cap : Nat) (m : Machine) : Machine :=
  { m with sink := { m.sink with room := some (cap - m.sink.written.size) } }

/-- The sink takes all, and the bytes written so far are no more than `cap`. -/
structure Fits (cap : Nat) (m : Machine) : Prop where
  room : m.sink.room = none
  size : m.sink.written.size ≤ cap

/-- The machine when a write of the rest of `output` has failed and evaluation has gone back to where it was at
    `start`. -/
def spilled (m : Machine) (cap : Nat) (output : ByteArray) (start : Machine) : Machine :=
  { m with
    current := start.current
    depth := start.depth
    sink := ⟨output.extract 0 cap, some 0, start.sink.flushFails, start.sink.flushes⟩ }

/-- The later machine is in the same place, has written more, and has no limit if the earlier has none. -/
structure Proceeds (m m' : Machine) : Prop where
  keeps : m.Keeps m'
  prints : m.Prints m'
  room : m.sink.room = none → m'.sink.room = none

theorem Proceeds.respected (context : Context) : Eval.Respected context Proceeds :=
  have hkeeps := Keeps.respected context
  have hprints := Prints.respected context
  { refl := fun m => ⟨hkeeps.refl m, hprints.refl m, id⟩
    trans := fun h h' => ⟨hkeeps.trans h.keeps h'.keeps, hprints.trans h.prints h'.prints, h'.room ∘ h.room⟩
    assign := fun h => ⟨hkeeps.assign h, hprints.assign h, id⟩
    define := fun m name v => ⟨hkeeps.define m name v, hprints.define m name v, id⟩
    identity := fun m => ⟨hkeeps.identity m, hprints.identity m, id⟩
    host := fun m => ⟨hkeeps.host m, hprints.host m, id⟩
    print := fun m text => by
      refine ⟨hkeeps.print m text, hprints.print m text, fun h => ?_⟩
      rw [Sink.write_of_none h]
      exact h
    frame := fun h => ⟨hkeeps.frame h.keeps, hprints.frame h.prints, h.room⟩
    call := fun h => ⟨hkeeps.call h.keeps, hprints.call h.prints, h.room⟩ }

/-- What was the same at the earlier machine is the same at the later one. -/
theorem Proceeds.spilled_eq {cap : Nat} {output : ByteArray} {m m' m₁ : Machine} (h : m.Proceeds m') :
    m₁.spilled cap output m' = m₁.spilled cap output m := by
  unfold spilled
  rw [h.keeps.current, h.keeps.depth, h.prints.flushes, h.prints.flushFails]

end Machine

/-- Bytes behind the first `cap` do not count. -/
theorem extract_append_of_le {written tail : ByteArray} {cap : Nat} (h : cap ≤ written.size) :
    (written ++ tail).extract 0 cap = written.extract 0 cap := by
  rw [ByteArray.extract_append, Nat.sub_eq_zero_of_le h, Nat.zero_sub, ByteArray.extract_same, ByteArray.append_empty]

theorem extract_append_of_ge {written tail : ByteArray} {cap : Nat} (h : written.size ≤ cap) :
    (written ++ tail).extract 0 cap = written ++ tail.extract 0 (cap - written.size) := by
  obtain ⟨room, rfl⟩ := Nat.exists_eq_add_of_le h
  rw [ByteArray.extract_eq_extract_append_extract written.size (Nat.zero_le _) h, ByteArray.extract_append_eq_left rfl,
    Nat.add_sub_cancel_left]
  exact congrArg (written ++ ·) (@ByteArray.extract_append_size_add written tail 0 room)

/-- A print that evaluation comes to has its value, at this machine, and the output fits so far, but not with the line
    of that value. -/
def Moment.Spills (c : Context) (cap : Nat) (start : Moment) (m : Machine) : Prop :=
  ∃ n e v m₁, Visits c start ⟨n + 1, .stmt (.print e), m₁⟩ ∧ Eval.expr c n e m₁ = .ok v m ∧ m.Fits cap ∧
    cap < (m.sink.written ++ (v.display ++ "\n").toUTF8).size

theorem Moment.Spills.enter {c : Context} {cap : Nat} {start start' : Moment} {m : Machine} (h : Spills c cap start' m)
    (he : Enters c start start') : Spills c cap start m := by
  obtain ⟨n, e, v, m₁, hv, hrest⟩ := h
  exact ⟨n, e, v, m₁, .enter he hv, hrest⟩

namespace Eval
open Moment

/-- The result with a limited sink. -/
def limitResult {α : Type} (cap : Nat) : EStateM.Result Stop Machine α → EStateM.Result Stop Machine α
  | .ok a m => .ok a (m.limited cap)
  | .error stop m => .error stop (m.limited cap)

/-- What a limit does to a step that begins with a sink that takes all. -/
structure Cut {α : Type} (c : Context) (cap : Nat) (start : Moment) (x : Eval α) (m : Machine) : Prop where
  proceeds : m.Proceeds (x.final m)
  fits : m.sink.room = none → (x.final m).sink.written.size ≤ cap → x (m.limited cap) = limitResult cap (x m)
  spills : m.Fits cap → cap < (x.final m).sink.written.size → ∃ m', Spills c cap start m' ∧
    x (m.limited cap) = .error (.sink .full) (m'.spilled cap (x.final m).sink.written m)

namespace Cut
variable {c : Context} {cap : Nat} {start start' : Moment} {α β : Type} {x : Eval α} {m : Machine}

theorem enter (h : Cut c cap start' x m) (he : Enters c start start') : Cut c cap start x m where
  proceeds := h.proceeds
  fits := h.fits
  spills hm hcap := by
    obtain ⟨m', hspills, hx⟩ := h.spills hm hcap
    exact ⟨m', hspills.enter he, hx⟩

/-- What does not print does not know of the limit. -/
theorem silent (hproceeds : m.Proceeds (x.final m)) (hsink : (x.final m).sink = m.sink)
    (hx : x (m.limited cap) = limitResult cap (x m)) : Cut c cap start x m where
  proceeds := hproceeds
  fits _ _ := hx
  spills hm hcap := by
    rw [hsink] at hcap
    exact absurd hm.size (Nat.not_le_of_lt hcap)

theorem pure (a : α) : Cut c cap start (Pure.pure a) m :=
  .silent ((Machine.Proceeds.respected c).refl m) rfl rfl

theorem fail (e : RuntimeError) : Cut c cap start (Eval.fail e : Eval α) m :=
  .silent ((Machine.Proceeds.respected c).refl m) rfl rfl

theorem bind {f : α → Eval β} (hx : Cut c cap start x m)
    (hf : ∀ a m', x m = .ok a m' → Cut c cap start (f a) m') : Cut c cap start (x >>= f) m := by
  have hproceeds : m.Proceeds ((x >>= f).final m) :=
    final_bind (Machine.Proceeds.respected c).trans hx.proceeds fun a m' h => (hf a m' h).proceeds
  cases hxm : x m with
  | error stop m' =>
    have hfinal : (x >>= f).final m = x.final m := (final_bind_of_error hxm).trans (final_of_error hxm).symm
    refine ⟨hproceeds, fun hm hcap => ?_, fun hm hcap => ?_⟩ <;> rw [hfinal] at hcap
    · have hlimited := hx.fits hm hcap
      rw [hxm] at hlimited
      rw [bind_of_error hlimited, bind_of_error hxm]
      rfl
    · obtain ⟨m₁, hspills, hlimited⟩ := hx.spills hm hcap
      rw [hfinal]
      exact ⟨m₁, hspills, bind_of_error hlimited⟩
  | ok a m' =>
    have hnext := hf a m' hxm
    have hm' : m.Proceeds m' := final_of_ok hxm ▸ hx.proceeds
    have hsame : (m'.sink.written.size ≤ cap → m.sink.room = none → x (m.limited cap) = .ok a (m'.limited cap)) := by
      intro hsize hroom
      have hlimited := hx.fits hroom (final_of_ok hxm ▸ hsize)
      rwa [hxm] at hlimited
    refine ⟨hproceeds, fun hm hcap => ?_, fun hm hcap => ?_⟩ <;> rw [final_bind_of_ok hxm] at *
    · rw [bind_of_ok (hsame (Nat.le_trans hnext.proceeds.prints.size_le hcap) hm), bind_of_ok hxm]
      exact hnext.fits (hm'.room hm) hcap
    · by_cases hsize : m'.sink.written.size ≤ cap
      · obtain ⟨m₁, hspills, hlimited⟩ := hnext.spills ⟨hm'.room hm.room, hsize⟩ hcap
        refine ⟨m₁, hspills, ?_⟩
        rw [bind_of_ok (hsame hsize hm.room), hlimited, hm'.spilled_eq]
      · -- The line that does not fit is in `x` already.
        have hlt : cap < m'.sink.written.size := Nat.lt_of_not_le hsize
        obtain ⟨m₁, hspills, hlimited⟩ := hx.spills hm (final_of_ok hxm ▸ hlt)
        obtain ⟨tail, htail⟩ := hnext.proceeds.prints.written
        refine ⟨m₁, hspills, ?_⟩
        rw [bind_of_error hlimited, final_of_ok hxm, htail]
        unfold Machine.spilled
        rw [extract_append_of_le (Nat.le_of_lt hlt)]

theorem inFrame {frame : Frame}
    (h : Cut c cap start x { m with frames := m.frames.push frame, current := m.frames.next }) :
    Cut c cap start (Eval.inFrame frame x) m where
  proceeds := (Machine.Proceeds.respected c).inFrame_final h.proceeds
  fits hm hcap := by
    rw [final_inFrame] at hcap
    have hlimited := h.fits hm hcap
    cases hx : x { m with frames := m.frames.push frame, current := m.frames.next } with
    | ok a m' =>
      rw [hx] at hlimited
      rw [inFrame_of_ok hx]
      exact inFrame_of_ok (m := m.limited cap) hlimited
    | error stop m' =>
      rw [hx] at hlimited
      rw [inFrame_of_error hx]
      exact inFrame_of_error (m := m.limited cap) hlimited
  spills hm hcap := by
    rw [final_inFrame] at hcap ⊢
    obtain ⟨m', hspills, hlimited⟩ := h.spills ⟨hm.room, hm.size⟩ hcap
    exact ⟨m', hspills, inFrame_of_error (m := m.limited cap) hlimited⟩

theorem inBlock
    (h : Cut c cap start x { m with frames := m.frames.push (.empty (some m.current)), current := m.frames.next }) :
    Cut c cap start (Eval.inBlock x) m :=
  have hframe := h.inFrame
  ⟨hframe.proceeds, hframe.fits, hframe.spills⟩

theorem asCall {paren : Token} (h : m.depth < maxDepth → Cut c cap start x { m with depth := m.depth + 1 }) :
    Cut c cap start (Eval.asCall paren x) m := by
  by_cases hdepth : m.depth < maxDepth
  · have hx := h hdepth
    refine ⟨(Machine.Proceeds.respected c).asCall_final hx.proceeds, fun hm hcap => ?_, fun hm hcap => ?_⟩ <;>
      rw [final_asCall_of_lt paren x hdepth] at *
    · have hlimited := hx.fits hm hcap
      cases hxm : x { m with depth := m.depth + 1 } with
      | ok a m' =>
        rw [hxm] at hlimited
        rw [asCall_of_ok hdepth hxm]
        exact asCall_of_ok (m := m.limited cap) hdepth hlimited
      | error stop m' =>
        rw [hxm] at hlimited
        rw [asCall_of_error hdepth hxm]
        exact asCall_of_error (m := m.limited cap) hdepth hlimited
    · obtain ⟨m', hspills, hlimited⟩ := hx.spills ⟨hm.room, hm.size⟩ hcap
      exact ⟨m', hspills, asCall_of_error (m := m.limited cap) hdepth hlimited⟩
  · have hle : maxDepth ≤ m.depth := Nat.le_of_not_lt hdepth
    have hfinal := final_asCall_of_le paren x hle
    refine .silent (hfinal.symm ▸ (Machine.Proceeds.respected c).refl m) (congrArg Machine.sink hfinal) ?_
    rw [asCall_of_le hle]
    exact asCall_of_le (m := m.limited cap) hle

/-! ### The elementary steps -/

theorem ofExcept (result : Except RuntimeError α) : Cut c cap start (Eval.ofExcept result) m := by
  cases result with
  | ok a => exact .pure a
  | error e => exact .fail e

theorem read (id : ExprId) (name : Token) : Cut c cap start (Eval.read c id name) m := by
  refine .silent (final_read.symm ▸ (Machine.Proceeds.respected c).refl m) (congrArg Machine.sink final_read) ?_
  unfold Eval.read Machine.limited
  dsimp only
  cases c.access.get? m.frames m.current id name.lexeme <;> rfl

theorem assign (id : ExprId) (name : Token) (v : Value) : Cut c cap start (Eval.assign c id name v) m := by
  refine .silent ((Machine.Proceeds.respected c).assign_final id name v) ?_ ?_
  · rw [final, assign_apply]
    cases c.access.assign? m.frames m.current id name.lexeme v <;> rfl
  · rw [assign_apply, assign_apply]
    unfold Machine.limited
    dsimp only
    cases c.access.assign? m.frames m.current id name.lexeme v <;> rfl

theorem define (name : Token) (v : Value) : Cut c cap start (Eval.define name v) m :=
  .silent ((Machine.Proceeds.respected c).define m name.lexeme v) rfl rfl

theorem declare (decl : FunctionDecl) : Cut c cap start (Eval.declare decl) m :=
  .silent ((Machine.Proceeds.respected c).declare_final decl) rfl rfl

theorem callHost (f : HostFunction) (arguments : List Value) (paren : Token) :
    Cut c cap start (Eval.callHost c f arguments paren) m := by
  refine .silent ((Machine.Proceeds.respected c).callHost_final f arguments paren) ?_ ?_
  · rw [final_callHost]
  · rw [callHost_apply, callHost_apply]
    unfold Machine.limited
    dsimp only
    cases c.host m.hostCalls f.key arguments <;> rfl

/-- A line that does not fit is cut, if it is the line of a print that evaluation comes to. -/
theorem printLine {text : String} (hspills : m.Fits cap → cap < (m.sink.written ++ (text ++ "\n").toUTF8).size →
    Spills c cap start m) : Cut c cap start (Eval.printLine text) m where
  proceeds := (Machine.Proceeds.respected c).printLine_final text
  fits hm hcap := by
    rw [final_printLine, Sink.write_of_none hm] at hcap
    have hsize : m.sink.written.size + (text ++ "\n").toUTF8.size ≤ cap := ByteArray.size_append ▸ hcap
    have hwrite := Sink.write_of_le (s := (m.limited cap).sink) rfl (Nat.le_sub_of_add_le' hsize)
    rw [printLine_apply, printLine_apply, hwrite, Sink.write_of_none hm]
    simp only [limitResult, Machine.limited, ByteArray.size_append, Nat.sub_sub]
  spills hm hcap := by
    rw [final_printLine, Sink.write_of_none hm.room] at hcap ⊢
    refine ⟨m, hspills hm hcap, ?_⟩
    have hsize : cap < m.sink.written.size + (text ++ "\n").toUTF8.size := ByteArray.size_append ▸ hcap
    have hlt : cap - m.sink.written.size < (text ++ "\n").toUTF8.size := Nat.sub_lt_left_of_lt_add hm.size hsize
    have hwrite := Sink.write_of_lt (s := (m.limited cap).sink) rfl hlt
    rw [printLine_apply, hwrite]
    unfold Machine.spilled
    rw [extract_append_of_ge hm.size]
    rfl

end Cut

/-! ### All of evaluation -/

/-- With this fuel, a limit cuts evaluation where a line does not fit. -/
structure Cuts (c : Context) (cap n : Nat) : Prop where
  expr : ∀ e m, Cut c cap ⟨n, .expr e, m⟩ (Eval.expr c n e) m
  exprs : ∀ done es m, Cut c cap ⟨n, .exprs done es, m⟩ (Eval.exprs c n done es) m
  call : ∀ f arguments paren m, Cut c cap ⟨n, .call f arguments paren, m⟩ (Eval.call c n f arguments paren) m
  invoke : ∀ f arguments paren m, Cut c cap ⟨n, .invoke f arguments paren, m⟩ (Eval.invoke c n f arguments paren) m
  stmt : ∀ s m, Cut c cap ⟨n, .stmt s, m⟩ (Eval.stmt c n s) m
  stmts : ∀ ss m, Cut c cap ⟨n, .stmts ss, m⟩ (Eval.stmts c n ss) m
  loop : ∀ condition body m, Cut c cap ⟨n, .loop condition body, m⟩ (Eval.loop c n condition body) m

namespace Cuts
variable {c : Context} {cap n : Nat} (ih : Cuts c cap n)
include ih

theorem expr_succ (e : Expr) (m : Machine) : Cut c cap ⟨n + 1, .expr e, m⟩ (Eval.expr c (n + 1) e) m := by
  cases e with
  | literal v => exact .pure _
  | grouping e => exact (ih.expr e m).enter .grouping
  | unary operator right => exact ((ih.expr right m).enter .operand).bind fun v m' _ => .ofExcept _
  | binary left operator right =>
    refine ((ih.expr left m).enter .left).bind fun l m' hl => ?_
    exact ((ih.expr right m').enter (.right hl)).bind fun r m'' _ => .ofExcept _
  | logical left operator right =>
    refine ((ih.expr left m).enter .leftLogical).bind fun l m' hl => ?_
    cases hop : Operator.decides operator l with
    | true => exact .pure l
    | false => exact (ih.expr right m').enter (.rightLogical hl hop)
  | var id name => exact .read id name
  | assign id name value =>
    exact ((ih.expr value m).enter .value).bind fun v m' _ => (Cut.assign id name v).bind fun _ m'' _ => .pure v
  | call callee paren arguments =>
    refine ((ih.expr callee m).enter .callee).bind fun f m' hf => ?_
    refine ((ih.exprs #[] arguments m').enter (.arguments hf)).bind fun vs m'' hvs => ?_
    exact (ih.call f vs.toList paren m'').enter (.call hf hvs)

theorem exprs_succ (done : Array Value) (es : List Expr) (m : Machine) :
    Cut c cap ⟨n + 1, .exprs done es, m⟩ (Eval.exprs c (n + 1) done es) m := by
  cases es with
  | nil => exact .pure done
  | cons e rest =>
    refine ((ih.expr e m).enter .first).bind fun v m' hv => ?_
    exact (ih.exprs (done.push v) rest m').enter (.rest hv)

theorem call_succ (f : Value) (arguments : List Value) (paren : Token) (m : Machine) :
    Cut c cap ⟨n + 1, .call f arguments paren, m⟩ (Eval.call c (n + 1) f arguments paren) m := by
  rw [Eval.call]
  split
  · exact .fail _
  · rename_i arity harity
    split
    · exact .fail _
    · rename_i hlength
      have hlength : arguments.length = arity := Decidable.not_not.mp hlength
      subst hlength
      exact .asCall fun hdepth => (ih.invoke f arguments paren _).enter (.invoke harity hdepth)

theorem invoke_succ (f : Value) (arguments : List Value) (paren : Token) (m : Machine) :
    Cut c cap ⟨n + 1, .invoke f arguments paren, m⟩ (Eval.invoke c (n + 1) f arguments paren) m := by
  cases f with
  | host f => exact .callHost f arguments paren
  | function f => exact (Cut.inFrame ((ih.stmts f.decl.body _).enter .body)).bind fun flow m' _ => .pure flow.result
  | nil | bool _ | number _ | string _ => exact .fail _

theorem stmt_succ (s : Stmt) (m : Machine) : Cut c cap ⟨n + 1, .stmt s, m⟩ (Eval.stmt c (n + 1) s) m := by
  cases s with
  | expression e => exact ((ih.expr e m).enter .expression).bind fun _ m' _ => .pure _
  | print e =>
    refine ((ih.expr e m).enter .print).bind fun v m' hv =>
      Cut.bind (.printLine fun hm hcap => ?_) fun _ m'' _ => .pure _
    exact ⟨n, e, v, m, .here, hv, hm, hcap⟩
  | var name initializer =>
    cases initializer with
    | none => exact (Cut.define name .nil).bind fun _ m' _ => .pure _
    | some e =>
      exact ((ih.expr e m).enter .initializer).bind fun v m' _ => (Cut.define name v).bind fun _ m'' _ => .pure _
  | block body => exact .inBlock ((ih.stmts body _).enter .block)
  | branch condition yes no =>
    refine ((ih.expr condition m).enter .condition).bind fun v m' hc => ?_
    cases hv : v.isTruthy with
    | true => exact (ih.stmt yes m').enter (.yes hc hv)
    | false =>
      cases no with
      | none => exact .pure _
      | some s => exact (ih.stmt s m').enter (.no hc hv)
  | loop condition body => exact (ih.loop condition body m).enter .loop
  | function name parameters body => exact (Cut.declare ⟨name, parameters, body⟩).bind fun _ m' _ => .pure _
  | ret keyword value =>
    cases value with
    | none => exact .pure _
    | some e => exact ((ih.expr e m).enter .result).bind fun v m' _ => .pure _

theorem stmts_succ (ss : List Stmt) (m : Machine) : Cut c cap ⟨n + 1, .stmts ss, m⟩ (Eval.stmts c (n + 1) ss) m := by
  cases ss with
  | nil => exact .pure _
  | cons s rest =>
    refine ((ih.stmt s m).enter .stmt).bind fun flow m' hs => ?_
    cases flow with
    | normal => exact (ih.stmts rest m').enter (.stmts hs)
    | returned v => exact .pure _

theorem loop_succ (condition : Expr) (body : Stmt) (m : Machine) :
    Cut c cap ⟨n + 1, .loop condition body, m⟩ (Eval.loop c (n + 1) condition body) m := by
  refine ((ih.expr condition m).enter .test).bind fun v m' hc => ?_
  cases hv : v.isTruthy with
  | false => exact .pure _
  | true =>
    refine ((ih.stmt body m').enter (.round hc hv)).bind fun flow m'' hs => ?_
    cases flow with
    | normal => exact (ih.loop condition body m'').enter (.again hc hv hs)
    | returned v => exact .pure _

end Cuts

section
variable {c : Context} {cap : Nat}

theorem cuts : ∀ n, Cuts c cap n
  | 0 => by constructor <;> intros <;> exact .silent ((Machine.Proceeds.respected c).refl _) rfl rfl
  | n + 1 =>
    have ih := cuts n
    { expr := ih.expr_succ
      exprs := ih.exprs_succ
      call := ih.call_succ
      invoke := ih.invoke_succ
      stmt := ih.stmt_succ
      stmts := ih.stmts_succ
      loop := ih.loop_succ }

theorem program_cut (n : Nat) : ∀ (program : List Stmt) (m : Machine),
    Cut c cap ⟨n, .program program, m⟩ (Eval.program c n program) m
  | [], _ => .pure ()
  | s :: rest, m =>
    (((cuts n).stmt s m).enter .begin).bind fun _ m' hs => (program_cut n rest m').enter (.proceed hs)

end
end Eval
end Lox
