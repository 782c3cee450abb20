import Lox.Proofs.Evaluation.Effects

/-! # More fuel

With more fuel evaluation gives the result that it gave, or goes on where it ran out (`Longer`). What has been
written by then stays written: evaluation only ever adds to the output (`Machine.Prints`). So the outputs of a
program that does not end, for more and more fuel, are beginnings of one output. -/

namespace Lox

/-- What was written before is a beginning of what is written, and no flush was tried between. -/
structure Machine.Prints (m m' : Machine) : Prop where
  written : ∃ tail, m'.sink.written = m.sink.written ++ tail
  flushes : m'.sink.flushes = m.sink.flushes
  flushFails : m'.sink.flushFails = m.sink.flushFails

namespace Machine.Prints
variable {m m' m'' : Machine}

theorem of_sink (h : m'.sink = m.sink) : m.Prints m' :=
  ⟨⟨.empty, by rw [h, ByteArray.append_empty]⟩, congrArg Sink.flushes h, congrArg Sink.flushFails h⟩

theorem refl (m : Machine) : m.Prints m := of_sink rfl

theorem trans (h : m.Prints m') (h' : m'.Prints m'') : m.Prints m'' := by
  obtain ⟨tail, htail⟩ := h.written
  obtain ⟨tail', htail'⟩ := h'.written
  refine ⟨⟨tail ++ tail', ?_⟩, h'.flushes.trans h.flushes, h'.flushFails.trans h.flushFails⟩
  rw [htail', htail, ByteArray.append_assoc]

theorem size_le (h : m.Prints m') : m.sink.written.size ≤ m'.sink.written.size := by
  obtain ⟨tail, htail⟩ := h.written
  rw [htail, ByteArray.size_append]
  exact Nat.le_add_right _ _

theorem respected (context : Context) : Eval.Respected context Machine.Prints where
  refl := refl
  trans := trans
  assign _ := of_sink rfl
  define _ _ _ := of_sink rfl
  identity _ := of_sink rfl
  host _ := of_sink rfl
  print m text := by
    unfold Sink.write
    dsimp only
    split
    · exact ⟨⟨_, rfl⟩, rfl, rfl⟩
    · split <;> exact ⟨⟨_, rfl⟩, rfl, rfl⟩
  frame h := ⟨h.written, h.flushes, h.flushFails⟩
  call h := ⟨h.written, h.flushes, h.flushFails⟩

end Machine.Prints

namespace Eval

/-- The second step gives the result of the first, unless that runs out of fuel: then it adds to what that has
    written. -/
structure Prolongs {α : Type} (x x' : Eval α) : Prop where
  prints : ∀ m : Machine, m.Prints (x'.final m)
  result : ∀ m, x' m = x m ∨ ∃ m₁, x m = .error .outOfFuel m₁ ∧ m₁.Prints (x'.final m)

namespace Prolongs
variable {α β : Type} {x x' : Eval α} {c : Context}

theorem refl (h : ∀ m : Machine, m.Prints (x.final m)) : Prolongs x x := ⟨h, fun _ => .inl rfl⟩

theorem pure (a : α) : Prolongs (Pure.pure a) (Pure.pure a) := .refl Machine.Prints.refl

theorem outOfFuel (h : ∀ m : Machine, m.Prints (x.final m)) : Prolongs (throw .outOfFuel) x :=
  ⟨h, fun m => .inr ⟨m, rfl, h m⟩⟩

theorem bind {f f' : α → Eval β} (hx : Prolongs x x') (hf : ∀ a, Prolongs (f a) (f' a)) :
    Prolongs (x >>= f) (x' >>= f') where
  prints m := final_bind Machine.Prints.trans (hx.prints m) fun a m' _ => (hf a).prints m'
  result m := by
    rcases hx.result m with h | ⟨m₁, h, hprints⟩
    · cases hxm : x m with
      | ok a m' =>
        rw [bind_of_ok hxm, bind_of_ok (h.trans hxm), final_bind_of_ok (h.trans hxm)]
        exact (hf a).result m'
      | error stop m' => exact .inl ((bind_of_error (h.trans hxm)).trans (bind_of_error hxm).symm)
    · -- Out of fuel before `f`: the longer evaluation may go on behind.
      refine .inr ⟨m₁, bind_of_error h, ?_⟩
      cases hx'm : x' m with
      | ok a m' =>
        rw [final_bind_of_ok hx'm]
        exact (final_of_ok hx'm ▸ hprints).trans ((hf a).prints m')
      | error stop m' =>
        rw [final_bind_of_error hx'm]
        exact final_of_error hx'm ▸ hprints

theorem inFrame (frame : Frame) (h : Prolongs x x') : Prolongs (Eval.inFrame frame x) (Eval.inFrame frame x') where
  prints m := by
    rw [final_inFrame]
    exact ⟨(h.prints _).written, (h.prints _).flushes, (h.prints _).flushFails⟩
  result m := by
    rw [inFrame_apply, inFrame_apply, final_inFrame]
    rcases h.result { m with frames := m.frames.push frame, current := m.frames.next } with h | ⟨m₁, h, hprints⟩
    · exact .inl (by rw [h])
    · exact .inr ⟨{ m₁ with current := m.current }, by rw [h], ⟨hprints.written, hprints.flushes, hprints.flushFails⟩⟩

theorem inBlock (h : Prolongs x x') : Prolongs (Eval.inBlock x) (Eval.inBlock x') where
  prints m := (h.inFrame _).prints m
  result m := (h.inFrame _).result m

theorem asCall (paren : Token) (h : Prolongs x x') : Prolongs (Eval.asCall paren x) (Eval.asCall paren x') where
  prints m := by
    by_cases hdepth : m.depth < maxDepth
    · rw [final_asCall_of_lt paren x' hdepth]
      exact ⟨(h.prints _).written, (h.prints _).flushes, (h.prints _).flushFails⟩
    · rw [final_asCall_of_le paren x' (Nat.le_of_not_lt hdepth)]
      exact .refl m
  result m := by
    by_cases hdepth : m.depth < maxDepth
    · rw [asCall_apply, asCall_apply, if_neg (Nat.not_le_of_lt hdepth), if_neg (Nat.not_le_of_lt hdepth),
        final_asCall_of_lt paren x' hdepth]
      rcases h.result { m with depth := m.depth + 1 } with h | ⟨m₁, h, hprints⟩
      · exact .inl (by rw [h])
      · exact .inr
          ⟨{ m₁ with depth := m₁.depth - 1 }, by rw [h], ⟨hprints.written, hprints.flushes, hprints.flushFails⟩⟩
    · left
      rw [asCall_apply, asCall_apply, if_pos (Nat.le_of_not_lt hdepth), if_pos (Nat.le_of_not_lt hdepth)]

end Prolongs

/-! ### All of evaluation -/

/-- With the second amount of fuel, evaluation goes on where it runs out of the first. -/
structure Longer (c : Context) (n n' : Nat) : Prop where
  expr : ∀ e, Prolongs (Eval.expr c n e) (Eval.expr c n' e)
  exprs : ∀ done es, Prolongs (Eval.exprs c n done es) (Eval.exprs c n' done es)
  call : ∀ f arguments paren, Prolongs (Eval.call c n f arguments paren) (Eval.call c n' f arguments paren)
  invoke : ∀ f arguments paren, Prolongs (Eval.invoke c n f arguments paren) (Eval.invoke c n' f arguments paren)
  stmt : ∀ s, Prolongs (Eval.stmt c n s) (Eval.stmt c n' s)
  stmts : ∀ ss, Prolongs (Eval.stmts c n ss) (Eval.stmts c n' ss)
  loop : ∀ condition body, Prolongs (Eval.loop c n condition body) (Eval.loop c n' condition body)

namespace Longer
variable {c : Context} {n n' : Nat} (ih : Longer c n n')
include ih

theorem expr_succ (e : Expr) : Prolongs (Eval.expr c (n + 1) e) (Eval.expr c (n' + 1) e) := by
  have hR := Machine.Prints.respected c
  cases e with
  | literal v => exact .pure _
  | grouping e => exact ih.expr e
  | unary operator right =>
    exact (ih.expr right).bind fun v => .refl fun m => final_ofExcept.symm ▸ .refl m
  | binary left operator right =>
    exact (ih.expr left).bind fun l => (ih.expr right).bind fun r => .refl fun m => final_ofExcept.symm ▸ .refl m
  | logical left operator right =>
    refine (ih.expr left).bind fun l => ?_
    split
    · exact .pure l
    · exact ih.expr right
  | var id name =>
    have hread : ∀ m : Machine, m.Prints ((Eval.read c id name).final m) := fun m => final_read.symm ▸ .refl m
    exact .refl hread
  | assign id name value =>
    exact (ih.expr value).bind fun v => (Prolongs.refl fun m => hR.assign_final id name v).bind fun _ => .pure v
  | call callee paren arguments =>
    exact (ih.expr callee).bind fun f => (ih.exprs #[] arguments).bind fun vs => ih.call f vs.toList paren

theorem exprs_succ (done : Array Value) (es : List Expr) :
    Prolongs (Eval.exprs c (n + 1) done es) (Eval.exprs c (n' + 1) done es) := by
  cases es with
  | nil => exact .pure done
  | cons e rest => exact (ih.expr e).bind fun v => ih.exprs (done.push v) rest

theorem call_succ (f : Value) (arguments : List Value) (paren : Token) :
    Prolongs (Eval.call c (n + 1) f arguments paren) (Eval.call c (n' + 1) f arguments paren) := by
  rw [Eval.call, Eval.call]
  cases f.arity? with
  | none => exact .refl .refl
  | some arity =>
    dsimp only
    split
    · exact .refl .refl
    · exact (ih.invoke f arguments paren).asCall paren

theorem invoke_succ (f : Value) (arguments : List Value) (paren : Token) :
    Prolongs (Eval.invoke c (n + 1) f arguments paren) (Eval.invoke c (n' + 1) f arguments paren) := by
  cases f with
  | host f => exact .refl fun m => (Machine.Prints.respected c).callHost_final f arguments paren
  | function f => exact ((ih.stmts f.decl.body).inFrame (f.callFrame arguments)).bind fun flow => .pure flow.result
  | nil | bool _ | number _ | string _ => exact .refl .refl

theorem stmt_succ (s : Stmt) : Prolongs (Eval.stmt c (n + 1) s) (Eval.stmt c (n' + 1) s) := by
  have hR := Machine.Prints.respected c
  cases s with
  | expression e => exact (ih.expr e).bind fun _ => .pure _
  | print e =>
    exact (ih.expr e).bind fun v => (Prolongs.refl fun m => hR.printLine_final v.display).bind fun _ => .pure _
  | var name initializer =>
    cases initializer with
    | none => exact (Prolongs.refl (x := Eval.define name .nil) fun m => hR.define m _ _).bind fun _ => .pure _
    | some e =>
      refine (ih.expr e).bind fun v => ?_
      exact (Prolongs.refl (x := Eval.define name v) fun m => hR.define m _ _).bind fun _ => .pure _
  | block body => exact (ih.stmts body).inBlock
  | branch condition yes no =>
    refine (ih.expr condition).bind fun v => ?_
    split
    · exact ih.stmt yes
    · cases no with
      | none => exact .pure _
      | some s => exact ih.stmt s
  | loop condition body => exact ih.loop condition body
  | function name parameters body =>
    exact (Prolongs.refl fun m => hR.declare_final ⟨name, parameters, body⟩).bind fun _ => .pure _
  | ret keyword value =>
    cases value with
    | none => exact .pure _
    | some e => exact (ih.expr e).bind fun v => .pure _

theorem stmts_succ (ss : List Stmt) : Prolongs (Eval.stmts c (n + 1) ss) (Eval.stmts c (n' + 1) ss) := by
  cases ss with
  | nil => exact .pure _
  | cons s rest =>
    refine (ih.stmt s).bind fun flow => ?_
    cases flow with
    | normal => exact ih.stmts rest
    | returned v => exact .pure _

theorem loop_succ (condition : Expr) (body : Stmt) :
    Prolongs (Eval.loop c (n + 1) condition body) (Eval.loop c (n' + 1) condition body) := by
  refine (ih.expr condition).bind fun v => ?_
  split
  · refine (ih.stmt body).bind fun flow => ?_
    cases flow with
    | normal => exact ih.loop condition body
    | returned v => exact .pure _
  · exact .pure _

end Longer

section
variable {c : Context}

theorem longer : ∀ {n n' : Nat}, n ≤ n' → Longer c n n'
  | 0, n', _ => by
    have hends := (Machine.Prints.respected c).ends n'
    exact
      { expr := fun e => .outOfFuel (hends.expr e)
        exprs := fun done es => .outOfFuel (hends.exprs done es)
        call := fun f arguments paren => .outOfFuel (hends.call f arguments paren)
        invoke := fun f arguments paren => .outOfFuel (hends.invoke f arguments paren)
        stmt := fun s => .outOfFuel (hends.stmt s)
        stmts := fun ss => .outOfFuel (hends.stmts ss)
        loop := fun condition body => .outOfFuel (hends.loop condition body) }
  | n + 1, n' + 1, h =>
    have ih := longer (Nat.le_of_succ_le_succ h)
    { expr := ih.expr_succ
      exprs := ih.exprs_succ
      call := ih.call_succ
      invoke := ih.invoke_succ
      stmt := ih.stmt_succ
      stmts := ih.stmts_succ
      loop := ih.loop_succ }

theorem program_longer {n n' : Nat} (h : n ≤ n') (program : List Stmt) :
    Prolongs (Eval.program c n program) (Eval.program c n' program) := by
  induction program with
  | nil => exact .pure ()
  | cons s rest ih => exact ((longer h).stmt s).bind fun _ => ih

end
end Eval
end Lox
