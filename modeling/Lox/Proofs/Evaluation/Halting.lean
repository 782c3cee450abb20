import Lox.Proofs.Evaluation.Origins
import Lox.Proofs.Parsing.LoopFree

/-! # Evaluation without loops

Without loops, evaluation comes to an end, whatever the functions call: from some amount of fuel on it has one
result, and does not stop for want of fuel (`Halts`). A call jumps to a body that is no part of the code around it,
but with one more active call, and there is a limit to those. So the induction is first on how many calls may still
begin (`callsHalt`), and for each number on the code (`expr_halts`, `stmt_halts`). -/

namespace Lox

/-! ### Functions without loops -/

/-- There is no loop in the body. -/
def FunctionDecl.LoopFree (d : FunctionDecl) : Prop := Stmt.LoopFreeAll d.body

mutual

theorem Stmt.LoopFree.decls : ∀ {s : Stmt}, s.LoopFree → ∀ d ∈ s.decls, d.LoopFree
  | .function name parameters body, h, d, hd => by
    rcases List.mem_cons.mp hd with rfl | hd
    · exact h
    · exact Stmt.LoopFreeAll.decls h d hd
  | .block body, h, d, hd => Stmt.LoopFreeAll.decls h d hd
  | .branch _ yes no, h, d, hd =>
    (List.mem_append.mp hd).elim (Stmt.LoopFree.decls h.1 d) (Stmt.LoopFree?.decls h.2 d)
  | .loop _ _, h, _, _ => h.elim
  | .expression _, _, _, hd | .print _, _, _, hd | .var _ _, _, _, hd | .ret _ _, _, _, hd => nomatch hd

theorem Stmt.LoopFree?.decls : ∀ {s : Option Stmt}, Stmt.LoopFree? s → ∀ d ∈ Stmt.decls? s, d.LoopFree
  | none, _, _, hd => nomatch hd
  | some _, h, d, hd => Stmt.LoopFree.decls h d hd

theorem Stmt.LoopFreeAll.decls : ∀ {ss : List Stmt}, Stmt.LoopFreeAll ss → ∀ d ∈ Stmt.declsAll ss, d.LoopFree
  | [], _, _, hd => nomatch hd
  | _ :: _, h, d, hd => (List.mem_append.mp hd).elim (Stmt.LoopFree.decls h.1 d) (Stmt.LoopFreeAll.decls h.2 d)

end

theorem FunctionDecl.inherited_loopFree : FunctionDecl.Inherited FunctionDecl.LoopFree :=
  fun _ h => Stmt.LoopFreeAll.decls h

namespace Eval

/-! ### Results that more fuel does not change -/

/-- From some amount of fuel on, there is one result, and it is not that fuel was wanting. -/
def Halts {α : Type} (x : Nat → Eval α) (m : Machine) : Prop :=
  ∃ N r, (∀ n, N ≤ n → x n m = r) ∧ ∀ m', r ≠ .error .outOfFuel m'

section
variable {α β : Type} {x : Nat → Eval α} {m : Machine}

/-- What takes no fuel does not want it. -/
theorem Halts.const {x : Eval α} (h : ∀ m', x m ≠ .error .outOfFuel m') : Halts (fun _ => x) m :=
  ⟨0, x m, fun _ _ => rfl, h⟩

theorem Halts.pure (a : α) : Halts (fun _ => Pure.pure a) m := .const nofun

/-- The first unit of fuel does not count. -/
theorem Halts.succ (h : Halts (fun n => x (n + 1)) m) : Halts x m := by
  obtain ⟨N, r, hx, hr⟩ := h
  refine ⟨N + 1, r, fun n hn => ?_, hr⟩
  obtain ⟨k, rfl⟩ := Nat.exists_eq_add_of_le hn
  rw [Nat.add_right_comm]
  exact hx (N + k) (Nat.le_add_right N k)

theorem Halts.bind {f : α → Nat → Eval β} (hx : Halts x m)
    (hf : ∀ n a m', x n m = .ok a m' → Halts (f a) m') : Halts (fun n => x n >>= fun a => f a n) m := by
  obtain ⟨N, r, hxr, hr⟩ := hx
  cases r with
  | ok a m' =>
    obtain ⟨N', r', hfr, hr'⟩ := hf N a m' (hxr N (Nat.le_refl N))
    exact ⟨max N N', r', fun n hn => (bind_of_ok (hxr n (Nat.le_trans (Nat.le_max_left N N') hn))).trans
      (hfr n (Nat.le_trans (Nat.le_max_right N N') hn)), hr'⟩
  | error stop m' =>
    exact ⟨N, .error stop m', fun n hn => bind_of_error (hxr n hn), fun m'' h => hr m' (by cases h; rfl)⟩

theorem Halts.inFrame {frame : Frame}
    (h : Halts x { m with frames := m.frames.push frame, current := m.frames.next }) :
    Halts (fun n => Eval.inFrame frame (x n)) m := by
  obtain ⟨N, r, hx, hr⟩ := h
  cases r with
  | ok a m' =>
    exact ⟨N, .ok a { m' with current := m.current }, fun n hn => (inFrame_apply frame (x n)).trans (by rw [hx n hn]),
      nofun⟩
  | error stop m' =>
    refine ⟨N, _, fun n hn => (inFrame_apply frame (x n)).trans (by rw [hx n hn]), fun m'' h => ?_⟩
    exact hr m' (by cases h; rfl)

/-- At the limit a call ends at once. -/
theorem Halts.asCall {paren : Token} (h : m.depth < maxDepth → Halts x { m with depth := m.depth + 1 }) :
    Halts (fun n => Eval.asCall paren (x n)) m := by
  by_cases hdepth : m.depth < maxDepth
  · obtain ⟨N, r, hx, hr⟩ := h hdepth
    have happly := fun n => (asCall_apply (m := m) paren (x n)).trans (if_neg (Nat.not_le_of_lt hdepth))
    cases r with
    | ok a m' =>
      exact ⟨N, .ok a { m' with depth := m'.depth - 1 }, fun n hn => (happly n).trans (by rw [hx n hn]), nofun⟩
    | error stop m' =>
      refine ⟨N, _, fun n hn => (happly n).trans (by rw [hx n hn]), fun m'' h => ?_⟩
      exact hr m' (by cases h; rfl)
  · exact ⟨0, _, fun n _ => (asCall_apply paren (x n)).trans (if_pos (Nat.le_of_not_lt hdepth)), nofun⟩

end

/-! ### The elementary steps -/

section
variable {α : Type} {c : Context} {m m' : Machine}

theorem fail_fueled (e : RuntimeError) : (Eval.fail e : Eval α) m ≠ .error .outOfFuel m' := nofun

theorem ofExcept_fueled (result : Except RuntimeError α) : Eval.ofExcept result m ≠ .error .outOfFuel m' := by
  cases result <;> nofun

theorem read_fueled (id : ExprId) (name : Token) : Eval.read c id name m ≠ .error .outOfFuel m' := by
  unfold Eval.read
  split <;> nofun

theorem assign_fueled (id : ExprId) (name : Token) (v : Value) : Eval.assign c id name v m ≠ .error .outOfFuel m' := by
  rw [assign_apply]
  split <;> nofun

theorem callHost_fueled (f : HostFunction) (arguments : List Value) (paren : Token) :
    Eval.callHost c f arguments paren m ≠ .error .outOfFuel m' := by
  rw [callHost_apply]
  split <;> nofun

theorem printLine_fueled (text : String) : Eval.printLine text m ≠ .error .outOfFuel m' := by
  rw [printLine_apply]
  split <;> nofun

end

/-! ### At one depth -/

/-- As many calls are active, and there is no loop in the functions that frames hold. -/
structure Level (d : Nat) (m : Machine) : Prop where
  depth : m.depth = d
  frames : m.frames.Obey FunctionDecl.LoopFree

/-- The host makes no loops, and calls come to an end while as many others are active. -/
structure CallsHalt (c : Context) (d : Nat) : Prop where
  host : c.host.Obeys FunctionDecl.LoopFree
  call : ∀ (f : Value) (arguments : List Value) (paren : Token) (m : Machine), Level d m →
    f.Obeys FunctionDecl.LoopFree → (∀ v ∈ arguments, v.Obeys FunctionDecl.LoopFree) →
    Halts (fun n => Eval.call c n f arguments paren) m

section
variable {c : Context} {d n : Nat} {m m' : Machine}

/-- The machine that a step leads to is at the level of the one before. -/
theorem Level.later {α : Type} {x : Eval α} {a : α} (h : Level d m) (hkeeps : m.Keeps (x.final m))
    (hok : x m = .ok a m') (hframes : m'.frames.Obey FunctionDecl.LoopFree) : Level d m' := by
  rw [final_of_ok hok] at hkeeps
  exact ⟨hkeeps.depth.trans h.depth, hframes⟩

variable (hhost : c.host.Obeys FunctionDecl.LoopFree)
include hhost

theorem Level.expr {e : Expr} {v : Value} (h : Level d m) (hok : Eval.expr c n e m = .ok v m') :
    Level d m' ∧ v.Obeys FunctionDecl.LoopFree := by
  obtain ⟨hframes, hv⟩ := expr_obeys FunctionDecl.inherited_loopFree hhost h.frames hok
  exact ⟨h.later (((Machine.Keeps.respected c).ends n).expr e m) hok hframes, hv⟩

theorem Level.exprs {es : List Expr} {vs : Array Value} (h : Level d m) (hok : Eval.exprs c n #[] es m = .ok vs m') :
    Level d m' ∧ ∀ v ∈ vs.toList, v.Obeys FunctionDecl.LoopFree := by
  obtain ⟨hframes, hvs⟩ := exprs_obeys FunctionDecl.inherited_loopFree hhost h.frames hok
  exact ⟨h.later (((Machine.Keeps.respected c).ends n).exprs #[] es m) hok hframes, hvs⟩

theorem Level.stmt {s : Stmt} {flow : Flow} (h : Level d m) (hs : s.LoopFree) (hok : Eval.stmt c n s m = .ok flow m') :
    Level d m' :=
  h.later (((Machine.Keeps.respected c).ends n).stmt s m) hok
    (stmt_obeys FunctionDecl.inherited_loopFree hhost h.frames hs.decls hok)

end

mutual

theorem expr_halts {c : Context} {d : Nat} (hc : CallsHalt c d) : ∀ (e : Expr) {m : Machine}, Level d m →
    Halts (fun n => Eval.expr c n e) m
  | .literal v, _, _ => .succ (.pure _)
  | .grouping e, _, h => .succ (expr_halts hc e h)
  | .unary operator right, _, h =>
    .succ ((expr_halts hc right h).bind fun _ v _ _ => .const fun _ => ofExcept_fueled (Operator.unary operator v))
  | .binary left operator right, _, h =>
    .succ ((expr_halts hc left h).bind fun _ l _ hl => (expr_halts hc right (h.expr hc.host hl).1).bind fun _ r _ _ =>
      .const fun _ => ofExcept_fueled (Operator.binary operator l r))
  | .logical left operator right, _, h => by
    refine .succ ((expr_halts hc left h).bind fun _ l m' hl => ?_)
    split
    · exact .pure l
    · exact expr_halts hc right (h.expr hc.host hl).1
  | .var id name, _, _ => .succ (.const fun _ => read_fueled id name)
  | .assign id name value, _, h =>
    .succ ((expr_halts hc value h).bind fun _ v _ _ =>
      (Halts.const fun _ => assign_fueled id name v).bind fun _ _ _ _ => .pure v)
  | .call callee paren arguments, _, h => by
    refine .succ ((expr_halts hc callee h).bind fun _ f m' hf => ?_)
    obtain ⟨h', hf'⟩ := h.expr hc.host hf
    refine (exprs_halts hc arguments #[] h').bind fun _ vs m'' hvs => ?_
    obtain ⟨h'', hvs'⟩ := h'.exprs hc.host hvs
    exact hc.call f vs.toList paren m'' h'' hf' hvs'

theorem exprs_halts {c : Context} {d : Nat} (hc : CallsHalt c d) :
    ∀ (es : List Expr) (done : Array Value) {m : Machine},
    Level d m → Halts (fun n => Eval.exprs c n done es) m
  | [], done, _, _ => .succ (.pure done)
  | e :: rest, done, _, h =>
    .succ ((expr_halts hc e h).bind fun _ v _ hv => exprs_halts hc rest (done.push v) (h.expr hc.host hv).1)

end

mutual

theorem stmt_halts {c : Context} {d : Nat} (hc : CallsHalt c d) : ∀ (s : Stmt) {m : Machine}, s.LoopFree → Level d m →
    Halts (fun n => Eval.stmt c n s) m
  | .expression e, _, _, h => .succ ((expr_halts hc e h).bind fun _ _ _ _ => .pure _)
  | .print e, _, _, h =>
    .succ ((expr_halts hc e h).bind fun _ v _ _ =>
      (Halts.const fun _ => printLine_fueled v.display).bind fun _ _ _ _ => .pure _)
  | .var _ none, _, _, _ => .succ (.const nofun)
  | .var _ (some e), _, _, h => .succ ((expr_halts hc e h).bind fun _ _ _ _ => .const nofun)
  | .block body, m, hs, h => by
    have hframe : (m.frames.push (.empty (some m.current))).Obey FunctionDecl.LoopFree :=
      h.frames.push fun name v hv => by cases hv
    have hbody : Level d { m with frames := m.frames.push (.empty (some m.current)), current := m.frames.next } :=
      ⟨h.depth, hframe⟩
    exact .succ (stmts_halts hc body hs hbody).inFrame
  | .branch condition yes no, _, hs, h => by
    refine .succ ((expr_halts hc condition h).bind fun _ v m' hv => ?_)
    split
    · exact stmt_halts hc yes hs.1 (h.expr hc.host hv).1
    · cases no with
      | none => exact .pure _
      | some s => exact stmt_halts hc s hs.2 (h.expr hc.host hv).1
  | .loop _ _, _, hs, _ => hs.elim
  | .function _ _ _, _, _, _ => .succ (.const nofun)
  | .ret _ none, _, _, _ => .succ (.pure _)
  | .ret _ (some e), _, _, h => .succ ((expr_halts hc e h).bind fun _ _ _ _ => .pure _)

theorem stmts_halts {c : Context} {d : Nat} (hc : CallsHalt c d) : ∀ (ss : List Stmt) {m : Machine},
    Stmt.LoopFreeAll ss → Level d m → Halts (fun n => Eval.stmts c n ss) m
  | [], _, _, _ => .succ (.pure _)
  | s :: rest, _, hss, h => by
    refine .succ ((stmt_halts hc s hss.1 h).bind fun _ flow m' hok => ?_)
    cases flow with
    | normal => exact stmts_halts hc rest hss.2 (h.stmt hc.host hss.1 hok)
    | returned v => exact .pure _

end

/-! ### At all depths -/

section
variable {c : Context} (hhost : c.host.Obeys FunctionDecl.LoopFree)
include hhost

/-- A call comes to an end if those do that have one more active. -/
theorem CallsHalt.pred {d : Nat} (h : d < maxDepth → CallsHalt c (d + 1)) : CallsHalt c d where
  host := hhost
  call f arguments paren m hm hf hargs := by
    refine .succ ?_
    simp only [Eval.call]
    split
    · exact .const fun _ => fail_fueled _
    split
    · exact .const fun _ => fail_fueled _
    refine .asCall fun hdepth => .succ ?_
    cases f with
    | host f =>
      have hcall : Halts (fun _ => Eval.callHost c f arguments paren) { m with depth := m.depth + 1 } :=
        .const fun _ => callHost_fueled f arguments paren
      exact hcall
    | function f =>
      have hframe : (m.frames.push (f.callFrame arguments)).Obey FunctionDecl.LoopFree :=
        hm.frames.push fun name v hv => hargs v (Closure.of_get?_callFrame hv).2
      have hbody : Level (d + 1) { m with
          frames := m.frames.push (f.callFrame arguments), current := m.frames.next, depth := m.depth + 1 } :=
        ⟨congrArg (· + 1) hm.depth, hframe⟩
      have hhalts := stmts_halts (h (hm.depth ▸ hdepth)) f.decl.body (hf f rfl) hbody
      exact hhalts.inFrame.bind fun _ flow _ _ => .pure _
    | nil | bool _ | number _ | string _ => exact .const fun _ => fail_fueled _

/-- Calls come to an end, however many are active: at the limit at once, and below it because they do with one
    more. -/
theorem callsHalt (d : Nat) : CallsHalt c d := by
  have hleft : ∀ k d, maxDepth ≤ d + k → CallsHalt c d := by
    intro k
    induction k with
    | zero => exact fun d hd => .pred hhost fun hlt => absurd hd (Nat.not_le_of_lt hlt)
    | succ k ih => exact fun d hd => .pred hhost fun _ => ih (d + 1) (by omega)
  exact hleft maxDepth d (Nat.le_add_left maxDepth d)

/-- A program without loops comes to an end in a machine without loops. -/
theorem program_halts : ∀ (program : List Stmt) {m : Machine}, Stmt.LoopFreeAll program →
    m.frames.Obey FunctionDecl.LoopFree → Halts (fun n => Eval.program c n program) m
  | [], _, _, _ => .pure _
  | s :: rest, m, hprogram, hm =>
    have h : Level m.depth m := ⟨rfl, hm⟩
    (stmt_halts (callsHalt hhost m.depth) s hprogram.1 h).bind fun _ _ _ hok =>
      program_halts rest hprogram.2 (h.stmt hhost hprogram.1 hok).frames

end

end Eval
end Lox
