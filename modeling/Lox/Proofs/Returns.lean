import Lox.Proofs.Evaluation.Calls
import Lox.Proofs.Resolution
import Lox.Session

/-! # Returns

A statement that ends with a return has executed one of the returns that stand in it, but not in a function
inside of it, and has executed it itself, not in a call (`Eval.returning`). Resolution refuses programs in which a
return stands outside of all functions, so no statement of an accepted program ends with one; what a function
returns goes to the expression that calls it, and no further (`returns_end_calls`). -/

namespace Lox

/-! ### The returns of a statement -/

mutual

/-- The returns in a statement, with their keywords and values, but for those of functions inside of it. -/
def Stmt.returns : Stmt → List (Token × Option Expr)
  | .ret keyword value => [(keyword, value)]
  | .block body => Stmt.returnsAll body
  | .branch _ yes no => yes.returns ++ Stmt.returns? no
  | .loop _ body => body.returns
  | .expression _ | .print _ | .var _ _ | .function _ _ _ => []

def Stmt.returns? : Option Stmt → List (Token × Option Expr)
  | none => []
  | some s => s.returns

def Stmt.returnsAll : List Stmt → List (Token × Option Expr)
  | [] => []
  | s :: ss => s.returns ++ Stmt.returnsAll ss

end

theorem Stmt.mem_returnsAll {r : Token × Option Expr} {s : Stmt} (hr : r ∈ s.returns) :
    ∀ {ss : List Stmt}, s ∈ ss → r ∈ Stmt.returnsAll ss
  | _ :: _, hs => by
    rcases List.mem_cons.mp hs with rfl | hs
    · exact List.mem_append_left _ hr
    · exact List.mem_append_right _ (Stmt.mem_returnsAll hr hs)

namespace Resolve
variable {keyword : Token} {value : Option Expr}

mutual

/-- Outside of functions each return is an error. -/
theorem topLevelReturn_mem : ∀ {s : Stmt} (rs : List Region), (keyword, value) ∈ s.returns →
    ⟨keyword, .topLevelReturn⟩ ∈ s.scopeErrors false rs
  | .ret _ _, _, h => by
    cases List.mem_singleton.mp h
    exact List.mem_append_left _ (List.mem_singleton_self _)
  | .block _, _, h => topLevelReturn_mem_all _ h
  | .branch _ yes no, rs, h => by
    rcases List.mem_append.mp h with h | h
    · exact List.mem_append_left _ (List.mem_append_right _ (topLevelReturn_mem rs h))
    · exact List.mem_append_right _ (topLevelReturn_mem? _ h)
  | .loop _ _, rs, h => List.mem_append_right _ (topLevelReturn_mem rs h)
  | .expression _, _, h | .print _, _, h | .var _ _, _, h | .function _ _ _, _, h => nomatch h

theorem topLevelReturn_mem? : ∀ {s : Option Stmt} (rs : List Region), (keyword, value) ∈ Stmt.returns? s →
    ⟨keyword, .topLevelReturn⟩ ∈ Stmt.scopeErrors? false rs s
  | none, _, h => nomatch h
  | some _, rs, h => topLevelReturn_mem rs h

theorem topLevelReturn_mem_all : ∀ {ss : List Stmt} (rs : List Region), (keyword, value) ∈ Stmt.returnsAll ss →
    ⟨keyword, .topLevelReturn⟩ ∈ Stmt.scopeErrorsAll false rs ss
  | [], _, h => nomatch h
  | _ :: _, rs, h => by
    rcases List.mem_append.mp h with h | h
    · exact List.mem_append_left _ (topLevelReturn_mem rs h)
    · exact List.mem_append_right _ (topLevelReturn_mem_all _ h)

end

/-- There are no returns outside of functions in a program that is accepted. -/
theorem returns_eq_nil {program : List Stmt} (h : (resolve program).errors = []) {s : Stmt} (hs : s ∈ program) :
    s.returns = [] := by
  refine List.eq_nil_iff_forall_not_mem.mpr fun ⟨keyword, value⟩ hr => ?_
  have herror := topLevelReturn_mem_all [] (Stmt.mem_returnsAll hr hs)
  rw [← errors_resolve, h] at herror
  cases herror

end Resolve

/-! ### Steps that come to a result -/

namespace Eval
variable {m m' : Machine}

/-- A call that yields has passed the checks, and the function yields the same. -/
theorem call_ok {c : Context} {n : Nat} {f v : Value} {arguments : List Value} {paren : Token}
    (h : Eval.call c (n + 1) f arguments paren m = .ok v m') :
    f.arity? = some arguments.length ∧ m.depth < maxDepth ∧
      ∃ m₁, Eval.invoke c n f arguments paren { m with depth := m.depth + 1 } = .ok v m₁ := by
  cases harity : f.arity? with
  | none =>
    rw [Eval.call, harity] at h
    cases h
  | some arity =>
    by_cases hlength : arguments.length = arity
    · subst hlength
      by_cases hdepth : m.depth < maxDepth
      · rw [Moment.call_of_lt harity hdepth] at h
        cases hi : Eval.invoke c n f arguments paren { m with depth := m.depth + 1 } with
        | ok u m₁ =>
          rw [hi] at h
          cases h
          exact ⟨rfl, hdepth, m₁, rfl⟩
        | error stop m₁ => simp [hi] at h
      · rw [Moment.call_of_le harity (Nat.le_of_not_lt hdepth)] at h
        cases h
    · rw [Eval.call, harity] at h
      simp only [ne_eq, hlength, not_false_eq_true, if_true] at h
      cases h

end Eval

/-! ### Statements that return -/

namespace Moment
variable {c : Context} {mo mo' start : Moment} {calls : List ActiveCall} {v : Value}
  {returns returns' : List (Token × Option Expr)}

/-- What is active from a moment on that another one enters is active from that one on, beneath what it begins. -/
theorem Within.prepend (he : Enters c start mo) (h : Within c mo calls mo') :
    Within c start (calls ++ start.begun) mo' := by
  induction h with
  | start =>
    have hentered := Within.start.enter he
    rwa [List.append_nil] at hentered
  | enter _ he' ih =>
    rw [List.append_assoc]
    exact ih.enter he'

/-- One of these returns was executed while these calls were active, and it yielded the value. -/
def Returns (c : Context) (start : Moment) (calls : List ActiveCall)
    (returns : List (Token × Option Expr)) (v : Value) :
    Prop :=
  ∃ keyword value n m m', (keyword, value) ∈ returns ∧ Within c start calls ⟨n, .stmt (.ret keyword value), m⟩ ∧
    Eval.stmt c n (.ret keyword value) m = .ok (.returned v) m'

theorem Returns.enter (h : Returns c mo calls returns v) (he : Enters c start mo) (hsub : ∀ r ∈ returns, r ∈ returns') :
    Returns c start (calls ++ start.begun) returns' v := by
  obtain ⟨keyword, value, n, m, m', hr, hwithin, hret⟩ := h
  exact ⟨keyword, value, n, m, m', hsub _ hr, hwithin.prepend he, hret⟩

/-- The body of the function, executed while the call is active, came to its end without a return. -/
def FallsOff (c : Context) (start : Moment) (call : ActiveCall) (body : List Stmt) : Prop :=
  ∃ n m m', Within c start [call] ⟨n, .stmts body, m⟩ ∧ Eval.stmts c n body m = .ok .normal m'

end Moment

namespace Eval
open Moment

/-- With this fuel, what ends with a return has executed one of its own. -/
structure Returning (c : Context) (n : Nat) : Prop where
  stmt : ∀ {s : Stmt} {m : Machine} {v : Value} {m' : Machine}, Eval.stmt c n s m = .ok (.returned v) m' →
    Returns c ⟨n, .stmt s, m⟩ [] s.returns v
  stmts : ∀ {ss : List Stmt} {m : Machine} {v : Value} {m' : Machine}, Eval.stmts c n ss m = .ok (.returned v) m' →
    Returns c ⟨n, .stmts ss, m⟩ [] (Stmt.returnsAll ss) v
  loop : ∀ {condition : Expr} {body : Stmt} {m : Machine} {v : Value} {m' : Machine},
    Eval.loop c n condition body m = .ok (.returned v) m' → Returns c ⟨n, .loop condition body, m⟩ [] body.returns v

section
variable {c : Context} {n : Nat} {m m' : Machine} {v : Value}

namespace Returning
variable (ih : Returning c n)
include ih

theorem stmt_succ {s : Stmt} (h : Eval.stmt c (n + 1) s m = .ok (.returned v) m') :
    Returns c ⟨n + 1, .stmt s, m⟩ [] s.returns v := by
  cases s with
  | expression e =>
    obtain ⟨u, m₁, -, h⟩ := bind_ok h
    cases h
  | print e =>
    obtain ⟨u, m₁, -, h⟩ := bind_ok h
    obtain ⟨⟨⟩, m₂, -, h⟩ := bind_ok h
    cases h
  | var name initializer =>
    cases initializer with
    | none => cases h
    | some e =>
      obtain ⟨u, m₁, -, h⟩ := bind_ok h
      cases h
  | block body =>
    obtain ⟨m₁, hbody⟩ := inFrame_ok h
    exact (ih.stmts hbody).enter .block fun _ hr => hr
  | branch condition yes no =>
    obtain ⟨u, m₁, hc, h⟩ := bind_ok h
    cases hu : u.isTruthy with
    | true =>
      rw [hu] at h
      exact (ih.stmt h).enter (.yes hc hu) fun _ hr => List.mem_append_left _ hr
    | false =>
      rw [hu] at h
      cases no with
      | none => cases h
      | some s => exact (ih.stmt h).enter (.no hc hu) fun _ hr => List.mem_append_right _ hr
  | loop condition body => exact (ih.loop h).enter .loop fun _ hr => hr
  | function name parameters body => cases h
  | ret keyword value => exact ⟨keyword, value, n + 1, m, m', List.mem_singleton_self _, .start, h⟩

theorem stmts_succ {ss : List Stmt} (h : Eval.stmts c (n + 1) ss m = .ok (.returned v) m') :
    Returns c ⟨n + 1, .stmts ss, m⟩ [] (Stmt.returnsAll ss) v := by
  cases ss with
  | nil => cases h
  | cons s rest =>
    obtain ⟨flow, m₁, hs, h⟩ := bind_ok h
    cases flow with
    | normal => exact (ih.stmts h).enter (.stmts hs) fun _ hr => List.mem_append_right _ hr
    | returned u =>
      cases h
      exact (ih.stmt hs).enter .stmt fun _ hr => List.mem_append_left _ hr

theorem loop_succ {condition : Expr} {body : Stmt} (h : Eval.loop c (n + 1) condition body m = .ok (.returned v) m') :
    Returns c ⟨n + 1, .loop condition body, m⟩ [] body.returns v := by
  obtain ⟨u, m₁, hc, h⟩ := bind_ok h
  cases hu : u.isTruthy with
  | false =>
    rw [hu] at h
    cases h
  | true =>
    rw [hu] at h
    obtain ⟨flow, m₂, hs, h⟩ := bind_ok h
    cases flow with
    | normal => exact (ih.loop h).enter (.again hc hu hs) fun _ hr => hr
    | returned w =>
      cases h
      exact (ih.stmt hs).enter (.round hc hu) fun _ hr => hr

end Returning

/-- The induction is on the fuel: a round of a loop has as many statements in it as the loop. -/
theorem returning : ∀ n, Returning c n
  | 0 => ⟨nofun, nofun, nofun⟩
  | n + 1 =>
    have ih := returning n
    ⟨ih.stmt_succ, ih.stmts_succ, ih.loop_succ⟩

/-- A call of a function that yields has returned what one of the function's own returns yielded, or its body has
    come to its end and it has yielded nil. -/
theorem call_returns {f : Closure} {arguments : List Value} {paren : Token}
    (h : Eval.call c n (.function f) arguments paren m = .ok v m') :
    Returns c ⟨n, .call (.function f) arguments paren, m⟩ [⟨.function f, arguments, paren⟩]
        (Stmt.returnsAll f.decl.body) v ∨
      v = .nil ∧ FallsOff c ⟨n, .call (.function f) arguments paren, m⟩
        ⟨.function f, arguments, paren⟩ f.decl.body := by
  cases n with
  | zero => cases h
  | succ n =>
    obtain ⟨harity, hdepth, m₁, h⟩ := call_ok h
    cases n with
    | zero => cases h
    | succ n =>
      obtain ⟨flow, m₂, hframe, h⟩ := bind_ok h
      obtain ⟨m₃, hbody⟩ := inFrame_ok hframe
      cases flow with
      | normal =>
        cases h
        exact .inr ⟨rfl, n, _, m₃, (Within.start.enter (.invoke harity hdepth)).enter .body, hbody⟩
      | returned u =>
        cases h
        have hreturns : Returns c _ [] (Stmt.returnsAll f.decl.body) u := (returning n).stmts hbody
        exact .inl ((hreturns.enter .body fun _ hr => hr).enter (.invoke harity hdepth) fun _ hr => hr)

end

/-! ### Programs and calls -/

/-- A statement that ends with a return has executed one of the returns in it, outside of functions inside of it
    and while no call that it makes was active, and ends with what that yielded. So every statement of a program
    that resolves without errors comes to its end or stops. A call of a function yields what one of the returns
    of its body yielded while this call and no later one was active, or nil when its body came to its end, or it
    stops. -/
theorem returns_end_calls (c : Context) :
    (∀ n s m v m', Eval.stmt c n s m = .ok (.returned v) m' → Returns c ⟨n, .stmt s, m⟩ [] s.returns v) ∧
    (∀ program, (resolve program).errors = [] → ∀ s ∈ program, ∀ n m,
      (∃ m', Eval.stmt c n s m = .ok .normal m') ∨ ∃ stop m', Eval.stmt c n s m = .error stop m') ∧
    ∀ n f arguments paren m,
      let start : Moment := ⟨n, .call (.function f) arguments paren, m⟩
      let call : ActiveCall := ⟨.function f, arguments, paren⟩
      (∃ v m', Eval.call c n (.function f) arguments paren m = .ok v m' ∧
        Returns c start [call] (Stmt.returnsAll f.decl.body) v) ∨
      (∃ m', Eval.call c n (.function f) arguments paren m = .ok .nil m' ∧ FallsOff c start call f.decl.body) ∨
      ∃ stop m', Eval.call c n (.function f) arguments paren m = .error stop m' := by
  refine ⟨fun n s m v m' h => (returning n).stmt h, fun program hprogram s hs n m => ?_, ?_⟩
  · cases h : Eval.stmt c n s m with
    | ok flow m' =>
      cases flow with
      | normal => exact .inl ⟨m', rfl⟩
      | returned v =>
        obtain ⟨keyword, value, -, -, -, hr, -⟩ := (returning n).stmt h
        rw [Resolve.returns_eq_nil hprogram hs] at hr
        cases hr
    | error stop m' => exact .inr ⟨stop, m', rfl⟩
  · intro n f arguments paren m start call
    cases h : Eval.call c n (.function f) arguments paren m with
    | ok v m' =>
      rcases call_returns h with hreturns | ⟨rfl, hend⟩
      · exact .inl ⟨v, m', rfl, hreturns⟩
      · exact .inr (.inl ⟨m', rfl, hend⟩)
    | error stop m' => exact .inr (.inr ⟨stop, m', rfl⟩)

/-- A loop ends with the return in its block, in `fun f()\x7bwhile(true)\x7breturn;\x7d\x7df();` it ends the call. -/
theorem returns_end_calls_loop :
    let c : Context := ⟨.resolved ∅, Host.withTime fun _ => 0⟩
    let keyword : Token := ⟨.keyword .return, "return", 1⟩
    let body : Stmt := .loop (.literal (.bool true)) (.block [.ret keyword none])
    let f : Token := ⟨.identifier, "f", 1⟩
    let paren : Token := ⟨.mark .rightParen, ")", 1⟩
    let program : List Stmt := [.function f [] [body], .expression (.call (.var 0 f) paren [])]
    let m := Machine.initial .unlimited
    (∃ m', Eval.stmt c 8 body m = .ok (.returned .nil) m' ∧
      Returns c ⟨8, .stmt body, m⟩ [] [(keyword, none)] .nil) ∧
    (resolve program).errors = [] ∧
      ∀ s ∈ program, (∃ m', Eval.stmt c 8 s m = .ok .normal m') ∨ ∃ stop m', Eval.stmt c 8 s m = .error stop m' := by
  intro c keyword body f paren program m
  obtain ⟨hreturns, hprogram, -⟩ := returns_end_calls c
  have herrors : (resolve program).errors = [] := by decide +kernel
  exact ⟨⟨_, rfl, hreturns 8 body m .nil _ rfl⟩, herrors, fun s hs => hprogram program herrors s hs 8 m⟩

end Eval
end Lox
