import Lox.Proofs.ForLoops.Steps

/-! # Evaluation of two runs

Whatever stands inside the frame of a round, and whatever is called from there, is evaluated alike in both runs
(`allAbreast`). Therefore a round of what the parser makes of a `for` statement is a round of the loop
(`round_abreast`), and the statement is the loop (`forLoop_abreast`). One of the two may be given more fuel than the
other. -/

namespace Lox.Eval

/-- Evaluation with this fuel in the first run, and with that in the second, is abreast. -/
structure AllAbreast (tables : Tables) (spare spare' : Prop) (c c' : Context) (n n' : Nat) : Prop where
  expr : ∀ {e e' : Expr} {p : Tandem} {extra : Option Nat}, p.Matches tables → p.At extra →
    e.Like (.skipping tables extra) e' →
      Abreast tables spare spare' (Eval.expr c n e) (Eval.expr c' n' e') p (Pairing.Same tables)
  exprs : ∀ {done done' : Array Value} {es es' : List Expr} {p : Tandem} {extra : Option Nat}, p.Matches tables →
    p.At extra → Expr.LikeAll (.skipping tables extra) es es' →
      List.Forall₂ (p.pairing.Same tables) done.toList done'.toList →
        Abreast tables spare spare' (Eval.exprs c n done es) (Eval.exprs c' n' done' es') p fun q vs vs' =>
          List.Forall₂ (q.Same tables) vs.toList vs'.toList
  call : ∀ {f f' : Value} {arguments arguments' : List Value} {paren : Token} {p : Tandem}, p.Matches tables →
    p.pairing.Same tables f f' → List.Forall₂ (p.pairing.Same tables) arguments arguments' →
      Abreast tables spare spare' (Eval.call c n f arguments paren) (Eval.call c' n' f' arguments' paren) p
        (Pairing.Same tables)
  invoke : ∀ {f f' : Value} {arguments arguments' : List Value} {paren : Token} {p : Tandem}, p.Matches tables →
    p.pairing.Same tables f f' → List.Forall₂ (p.pairing.Same tables) arguments arguments' →
      Abreast tables spare spare' (Eval.invoke c n f arguments paren) (Eval.invoke c' n' f' arguments' paren) p
        (Pairing.Same tables)
  stmt : ∀ {s s' : Stmt} {p : Tandem} {extra : Option Nat}, p.Matches tables → p.At extra →
    Stmt.Skips tables extra s s' →
      Abreast tables spare spare' (Eval.stmt c n s) (Eval.stmt c' n' s') p (Pairing.Ended tables)
  stmts : ∀ {ss ss' : List Stmt} {p : Tandem} {extra : Option Nat}, p.Matches tables → p.At extra →
    Stmt.SkipsAll tables extra ss ss' →
      Abreast tables spare spare' (Eval.stmts c n ss) (Eval.stmts c' n' ss') p (Pairing.Ended tables)
  loop : ∀ {condition condition' : Expr} {body body' : Stmt} {p : Tandem} {extra : Option Nat}, p.Matches tables →
    p.At extra → condition.Like (.skipping tables extra) condition' → Stmt.Skips tables extra body body' →
      Abreast tables spare spare' (Eval.loop c n condition body) (Eval.loop c' n' condition' body') p
        (Pairing.Ended tables)

namespace AllAbreast
variable {tables : Tables} {spare spare' : Prop} {host : Host} {n n' : Nat}
  (ih : AllAbreast tables spare spare' (tables.leftContext host) (tables.rightContext host) n n') {p : Tandem}
  {extra : Option Nat}
include ih

theorem expr_succ {e e' : Expr} (h : p.Matches tables) (hat : p.At extra) (he : e.Like (.skipping tables extra) e') :
    Abreast tables spare spare' (Eval.expr (tables.leftContext host) (n + 1) e)
      (Eval.expr (tables.rightContext host) (n' + 1) e') p (Pairing.Same tables) := by
  cases he with
  | literal v => exact .pure h (.ofLiteral v)
  | grouping he => exact ih.expr h hat he
  | @unary operator _ _ _ hop he =>
    cases hop
    refine Abreast.bind (ih.expr h hat he) fun p' v v' h' _ hv => ?_
    rw [Operator.unary_indistinct operator hv.indistinct]
    exact .ofExcept h' fun u hu => .plain (Operator.isPlain_unary hu)
  | @binary operator _ _ _ _ _ hl hop hr =>
    cases hop
    refine Abreast.bind (ih.expr h hat hl) fun p' l l' h' hlater hl => ?_
    refine Abreast.bind (ih.expr h' (hat.later h hlater) hr) fun p'' v v' h'' hlater' hv => ?_
    rw [Operator.binary_indistinct operator (hlater'.same h' hl).indistinct hv.indistinct]
    exact .ofExcept h'' fun u hu => .plain (Operator.isPlain_binary hu)
  | @logical operator _ _ _ _ _ hl hop hr =>
    cases hop
    refine Abreast.bind (ih.expr h hat hl) fun p' l l' h' hlater hl => ?_
    rw [Operator.decides_indistinct operator hl.indistinct]
    split
    · exact .pure h' hl
    · exact ih.expr h' (hat.later h hlater) hr
  | var hid hname =>
    cases hname
    exact read_abreast h hat _ hid
  | assign hid hname he =>
    cases hname
    refine Abreast.bind (ih.expr h hat he) fun p' v v' h' hlater hv => ?_
    refine Abreast.bind (assign_abreast h' (hat.later h hlater) _ hid hv) fun p'' _ _ h'' hlater' _ => ?_
    exact .pure h'' (hlater'.same h' hv)
  | call hf hparen hargs =>
    cases hparen
    refine Abreast.bind (ih.expr h hat hf) fun p' f f' h' hlater hf => ?_
    refine Abreast.bind (ih.exprs h' (hat.later h hlater) hargs .nil) fun p'' vs vs' h'' hlater' hvs => ?_
    exact ih.call h'' (hlater'.same h' hf) hvs

theorem exprs_succ {done done' : Array Value} {es es' : List Expr} (h : p.Matches tables) (hat : p.At extra)
    (hes : Expr.LikeAll (.skipping tables extra) es es')
    (hdone : List.Forall₂ (p.pairing.Same tables) done.toList done'.toList) :
    Abreast tables spare spare' (Eval.exprs (tables.leftContext host) (n + 1) done es)
      (Eval.exprs (tables.rightContext host) (n' + 1) done' es') p fun q vs vs' =>
        List.Forall₂ (q.Same tables) vs.toList vs'.toList := by
  cases hes with
  | nil => exact .pure h hdone
  | cons he hes =>
    refine Abreast.bind (ih.expr h hat he) fun p' v v' h' hlater hv => ?_
    refine ih.exprs h' (hat.later h hlater) hes ?_
    rw [Array.toList_push, Array.toList_push]
    exact List.rel_append (hdone.imp fun _ _ hu => hlater.same h hu) (.cons hv .nil)

theorem call_succ {f f' : Value} {arguments arguments' : List Value} {paren : Token} (h : p.Matches tables)
    (hf : p.pairing.Same tables f f') (hargs : List.Forall₂ (p.pairing.Same tables) arguments arguments') :
    Abreast tables spare spare' (Eval.call (tables.leftContext host) (n + 1) f arguments paren)
      (Eval.call (tables.rightContext host) (n' + 1) f' arguments' paren) p (Pairing.Same tables) := by
  rw [Eval.call, Eval.call, hf.indistinct.arity?_eq]
  cases f.arity? with
  | none => exact .fail h _
  | some arity =>
    dsimp only
    rw [← hargs.length_eq]
    split
    · exact .fail h _
    · have hinside : Tandem.Matches tables
          ⟨{ p.left with depth := p.left.depth + 1 }, { p.right with depth := p.right.depth + 1 }, p.frame⟩ :=
        ⟨h.frames, congrArg (· + 1) h.depth, h.sink, h.nextIdentity, h.hostCalls⟩
      exact asCall_abreast h (ih.invoke hinside hf hargs)

theorem invoke_succ (hhost : host.Indifferent) {f f' : Value} {arguments arguments' : List Value} {paren : Token}
    (h : p.Matches tables)
    (hf : p.pairing.Same tables f f') (hargs : List.Forall₂ (p.pairing.Same tables) arguments arguments') :
    Abreast tables spare spare' (Eval.invoke (tables.leftContext host) (n + 1) f arguments paren)
      (Eval.invoke (tables.rightContext host) (n' + 1) f' arguments' paren) p (Pairing.Same tables) := by
  cases hf with
  | plain hplain =>
    cases f with
    | host f => exact callHost_abreast hhost h f hargs paren
    | function f => exact absurd rfl (hplain f)
    | nil | bool _ | number _ | string _ => exact .fail h _
  | @function c c' hc =>
    obtain ⟨extra, hleads, hskips⟩ := hc.declared
    have hparameters : c'.decl.parameters = c.decl.parameters := hskips.parameters_eq
    have htwins := hleads.twins_callFrame hparameters hargs
    have hbody := ih.stmts (h.enter htwins) (h.at_enter htwins) hskips.bodies
    exact Abreast.bind (inFrame_abreast hbody) fun p' flow flow' h' _ hflow => .pure h' hflow.result

theorem stmt_succ {s s' : Stmt} (h : p.Matches tables) (hat : p.At extra) (hs : Stmt.Skips tables extra s s') :
    Abreast tables spare spare' (Eval.stmt (tables.leftContext host) (n + 1) s)
      (Eval.stmt (tables.rightContext host) (n' + 1) s') p (Pairing.Ended tables) := by
  cases hs with
  | expression he => exact Abreast.bind (ih.expr h hat he) fun p' _ _ h' _ _ => .pure h' .normal
  | print he =>
    refine Abreast.bind (ih.expr h hat he) fun p' v v' h' _ hv => ?_
    rw [hv.indistinct.display_eq]
    exact Abreast.bind (printLine_abreast h' v.display) fun p'' _ _ h'' _ _ => .pure h'' .normal
  | var hextra hinit =>
    cases hinit with
    | none =>
      exact Abreast.bind (define_abreast h hat hextra _ (.plain nofun)) fun p' _ _ h' _ _ => .pure h' .normal
    | some he =>
      refine Abreast.bind (ih.expr h hat he) fun p' v v' h' hlater hv => ?_
      exact Abreast.bind (define_abreast h' (hat.later h hlater) hextra _ hv) fun p'' _ _ h'' _ _ => .pure h'' .normal
  | block hbody =>
    exact inFrame_abreast (ih.stmts (h.enter hat.twins) (h.at_enter hat.twins) hbody)
  | branch hc hyes hno =>
    refine Abreast.bind (ih.expr h hat hc) fun p' v v' h' hlater hv => ?_
    rw [hv.indistinct.isTruthy_eq]
    split
    · exact ih.stmt h' (hat.later h hlater) hyes
    · cases hno with
      | none => exact .pure h' .normal
      | some hno => exact ih.stmt h' (hat.later h hlater) hno
  | loop hc hbody => exact ih.loop h hat hc hbody
  | function hextra hbody =>
    exact Abreast.bind (declare_abreast h hat hextra hbody) fun p' _ _ h' _ _ => .pure h' .normal
  | ret hvalue =>
    cases hvalue with
    | none => exact .pure h (.returned (.plain nofun))
    | some he => exact Abreast.bind (ih.expr h hat he) fun p' v v' h' _ hv => .pure h' (.returned hv)

theorem stmts_succ {ss ss' : List Stmt} (h : p.Matches tables) (hat : p.At extra)
    (hss : Stmt.SkipsAll tables extra ss ss') :
    Abreast tables spare spare' (Eval.stmts (tables.leftContext host) (n + 1) ss)
      (Eval.stmts (tables.rightContext host) (n' + 1) ss') p (Pairing.Ended tables) := by
  cases hss with
  | nil => exact .pure h .normal
  | cons hs hrest =>
    refine Abreast.bind (ih.stmt h hat hs) fun p' flow flow' h' hlater hflow => ?_
    cases hflow with
    | normal => exact ih.stmts h' (hat.later h hlater) hrest
    | returned hv => exact .pure h' (.returned hv)

theorem loop_succ {condition condition' : Expr} {body body' : Stmt} (h : p.Matches tables) (hat : p.At extra)
    (hc : condition.Like (.skipping tables extra) condition') (hbody : Stmt.Skips tables extra body body') :
    Abreast tables spare spare' (Eval.loop (tables.leftContext host) (n + 1) condition body)
      (Eval.loop (tables.rightContext host) (n' + 1) condition' body') p (Pairing.Ended tables) := by
  refine Abreast.bind (ih.expr h hat hc) fun p' v v' h' hlater hv => ?_
  have hat' := hat.later h hlater
  rw [hv.indistinct.isTruthy_eq]
  split
  · refine Abreast.bind (ih.stmt h' hat' hbody) fun p'' flow flow' h'' hlater' hflow => ?_
    cases hflow with
    | normal => exact ih.loop h'' (hat'.later h' hlater') hc hbody
    | returned hv => exact .pure h'' (.returned hv)
  · exact .pure h' .normal

end AllAbreast

section
variable {tables : Tables} {spare spare' : Prop} {host : Host}

/-- The induction is on the fuel of both. -/
theorem allAbreast (hhost : host.Indifferent) : ∀ {n n' : Nat}, (n < n' → spare) → (n' < n → spare') →
    AllAbreast tables spare spare' (tables.leftContext host) (tables.rightContext host) n n'
  | 0, 0, _, _ =>
    { expr := fun h _ _ => .throw h _
      exprs := fun h _ _ _ => .throw h _
      call := fun h _ _ => .throw h _
      invoke := fun h _ _ => .throw h _
      stmt := fun h _ _ => .throw h _
      stmts := fun h _ _ => .throw h _
      loop := fun h _ _ _ => .throw h _ }
  | 0, n' + 1, hspare, _ =>
    have hspare := hspare n'.succ_pos
    { expr := fun _ _ _ => .exhausted hspare _
      exprs := fun _ _ _ _ => .exhausted hspare _
      call := fun _ _ _ => .exhausted hspare _
      invoke := fun _ _ _ => .exhausted hspare _
      stmt := fun _ _ _ => .exhausted hspare _
      stmts := fun _ _ _ => .exhausted hspare _
      loop := fun _ _ _ _ => .exhausted hspare _ }
  | n + 1, 0, _, hspare' =>
    have hspare' := hspare' n.succ_pos
    { expr := fun _ _ _ => .exhausted_right hspare' _
      exprs := fun _ _ _ _ => .exhausted_right hspare' _
      call := fun _ _ _ => .exhausted_right hspare' _
      invoke := fun _ _ _ => .exhausted_right hspare' _
      stmt := fun _ _ _ => .exhausted_right hspare' _
      stmts := fun _ _ _ => .exhausted_right hspare' _
      loop := fun _ _ _ _ => .exhausted_right hspare' _ }
  | _ + 1, _ + 1, hspare, hspare' =>
    have ih := allAbreast hhost (fun hlt => hspare (Nat.succ_lt_succ hlt)) fun hlt => hspare' (Nat.succ_lt_succ hlt)
    { expr := ih.expr_succ
      exprs := ih.exprs_succ
      call := ih.call_succ
      invoke := ih.invoke_succ hhost
      stmt := ih.stmt_succ
      stmts := ih.stmts_succ
      loop := ih.loop_succ }

end

/-! ### Loops -/

/-- The clauses and the bodies of two loops are the same, but for distances. With an increment there is a frame around
    the body and the increment of the first. -/
structure Loops (tables : Tables) (clauses clauses' : Parse.ForClauses) (body body' : Stmt) : Prop where
  initializer : Stmt.Skips? tables none clauses.initializer clauses'.initializer
  condition : Expr.Like? (.skipping tables none) clauses.condition clauses'.condition
  body : Stmt.Skips tables (clauses.increment.map fun _ => 0) body body'
  increment : Expr.Like? (.skipping tables (some 0)) clauses.increment clauses'.increment

/-- Of two fuels the first is not more than the second, or it is more by so many steps. The one that is less may run
    out. -/
def Spares (spare spare' : Prop) (steps n n' : Nat) : Prop := (n ≤ n' ∧ spare) ∨ (n' + steps ≤ n ∧ spare')

section
variable {tables : Tables} {spare spare' : Prop} {host : Host} {p : Tandem}

namespace Spares
variable {steps k n n' : Nat}

theorem exhausted (h : Spares spare spare' steps n n') (hn : n < steps) : spare := by
  rcases h with ⟨-, h⟩ | ⟨hle, -⟩
  · exact h
  · omega

theorem exhausted_right (h : Spares spare spare' steps n n') (hn : n' < n) : spare' := by
  rcases h with ⟨hle, -⟩ | ⟨-, h⟩
  · omega
  · exact h

/-- What is at most so many steps below is abreast. -/
theorem allAbreast (h : Spares spare spare' steps n n') (hhost : host.Indifferent) (hle : k ≤ n) (hk : n ≤ k + steps) :
    AllAbreast tables spare spare' (tables.leftContext host) (tables.rightContext host) k n' := by
  rcases h with ⟨hn, hspare⟩ | ⟨hn, hspare'⟩
  · exact Eval.allAbreast hhost (fun _ => hspare) fun hlt => absurd (Nat.le_trans hle hn) (Nat.not_le_of_lt hlt)
  · exact Eval.allAbreast hhost (fun hlt => absurd hlt (by omega)) fun _ => hspare'

theorem mono {steps' : Nat} (h : Spares spare spare' steps n n') (hle : steps' ≤ steps) :
    Spares spare spare' steps' n n' :=
  h.imp_right fun ⟨hn, hspare'⟩ => ⟨Nat.le_trans (Nat.add_le_add_left hle n') hn, hspare'⟩

theorem below (h : Spares spare spare' (steps + k) (n + k) n') : Spares spare spare' steps n n' := by
  rcases h with ⟨hn, hspare⟩ | ⟨hn, hspare'⟩
  · exact .inl ⟨Nat.le_trans (Nat.le_add_right n k) hn, hspare⟩
  · exact .inr ⟨by omega, hspare'⟩

theorem pred (h : Spares spare spare' steps (n + 1) (n' + 1)) : Spares spare spare' steps n n' := by
  rcases h with ⟨hn, hspare⟩ | ⟨hn, hspare'⟩
  · exact .inl ⟨Nat.le_of_succ_le_succ hn, hspare⟩
  · exact .inr ⟨by omega, hspare'⟩

end Spares

variable (hhost : host.Indifferent)
include hhost

/-- Conditions hold in both runs or in none. -/
theorem holds_abreast {condition condition' : Option Expr} {steps n n' : Nat}
    (hn : Spares spare spare' (steps + 1) n n') (h : p.Matches tables) (hat : p.At none)
    (hc : Expr.Like? (.skipping tables none) condition condition') :
    Abreast tables spare spare' (expr (tables.leftContext host) n (condition.getD (.literal (.bool true))))
      (holds (tables.rightContext host) n' condition') p fun _ v b => b = v.isTruthy := by
  cases hc with
  | none =>
    cases n with
    | zero => exact .exhausted (hn.exhausted steps.succ_pos) _
    | succ n => exact .pure h rfl
  | some he =>
    have hexpr := (hn.allAbreast hhost (Nat.le_refl n) (Nat.le_add_right n _)).expr h hat he
    exact hexpr.bind_right fun p' v v' h' _ hv => .pure h' hv.indistinct.isTruthy_eq

omit hhost

/-- The body of a loop with its increment, in a frame of their own or without one. -/
def inner (body : Stmt) : Option Expr → Stmt
  | none => body
  | some e => .block [body, .expression e]

theorem toStmt_eq (clauses : Parse.ForClauses) (body : Stmt) : clauses.toStmt body =
    let loop := .loop (clauses.condition.getD (.literal (.bool true))) (inner body clauses.increment)
    match clauses.initializer with
    | none => loop
    | some init => .block [init, loop] := by
  obtain ⟨init, condition, increment⟩ := clauses
  cases init <;> cases increment <;> rfl

include hhost

/-- The increment as a statement behind the body. -/
theorem advance_abreast {e e' : Expr} {extra : Option Nat} {n n' : Nat} (hn : Spares spare spare' 2 n n')
    (h : p.Matches tables) (hat : p.At extra) (he : e.Like (.skipping tables extra) e') :
    Abreast tables spare spare' (stmts (tables.leftContext host) n [.expression e])
      (do advance (tables.rightContext host) n' (some e'); pure .normal) p (Pairing.Ended tables) := by
  match n, hn with
  | 0, hn | 1, hn => exact .exhausted (hn.exhausted (by decide)) _
  | n + 2, hn =>
    have hexpr := (hn.allAbreast hhost (Nat.le_add_right n 2) (Nat.le_refl _)).expr h hat he
    have hstep : Abreast tables spare spare' (stmt (tables.leftContext host) (n + 1) (.expression e))
        (advance (tables.rightContext host) n' (some e')) p fun _ flow _ => flow = .normal :=
      Abreast.bind hexpr fun p' _ _ h' _ _ => .pure h' rfl
    refine hstep.bind fun p' flow _ h' _ hflow => ?_
    cases hflow
    exact .pure h' .normal

/-- What the parser makes of the body and the increment is a round of the loop. -/
theorem round_abreast {body body' : Stmt} {increment increment' : Option Expr} {n n' : Nat}
    (hn : Spares spare spare' 4 n n') (h : p.Matches tables) (hat : p.At none)
    (hbody : Stmt.Skips tables (increment.map fun _ => 0) body body')
    (hincrement : Expr.Like? (.skipping tables (some 0)) increment increment') :
    Abreast tables spare spare' (stmt (tables.leftContext host) n (inner body increment))
      (round (tables.rightContext host) n' body' increment') p (Pairing.Ended tables) := by
  cases hincrement with
  | none =>
    have hstmt := (hn.allAbreast hhost (Nat.le_refl n) (Nat.le_add_right n 4)).stmt h hat hbody
    refine hstmt.bind_right fun p' flow flow' h' _ hflow => ?_
    cases hflow with
    | normal => exact .pure h' .normal
    | returned hv => exact .pure h' (.returned hv)
  | some he =>
    match n, hn with
    | 0, hn => exact .exhausted (hn.exhausted (by decide)) _
    | 1, hn => exact inRound_abreast (.exhausted (hn.exhausted (by decide)) _)
    | n + 2, hn =>
      have hat' := h.at_enterRound hat
      have hstmt := (hn.allAbreast hhost (Nat.le_add_right n 2) (by omega)).stmt (h.enterRound hat) hat' hbody
      refine inRound_abreast (Abreast.bind hstmt fun p' flow flow' h' hlater hflow => ?_)
      cases hflow with
      | normal => exact advance_abreast hhost (hn.below (k := 2)) h' (hat'.later (h.enterRound hat) hlater) he
      | returned hv => exact .pure h' (.returned hv)

/-- The loop that the parser makes of the rounds. The induction is on the fuel of the second run. -/
theorem rounds_abreast {condition condition' increment increment' : Option Expr} {body body' : Stmt}
    (hc : Expr.Like? (.skipping tables none) condition condition')
    (hbody : Stmt.Skips tables (increment.map fun _ => 0) body body')
    (hincrement : Expr.Like? (.skipping tables (some 0)) increment increment') : ∀ {n' n : Nat} {p : Tandem},
      Spares spare spare' 4 n n' → p.Matches tables → p.At none →
        Abreast tables spare spare'
          (loop (tables.leftContext host) n (condition.getD (.literal (.bool true))) (inner body increment))
          (rounds (tables.rightContext host) n' condition' body' increment') p (Pairing.Ended tables)
  | _, 0, _, hn, _, _ => .exhausted (hn.exhausted (by decide)) _
  | 0, _ + 1, _, hn, _, _ => .exhausted_right (hn.exhausted_right (Nat.succ_pos _)) _
  | n' + 1, n + 1, p, hn, h, hat => by
    refine Abreast.bind (holds_abreast hhost hn.pred h hat hc) fun p₁ v b h₁ hlater hb => ?_
    subst hb
    have hat₁ := hat.later h hlater
    split
    · refine Abreast.bind (round_abreast hhost hn.pred h₁ hat₁ hbody hincrement)
        fun p₂ flow flow' h₂ hlater₁ hflow => ?_
      cases hflow with
      | normal => exact rounds_abreast hc hbody hincrement hn.pred h₂ (hat₁.later h₁ hlater₁)
      | returned hv => exact .pure h₂ (.returned hv)
    · exact .pure h₁ .normal

/-- The initializer and the rounds behind it. -/
theorem initialized_abreast {init init' : Stmt} {clauses clauses' : Parse.ForClauses} {body body' : Stmt} {n n' : Nat}
    (hn : Spares spare spare' 7 n n') (h : p.Matches tables) (hat : p.At none)
    (hinit : Stmt.Skips tables none init init') (hloops : Loops tables clauses clauses' body body') :
    Abreast tables spare spare'
      (stmts (tables.leftContext host) n
        [init, .loop (clauses.condition.getD (.literal (.bool true))) (inner body clauses.increment)])
      (do
        match ← stmt (tables.rightContext host) n' init' with
        | .normal => rounds (tables.rightContext host) n' clauses'.condition body' clauses'.increment
        | flow => pure flow) p (Pairing.Ended tables) := by
  match n, hn with
  | 0, hn => exact .exhausted (hn.exhausted (by decide)) _
  | n + 1, hn =>
    have hstmt := (hn.allAbreast hhost (Nat.le_add_right n 1) (by omega)).stmt h hat hinit
    refine Abreast.bind hstmt fun p₁ flow flow' h₁ hlater hflow => ?_
    have hat₁ := hat.later h hlater
    cases hflow with
    | returned hv => exact .pure h₁ (.returned hv)
    | normal =>
      match n, hn with
      | 0, hn | 1, hn => exact .exhausted (hn.exhausted (by decide)) _
      | n + 2, hn =>
        refine Abreast.bind_left
          (rounds_abreast hhost hloops.condition hloops.body hloops.increment (hn.below (k := 3)) h₁ hat₁)
          fun p₂ flow flow' h₂ _ hflow => ?_
        cases hflow with
        | normal => exact .pure h₂ .normal
        | returned hv => exact .pure h₂ (.returned hv)

/-- What the parser makes of a `for` statement is the loop. -/
theorem forLoop_abreast {clauses clauses' : Parse.ForClauses} {body body' : Stmt} {n n' : Nat}
    (hn : Spares spare spare' 8 n n') (h : p.Matches tables) (hat : p.At none)
    (hloops : Loops tables clauses clauses' body body') :
    Abreast tables spare spare' (stmt (tables.leftContext host) n (clauses.toStmt body))
      (forLoop (tables.rightContext host) n' clauses' body') p (Pairing.Ended tables) := by
  rw [toStmt_eq, forLoop]
  obtain ⟨init, condition, increment⟩ := clauses
  obtain ⟨init', condition', increment'⟩ := clauses'
  obtain ⟨hinit, hcondition, hbody, hincrement⟩ := hloops
  match n, hn with
  | 0, hn => exact .exhausted (hn.exhausted (by decide)) _
  | n + 1, hn =>
    cases hinit with
    | none => exact rounds_abreast hhost hcondition hbody hincrement ((hn.mono (by decide)).below (k := 1)) h hat
    | some hinit =>
      refine inFrame_abreast ?_
      exact initialized_abreast hhost hn.below (h.enter hat.twins) (h.at_enter hat.twins) hinit
        ⟨.some hinit, hcondition, hbody, hincrement⟩

end
end Lox.Eval
