import Lox.Proofs.Renaming.Steps

/-! # Evaluation under renaming

With any fuel, evaluation of a statement at some depth of the renamed scope and evaluation of the renamed
statement are coupled (`corresponds`), and so are a program and the renamed program. The host may do anything
that does not depend on more of functions than a program sees. -/

namespace Lox

section
variable {r : Renaming} {distances : Distances} {depth : Option Nat} {refs refs' : List Reference}

theorem Renaming.Admits.left (h : r.Admits distances depth (refs ++ refs')) : r.Admits distances depth refs :=
  h.sub fun _ href => List.mem_append_left _ href

theorem Renaming.Admits.right (h : r.Admits distances depth (refs ++ refs')) : r.Admits distances depth refs' :=
  h.sub fun _ href => List.mem_append_right _ href

end

namespace Eval

/-- Results of statements are alike. -/
abbrev Ended (r : Renaming) (distances : Distances) (p : Pair) : Flow → Flow → Prop :=
  Flow.Alike r distances p.marks p.left.frames

/-- Evaluation with this fuel and of the renamed program are coupled. -/
structure Corresponds (r : Renaming) (distances : Distances) (c : Context) (n : Nat) : Prop where
  expr : ∀ {e : Expr} {p : Pair} {depth : Option Nat}, p.Alike r distances → p.At depth →
    r.Admits distances depth e.references →
      Couples r distances (Eval.expr c n e) (Eval.expr c n (r.expr depth e)) p (Pair.Same r distances)
  exprs : ∀ {done done' : Array Value} {es : List Expr} {p : Pair} {depth : Option Nat},
    p.Alike r distances → p.At depth →
    r.Admits distances depth (Expr.referencesAll es) →
      List.Forall₂ (p.Same r distances) done.toList done'.toList →
        Couples r distances (Eval.exprs c n done es) (Eval.exprs c n done' (r.exprs depth es)) p fun p' vs vs' =>
          List.Forall₂ (p'.Same r distances) vs.toList vs'.toList
  call : ∀ {f f' : Value} {arguments arguments' : List Value} {paren : Token} {p : Pair}, p.Alike r distances →
    p.Same r distances f f' → List.Forall₂ (p.Same r distances) arguments arguments' →
      Couples r distances (Eval.call c n f arguments paren) (Eval.call c n f' arguments' paren) p
        (Pair.Same r distances)
  invoke : ∀ {f f' : Value} {arguments arguments' : List Value} {paren : Token} {p : Pair}, p.Alike r distances →
    p.Same r distances f f' → List.Forall₂ (p.Same r distances) arguments arguments' →
      Couples r distances (Eval.invoke c n f arguments paren) (Eval.invoke c n f' arguments' paren) p
        (Pair.Same r distances)
  stmt : ∀ {s s' : Stmt} {p : Pair} {depth : Option Nat}, p.Alike r distances → p.At depth →
    Stmt.Renames r distances depth s s' →
      Couples r distances (Eval.stmt c n s) (Eval.stmt c n s') p (Ended r distances)
  stmts : ∀ {ss ss' : List Stmt} {p : Pair} {depth : Option Nat}, p.Alike r distances → p.At depth →
    Stmt.RenamesAll r distances depth ss ss' →
      Couples r distances (Eval.stmts c n ss) (Eval.stmts c n ss') p (Ended r distances)
  loop : ∀ {condition : Expr} {body body' : Stmt} {p : Pair} {depth : Option Nat}, p.Alike r distances → p.At depth →
    r.Admits distances depth condition.references → Stmt.Renames r distances depth body body' →
      Couples r distances (Eval.loop c n condition body) (Eval.loop c n (r.expr depth condition) body') p
        (Ended r distances)

namespace Corresponds
variable {r : Renaming} {distances : Distances} {host : Host} {n : Nat}
  (ih : Corresponds r distances ⟨.resolved distances, host⟩ n) {p : Pair} {depth : Option Nat}
include ih

theorem expr_succ {e : Expr} (h : p.Alike r distances) (hat : p.At depth)
    (hadmits : r.Admits distances depth e.references) :
    Couples r distances (Eval.expr ⟨.resolved distances, host⟩ (n + 1) e)
      (Eval.expr ⟨.resolved distances, host⟩ (n + 1) (r.expr depth e)) p (Pair.Same r distances) := by
  cases e with
  | literal v => exact .pure h (.ofLiteral v)
  | grouping e => exact ih.expr h hat hadmits
  | unary operator right =>
    refine Couples.bind (ih.expr h hat hadmits) fun p' v v' h' _ hv => ?_
    rw [Operator.unary_indistinct operator hv.indistinct]
    exact .ofExcept h' fun u hu => .plain (Operator.isPlain_unary hu)
  | binary left operator right =>
    refine Couples.bind (ih.expr h hat (Renaming.Admits.left hadmits)) fun p' l l' h' hlater hl => ?_
    refine Couples.bind (ih.expr h' (hat.later h hlater) (Renaming.Admits.right hadmits))
      fun p'' v v' h'' hlater' hv => ?_
    rw [Operator.binary_indistinct operator (hlater'.value h' hl).indistinct hv.indistinct]
    exact .ofExcept h'' fun u hu => .plain (Operator.isPlain_binary hu)
  | logical left operator right =>
    refine Couples.bind (ih.expr h hat (Renaming.Admits.left hadmits)) fun p' l l' h' hlater hl => ?_
    rw [Operator.decides_indistinct operator hl.indistinct]
    split
    · exact .pure h' hl
    · exact ih.expr h' (hat.later h hlater) (Renaming.Admits.right hadmits)
  | var id name => exact read_couples h hat hadmits
  | assign id name value =>
    refine Couples.bind (ih.expr h hat (Renaming.Admits.left hadmits)) fun p' v v' h' hlater hv => ?_
    refine Couples.bind (assign_couples h' (hat.later h hlater) (Renaming.Admits.right hadmits) hv)
      fun p'' _ _ h'' hlater' _ => ?_
    exact .pure h'' (hlater'.value h' hv)
  | call callee paren arguments =>
    refine Couples.bind (ih.expr h hat (Renaming.Admits.left hadmits)) fun p' f f' h' hlater hf => ?_
    refine Couples.bind (ih.exprs h' (hat.later h hlater) (Renaming.Admits.right hadmits) .nil)
      fun p'' vs vs' h'' hlater' hvs => ?_
    exact ih.call h'' (hlater'.value h' hf) hvs

theorem exprs_succ {done done' : Array Value} {es : List Expr} (h : p.Alike r distances) (hat : p.At depth)
    (hadmits : r.Admits distances depth (Expr.referencesAll es))
    (hdone : List.Forall₂ (p.Same r distances) done.toList done'.toList) :
    Couples r distances (Eval.exprs ⟨.resolved distances, host⟩ (n + 1) done es)
      (Eval.exprs ⟨.resolved distances, host⟩ (n + 1) done' (r.exprs depth es)) p fun p' vs vs' =>
        List.Forall₂ (p'.Same r distances) vs.toList vs'.toList := by
  cases es with
  | nil => exact .pure h hdone
  | cons e rest =>
    refine Couples.bind (ih.expr h hat (Renaming.Admits.left hadmits)) fun p' v v' h' hlater hv => ?_
    refine ih.exprs h' (hat.later h hlater) (Renaming.Admits.right hadmits) ?_
    rw [Array.toList_push, Array.toList_push]
    exact List.rel_append (hdone.imp fun _ _ hu => hlater.value h hu) (.cons hv .nil)

theorem call_succ {f f' : Value} {arguments arguments' : List Value} {paren : Token} (h : p.Alike r distances)
    (hf : p.Same r distances f f') (hargs : List.Forall₂ (p.Same r distances) arguments arguments') :
    Couples r distances (Eval.call ⟨.resolved distances, host⟩ (n + 1) f arguments paren)
      (Eval.call ⟨.resolved distances, host⟩ (n + 1) f' arguments' paren) p (Pair.Same r distances) := by
  rw [Eval.call, Eval.call, hf.indistinct.arity?_eq]
  cases f.arity? with
  | none => exact .fail _
  | some arity =>
    dsimp only
    rw [← hargs.length_eq]
    split
    · exact .fail _
    · exact asCall_couples (P := Value.Alike r distances) (ih.invoke (h.congr rfl) hf hargs)

theorem invoke_succ (hhost : host.Indifferent) {f f' : Value} {arguments arguments' : List Value} {paren : Token}
    (h : p.Alike r distances)
    (hf : p.Same r distances f f') (hargs : List.Forall₂ (p.Same r distances) arguments arguments') :
    Couples r distances (Eval.invoke ⟨.resolved distances, host⟩ (n + 1) f arguments paren)
      (Eval.invoke ⟨.resolved distances, host⟩ (n + 1) f' arguments' paren) p (Pair.Same r distances) := by
  cases hf with
  | plain hplain =>
    cases f with
    | host f => exact callHost_couples hhost _ h f hargs paren
    | function f => exact absurd rfl (hplain f)
    | nil | bool _ | number _ | string _ => exact .fail _
  | @function c c' hc =>
    obtain ⟨depth, hlies, hrenames⟩ := hc.renames
    obtain ⟨inner, -, hparameters, henters, hnew, hbody⟩ := hrenames.of_function
    have hencl' : (c'.callFrame arguments').enclosing = some c.frame := hc.frame ▸ Closure.enclosing_callFrame
    have hframe := Pair.frameAlike_callFrame hc.frame hparameters (fun hi => hnew (by simp [hi])) hargs
    have hinside := h.enter Closure.enclosing_callFrame hencl' hc.exist hframe
    have hat : (p.enter inner (c.callFrame arguments) (c'.callFrame arguments')).At inner :=
      h.at_enter Closure.enclosing_callFrame hc.exist hlies henters
    refine Couples.bind (inFrame_couples (P := Flow.Alike r distances) h (ih.stmts hinside hat hbody))
      fun p' flow flow' h' _ hflow => .pure h' ?_
    cases hflow with
    | normal => exact .nil
    | returned hv => exact hv

theorem stmt_succ {s s' : Stmt} (h : p.Alike r distances) (hat : p.At depth)
    (hs : Stmt.Renames r distances depth s s') :
    Couples r distances (Eval.stmt ⟨.resolved distances, host⟩ (n + 1) s)
      (Eval.stmt ⟨.resolved distances, host⟩ (n + 1) s') p (Ended r distances) := by
  cases hs with
  | expression hadmits => exact Couples.bind (ih.expr h hat hadmits) fun p' _ _ h' _ _ => .pure h' .normal
  | print hadmits =>
    refine Couples.bind (ih.expr h hat hadmits) fun p' v v' h' _ hv => ?_
    rw [hv.indistinct.display_eq]
    exact Couples.bind (printLine_couples h' v.display) fun p'' _ _ h'' _ _ => .pure h'' .normal
  | @var _ name init hname hadmits =>
    cases init with
    | none =>
      refine Couples.bind (define_couples h hat hname .nil) fun p' _ _ h' _ _ => .pure h' .normal
    | some e =>
      refine Couples.bind (ih.expr h hat hadmits) fun p' v v' h' hlater hv => ?_
      exact Couples.bind (define_couples h' (hat.later h hlater) hname hv) fun p'' _ _ h'' _ _ => .pure h'' .normal
  | @block _ inner _ _ henters hbody =>
    have hframe : p.FrameAlike r distances inner (.empty (some p.left.current)) (.empty (some p.left.current)) :=
      Pair.frameAlike_empty
    have hinside := h.enter rfl rfl hat.exist hframe
    exact inFrame_couples (P := Flow.Alike r distances) h
      (ih.stmts hinside (h.at_enter rfl hat.exist hat.lies henters) hbody)
  | branch hadmits hyes hno =>
    refine Couples.bind (ih.expr h hat hadmits) fun p' v v' h' hlater hv => ?_
    rw [hv.indistinct.isTruthy_eq]
    split
    · exact ih.stmt h' (hat.later h hlater) hyes
    · cases hno with
      | none => exact .pure h' .normal
      | some hno => exact ih.stmt h' (hat.later h hlater) hno
  | loop hadmits hbody => exact ih.loop h hat hadmits hbody
  | function hname hold henters hparameters hbody =>
    refine Couples.bind (declare_couples h hat hname hold (.function hname hold henters hparameters hbody))
      fun p' _ _ h' _ _ => .pure h' .normal
  | @ret _ keyword value hadmits =>
    cases value with
    | none => exact .pure h (.returned .nil)
    | some e => exact Couples.bind (ih.expr h hat hadmits) fun p' v v' h' _ hv => .pure h' (.returned hv)

theorem stmts_succ {ss ss' : List Stmt} (h : p.Alike r distances) (hat : p.At depth)
    (hss : Stmt.RenamesAll r distances depth ss ss') :
    Couples r distances (Eval.stmts ⟨.resolved distances, host⟩ (n + 1) ss)
      (Eval.stmts ⟨.resolved distances, host⟩ (n + 1) ss') p (Ended r distances) := by
  cases hss with
  | nil => exact .pure h .normal
  | cons hs hrest =>
    refine Couples.bind (ih.stmt h hat hs) fun p' flow flow' h' hlater hflow => ?_
    cases hflow with
    | normal => exact ih.stmts h' (hat.later h hlater) hrest
    | returned hv => exact .pure h' (.returned hv)

theorem loop_succ {condition : Expr} {body body' : Stmt} (h : p.Alike r distances) (hat : p.At depth)
    (hadmits : r.Admits distances depth condition.references) (hbody : Stmt.Renames r distances depth body body') :
    Couples r distances (Eval.loop ⟨.resolved distances, host⟩ (n + 1) condition body)
      (Eval.loop ⟨.resolved distances, host⟩ (n + 1) (r.expr depth condition) body') p
        (Ended r distances) := by
  refine Couples.bind (ih.expr h hat hadmits) fun p' v v' h' hlater hv => ?_
  have hat' := hat.later h hlater
  rw [hv.indistinct.isTruthy_eq]
  split
  · refine Couples.bind (ih.stmt h' hat' hbody) fun p'' flow flow' h'' hlater' hflow => ?_
    cases hflow with
    | normal => exact ih.loop h'' (hat'.later h' hlater') hadmits hbody
    | returned hv => exact .pure h'' (.returned hv)
  · exact .pure h' .normal

end Corresponds

section
variable {r : Renaming} {distances : Distances} {host : Host}

theorem corresponds (hhost : host.Indifferent) : ∀ n, Corresponds r distances ⟨.resolved distances, host⟩ n
  | 0 =>
    { expr := fun _ _ _ => .throw _
      exprs := fun _ _ _ _ => .throw _
      call := fun _ _ _ => .throw _
      invoke := fun _ _ _ => .throw _
      stmt := fun _ _ _ => .throw _
      stmts := fun _ _ _ => .throw _
      loop := fun _ _ _ _ => .throw _ }
  | n + 1 =>
    have ih := corresponds hhost n
    { expr := ih.expr_succ
      exprs := ih.exprs_succ
      call := ih.call_succ
      invoke := ih.invoke_succ hhost
      stmt := ih.stmt_succ
      stmts := ih.stmts_succ
      loop := ih.loop_succ }

theorem program_couples (hhost : host.Indifferent) (n : Nat) :
    ∀ {ss ss' : List Stmt} {p : Pair}, p.Alike r distances → p.At none →
    Stmt.RenamesAll r distances none ss ss' →
      Couples r distances (program ⟨.resolved distances, host⟩ n ss)
        (program ⟨.resolved distances, host⟩ n ss') p fun _ _ _ => True
  | _, _, _, h, _, .nil => .pure h trivial
  | _, _, _, h, hat, .cons hs hss =>
    Couples.bind ((corresponds hhost n).stmt h hat hs) fun _ _ _ h' hlater _ =>
      program_couples hhost n h' (hat.later h hlater) hss

end
end Eval
end Lox
