import Lox.Proofs.Evaluation.Sound

/-! # Evaluation keeps machines sound

Evaluation of a statement that stands inside some regions, in a world whose current frame begins their
chain, leads to a sound world again, and after a normal end the statement's declarations are bound
(`preserves`). The access to variables plays no part in this: it changes a binding only where there is
one. -/

namespace Lox

/-! ### The frame of a call -/

namespace Closure
variable {c : Closure} {arguments : List Value}

theorem callFrame_eq (c : Closure) (arguments : List Value) : c.callFrame arguments =
    (c.decl.parameters.zip arguments).foldl (fun frame p => frame.define p.1.lexeme p.2) (.empty (some c.frame)) := rfl

theorem enclosing_callFrame : (c.callFrame arguments).enclosing = some c.frame := by
  have h : ∀ (pairs : List (Token × Value)) (frame : Frame),
      (pairs.foldl (fun frame p => frame.define p.1.lexeme p.2) frame).enclosing = frame.enclosing := by
    intro pairs
    induction pairs with
    | nil => exact fun _ => rfl
    | cons p pairs ih => exact fun frame => ih _
  rw [callFrame_eq]
  exact h _ _

theorem get?_foldl_define (m : String) : ∀ (pairs : List (Token × Value)) (frame : Frame),
    ((∃ p ∈ pairs, p.1.lexeme = m ∧
        (pairs.foldl (fun frame p => frame.define p.1.lexeme p.2) frame).get? m = some p.2) ∨
      ((∀ p ∈ pairs, p.1.lexeme ≠ m) ∧
        (pairs.foldl (fun frame p => frame.define p.1.lexeme p.2) frame).get? m = frame.get? m))
  | [], frame => .inr ⟨by simp, rfl⟩
  | p :: pairs, frame => by
    rw [List.foldl_cons]
    rcases get?_foldl_define m pairs (frame.define p.1.lexeme p.2) with ⟨q, hq, hm, hv⟩ | ⟨hne, hv⟩
    · exact .inl ⟨q, List.mem_cons_of_mem _ hq, hm, hv⟩
    · rw [Frame.get?_define] at hv
      by_cases hp : p.1.lexeme = m
      · rw [if_pos hp.symm] at hv
        exact .inl ⟨p, List.mem_cons_self, hp, hv⟩
      · rw [if_neg (Ne.symm hp)] at hv
        refine .inr ⟨?_, hv⟩
        intro q hq
        rcases List.mem_cons.mp hq with rfl | hq
        · exact hp
        · exact hne q hq

/-- The frame of a call binds parameters only, and to arguments. -/
theorem of_get?_callFrame {m : String} {v : Value} (h : (c.callFrame arguments).get? m = some v) :
    m ∈ c.decl.parameters.map (·.lexeme) ∧ v ∈ arguments := by
  rcases get?_foldl_define m (c.decl.parameters.zip arguments) (.empty (some c.frame)) with ⟨p, hp, hm, hv⟩ | ⟨-, hv⟩
  · have hv' : some v = some p.2 := h.symm.trans hv
    cases hv'
    exact ⟨List.mem_map.mpr ⟨p.1, (List.of_mem_zip hp).1, hm⟩, (List.of_mem_zip hp).2⟩
  · have hv' : some v = Option.none := h.symm.trans hv
    cases hv'

/-- With as many arguments as parameters, the frame of a call binds all parameters. -/
theorem isSome_get?_callFrame (hlength : arguments.length = c.decl.parameters.length) {m : String}
    (hm : m ∈ c.decl.parameters.map (·.lexeme)) : ((c.callFrame arguments).get? m).isSome := by
  rcases get?_foldl_define m (c.decl.parameters.zip arguments) (.empty (some c.frame)) with ⟨p, -, -, hv⟩ | ⟨hne, -⟩
  · exact Option.isSome_of_eq_some hv
  · obtain ⟨name, hname, rfl⟩ := List.mem_map.mp hm
    have hzip : (c.decl.parameters.zip arguments).map Prod.fst = c.decl.parameters :=
      List.map_fst_zip (Nat.le_of_eq hlength.symm)
    rw [← hzip] at hname
    obtain ⟨p, hp, rfl⟩ := List.mem_map.mp hname
    exact absurd rfl (hne p hp)

end Closure

/-! ### Operators -/

/-- A value that is no function of the program. -/
def Value.IsPlain (v : Value) : Prop := ∀ c, v ≠ .function c

theorem Value.IsPlain.sound {v : Value} (h : v.IsPlain) {Q : Site → Prop} {fs : Frames} {roster : Roster} :
    v.Sound Q fs roster := by
  cases v with
  | function c => exact absurd rfl (h c)
  | nil | bool _ | number _ | string _ | host _ => trivial

namespace Operator

theorem isPlain_unary {operator : Token} {v u : Value} (h : unary operator v = .ok u) : u.IsPlain := by
  unfold unary negate at h
  intro c hu
  subst hu
  split at h
  · split at h <;> cases h
  · cases h
  · cases h

theorem isPlain_numeric? {kind : Kind} {x y : Float} {u : Value} (h : numeric? kind x y = some u) : u.IsPlain := by
  unfold numeric? at h
  intro c hu
  subst hu
  split at h <;> cases h

theorem isPlain_binary {operator : Token} {l r u : Value} (h : binary operator l r = .ok u) : u.IsPlain := by
  unfold binary add compute at h
  intro c hu
  subst hu
  split at h
  · split at h <;> cases h
  · cases h
  · cases h
  · split at h
    · split at h
      · rename_i v hv
        cases h
        exact isPlain_numeric? hv c rfl
      · cases h
    · cases h

end Operator

/-! ### Places -/

/-- The references of some expressions inside some regions. -/
def Expr.sitesAll (rs : List Region) (es : List Expr) : List Site := (Expr.referencesAll es).map (⟨rs, ·⟩)

section
variable (rs : List Region)

theorem Expr.sites_binary (left : Expr) (operator : Token) (right : Expr) :
    (Expr.binary left operator right).sites rs = left.sites rs ++ right.sites rs := List.map_append

theorem Expr.sites_logical (left : Expr) (operator : Token) (right : Expr) :
    (Expr.logical left operator right).sites rs = left.sites rs ++ right.sites rs := List.map_append

theorem Expr.sites_assign (id : ExprId) (name : Token) (value : Expr) :
    (Expr.assign id name value).sites rs = value.sites rs ++ [⟨rs, ⟨true, id, name⟩⟩] := List.map_append

theorem Expr.sites_call (callee : Expr) (paren : Token) (arguments : List Expr) :
    (Expr.call callee paren arguments).sites rs = callee.sites rs ++ Expr.sitesAll rs arguments := List.map_append

theorem Expr.sitesAll_cons (e : Expr) (es : List Expr) :
    Expr.sitesAll rs (e :: es) = e.sites rs ++ Expr.sitesAll rs es := List.map_append

end

namespace World

/-- The world is at a place inside these regions, the sites there have the property, and the frame of the
    place may bind these names. -/
structure Ready (Q : Site → Prop) (w : World) (rs : List Region) (sites : List Site) (names : List String) :
    Prop where
  place : w.At rs
  sites : ∀ t ∈ sites, Q t
  names : w.current ≠ Frames.globals → ∀ n ∈ names, n ∈ w.roster w.current

namespace Ready
variable {Q : Site → Prop} {w w' : World} {rs : List Region} {sites sites' : List Site} {names names' : List String}

theorem later (h : w.Ready Q rs sites names) (hs : w.Sound Q) (hlater : w.Later w') : w'.Ready Q rs sites names where
  place := h.place.later hlater
  sites := h.sites
  names hne n hn := by
    have hcurrent : w'.current = w.current := hlater.keeps.current
    rw [hcurrent] at hne ⊢
    rw [hlater.roster w.current (h.place.lt_next hs)]
    exact h.names hne n hn

theorem sub (h : w.Ready Q rs sites names) (hsites : ∀ t ∈ sites', t ∈ sites) (hnames : ∀ n ∈ names', n ∈ names) :
    w.Ready Q rs sites' names' :=
  ⟨h.place, fun t ht => h.sites t (hsites t ht), fun hne n hn => h.names hne n (hnames n hn)⟩

/-- The first of some sites, for an expression. -/
theorem left (h : w.Ready Q rs (sites ++ sites') names) : w.Ready Q rs sites [] :=
  h.sub (fun _ ht => List.mem_append_left _ ht) (by simp)

theorem right (h : w.Ready Q rs (sites ++ sites') names) : w.Ready Q rs sites' [] :=
  h.sub (fun _ ht => List.mem_append_right _ ht) (by simp)

variable {body rest : List Stmt} {s : Stmt}

/-- Inside a block, at its beginning. -/
theorem blockEntered (h : w.Ready Q rs (Stmt.sitesAll (.ofBlock body :: rs) body) names) (hs : w.Sound Q) :
    (w.enter (.empty (some w.current)) (Region.ofBlock body).names).Sound Q ∧
      (w.enter (.empty (some w.current)) (Region.ofBlock body).names).Ready Q (.ofBlock body :: rs)
        (Stmt.sitesAll (.ofBlock body :: rs) body) (Stmt.declaresAll body) := by
  refine ⟨hs.enter ?_ (by simp) (by simp), ?_⟩
  · intro g hg
    cases hg
    exact h.place.lt_next hs
  · refine ⟨h.place.push rfl (by simp [Region.ofBlock]), h.sites, ?_⟩
    intro _ n hn
    have hroster : (w.enter (.empty (some w.current)) (Region.ofBlock body).names).roster w.frames.next =
      (Region.ofBlock body).names := if_pos rfl
    exact hroster.symm ▸ hn

/-- Inside a function that is called, at the beginning of its body. -/
theorem called {f : Closure} {arguments : List Value} (hs : w.Sound Q) (hf : f.Sound Q w.frames w.roster)
    (hargs : ∀ v ∈ arguments, v.Sound Q w.frames w.roster) (hlength : arguments.length = f.decl.parameters.length) :
    ∃ names rs, (w.enter (f.callFrame arguments) names).Sound Q ∧
      (w.enter (f.callFrame arguments) names).Ready Q rs (Stmt.sitesAll rs f.decl.body)
        (Stmt.declaresAll f.decl.body) ∧ Stmt.PlainAll f.decl.body := by
  obtain ⟨rs, hchain, hsites, hplain⟩ := hf
  let r := Region.ofFunction f.decl.parameters f.decl.body
  refine ⟨r.names, r :: rs, hs.enter ?_ ?_ ?_, ?_, hplain⟩
  · intro g hg
    rw [Closure.enclosing_callFrame] at hg
    cases hg
    exact hchain.lt_next hs.exist
  · intro m hm
    obtain ⟨v, hv⟩ := Option.isSome_iff_exists.mp hm
    exact List.mem_append_left _ (Closure.of_get?_callFrame hv).1
  · intro m v hv
    exact hargs v (Closure.of_get?_callFrame hv).2
  · refine ⟨hchain.push Closure.enclosing_callFrame fun _ hn => Closure.isSome_get?_callFrame hlength hn, hsites,
      fun _ n hn => ?_⟩
    have hroster : (w.enter (f.callFrame arguments) r.names).roster w.frames.next = r.names := if_pos rfl
    exact hroster.symm ▸ List.mem_append_right _ hn

/-- At the first of some statements. -/
theorem first (h : w.Ready Q rs (Stmt.sitesAll rs (s :: rest)) (Stmt.declaresAll (s :: rest))) :
    w.Ready Q rs (s.sites rs) s.declares :=
  h.sub (fun _ ht => List.mem_append_left _ ht) fun _ hn => List.mem_append_left _ hn

/-- Behind the first of some statements, when its declarations have been executed. -/
theorem next (h : w.Ready Q rs (Stmt.sitesAll rs (s :: rest)) (Stmt.declaresAll (s :: rest))) (hs : w.Sound Q)
    (hlater : w.Later w') (hbound : ∀ name ∈ s.declares, (w'.frames.here? w.current name).isSome) :
    w'.Ready Q (Region.declare s.declares rs) (Stmt.sitesAll (Region.declare s.declares rs) rest)
      (Stmt.declaresAll rest) := by
  have h' := h.later hs hlater
  have hcurrent : w'.current = w.current := hlater.keeps.current
  exact ⟨Frames.Chain.declare h'.place fun _ m hm => hcurrent ▸ hbound m hm,
    fun t ht => h'.sites t (List.mem_append_right _ ht), fun hne n hn => h'.names hne n (List.mem_append_right _ hn)⟩

/-- In the initializer of a variable. -/
theorem initializer {name : Token} {e : Expr} (h : w.Ready Q rs ((Stmt.var name (some e)).sites rs) names) :
    w.Ready Q (Region.openVar name.lexeme rs) (e.sites (Region.openVar name.lexeme rs)) [] :=
  ⟨h.place.openVar _, h.sites, by simp⟩

end Ready
end World

namespace Eval

/-- Evaluation with this fuel keeps the world sound. -/
structure Preserves (Q : Site → Prop) (c : Context) (n : Nat) : Prop where
  expr : ∀ {e : Expr} {w : World} {rs : List Region}, w.Sound Q → w.Ready Q rs (e.sites rs) [] →
    Ensures Q (Eval.expr c n e) w (Yields Q)
  exprs : ∀ {done : Array Value} {es : List Expr} {w : World} {rs : List Region}, w.Sound Q →
    w.Ready Q rs (Expr.sitesAll rs es) [] → (∀ v ∈ done.toList, Yields Q w v) →
      Ensures Q (Eval.exprs c n done es) w fun w' vs => ∀ v ∈ vs.toList, Yields Q w' v
  call : ∀ {f : Value} {arguments : List Value} {paren : Token} {w : World}, w.Sound Q → Yields Q w f →
    (∀ v ∈ arguments, Yields Q w v) → Ensures Q (Eval.call c n f arguments paren) w (Yields Q)
  invoke : ∀ {f : Value} {arguments : List Value} {paren : Token} {w : World}, w.Sound Q → Yields Q w f →
    (∀ v ∈ arguments, Yields Q w v) → f.arity? = some arguments.length →
      Ensures Q (Eval.invoke c n f arguments paren) w (Yields Q)
  stmt : ∀ {s : Stmt} {w : World} {rs : List Region}, w.Sound Q → w.Ready Q rs (s.sites rs) s.declares → s.Plain →
    Ensures Q (Eval.stmt c n s) w fun w' flow => flow.Sound Q w'.frames w'.roster ∧
      (flow = .normal → ∀ name ∈ s.declares, (w'.frames.here? w.current name).isSome)
  stmts : ∀ {ss : List Stmt} {w : World} {rs : List Region}, w.Sound Q →
    w.Ready Q rs (Stmt.sitesAll rs ss) (Stmt.declaresAll ss) → Stmt.PlainAll ss →
      Ensures Q (Eval.stmts c n ss) w fun w' flow => flow.Sound Q w'.frames w'.roster
  loop : ∀ {condition : Expr} {body : Stmt} {w : World} {rs : List Region}, w.Sound Q →
    w.Ready Q rs ((Stmt.loop condition body).sites rs) [] → (Stmt.loop condition body).Plain →
      Ensures Q (Eval.loop c n condition body) w fun w' flow => flow.Sound Q w'.frames w'.roster

namespace Preserves
variable {Q : Site → Prop} {c : Context} {n : Nat} (ih : Preserves Q c n) {w : World} {rs : List Region}
include ih

theorem expr_succ {e : Expr} (hs : w.Sound Q) (h : w.Ready Q rs (e.sites rs) []) :
    Ensures Q (Eval.expr c (n + 1) e) w (Yields Q) := by
  cases e with
  | literal v =>
    refine .pure hs (Value.IsPlain.sound ?_)
    intro closure hv
    cases v <;> cases hv
  | grouping e => exact ih.expr hs h
  | unary operator right =>
    have hright : w.Ready Q rs (right.sites rs) [] := h
    exact (ih.expr hs hright).bind fun v w' _ _ hs' _ =>
      .ofExcept hs' fun u hu => (Operator.isPlain_unary hu).sound
  | binary left operator right =>
    rw [Expr.sites_binary] at h
    refine (ih.expr hs h.left).bind fun l w' _ hlater hs' _ => ?_
    exact (ih.expr hs' (h.right.later hs hlater)).bind fun r w'' _ _ hs'' _ =>
      .ofExcept hs'' fun u hu => (Operator.isPlain_binary hu).sound
  | logical left operator right =>
    rw [Expr.sites_logical] at h
    refine (ih.expr hs h.left).bind fun l w' _ hlater hs' hl => ?_
    split
    · exact .pure hs' hl
    · exact ih.expr hs' (h.right.later hs hlater)
  | var id name => exact read_ensures hs id name
  | assign id name value =>
    rw [Expr.sites_assign] at h
    refine (ih.expr hs h.left).bind fun v w' _ _ hs' hv => ?_
    exact (assign_ensures hs' id name hv).bind fun _ w'' _ hlater' hs'' _ => .pure hs'' (hlater'.value hv)
  | call callee paren arguments =>
    rw [Expr.sites_call] at h
    refine (ih.expr hs h.left).bind fun f w' _ hlater hs' hf => ?_
    refine (ih.exprs hs' (h.right.later hs hlater) (by simp)).bind fun vs w'' _ hlater' hs'' hvs => ?_
    exact ih.call hs'' (hlater'.value hf) hvs

theorem exprs_succ {done : Array Value} {es : List Expr} (hs : w.Sound Q) (h : w.Ready Q rs (Expr.sitesAll rs es) [])
    (hdone : ∀ v ∈ done.toList, Yields Q w v) :
    Ensures Q (Eval.exprs c (n + 1) done es) w fun w' vs => ∀ v ∈ vs.toList, Yields Q w' v := by
  cases es with
  | nil => exact .pure hs hdone
  | cons e rest =>
    rw [Expr.sitesAll_cons] at h
    refine (ih.expr hs h.left).bind fun v w' _ hlater hs' hv => ?_
    refine ih.exprs hs' (h.right.later hs hlater) ?_
    intro u hu
    rw [Array.toList_push, List.mem_append, List.mem_singleton] at hu
    rcases hu with hu | rfl
    · exact hlater.value (hdone u hu)
    · exact hv

theorem call_succ {f : Value} {arguments : List Value} {paren : Token} (hs : w.Sound Q) (hf : Yields Q w f)
    (hargs : ∀ v ∈ arguments, Yields Q w v) : Ensures Q (Eval.call c (n + 1) f arguments paren) w (Yields Q) := by
  rw [Eval.call]
  split
  · exact .of_error hs rfl
  · rename_i arity harity
    split
    · exact .of_error hs rfl
    · rename_i hlength
      refine asCall_ensures (P := fun fs roster v => Value.Sound Q fs roster v) hs ?_
      exact ih.invoke (hs.congr rfl) hf hargs (by rw [harity, Decidable.not_not.mp hlength])

theorem invoke_succ (hc : c.host.Honest) {f : Value} {arguments : List Value} {paren : Token} (hs : w.Sound Q)
    (hf : Yields Q w f) (hargs : ∀ v ∈ arguments, Yields Q w v) (harity : f.arity? = some arguments.length) :
    Ensures Q (Eval.invoke c (n + 1) f arguments paren) w (Yields Q) := by
  cases f with
  | host f => exact callHost_ensures hc hs f hargs paren
  | function f =>
    have hlength : arguments.length = f.decl.parameters.length := (Option.some.inj harity).symm
    obtain ⟨names, rs, hsound, hbody, hplain⟩ := World.Ready.called hs hf hargs hlength
    refine
      (inFrame_ensures (P := fun fs roster flow => Flow.Sound Q fs roster flow) (ih.stmts hsound hbody hplain)).bind
      fun flow w' _ _ hs' hflow => .pure hs' ?_
    cases flow with
    | normal => trivial
    | returned v => exact hflow
  | nil | bool _ | number _ | string _ => exact .of_error hs rfl

theorem stmt_succ {s : Stmt} (hs : w.Sound Q) (h : w.Ready Q rs (s.sites rs) s.declares) (hplain : s.Plain) :
    Ensures Q (Eval.stmt c (n + 1) s) w fun w' flow => flow.Sound Q w'.frames w'.roster ∧
      (flow = .normal → ∀ name ∈ s.declares, (w'.frames.here? w.current name).isSome) := by
  cases s with
  | expression e =>
    have he : w.Ready Q rs (e.sites rs) [] := h
    exact (ih.expr hs he).bind fun _ w' _ _ hs' _ => .pure hs' ⟨trivial, by simp [Stmt.declares]⟩
  | print e =>
    have he : w.Ready Q rs (e.sites rs) [] := h
    refine (ih.expr hs he).bind fun v w' _ _ hs' _ => (printLine_ensures hs' v.display).bind fun _ w'' _ _ hs'' _ => ?_
    exact .pure hs'' ⟨trivial, by simp [Stmt.declares]⟩
  | var name initializer =>
    have hname : w.current ≠ Frames.globals → name.lexeme ∈ w.roster w.current := fun hne =>
      h.names hne _ (List.mem_singleton_self _)
    cases initializer with
    | none =>
      have hnil : Yields Q w .nil := trivial
      refine (define_ensures hs hnil hname (h.place.lt_next hs)).bind fun _ w' _ _ hs' hbound => ?_
      exact .pure hs' ⟨trivial, fun _ m hm => List.mem_singleton.mp hm ▸ hbound⟩
    | some e =>
      refine (ih.expr hs h.initializer).bind fun v w' _ hlater hs' hv => ?_
      have h' := h.later hs hlater
      have hcurrent : w'.current = w.current := hlater.keeps.current
      refine (define_ensures hs' hv (fun hne => h'.names hne _ (List.mem_singleton_self _)) (h'.place.lt_next hs')).bind
        fun _ w'' _ _ hs'' hbound => ?_
      rw [hcurrent] at hbound
      exact .pure hs'' ⟨trivial, fun _ m hm => List.mem_singleton.mp hm ▸ hbound⟩
  | block body =>
    obtain ⟨hsound, hbody⟩ := h.blockEntered hs
    have hblock : Ensures Q (Eval.stmt c (n + 1) (.block body)) w fun w' flow => flow.Sound Q w'.frames w'.roster :=
      inFrame_ensures (P := fun fs roster flow => Flow.Sound Q fs roster flow) (ih.stmts hsound hbody hplain)
    exact hblock.imp fun w' flow _ hflow => ⟨hflow, by simp [Stmt.declares]⟩
  | branch condition yes no =>
    obtain ⟨hyesDecl, hyesPlain, hnoPlain⟩ := hplain
    have hyesNil := Stmt.declares_eq_nil hyesDecl hyesPlain
    have hnoNil := Stmt.declares?_eq_nil hnoPlain
    rw [Stmt.sites, hyesNil, Region.declare_nil] at h
    refine (ih.expr hs h.left.left).bind fun v w' _ hlater hs' _ => ?_
    have h' := h.later hs hlater
    have hdeclares : (Stmt.branch condition yes no).declares = [] := by
      rw [Stmt.declares, hyesNil, hnoNil, List.append_nil]
    rw [hdeclares]
    split
    · refine (ih.stmt hs' (hyesNil.symm ▸ h'.left.right) hyesPlain).imp fun w'' flow _ hflow => ⟨hflow.1, by simp⟩
    · cases no with
      | none => exact .pure hs' ⟨trivial, by simp⟩
      | some s =>
        have hnil : s.declares = [] := hnoNil
        refine (ih.stmt hs' (hnil.symm ▸ h'.right) hnoPlain.2).imp fun w'' flow _ hflow => ⟨hflow.1, by simp⟩
  | loop condition body =>
    have hnil : (Stmt.loop condition body).declares = [] := Stmt.declares_eq_nil rfl hplain
    rw [hnil] at h ⊢
    exact (ih.loop hs h hplain).imp fun w' flow _ hflow => ⟨hflow, by simp⟩
  | function name parameters body =>
    have hname : w.current ≠ Frames.globals → name.lexeme ∈ w.roster w.current := fun hne =>
      h.names hne _ (List.mem_singleton_self _)
    refine (declare_ensures hs ⟨name, parameters, body⟩ h.place h.sites hplain hname).bind fun _ w' _ _ hs' hbound => ?_
    exact .pure hs' ⟨trivial, fun _ m hm => List.mem_singleton.mp hm ▸ hbound⟩
  | ret keyword value =>
    cases value with
    | none => exact .pure hs ⟨trivial, by simp [Stmt.declares]⟩
    | some e =>
      have he : w.Ready Q rs (e.sites rs) [] := h
      exact (ih.expr hs he).bind fun v w' _ _ hs' hv => .pure hs' ⟨hv, by simp [Stmt.declares]⟩

theorem stmts_succ {ss : List Stmt} (hs : w.Sound Q) (h : w.Ready Q rs (Stmt.sitesAll rs ss) (Stmt.declaresAll ss))
    (hplain : Stmt.PlainAll ss) :
    Ensures Q (Eval.stmts c (n + 1) ss) w fun w' flow => flow.Sound Q w'.frames w'.roster := by
  cases ss with
  | nil => exact .pure hs trivial
  | cons s rest =>
    refine (ih.stmt hs h.first hplain.1).bind fun flow w' _ hlater hs' hflow => ?_
    cases flow with
    | normal => exact ih.stmts hs' (h.next hs hlater (hflow.2 rfl)) hplain.2
    | returned v => exact .pure hs' hflow.1

theorem loop_succ {condition : Expr} {body : Stmt} (hs : w.Sound Q)
    (h : w.Ready Q rs ((Stmt.loop condition body).sites rs) []) (hplain : (Stmt.loop condition body).Plain) :
    Ensures Q (Eval.loop c (n + 1) condition body) w fun w' flow => flow.Sound Q w'.frames w'.roster := by
  have hnil : body.declares = [] := Stmt.declares_eq_nil hplain.1 hplain.2
  refine (ih.expr hs h.left).bind fun v w' _ hlater hs' _ => ?_
  have h' := h.later hs hlater
  split
  · refine (ih.stmt hs' (hnil.symm ▸ h'.right) hplain.2).bind fun flow w'' _ hlater' hs'' hflow => ?_
    cases flow with
    | normal => exact ih.loop hs'' (h'.later hs' hlater') hplain
    | returned v => exact .pure hs'' hflow.1
  · exact .pure hs' trivial

end Preserves

/-- Evaluation keeps the world sound, with any fuel. -/
theorem preserves (Q : Site → Prop) {c : Context} (hc : c.host.Honest) : ∀ n, Preserves Q c n
  | 0 =>
    { expr := fun hs _ => .of_error hs rfl
      exprs := fun hs _ _ => .of_error hs rfl
      call := fun hs _ _ => .of_error hs rfl
      invoke := fun hs _ _ _ => .of_error hs rfl
      stmt := fun hs _ _ => .of_error hs rfl
      stmts := fun hs _ _ => .of_error hs rfl
      loop := fun hs _ _ => .of_error hs rfl }
  | n + 1 =>
    have ih := preserves Q hc n
    { expr := ih.expr_succ
      exprs := ih.exprs_succ
      call := ih.call_succ
      invoke := ih.invoke_succ hc
      stmt := ih.stmt_succ
      stmts := ih.stmts_succ
      loop := ih.loop_succ }

/-- A program whose sites have the property keeps the world sound. -/
theorem program_ensures {Q : Site → Prop} {c : Context} (hc : c.host.Honest) (n : Nat) : ∀ {ss : List Stmt} {w : World},
    w.Sound Q → w.current = Frames.globals → (∀ t ∈ Stmt.sitesAll [] ss, Q t) → Stmt.PlainAll ss →
      Ensures Q (Eval.program c n ss) w fun _ _ => True
  | [], w, hs, _, _, _ => .pure hs trivial
  | s :: rest, w, hs, hglobals, hsites, hplain => by
    have hfirst : w.Ready Q [] (s.sites []) s.declares :=
      ⟨hglobals, fun t ht => hsites t (List.mem_append_left _ ht), fun hne => absurd hglobals hne⟩
    refine ((preserves Q hc n).stmt hs hfirst hplain.1).bind fun _ w' _ hlater hs' _ => ?_
    exact program_ensures hc n hs' (hlater.keeps.current.trans hglobals)
      (fun t ht => hsites t (List.mem_append_right _ ht)) hplain.2

end Eval
end Lox
