import Lox.Proofs.Evaluation.Moments
import Lox.Proofs.Evaluation.Preserve

/-! # Invariants of evaluation

An invariant says something of a machine and of the values in it. What it says depends on a stage that evaluation has
reached and never goes back behind: how many frames there are, say, or which functions were made. An invariant that the
elementary steps keep (`Invariant.Stable`) is kept by all of evaluation, however that ends (`Stable.kept`), and so it
holds at every moment that evaluation comes to (`Moment.Visits.keeps`). -/

namespace Lox

mutual

/-- The functions that a statement declares, inside of others too. -/
def Stmt.decls : Stmt → List FunctionDecl
  | .function name parameters body => ⟨name, parameters, body⟩ :: Stmt.declsAll body
  | .block body => Stmt.declsAll body
  | .branch _ yes no => yes.decls ++ Stmt.decls? no
  | .loop _ body => body.decls
  | .expression _ | .print _ | .var _ _ | .ret _ _ => []

def Stmt.decls? : Option Stmt → List FunctionDecl
  | none => []
  | some s => s.decls

def Stmt.declsAll : List Stmt → List FunctionDecl
  | [] => []
  | s :: ss => s.decls ++ Stmt.declsAll ss

end

/-- What may be said at a stage of a machine and of a value, and of a function that a program declares at any stage. -/
structure Invariant (Stage : Type) where
  /-- The second stage is the first one or a later one. -/
  before : Stage → Stage → Prop
  machine : Stage → Machine → Prop
  value : Stage → Value → Prop
  function : FunctionDecl → Prop

namespace Invariant
variable {Stage : Type} (I : Invariant Stage)

/-- What is said of a statement's ending: a returned value has to be one of which the invariant holds. -/
def flow (stage : Stage) : Flow → Prop
  | .normal => True
  | .returned v => I.value stage v

/-- The elementary steps keep the invariant, some of them at a later stage. -/
structure Stable (c : Context) : Prop where
  refl : ∀ stage, I.before stage stage
  trans : ∀ {stage stage' stage''}, I.before stage stage' → I.before stage' stage'' → I.before stage stage''
  later : ∀ {stage stage' v}, I.before stage stage' → I.value stage v → I.value stage' v
  plain : ∀ {stage v}, v.IsPlain → I.value stage v
  bound : ∀ {stage m f name v}, I.machine stage m → m.frames.here? f name = some v → I.value stage v
  quiet : ∀ {stage m m'}, I.machine stage m → m'.frames = m.frames → m'.current = m.current →
    m'.nextIdentity = m.nextIdentity → I.machine stage m'
  define : ∀ {stage m v} f name, I.machine stage m → I.value stage v →
    I.machine stage { m with frames := m.frames.define f name v }
  declare : ∀ {stage m} d, I.machine stage m → I.function d → ∃ stage', I.before stage stage' ∧
    I.machine stage' { m with
      frames := m.frames.define m.current d.name.lexeme (.function ⟨m.nextIdentity, d, m.current⟩)
      nextIdentity := m.nextIdentity + 1 }
  host : ∀ {stage n key arguments v}, c.host n key arguments = .ok v →
    (∀ u ∈ arguments, I.value stage u) → I.value stage v
  block : ∀ {stage m}, I.machine stage m → ∃ stage', I.before stage stage' ∧
    I.machine stage' { m with frames := m.frames.push (.empty (some m.current)), current := m.frames.next }
  call : ∀ {stage m f arguments}, I.machine stage m → I.value stage (.function f) → (∀ u ∈ arguments, I.value stage u) →
    ∃ stage', I.before stage stage' ∧
      I.machine stage' { m with frames := m.frames.push (f.callFrame arguments), current := m.frames.next }
  leave : ∀ {stage stage' m m'}, I.machine stage m → I.before stage stage' → I.machine stage' m' →
    I.machine stage' { m' with current := m.current }
  body : ∀ {stage f}, I.value stage (.function f) → ∀ d ∈ Stmt.declsAll f.decl.body, I.function d

/-- The step leads to a machine of which the invariant holds at a later stage, however it ends, and what it yields has
    the property there. -/
def Leads {α : Type} (stage : Stage) (P : Stage → α → Prop) (x : Eval α) (m : Machine) : Prop :=
  ∃ stage', I.before stage stage' ∧ I.machine stage' (x.final m) ∧ ∀ a m', x m = .ok a m' → P stage' a

namespace Stable
open Eval
variable {I} {c : Context} (S : I.Stable c) {stage : Stage} {m : Machine} {α β : Type} {P : Stage → α → Prop}
  {Q : Stage → β → Prop} {x : Eval α}
include S

/-! ### The elementary steps -/

theorem pure {a : α} (h : I.machine stage m) (ha : P stage a) : I.Leads stage P (Pure.pure a) m :=
  ⟨stage, S.refl stage, h, fun _ _ hok => by cases hok; exact ha⟩

theorem ok {a : α} {m' : Machine} (hx : x m = .ok a m') (h : I.machine stage m') (ha : P stage a) :
    I.Leads stage P x m :=
  ⟨stage, S.refl stage, by rw [final_of_ok hx]; exact h, fun _ _ hok => by rw [hx] at hok; cases hok; exact ha⟩

theorem error {stop : Stop} (h : I.machine stage m) (hx : x m = .error stop m) : I.Leads stage P x m :=
  ⟨stage, S.refl stage, by rw [final_of_error hx]; exact h, fun _ _ hok => by rw [hx] at hok; cases hok⟩

theorem bind {f : α → Eval β} (hx : I.Leads stage P x m)
    (hf : ∀ a m' stage', I.before stage stage' → I.machine stage' m' → P stage' a → I.Leads stage' Q (f a) m') :
    I.Leads stage Q (x >>= f) m := by
  obtain ⟨stage', hbefore, hmachine, hP⟩ := hx
  cases h : x m with
  | ok a m' =>
    rw [final_of_ok h] at hmachine
    obtain ⟨stage'', hbefore', hmachine', hQ⟩ := hf a m' stage' hbefore hmachine (hP a m' h)
    refine ⟨stage'', S.trans hbefore hbefore', ?_, fun b m'' hb => hQ b m'' ((bind_of_ok h).symm.trans hb)⟩
    rw [final_bind_of_ok h]
    exact hmachine'
  | error stop m' =>
    rw [final_of_error h] at hmachine
    refine ⟨stage', hbefore, ?_, fun b m'' hb => ?_⟩
    · rw [final_bind_of_error h]
      exact hmachine
    · rw [bind_of_error h] at hb
      cases hb

theorem ofExcept {result : Except RuntimeError α} (h : I.machine stage m) (hresult : ∀ a, result = .ok a → P stage a) :
    I.Leads stage P (Eval.ofExcept result) m := by
  cases result with
  | ok a => exact S.pure h (hresult a rfl)
  | error e => exact S.error h rfl

theorem read (h : I.machine stage m) (id : ExprId) (name : Token) : I.Leads stage I.value (Eval.read c id name) m := by
  cases hv : c.access.get? m.frames m.current id name.lexeme with
  | some v =>
    obtain ⟨g, hg⟩ := Access.get?_here? hv
    exact S.ok (by rw [Eval.read, hv]) h (S.bound h hg)
  | none => exact S.error h (by rw [Eval.read, hv])

theorem assign {v : Value} (h : I.machine stage m) (hv : I.value stage v) (id : ExprId) (name : Token) :
    I.Leads stage (fun _ _ => True) (Eval.assign c id name v) m := by
  cases hfs : c.access.assign? m.frames m.current id name.lexeme v with
  | some frames =>
    obtain ⟨g, -, rfl⟩ := Access.assign?_eq_define hfs
    exact S.ok (by rw [assign_apply, hfs]) (S.define g name.lexeme h hv) trivial
  | none => exact S.error h (by rw [assign_apply, hfs])

theorem binds {v : Value} (h : I.machine stage m) (hv : I.value stage v) (name : Token) :
    I.Leads stage (fun _ _ => True) (Eval.define name v) m :=
  S.ok (define_apply name v) (S.define _ _ h hv) trivial

theorem declares {d : FunctionDecl} (h : I.machine stage m) (hd : I.function d) :
    I.Leads stage (fun _ _ => True) (Eval.declare d) m := by
  obtain ⟨stage', hbefore, hmachine⟩ := S.declare d h hd
  exact ⟨stage', hbefore, final_of_ok (declare_apply d) ▸ hmachine, fun _ _ _ => trivial⟩

theorem callHost (h : I.machine stage m) (f : HostFunction) {arguments : List Value}
    (hargs : ∀ u ∈ arguments, I.value stage u) (paren : Token) :
    I.Leads stage I.value (Eval.callHost c f arguments paren) m := by
  refine ⟨stage, S.refl stage, ?_, fun v m' hv => ?_⟩
  · rw [final_callHost]
    exact S.quiet h rfl rfl rfl
  · rw [callHost_apply] at hv
    split at hv <;> cases hv
    rename_i hv
    exact S.host hv hargs

theorem printLine (h : I.machine stage m) (text : String) :
    I.Leads stage (fun _ _ => True) (Eval.printLine text) m := by
  refine ⟨stage, S.refl stage, ?_, fun _ _ _ => trivial⟩
  rw [final_printLine]
  exact S.quiet h rfl rfl rfl

/-- A step in a new frame, with which a later stage is reached. -/
theorem inFrame (frame : Frame) {stage' : Stage} (h : I.machine stage m) (hbefore : I.before stage stage')
    (hx : I.Leads stage' P x { m with frames := m.frames.push frame, current := m.frames.next }) :
    I.Leads stage P (Eval.inFrame frame x) m := by
  obtain ⟨stage'', hbefore', hmachine, hP⟩ := hx
  refine ⟨stage'', S.trans hbefore hbefore', ?_, fun a m' ha => ?_⟩
  · rw [final_inFrame]
    exact S.leave h (S.trans hbefore hbefore') hmachine
  · obtain ⟨m'', hok⟩ := inFrame_ok ha
    exact hP a m'' hok

theorem inBlock (h : I.machine stage m) (hx : ∀ m' stage', I.machine stage' m' → I.Leads stage' P x m') :
    I.Leads stage P (Eval.inBlock x) m := by
  obtain ⟨stage', hbefore, hmachine⟩ := S.block h
  exact S.inFrame (.empty (some m.current)) h hbefore (hx _ stage' hmachine)

theorem asCall {paren : Token} (h : I.machine stage m) (hx : I.Leads stage P x { m with depth := m.depth + 1 }) :
    I.Leads stage P (Eval.asCall paren x) m := by
  by_cases hdepth : m.depth < maxDepth
  · obtain ⟨stage', hbefore, hmachine, hP⟩ := hx
    refine ⟨stage', hbefore, ?_, fun a m' ha => ?_⟩
    · rw [final_asCall_of_lt paren x hdepth]
      exact S.quiet hmachine rfl rfl rfl
    · rw [asCall_apply, if_neg (Nat.not_le_of_lt hdepth)] at ha
      cases hok : x { m with depth := m.depth + 1 } with
      | ok b m'' =>
        rw [hok] at ha
        cases ha
        exact hP a m'' hok
      | error stop m'' => simp [hok] at ha
  · exact S.error h (by rw [asCall_apply, if_pos (Nat.le_of_not_lt hdepth)])

theorem ofLiteral (l : Literal) : I.value stage (.ofLiteral l) :=
  S.plain fun f hf => by cases l <;> cases hf

theorem nil : I.value stage .nil := S.plain nofun

theorem result {flow : Flow} (h : I.flow stage flow) : I.value stage flow.result := by
  cases flow with
  | normal => exact S.nil
  | returned v => exact h

end Stable

/-! ### All of evaluation -/

/-- With this fuel, evaluation keeps the invariant. -/
structure Kept (c : Context) (n : Nat) : Prop where
  expr : ∀ {stage m} e, I.machine stage m → I.Leads stage I.value (Eval.expr c n e) m
  exprs : ∀ {stage m} {done : Array Value} es, I.machine stage m → (∀ v ∈ done.toList, I.value stage v) →
    I.Leads stage (fun stage vs => ∀ v ∈ vs.toList, I.value stage v) (Eval.exprs c n done es) m
  call : ∀ {stage m f arguments} paren, I.machine stage m → I.value stage f → (∀ v ∈ arguments, I.value stage v) →
    I.Leads stage I.value (Eval.call c n f arguments paren) m
  invoke : ∀ {stage m f arguments} paren, I.machine stage m → I.value stage f → (∀ v ∈ arguments, I.value stage v) →
    I.Leads stage I.value (Eval.invoke c n f arguments paren) m
  stmt : ∀ {stage m s}, I.machine stage m → (∀ d ∈ s.decls, I.function d) → I.Leads stage I.flow (Eval.stmt c n s) m
  stmts : ∀ {stage m ss}, I.machine stage m → (∀ d ∈ Stmt.declsAll ss, I.function d) →
    I.Leads stage I.flow (Eval.stmts c n ss) m
  loop : ∀ {stage m} condition {body}, I.machine stage m → (∀ d ∈ body.decls, I.function d) →
    I.Leads stage I.flow (Eval.loop c n condition body) m

namespace Kept
variable {I} {c : Context} (S : I.Stable c) {n : Nat} (ih : I.Kept c n) {stage : Stage} {m : Machine}
include S ih

theorem expr_succ (e : Expr) (h : I.machine stage m) : I.Leads stage I.value (Eval.expr c (n + 1) e) m := by
  cases e with
  | literal v => exact S.pure h (S.ofLiteral v)
  | grouping e => exact ih.expr e h
  | unary operator right =>
    exact S.bind (ih.expr right h) fun v m' _ _ h' _ => S.ofExcept h' fun u hu => S.plain (Operator.isPlain_unary hu)
  | binary left operator right =>
    refine S.bind (ih.expr left h) fun l m' _ _ h' _ => S.bind (ih.expr right h') fun r m'' _ _ h'' _ => ?_
    exact S.ofExcept h'' fun u hu => S.plain (Operator.isPlain_binary hu)
  | logical left operator right =>
    refine S.bind (ih.expr left h) fun l m' _ _ h' hl => ?_
    split
    · exact S.pure h' hl
    · exact ih.expr right h'
  | var id name => exact S.read h id name
  | assign id name value =>
    refine S.bind (ih.expr value h) fun v m' _ _ h' hv => ?_
    exact S.bind (S.assign h' hv id name) fun _ m'' _ hbefore h'' _ => S.pure h'' (S.later hbefore hv)
  | call callee paren arguments =>
    refine S.bind (ih.expr callee h) fun f m' _ _ h' hf => ?_
    refine S.bind (ih.exprs arguments h' (by simp)) fun vs m'' _ hbefore h'' hvs => ?_
    exact ih.call paren h'' (S.later hbefore hf) hvs

theorem exprs_succ {done : Array Value} (es : List Expr) (h : I.machine stage m)
    (hdone : ∀ v ∈ done.toList, I.value stage v) :
    I.Leads stage (fun stage vs => ∀ v ∈ vs.toList, I.value stage v) (Eval.exprs c (n + 1) done es) m := by
  cases es with
  | nil => exact S.pure h hdone
  | cons e rest =>
    refine S.bind (ih.expr e h) fun v m' _ hbefore h' hv => ih.exprs rest h' ?_
    rw [Array.toList_push]
    exact List.forall_mem_append.mpr ⟨fun u hu => S.later hbefore (hdone u hu), List.forall_mem_singleton.mpr hv⟩

theorem call_succ {f : Value} {arguments : List Value} (paren : Token) (h : I.machine stage m) (hf : I.value stage f)
    (hargs : ∀ v ∈ arguments, I.value stage v) : I.Leads stage I.value (Eval.call c (n + 1) f arguments paren) m := by
  rw [Eval.call]
  split
  · exact S.error h rfl
  · split
    · exact S.error h rfl
    · exact S.asCall h (ih.invoke paren (S.quiet h rfl rfl rfl) hf hargs)

theorem invoke_succ {f : Value} {arguments : List Value} (paren : Token) (h : I.machine stage m) (hf : I.value stage f)
    (hargs : ∀ v ∈ arguments, I.value stage v) : I.Leads stage I.value (Eval.invoke c (n + 1) f arguments paren) m := by
  cases f with
  | host f => exact S.callHost h f hargs paren
  | function f =>
    obtain ⟨stage', hbefore, hentered⟩ := S.call h hf hargs
    have hbody := S.inFrame _ h hbefore (ih.stmts hentered (S.body hf))
    exact S.bind hbody fun flow m' _ _ h' hflow => S.pure h' (S.result hflow)
  | nil | bool _ | number _ | string _ => exact S.error h rfl

theorem stmt_succ {s : Stmt} (h : I.machine stage m) (hs : ∀ d ∈ s.decls, I.function d) :
    I.Leads stage I.flow (Eval.stmt c (n + 1) s) m := by
  cases s with
  | expression e => exact S.bind (ih.expr e h) fun _ m' _ _ h' _ => S.pure h' trivial
  | print e =>
    refine S.bind (ih.expr e h) fun v m' _ _ h' _ => ?_
    exact S.bind (S.printLine h' v.display) fun _ m'' _ _ h'' _ => S.pure h'' trivial
  | var name initializer =>
    cases initializer with
    | none => exact S.bind (S.binds h S.nil name) fun _ m' _ _ h' _ => S.pure h' trivial
    | some e =>
      refine S.bind (ih.expr e h) fun v m' _ _ h' hv => ?_
      exact S.bind (S.binds h' hv name) fun _ m'' _ _ h'' _ => S.pure h'' trivial
  | block body => exact S.inBlock h fun m' _ h' => ih.stmts h' hs
  | branch condition yes no =>
    refine S.bind (ih.expr condition h) fun v m' _ _ h' _ => ?_
    split
    · exact ih.stmt h' fun d hd => hs d (List.mem_append_left _ hd)
    · cases no with
      | none => exact S.pure h' trivial
      | some s => exact ih.stmt h' fun d hd => hs d (List.mem_append_right _ hd)
  | loop condition body => exact ih.loop condition h hs
  | function name parameters body =>
    exact S.bind (S.declares h (hs _ List.mem_cons_self)) fun _ m' _ _ h' _ => S.pure h' trivial
  | ret keyword value =>
    cases value with
    | none => exact S.pure h S.nil
    | some e => exact S.bind (ih.expr e h) fun v m' _ _ h' hv => S.pure h' hv

theorem stmts_succ {ss : List Stmt} (h : I.machine stage m) (hss : ∀ d ∈ Stmt.declsAll ss, I.function d) :
    I.Leads stage I.flow (Eval.stmts c (n + 1) ss) m := by
  cases ss with
  | nil => exact S.pure h trivial
  | cons s rest =>
    refine S.bind (ih.stmt h fun d hd => hss d (List.mem_append_left _ hd)) fun flow m' _ _ h' hflow => ?_
    cases flow with
    | normal => exact ih.stmts h' fun d hd => hss d (List.mem_append_right _ hd)
    | returned v => exact S.pure h' hflow

theorem loop_succ (condition : Expr) {body : Stmt} (h : I.machine stage m) (hbody : ∀ d ∈ body.decls, I.function d) :
    I.Leads stage I.flow (Eval.loop c (n + 1) condition body) m := by
  refine S.bind (ih.expr condition h) fun v m' _ _ h' _ => ?_
  split
  · refine S.bind (ih.stmt h' hbody) fun flow m'' _ _ h'' hflow => ?_
    cases flow with
    | normal => exact ih.loop condition h'' hbody
    | returned v => exact S.pure h'' hflow
  · exact S.pure h' trivial

end Kept

namespace Stable
variable {I} {c : Context} (S : I.Stable c)
include S

/-- What the elementary steps keep, all of evaluation keeps. -/
theorem kept : ∀ n, I.Kept c n
  | 0 => by constructor <;> intros <;> exact S.error ‹_› rfl
  | n + 1 =>
    have ih := kept n
    { expr := ih.expr_succ S
      exprs := ih.exprs_succ S
      call := ih.call_succ S
      invoke := ih.invoke_succ S
      stmt := ih.stmt_succ S
      stmts := ih.stmts_succ S
      loop := ih.loop_succ S }

theorem program (n : Nat) : ∀ {program : List Stmt} {stage : Stage} {m : Machine}, I.machine stage m →
    (∀ d ∈ Stmt.declsAll program, I.function d) → I.Leads stage (fun _ _ => True) (Eval.program c n program) m
  | [], _, _, h, _ => S.pure h trivial
  | _ :: _, _, _, h, hprogram => S.bind ((S.kept n).stmt h fun d hd => hprogram d (List.mem_append_left _ hd))
      fun _ _ _ _ h' _ => program n h' fun d hd => hprogram d (List.mem_append_right _ hd)

end Stable

/-! ### Moments -/

/-- What is said of a task: its values are such as the invariant holds of, and what it declares may be declared. -/
def task (stage : Stage) : Task → Prop
  | .expr _ => True
  | .exprs done _ => ∀ v ∈ done.toList, I.value stage v
  | .store _ _ v => I.value stage v
  | .call f arguments _ | .invoke f arguments _ => I.value stage f ∧ ∀ v ∈ arguments, I.value stage v
  | .stmt s => ∀ d ∈ s.decls, I.function d
  | .stmts ss | .program ss => ∀ d ∈ Stmt.declsAll ss, I.function d
  | .loop _ body => ∀ d ∈ body.decls, I.function d

/-- The invariant holds of the machine and of the task. -/
structure At (stage : Stage) (mo : Moment) : Prop where
  machine : I.machine stage mo.machine
  task : I.task stage mo.task

section
variable {I} {c : Context} (S : I.Stable c) {stage : Stage}
include S

theorem Stable.after_expr {n : Nat} {e : Expr} {m m' : Machine} {v : Value} (h : I.machine stage m)
    (hv : Eval.expr c n e m = .ok v m') : ∃ stage', I.before stage stage' ∧ I.machine stage' m' ∧ I.value stage' v := by
  obtain ⟨stage', hbefore, hmachine, hvalue⟩ := (S.kept n).expr e h
  exact ⟨stage', hbefore, Eval.final_of_ok hv ▸ hmachine, hvalue v m' hv⟩

theorem Stable.after_exprs {n : Nat} {es : List Expr} {m m' : Machine} {vs : Array Value} (h : I.machine stage m)
    (hvs : Eval.exprs c n #[] es m = .ok vs m') :
    ∃ stage', I.before stage stage' ∧ I.machine stage' m' ∧ ∀ v ∈ vs.toList, I.value stage' v := by
  have hnone : ∀ v ∈ (#[] : Array Value).toList, I.value stage v := nofun
  obtain ⟨stage', hbefore, hmachine, hvalues⟩ := (S.kept n).exprs es h hnone
  exact ⟨stage', hbefore, Eval.final_of_ok hvs ▸ hmachine, hvalues vs m' hvs⟩

theorem Stable.after_stmt {n : Nat} {s : Stmt} {m m' : Machine} {flow : Flow} (h : I.machine stage m)
    (hdecls : ∀ d ∈ s.decls, I.function d) (hs : Eval.stmt c n s m = .ok flow m') :
    ∃ stage', I.before stage stage' ∧ I.machine stage' m' ∧ I.flow stage' flow := by
  obtain ⟨stage', hbefore, hmachine, hflow⟩ := (S.kept n).stmt h hdecls
  exact ⟨stage', hbefore, Eval.final_of_ok hs ▸ hmachine, hflow flow m' hs⟩

theorem Stable.enters {mo mo' : Moment} (h : Moment.Enters c mo mo') (hmo : I.At stage mo) :
    ∃ stage', I.before stage stage' ∧ I.At stage' mo' := by
  obtain ⟨hm, ht⟩ := hmo
  cases h with
  | grouping | operand | left | leftLogical | value | callee | expression | print | initializer | result | test
  | condition => exact ⟨stage, S.refl stage, hm, trivial⟩
  | first => exact ⟨stage, S.refl stage, hm, trivial⟩
  | loop => exact ⟨stage, S.refl stage, hm, ht⟩
  | stmt | begin => exact ⟨stage, S.refl stage, hm, fun d hd => ht d (List.mem_append_left _ hd)⟩
  | right hv | rightLogical hv =>
    obtain ⟨stage', hbefore, hm', -⟩ := S.after_expr hm hv
    exact ⟨stage', hbefore, hm', trivial⟩
  | yes hv =>
    obtain ⟨stage', hbefore, hm', -⟩ := S.after_expr hm hv
    exact ⟨stage', hbefore, hm', fun d hd => ht d (List.mem_append_left _ hd)⟩
  | no hv =>
    obtain ⟨stage', hbefore, hm', -⟩ := S.after_expr hm hv
    exact ⟨stage', hbefore, hm', fun d hd => ht d (List.mem_append_right _ hd)⟩
  | round hv =>
    obtain ⟨stage', hbefore, hm', -⟩ := S.after_expr hm hv
    exact ⟨stage', hbefore, hm', ht⟩
  | store hv =>
    obtain ⟨stage', hbefore, hm', hvalue⟩ := S.after_expr hm hv
    exact ⟨stage', hbefore, hm', hvalue⟩
  | arguments hf =>
    obtain ⟨stage', hbefore, hm', -⟩ := S.after_expr hm hf
    exact ⟨stage', hbefore, hm', fun v hv => by cases hv⟩
  | call hf hargs =>
    obtain ⟨stage', hbefore, hm', hvalue⟩ := S.after_expr hm hf
    obtain ⟨stage'', hbefore', hm'', hvalues⟩ := S.after_exprs hm' hargs
    exact ⟨stage'', S.trans hbefore hbefore', hm'', S.later hbefore' hvalue, hvalues⟩
  | rest hv =>
    obtain ⟨stage', hbefore, hm', hvalue⟩ := S.after_expr hm hv
    refine ⟨stage', hbefore, hm', ?_⟩
    rw [task, Array.toList_push]
    exact List.forall_mem_append.mpr ⟨fun u hu => S.later hbefore (ht u hu), List.forall_mem_singleton.mpr hvalue⟩
  | invoke harity hdepth => exact ⟨stage, S.refl stage, S.quiet hm rfl rfl rfl, ht⟩
  | body =>
    obtain ⟨stage', hbefore, hm'⟩ := S.call hm ht.1 ht.2
    exact ⟨stage', hbefore, hm', S.body ht.1⟩
  | block =>
    obtain ⟨stage', hbefore, hm'⟩ := S.block hm
    exact ⟨stage', hbefore, hm', ht⟩
  | stmts hs | proceed hs =>
    obtain ⟨stage', hbefore, hm', -⟩ := S.after_stmt hm (fun d hd => ht d (List.mem_append_left _ hd)) hs
    exact ⟨stage', hbefore, hm', fun d hd => ht d (List.mem_append_right _ hd)⟩
  | again hv _ hs =>
    obtain ⟨stage', hbefore, hm', -⟩ := S.after_expr hm hv
    obtain ⟨stage'', hbefore', hm'', -⟩ := S.after_stmt hm' ht hs
    exact ⟨stage'', S.trans hbefore hbefore', hm'', ht⟩

/-- The invariant holds at every moment that evaluation comes to. -/
theorem Stable.visits {mo mo' : Moment} (h : Moment.Visits c mo mo') (hmo : I.At stage mo) :
    ∃ stage', I.before stage stage' ∧ I.At stage' mo' := by
  induction h generalizing stage with
  | here => exact ⟨stage, S.refl stage, hmo⟩
  | enter he _ ih =>
    obtain ⟨stage', hbefore, hmo'⟩ := S.enters he hmo
    obtain ⟨stage'', hbefore', hmo''⟩ := ih hmo'
    exact ⟨stage'', S.trans hbefore hbefore', hmo''⟩

end
end Invariant
end Lox
