import Lox.Proofs.Resolution

/-! # Static errors

Resolution enforces two rules. A variable that a block or a function declares is not read in its own initializer, and
no return stands outside of all functions. Whether a place breaks a rule depends on no scope: it takes the initializer
that the place is in, and whether a block or a function is around it. Resolution reports each place that breaks a rule,
in the order of its walk, and nothing else (`errors_resolve_eq_faults`). -/

namespace Lox

/-! ### Readings -/

/-- The variables that an expression reads, in their order. -/
def Expr.reads (e : Expr) : List Token := (e.references.filter (!·.assigns)).map (·.name)

def Expr.readsAll (es : List Expr) : List Token := es.flatMap Expr.reads

/-- The variables that an expression reads, if it is there. -/
def Expr.reads? (e : Option Expr) : List Token := e.elim [] Expr.reads

theorem Expr.readsAll_eq (es : List Expr) :
    Expr.readsAll es = ((Expr.referencesAll es).filter (!·.assigns)).map (·.name) := by
  induction es with
  | nil => rfl
  | cons e es ih =>
    rw [Expr.referencesAll, List.filter_append, List.map_append, ← ih]
    rfl

theorem Expr.reads_call (f : Expr) (paren : Token) (args : List Expr) :
    (Expr.call f paren args).reads = f.reads ++ Expr.readsAll args := by
  rw [Expr.readsAll_eq]
  simp [Expr.reads, Expr.references]

theorem Expr.reads_assign (id : ExprId) (name : Token) (value : Expr) :
    (Expr.assign id name value).reads = value.reads := by
  simp [Expr.reads, Expr.references]

theorem Expr.readsAll_concat (es : List Expr) (e : Expr) : Expr.readsAll (es ++ [e]) = Expr.readsAll es ++ e.reads := by
  simp [Expr.readsAll]

/-! ### The two rules -/

mutual

/-- The places of a statement that break a rule, `inScope` saying whether a block or a function is around the
    statement, and `inFunction` whether a function is. -/
def Stmt.faults (inScope inFunction : Bool) : Stmt → List ScopeError
  | .expression _ | .print _ => []
  | .var name init =>
    if inScope then ((Expr.reads? init).filter (·.lexeme == name.lexeme)).map (⟨·, .ownInitializer⟩) else []
  | .block body => Stmt.faultsAll true inFunction body
  | .branch _ yes no => yes.faults inScope inFunction ++ Stmt.faults? inScope inFunction no
  | .loop _ body => body.faults inScope inFunction
  | .function _ _ body => Stmt.faultsAll true true body
  | .ret keyword _ => if inFunction then [] else [⟨keyword, .topLevelReturn⟩]

def Stmt.faults? (inScope inFunction : Bool) : Option Stmt → List ScopeError
  | none => []
  | some s => s.faults inScope inFunction

def Stmt.faultsAll (inScope inFunction : Bool) : List Stmt → List ScopeError
  | [] => []
  | s :: ss => s.faults inScope inFunction ++ Stmt.faultsAll inScope inFunction ss

end

theorem Stmt.faultsAll_concat (inScope inFunction : Bool) (ss : List Stmt) (s : Stmt) :
    Stmt.faultsAll inScope inFunction (ss ++ [s]) =
      Stmt.faultsAll inScope inFunction ss ++ s.faults inScope inFunction := by
  induction ss with
  | nil => simp [Stmt.faultsAll]
  | cons t ss ih => simp only [List.cons_append, Stmt.faultsAll, ih, List.append_assoc]

/-! ### Sites that are errors -/

/-- Outside of initializers no reference is an error. -/
theorem Site.errors_of_closed {rs : List Region} (h : Region.AllClosed rs) (refs : List Reference) :
    Site.errors (refs.map (⟨rs, ·⟩)) = [] := by
  refine List.filterMap_eq_nil_iff.mpr fun s hs => ?_
  obtain ⟨ref, -, rfl⟩ := List.mem_map.mp hs
  cases rs with
  | nil => simp [Site.error?]
  | cons r outer => simp [Site.error?, h r List.mem_cons_self]

/-- In the initializer of a variable of a block or a function, the readings of its name are errors. -/
theorem Site.errors_openVar (name : String) (r : Region) (outer : List Region) (refs : List Reference) :
    Site.errors (refs.map (⟨Region.openVar name (r :: outer), ·⟩)) =
      (((refs.filter (!·.assigns)).map (·.name)).filter (·.lexeme == name)).map (⟨·, .ownInitializer⟩) := by
  induction refs with
  | nil => rfl
  | cons ref refs ih =>
    have hcons : Site.errors ((ref :: refs).map (⟨Region.openVar name (r :: outer), ·⟩)) =
        (Site.error? ⟨Region.openVar name (r :: outer), ref⟩).toList ++
          Site.errors (refs.map (⟨Region.openVar name (r :: outer), ·⟩)) := by
      rw [List.map_cons, Site.errors, List.filterMap_cons]
      split <;> simp_all [Site.errors]
    rw [hcons, ih]
    cases ha : ref.assigns with
    | true => simp [Site.error?, ha]
    | false =>
      by_cases hn : ref.name.lexeme = name
      · simp [Site.error?, Site.name, Region.openVar, ha, hn]
      · simp [Site.error?, Site.name, Region.openVar, ha, hn, Ne.symm hn]

theorem Region.isEmpty_declare (names : List String) (rs : List Region) :
    (Region.declare names rs).isEmpty = rs.isEmpty := by
  cases rs <;> rfl

mutual

/-- The errors of a statement are the places that break a rule. -/
theorem Stmt.scopeErrors_eq : ∀ (s : Stmt) (inFunction : Bool) {rs : List Region}, Region.AllClosed rs →
    s.scopeErrors inFunction rs = s.faults (!rs.isEmpty) inFunction
  | .expression _, _, _, h | .print _, _, _, h => Site.errors_of_closed h _
  | .var name init, _, [], h => Site.errors_of_closed h _
  | .var name init, _, r :: outer, h => by
    rw [Stmt.scopeErrors, Expr.sites?, Site.errors_openVar, Stmt.faults]
    cases init <;> rfl
  | .block body, inFunction, rs, h => Stmt.scopeErrorsAll_eq body inFunction (h.cons (r := .ofBlock body) rfl)
  | .branch c yes no, inFunction, rs, h => by
    rw [Stmt.scopeErrors, Stmt.faults, Stmt.scopeErrors_eq yes inFunction h,
      Stmt.scopeErrors?_eq no inFunction (h.declare _), Expr.sites, Site.errors_of_closed h, List.nil_append,
      Region.isEmpty_declare]
  | .loop c body, inFunction, rs, h => by
    rw [Stmt.scopeErrors, Stmt.faults, Stmt.scopeErrors_eq body inFunction h, Expr.sites, Site.errors_of_closed h,
      List.nil_append]
  | .function name parameters body, _, rs, h =>
    Stmt.scopeErrorsAll_eq body true ((h.declare [name.lexeme]).cons (r := .ofFunction parameters body) rfl)
  | .ret keyword value, inFunction, rs, h => by
    rw [Stmt.scopeErrors, Stmt.faults, Expr.sites?, Site.errors_of_closed h, List.append_nil]

theorem Stmt.scopeErrors?_eq : ∀ (s : Option Stmt) (inFunction : Bool) {rs : List Region}, Region.AllClosed rs →
    Stmt.scopeErrors? inFunction rs s = Stmt.faults? (!rs.isEmpty) inFunction s
  | none, _, _, _ => rfl
  | some s, inFunction, _, h => Stmt.scopeErrors_eq s inFunction h

theorem Stmt.scopeErrorsAll_eq : ∀ (ss : List Stmt) (inFunction : Bool) {rs : List Region}, Region.AllClosed rs →
    Stmt.scopeErrorsAll inFunction rs ss = Stmt.faultsAll (!rs.isEmpty) inFunction ss
  | [], _, _, _ => rfl
  | s :: ss, inFunction, rs, h => by
    rw [Stmt.scopeErrorsAll, Stmt.faultsAll, Stmt.scopeErrors_eq s inFunction h,
      Stmt.scopeErrorsAll_eq ss inFunction (h.declare _), Region.isEmpty_declare]

end

/-- Resolution reports the places of a program that break a rule. -/
theorem Resolve.errors_resolve_eq_faults (program : List Stmt) :
    (resolve program).errors = Stmt.faultsAll false false program := by
  rw [errors_resolve]
  exact Stmt.scopeErrorsAll_eq program false (by simp [Region.AllClosed])

end Lox
