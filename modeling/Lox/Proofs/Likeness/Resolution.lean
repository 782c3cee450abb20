import Lox.Proofs.Likeness.Trees
import Lox.Resolve

/-! # Resolving like programs

Resolution looks at the texts of names only, and at identities only to put distances down. Like programs have
the same errors, at tokens that stand for each other, and references that stand for each other have the same
distances (`resolve_like`). -/

namespace Lox

/-- The same cause, at tokens that stand for each other. -/
structure ScopeError.Like (L : Likeness) (e e' : ScopeError) : Prop where
  token : L.token e.token e'.token
  cause : e'.cause = e.cause

namespace Resolve

/-- Like errors were found, and the same distances of references that stand for each other. -/
structure Found.Like (L : Likeness) (found found' : Found) : Prop where
  errors : List.Forall₂ (ScopeError.Like L) found.errors.toList found'.errors.toList
  distances : ∀ {a a' : ExprId}, L.id a a' → found'.distances[a']? = found.distances[a]?

section
variable {L : Likeness} {scopes : Scopes}

/-! ### Names -/

theorem mark_like {name name' : Token} (h : L.token name name') (complete : Bool) :
    scopes.mark name' complete = scopes.mark name complete := by
  unfold Scopes.mark Scope.mark
  rw [L.lexeme_eq h]

theorem declares_like {name name' : Token} (h : L.token name name') (scope : Scope) :
    scope.declares name' = scope.declares name := by
  unfold Scope.declares
  rw [L.lexeme_eq h]

theorem isPending_like {name name' : Token} (h : L.token name name') (scope : Scope) :
    scope.isPending name' = scope.isPending name := by
  unfold Scope.isPending
  rw [L.lexeme_eq h]

theorem parameterScope_like {ps ps' : List Token} (h : List.Forall₂ L.token ps ps') :
    parameterScope ps' = parameterScope ps := by
  have hfold : ∀ scope : Scope, ps'.foldl (fun scope name => scope.mark name true) scope =
      ps.foldl (fun scope name => scope.mark name true) scope := by
    induction h with
    | nil => exact fun _ => rfl
    | cons hp _ ih =>
      intro scope
      rw [List.foldl_cons, List.foldl_cons, Scope.mark, Scope.mark, L.lexeme_eq hp, ih]
  exact hfold []

/-! ### What is found -/

namespace Found.Like
variable {found found' : Found}

theorem error (h : found.Like L found') {token token' : Token} (ht : L.token token token') (cause : ScopeError.Cause) :
    (found.error token cause).Like L (found'.error token' cause) where
  errors := by
    unfold Found.error
    rw [Array.toList_push, Array.toList_push]
    exact List.rel_append h.errors (.cons ⟨ht, rfl⟩ .nil)
  distances := h.distances

theorem reference (h : found.Like L found') (hL : L.Injective) {id id' : ExprId}
    {name name' : Token} (hid : L.id id id')
    (hname : L.token name name') : (found.reference scopes id name).Like L (found'.reference scopes id' name') := by
  unfold Found.reference
  have hsame : (fun scope : Scope => scope.declares name') = fun scope => scope.declares name :=
    funext (declares_like hname)
  rw [hsame]
  split
  · rename_i distance _
    refine ⟨h.errors, fun {a a'} ha => ?_⟩
    rw [Std.HashMap.getElem?_insert, Std.HashMap.getElem?_insert, h.distances ha]
    have hiff : (id' == a') = (id == a) := by
      rw [Bool.eq_iff_iff, beq_iff_eq, beq_iff_eq]
      exact (hL hid ha).symm
    rw [hiff]
  · exact h

end Found.Like

/-! ### The walk -/

theorem var_like (hL : L.Injective) {found found' : Found} (hfound : found.Like L found') {id id' : ExprId}
    {name name' : Token} (hid : L.id id id') (hname : L.token name name') :
    (expr scopes found (.var id name)).Like L (expr scopes found' (.var id' name')) := by
  have hsame : (fun scope : Scope => scope.isPending name') = fun scope => scope.isPending name :=
    funext (isPending_like hname)
  rw [expr, expr, hsame]
  split
  · exact (hfound.error hname _).reference hL hid hname
  · exact hfound.reference hL hid hname

mutual

theorem expr_like (hL : L.Injective) : ∀ {e e' : Expr} {found found' : Found}, e.Like L e' → found.Like L found' →
    (expr scopes found e).Like L (expr scopes found' e')
  | _, _, _, _, .literal _, hfound => hfound
  | _, _, _, _, .grouping h, hfound => (expr_like hL h hfound :)
  | _, _, _, _, .unary _ h, hfound => (expr_like hL h hfound :)
  | _, _, _, _, .binary hl _ hr, hfound => (expr_like hL hr (expr_like hL hl hfound) :)
  | _, _, _, _, .logical hl _ hr, hfound => (expr_like hL hr (expr_like hL hl hfound) :)
  | _, _, _, _, .var hid hname, hfound => var_like hL hfound hid hname
  | _, _, _, _, .assign hid hname h, hfound => (expr_like hL h hfound).reference hL hid hname
  | _, _, _, _, .call hf _ hargs, hfound => exprs_like hL hargs (expr_like hL hf hfound)

theorem exprs_like (hL : L.Injective) : ∀ {es es' : List Expr} {found found' : Found}, Expr.LikeAll L es es' →
    found.Like L found' → (exprs scopes found es).Like L (exprs scopes found' es')
  | _, _, _, _, .nil, hfound => hfound
  | _, _, _, _, .cons h hes, hfound => (exprs_like hL hes (expr_like hL h hfound) :)

end

theorem expr?_like (hL : L.Injective) {e e' : Option Expr} {found found' : Found} (h : Expr.Like? L e e')
    (hfound : found.Like L found') : (expr? scopes found e).Like L (expr? scopes found' e') := by
  cases h with
  | none => exact hfound
  | some h => exact expr_like hL h hfound

/-- A walk over like statements goes on with the same scopes, and has found like things. -/
structure WalksLike (L : Likeness) (walk walk' : Scopes × Found) : Prop where
  scopes : walk'.1 = walk.1
  found : walk.2.Like L walk'.2

mutual

theorem stmt_like (hL : L.Injective) : ∀ {s s' : Stmt} {inFunction : Bool} {scopes : Scopes} {found found' : Found},
    s.Like L s' → found.Like L found' → WalksLike L (stmt inFunction scopes found s) (stmt inFunction scopes found' s')
  | _, _, _, _, _, _, .expression h, hfound => ⟨rfl, expr_like hL h hfound⟩
  | _, _, _, _, _, _, .print h, hfound => ⟨rfl, expr_like hL h hfound⟩
  | _, _, _, _, _, _, .var hname h, hfound => by
    simp only [stmt, mark_like hname]
    exact ⟨rfl, expr?_like hL h hfound⟩
  | _, _, _, _, _, _, .block h, hfound => ⟨rfl, (stmts_like hL h hfound).found⟩
  | _, _, inFunction, scopes, found, found', @Stmt.Like.branch _ c c' yes yes' _ _ hc hyes hno, hfound => by
    have hwalk : WalksLike L (stmt inFunction scopes (expr scopes found c) yes)
        (stmt inFunction scopes (expr scopes found' c') yes') := stmt_like hL hyes (expr_like hL hc hfound)
    simp only [stmt, hwalk.scopes]
    exact stmt?_like hL hno hwalk.found
  | _, _, _, _, _, _, .loop hc hbody, hfound => (stmt_like hL hbody (expr_like hL hc hfound) :)
  | _, _, _, _, _, _, .function hname hparameters hbody, hfound => by
    simp only [stmt, mark_like hname, parameterScope_like hparameters]
    exact ⟨rfl, (stmts_like hL hbody hfound).found⟩
  | _, _, inFunction, _, _, _, .ret hkeyword h, hfound => by
    refine ⟨rfl, expr?_like hL h ?_⟩
    split
    · exact hfound
    · exact hfound.error hkeyword _

theorem stmt?_like (hL : L.Injective) :
    ∀ {s s' : Option Stmt} {inFunction : Bool} {scopes : Scopes} {found found' : Found},
    Stmt.Like? L s s' → found.Like L found' →
      WalksLike L (stmt? inFunction scopes found s) (stmt? inFunction scopes found' s')
  | _, _, _, _, _, _, .none, hfound => ⟨rfl, hfound⟩
  | _, _, _, _, _, _, .some h, hfound => stmt_like hL h hfound

theorem stmts_like (hL : L.Injective) :
    ∀ {ss ss' : List Stmt} {inFunction : Bool} {scopes : Scopes} {found found' : Found},
    Stmt.LikeAll L ss ss' → found.Like L found' →
      WalksLike L (stmts inFunction scopes found ss) (stmts inFunction scopes found' ss')
  | _, _, _, _, _, _, .nil, hfound => ⟨rfl, hfound⟩
  | _, _, inFunction, scopes, found, found', @Stmt.LikeAll.cons _ s s' _ _ h hss, hfound => by
    have hwalk : WalksLike L (stmt inFunction scopes found s) (stmt inFunction scopes found' s') :=
      stmt_like hL h hfound
    simp only [stmts, hwalk.scopes]
    exact stmts_like hL hss hwalk.found

end

end
end Resolve

/-! ### Whole programs -/

/-- Resolving like programs finds like errors, and the same distances. -/
theorem resolve_like {L : Likeness} (hL : L.Injective) {program program' : List Stmt}
    (h : Stmt.LikeAll L program program') :
    List.Forall₂ (ScopeError.Like L) (resolve program).errors (resolve program').errors ∧
      ∀ {a a' : ExprId}, L.id a a' → (resolve program').distances[a']? = (resolve program).distances[a]? := by
  have hempty : Resolve.Found.Like L .empty .empty := ⟨.nil, fun _ => by
    rw [Resolve.Found.empty, Std.HashMap.getElem?_empty, Std.HashMap.getElem?_empty]⟩
  have hwalk : Resolve.WalksLike L (Resolve.stmts false [] .empty program) (Resolve.stmts false [] .empty program') :=
    Resolve.stmts_like hL h hempty
  exact ⟨hwalk.found.errors, hwalk.found.distances⟩

end Lox
