import Lox.Proofs.Scopes
import Lox.Resolve
import Mathlib.Data.List.Forall2

/-! # What resolution computes

Resolution walks over a program once. In the words of sites, its scopes say what the regions around the
place have declared (`Region.Describes`), it records the distance of every site in turn, and it reports
an error for each reading of a variable in its own initializer and each return outside of functions
(`Resolve.stmts_walk`). If no two references share an identity, the table holds the distance of each site
(`distances_resolve`). -/

namespace Lox

/-! ### Scopes and regions -/

/-- What the region says about a name: whether its declaration is complete, if it has begun. -/
def Region.status (r : Region) (name : String) : Option Bool :=
  if r.opening = some name then some false else if name ∈ r.declared then some true else none

/-- The scope of the walk says about every name what the region says. -/
def Region.Describes (r : Region) (scope : Resolve.Scope) : Prop :=
  ∀ name, scope.lookup name = r.status name

/-- The same between two statements, where no place is in an initializer. -/
def Region.Between (r : Region) (scope : Resolve.Scope) : Prop := r.opening = none ∧ r.Describes scope

namespace Resolve

section
variable {r : Region} {scope : Scope} {rs : List Region} {scopes : Scopes}

theorem lookup_mark (name : Token) (complete : Bool) (scope : Scope) (m : String) :
    (scope.mark name complete).lookup m = if m = name.lexeme then some complete else scope.lookup m := by
  unfold Scope.mark
  rw [List.lookup_cons]
  by_cases h : m = name.lexeme
  · simp [h]
  · rw [beq_eq_false_iff_ne.mpr h, if_neg h]

theorem declares_eq (h : r.Describes scope) (name : Token) : scope.declares name = r.enters name.lexeme := by
  unfold Scope.declares Region.enters
  rw [h name.lexeme, Region.status]
  by_cases ho : r.opening = some name.lexeme
  · simp [ho]
  · by_cases hd : name.lexeme ∈ r.declared <;> simp [ho, hd]

theorem isPending_eq (h : r.Describes scope) (name : Token) :
    scope.isPending name = (r.opening == some name.lexeme) := by
  unfold Scope.isPending
  rw [h name.lexeme, Region.status]
  by_cases ho : r.opening = some name.lexeme
  · simp [ho]
  · by_cases hd : name.lexeme ∈ r.declared <;> simp [ho, hd]

theorem findIdx?_eq (h : List.Forall₂ Region.Describes rs scopes) (name : Token) :
    scopes.findIdx? (·.declares name) = rs.findIdx? (·.enters name.lexeme) := by
  induction h with
  | nil => rfl
  | cons hr _ ih => rw [List.findIdx?_cons, List.findIdx?_cons, declares_eq hr, ih]

theorem isPending_head_eq (h : List.Forall₂ Region.Describes rs scopes) (name : Token) :
    scopes.head?.any (·.isPending name) = rs.head?.any (·.opening == some name.lexeme) := by
  cases h with
  | nil => rfl
  | cons hr _ => simp [isPending_eq hr]

theorem describes_of_between (h : List.Forall₂ Region.Between rs scopes) : List.Forall₂ Region.Describes rs scopes :=
  h.imp fun _ _ hr => hr.2

theorem describes_openVar (h : List.Forall₂ Region.Between rs scopes) (name : Token) :
    List.Forall₂ Region.Describes (Region.openVar name.lexeme rs) (scopes.mark name false) := by
  cases h with
  | nil => exact .nil
  | cons hr hrs =>
    refine .cons ?_ (describes_of_between hrs)
    intro m
    rw [lookup_mark, hr.2 m, Region.status, Region.status, hr.1]
    by_cases hm : m = name.lexeme
    · simp [hm]
    · simp [hm, Ne.symm hm]

theorem between_declare (h : List.Forall₂ Region.Between rs scopes) (name : Token) :
    List.Forall₂ Region.Between (Region.declare [name.lexeme] rs) (scopes.mark name true) := by
  cases h with
  | nil => exact .nil
  | cons hr hrs =>
    refine .cons ⟨hr.1, ?_⟩ hrs
    intro m
    rw [lookup_mark, hr.2 m, Region.status, Region.status, hr.1]
    by_cases hm : m = name.lexeme <;> simp [hm]

/-- A declaration that begins and ends leaves the scopes as if it had been there at once. -/
theorem between_mark_mark (h : List.Forall₂ Region.Between rs scopes) (name : Token) :
    List.Forall₂ Region.Between (Region.declare [name.lexeme] rs) ((scopes.mark name false).mark name true) := by
  cases h with
  | nil => exact .nil
  | cons hr hrs =>
    refine .cons ⟨hr.1, ?_⟩ hrs
    intro m
    rw [lookup_mark, lookup_mark, hr.2 m, Region.status, Region.status, hr.1]
    by_cases hm : m = name.lexeme <;> simp [hm]

theorem between_ofBlock (body : List Stmt) : (Region.ofBlock body).Between [] :=
  ⟨rfl, fun m => by simp [Region.status, Region.ofBlock]⟩

theorem lookup_foldl_mark (parameters : List Token) (scope : Scope) (m : String) :
    (parameters.foldl (fun scope name => scope.mark name true) scope).lookup m =
      if m ∈ parameters.map (·.lexeme) then some true else scope.lookup m := by
  induction parameters generalizing scope with
  | nil => simp
  | cons p ps ih =>
    rw [List.foldl_cons, ih, lookup_mark]
    by_cases hm : m = p.lexeme <;> simp [hm]

theorem between_ofFunction (parameters : List Token) (body : List Stmt) :
    (Region.ofFunction parameters body).Between (parameterScope parameters) := by
  refine ⟨rfl, ?_⟩
  intro m
  unfold parameterScope
  rw [lookup_foldl_mark, Region.status]
  simp [Region.ofFunction]

end

/-! ### Expressions -/

/-- Records the distance of a site. -/
def record (distances : Distances) (s : Site) : Distances :=
  match s.distance? with
  | some distance => distances.insert s.reference.id distance
  | none => distances

end Resolve

/-- The error of a site: reading a variable in its own initializer. -/
def Site.error? (s : Site) : Option ScopeError :=
  if s.reference.assigns = false ∧ s.regions.head?.any (·.opening == some s.name) then
    some ⟨s.reference.name, .ownInitializer⟩
  else none

/-- The errors of some sites. -/
def Site.errors (sites : List Site) : List ScopeError := sites.filterMap Site.error?

namespace Resolve

/-- Between the two the walk has found the distances of these sites and these errors. -/
structure Extends (found found' : Found) (sites : List Site) (errors : List ScopeError) : Prop where
  distances : found'.distances = sites.foldl record found.distances
  errors : found'.errors.toList = found.errors.toList ++ errors

namespace Extends
variable {found found' found'' : Found} {sites sites' : List Site} {errors errors' : List ScopeError}

theorem refl (found : Found) : Extends found found [] [] := ⟨rfl, by simp⟩

theorem trans (h : Extends found found' sites errors) (h' : Extends found' found'' sites' errors') :
    Extends found found'' (sites ++ sites') (errors ++ errors') where
  distances := by rw [h'.distances, h.distances, List.foldl_append]
  errors := by rw [h'.errors, h.errors, List.append_assoc]

/-- Two stretches of expressions, whose errors are those of their sites. -/
theorem append (h : Extends found found' sites (Site.errors sites))
    (h' : Extends found' found'' sites' (Site.errors sites')) :
    Extends found found'' (sites ++ sites') (Site.errors (sites ++ sites')) := by
  rw [Site.errors, List.filterMap_append]
  exact h.trans h'

end Extends

section
variable {rs : List Region} {scopes : Scopes} (h : List.Forall₂ Region.Describes rs scopes)
include h

theorem reference_walk (found : Found) (id : ExprId) (name : Token) (assigns : Bool) :
    Extends found (found.reference scopes id name) [⟨rs, ⟨assigns, id, name⟩⟩] [] := by
  unfold Found.reference
  rw [findIdx?_eq h name]
  cases hd : rs.findIdx? (·.enters name.lexeme) <;>
    exact ⟨by simp [record, Site.distance?, Site.name, hd], by simp⟩

theorem read_walk (found : Found) (id : ExprId) (name : Token) :
    Extends found (expr scopes found (.var id name)) [⟨rs, ⟨false, id, name⟩⟩]
      (Site.errors [⟨rs, ⟨false, id, name⟩⟩]) := by
  rw [expr, isPending_head_eq h name]
  by_cases hp : rs.head?.any (·.opening == some name.lexeme) = true
  · have hw := reference_walk h (found.error name .ownInitializer) id name false
    refine ⟨by simpa [hp, Found.error] using hw.distances, ?_⟩
    simpa [hp, Found.error, Site.errors, Site.error?, Site.name] using hw.errors
  · have hw := reference_walk h found id name false
    refine ⟨by simpa [hp] using hw.distances, ?_⟩
    simpa [hp, Site.errors, Site.error?, Site.name] using hw.errors

end

mutual

theorem expr_walk {rs : List Region} {scopes : Scopes} (h : List.Forall₂ Region.Describes rs scopes) :
    ∀ (e : Expr) (found : Found), Extends found (expr scopes found e) (e.sites rs) (Site.errors (e.sites rs))
  | .literal _, found => .refl found
  | .grouping e, found => expr_walk h e found
  | .unary _ r, found => expr_walk h r found
  | .binary l _ r, found | .logical l _ r, found => by
    have hlr := (expr_walk h l found).append (expr_walk h r (expr scopes found l))
    simpa only [expr, Expr.sites, Expr.references, List.map_append] using hlr
  | .var id name, found => read_walk h found id name
  | .assign id name value, found => by
    have hr := reference_walk h (expr scopes found value) id name true
    have hvr := (expr_walk h value found).append hr
    simpa only [expr, Expr.sites, Expr.references, List.map_append, List.map_cons, List.map_nil] using hvr
  | .call callee _ arguments, found => by
    have hfa := (expr_walk h callee found).append (exprs_walk h arguments (expr scopes found callee))
    simpa only [expr, Expr.sites, Expr.references, List.map_append] using hfa

theorem exprs_walk {rs : List Region} {scopes : Scopes} (h : List.Forall₂ Region.Describes rs scopes) :
    ∀ (es : List Expr) (found : Found), Extends found (exprs scopes found es) ((Expr.referencesAll es).map (⟨rs, ·⟩))
      (Site.errors ((Expr.referencesAll es).map (⟨rs, ·⟩)))
  | [], found => .refl found
  | e :: es, found => by
    have hes := (expr_walk h e found).append (exprs_walk h es (expr scopes found e))
    simpa only [exprs, Expr.sites, Expr.referencesAll, List.map_append] using hes

end

theorem expr?_walk {rs : List Region} {scopes : Scopes} (h : List.Forall₂ Region.Describes rs scopes)
    (e : Option Expr) (found : Found) :
    Extends found (expr? scopes found e) (Expr.sites? rs e) (Site.errors (Expr.sites? rs e)) := by
  cases e with
  | none => exact .refl found
  | some e => exact expr_walk h e found

end Resolve

/-! ### Statements -/

mutual

/-- The errors of a statement, in the order of the walk. -/
def Stmt.scopeErrors (inFunction : Bool) (rs : List Region) : Stmt → List ScopeError
  | .expression e | .print e => Site.errors (e.sites rs)
  | .var name init => Site.errors (Expr.sites? (Region.openVar name.lexeme rs) init)
  | .block body => Stmt.scopeErrorsAll inFunction (.ofBlock body :: rs) body
  | .branch c yes no =>
    Site.errors (c.sites rs) ++ yes.scopeErrors inFunction rs ++
      Stmt.scopeErrors? inFunction (Region.declare yes.declares rs) no
  | .loop c body => Site.errors (c.sites rs) ++ body.scopeErrors inFunction rs
  | .function name parameters body =>
    Stmt.scopeErrorsAll true (.ofFunction parameters body :: Region.declare [name.lexeme] rs) body
  | .ret keyword value =>
    (if inFunction then [] else [⟨keyword, .topLevelReturn⟩]) ++ Site.errors (Expr.sites? rs value)

def Stmt.scopeErrors? (inFunction : Bool) (rs : List Region) : Option Stmt → List ScopeError
  | none => []
  | some s => s.scopeErrors inFunction rs

def Stmt.scopeErrorsAll (inFunction : Bool) (rs : List Region) : List Stmt → List ScopeError
  | [] => []
  | s :: ss =>
    s.scopeErrors inFunction rs ++ Stmt.scopeErrorsAll inFunction (Region.declare s.declares rs) ss

end

namespace Resolve

/-- A walk over statements that declare these names. -/
structure Walk (rs : List Region) (names : List String) (found : Found) (sites : List Site)
    (errors : List ScopeError) (after : Scopes × Found) : Prop where
  scopes : List.Forall₂ Region.Between (Region.declare names rs) after.1
  found : Extends found after.2 sites errors

mutual

theorem stmt_walk (inFunction : Bool) {rs : List Region} {scopes : Scopes}
    (h : List.Forall₂ Region.Between rs scopes) : ∀ (s : Stmt) (found : Found),
      Walk rs s.declares found (s.sites rs) (s.scopeErrors inFunction rs) (stmt inFunction scopes found s)
  | .expression e, found | .print e, found =>
    ⟨by simpa [Stmt.declares, stmt] using h, expr_walk (describes_of_between h) e found⟩
  | .var name init, found =>
    ⟨between_mark_mark h name, expr?_walk (describes_openVar h name) init found⟩
  | .block body, found =>
    ⟨by simpa [Stmt.declares, stmt] using h, (stmts_walk inFunction (.cons (between_ofBlock body) h) body found).found⟩
  | .branch c yes no, found => by
    have hc := expr_walk (describes_of_between h) c found
    have hyes := stmt_walk inFunction h yes (expr scopes found c)
    have hno := stmt?_walk inFunction hyes.scopes no (stmt inFunction scopes (expr scopes found c) yes).2
    refine ⟨?_, (hc.trans hyes.found).trans hno.found⟩
    simpa only [Stmt.declares, Region.declare_declare, stmt] using hno.scopes
  | .loop c body, found => by
    have hbody := stmt_walk inFunction h body (expr scopes found c)
    exact ⟨hbody.scopes, (expr_walk (describes_of_between h) c found).trans hbody.found⟩
  | .function name parameters body, found =>
    have hs := between_declare h name
    ⟨hs, (stmts_walk true (.cons (between_ofFunction parameters body) hs) body found).found⟩
  | .ret keyword value, found => by
    refine ⟨by simpa [Stmt.declares, stmt] using h, ?_⟩
    have hd := describes_of_between h
    cases inFunction with
    | true => simpa [stmt, Stmt.sites, Stmt.scopeErrors] using expr?_walk hd value found
    | false =>
      have hv := expr?_walk hd value (found.error keyword .topLevelReturn)
      have hk : Extends found (found.error keyword .topLevelReturn) [] [⟨keyword, .topLevelReturn⟩] :=
        ⟨rfl, by simp [Found.error]⟩
      simpa [stmt, Stmt.sites, Stmt.scopeErrors] using hk.trans hv

theorem stmt?_walk (inFunction : Bool) {rs : List Region} {scopes : Scopes}
    (h : List.Forall₂ Region.Between rs scopes) : ∀ (s : Option Stmt) (found : Found),
      Walk rs (Stmt.declares? s) found (Stmt.sites? rs s) (Stmt.scopeErrors? inFunction rs s)
        (stmt? inFunction scopes found s)
  | none, found => ⟨by simpa [Stmt.declares?, stmt?] using h, .refl found⟩
  | some s, found => stmt_walk inFunction h s found

theorem stmts_walk (inFunction : Bool) {rs : List Region} {scopes : Scopes}
    (h : List.Forall₂ Region.Between rs scopes) : ∀ (ss : List Stmt) (found : Found),
      Walk rs (Stmt.declaresAll ss) found (Stmt.sitesAll rs ss) (Stmt.scopeErrorsAll inFunction rs ss)
        (stmts inFunction scopes found ss)
  | [], found => ⟨by simpa [stmts] using h, .refl found⟩
  | s :: ss, found => by
    have hs := stmt_walk inFunction h s found
    have hss := stmts_walk inFunction hs.scopes ss (stmt inFunction scopes found s).2
    refine ⟨?_, hs.found.trans hss.found⟩
    simpa only [Stmt.declaresAll_cons, Region.declare_declare, stmts] using hss.scopes

end

/-! ### The table -/

theorem getElem?_record (distances : Distances) (s : Site) (id : ExprId) :
    (record distances s)[id]? =
      if s.reference.id = id then (s.distance?.or distances[id]?) else distances[id]? := by
  unfold record
  cases s.distance? with
  | none => simp
  | some k =>
    by_cases h : s.reference.id = id <;> simp [Std.HashMap.getElem?_insert, h]

/-- An identity that no site has keeps its entry. -/
theorem getElem?_foldl_record_of_notMem {id : ExprId} : ∀ (sites : List Site) (distances : Distances),
    id ∉ sites.map (·.reference.id) → (sites.foldl record distances)[id]? = distances[id]?
  | [], _, _ => rfl
  | s :: sites, distances, h => by
    rw [List.map_cons, List.mem_cons, not_or] at h
    rw [List.foldl_cons, getElem?_foldl_record_of_notMem sites _ h.2, getElem?_record, if_neg (Ne.symm h.1)]

/-- If all identities differ and none has an entry yet, each site gets its own distance. -/
theorem getElem?_foldl_record : ∀ (sites : List Site) (distances : Distances),
    (sites.map (·.reference.id)).Nodup → (∀ s ∈ sites, distances[s.reference.id]? = none) →
      ∀ s ∈ sites, (sites.foldl record distances)[s.reference.id]? = s.distance?
  | s :: sites, distances, hnodup, hnew, t, ht => by
    rw [List.map_cons, List.nodup_cons] at hnodup
    rw [List.foldl_cons]
    rcases List.mem_cons.mp ht with rfl | ht
    · rw [getElem?_foldl_record_of_notMem _ _ hnodup.1, getElem?_record, if_pos rfl,
        hnew t List.mem_cons_self, Option.or_none]
    · refine getElem?_foldl_record sites _ hnodup.2 (fun u hu => ?_) t ht
      have hne : s.reference.id ≠ u.reference.id := fun h => hnodup.1 (h ▸ List.mem_map_of_mem hu)
      rw [getElem?_record, if_neg hne]
      exact hnew u (List.mem_cons_of_mem _ hu)

theorem resolve_walk (program : List Stmt) :
    Extends .empty (stmts false [] .empty program).2 (sitesOf program) (Stmt.scopeErrorsAll false [] program) :=
  (stmts_walk false .nil program .empty).found

/-- The errors of resolution are those of the program, in the order of the walk. -/
theorem errors_resolve (program : List Stmt) : (resolve program).errors = Stmt.scopeErrorsAll false [] program := by
  have h := (resolve_walk program).errors
  simpa [Found.empty, resolve] using h

/-- The table of a program whose references all differ in identity holds the distance of each site. -/
theorem distances_resolve {program : List Stmt} (h : ((sitesOf program).map (·.reference.id)).Nodup) :
    ∀ s ∈ sitesOf program, (resolve program).distances[s.reference.id]? = s.distance? := by
  have hd : (resolve program).distances = (sitesOf program).foldl record ∅ := (resolve_walk program).distances
  rw [hd]
  exact getElem?_foldl_record _ _ h fun _ _ => Std.HashMap.getElem?_empty

/-- The table has entries for the references of the program only. -/
theorem distances_resolve_of_notMem {program : List Stmt} {id : ExprId}
    (h : id ∉ (sitesOf program).map (·.reference.id)) : (resolve program).distances[id]? = none := by
  have hd : (resolve program).distances = (sitesOf program).foldl record ∅ := (resolve_walk program).distances
  rw [hd, getElem?_foldl_record_of_notMem _ _ h, Std.HashMap.getElem?_empty]

/-- Nothing is put down for references on the outermost level. -/
theorem distances_outermost {program : List Stmt} (h : ((sitesOf program).map (·.reference.id)).Nodup)
    (houtermost : ∀ t ∈ sitesOf program, t.regions = []) (id : ExprId) : (resolve program).distances[id]? = none := by
  by_cases hmem : id ∈ (sitesOf program).map (·.reference.id)
  · obtain ⟨t, ht, rfl⟩ := List.mem_map.mp hmem
    rw [distances_resolve h t ht, Site.distance?, houtermost t ht]
    rfl
  · exact distances_resolve_of_notMem hmem

/-! ### Programs in two parts -/

/-- On the outermost level nothing is declared in a region. -/
theorem sitesOf_append (ss ts : List Stmt) : sitesOf (ss ++ ts) = sitesOf ss ++ sitesOf ts := by
  unfold sitesOf
  induction ss with
  | nil => rfl
  | cons s ss ih =>
    rw [List.cons_append, Stmt.sitesAll, Stmt.sitesAll, List.append_assoc]
    exact congrArg _ ih

theorem scopeErrorsAll_append (ss ts : List Stmt) :
    Stmt.scopeErrorsAll false [] (ss ++ ts) = Stmt.scopeErrorsAll false [] ss ++ Stmt.scopeErrorsAll false [] ts := by
  induction ss with
  | nil => rfl
  | cons s ss ih =>
    rw [List.cons_append, Stmt.scopeErrorsAll, Stmt.scopeErrorsAll, List.append_assoc]
    exact congrArg _ ih

theorem isOk_append {ss ts : List Stmt} (h : (resolve ss).isOk = true) (h' : (resolve ts).isOk = true) :
    (resolve (ss ++ ts)).isOk = true := by
  rw [Resolution.isOk, errors_resolve, List.isEmpty_iff] at *
  rw [scopeErrorsAll_append, h, h', List.append_nil]

/-- The entries of some sites come before those that were there. -/
theorem getElem?_foldl_record_or (id : ExprId) : ∀ (sites : List Site) (distances : Distances),
    (sites.foldl record distances)[id]? = (sites.foldl record ∅)[id]?.or distances[id]?
  | [], distances => by
    have hnone : (∅ : Distances)[id]? = none := Std.HashMap.getElem?_empty
    rw [List.foldl_nil, List.foldl_nil, hnone, Option.none_or]
  | s :: sites, distances => by
    have hnone : (∅ : Distances)[id]? = none := Std.HashMap.getElem?_empty
    rw [List.foldl_cons, List.foldl_cons, getElem?_foldl_record_or id sites (record distances s),
      getElem?_foldl_record_or id sites (record ∅ s), getElem?_record, getElem?_record, hnone, Option.or_assoc]
    split
    · rw [Option.or_none]
    · rw [Option.none_or]

/-- The table of a program in two parts is that of both parts. -/
theorem distances_append (ss ts : List Stmt) (id : ExprId) :
    (resolve (ss ++ ts)).distances[id]? = (resolve ts).distances[id]?.or (resolve ss).distances[id]? := by
  have htable : ∀ program, (resolve program).distances = (sitesOf program).foldl record ∅ := fun program =>
    (resolve_walk program).distances
  rw [htable, htable, htable, sitesOf_append, List.foldl_append]
  exact getElem?_foldl_record_or id _ _

/-! ### Programs without errors -/

theorem mem_errors {t : Site} {e : ScopeError} (he : t.error? = some e) {sites : List Site} (ht : t ∈ sites) :
    e ∈ Site.errors sites :=
  List.mem_filterMap.mpr ⟨t, ht, he⟩

mutual

theorem mem_scopeErrors {t : Site} {e : ScopeError} (he : t.error? = some e) :
    ∀ (s : Stmt) (inFunction : Bool) (rs : List Region), t ∈ s.sites rs → e ∈ s.scopeErrors inFunction rs
  | .expression _, _, _, ht | .print _, _, _, ht | .var _ _, _, _, ht => mem_errors he ht
  | .block body, inFunction, _, ht => mem_scopeErrorsAll he body inFunction _ ht
  | .branch c yes no, inFunction, rs, ht => by
    simp only [Stmt.sites, Stmt.scopeErrors, List.mem_append] at ht ⊢
    rcases ht with (ht | ht) | ht
    · exact .inl (.inl (mem_errors he ht))
    · exact .inl (.inr (mem_scopeErrors he yes inFunction rs ht))
    · exact .inr (mem_scopeErrors? he no inFunction _ ht)
  | .loop c body, inFunction, rs, ht => by
    simp only [Stmt.sites, Stmt.scopeErrors, List.mem_append] at ht ⊢
    rcases ht with ht | ht
    · exact .inl (mem_errors he ht)
    · exact .inr (mem_scopeErrors he body inFunction rs ht)
  | .function _ _ body, _, _, ht => mem_scopeErrorsAll he body true _ ht
  | .ret _ _, _, _, ht => List.mem_append_right _ (mem_errors he ht)

theorem mem_scopeErrors? {t : Site} {e : ScopeError} (he : t.error? = some e) :
    ∀ (s : Option Stmt) (inFunction : Bool) (rs : List Region), t ∈ Stmt.sites? rs s →
    e ∈ Stmt.scopeErrors? inFunction rs s
  | none, _, _, ht => by cases ht
  | some s, inFunction, rs, ht => mem_scopeErrors he s inFunction rs ht

theorem mem_scopeErrorsAll {t : Site} {e : ScopeError} (he : t.error? = some e) :
    ∀ (ss : List Stmt) (inFunction : Bool) (rs : List Region), t ∈ Stmt.sitesAll rs ss →
    e ∈ Stmt.scopeErrorsAll inFunction rs ss
  | [], _, _, ht => by cases ht
  | s :: ss, inFunction, rs, ht => by
    simp only [Stmt.sitesAll, Stmt.scopeErrorsAll, List.mem_append] at ht ⊢
    rcases ht with ht | ht
    · exact .inl (mem_scopeErrors he s inFunction rs ht)
    · exact .inr (mem_scopeErrorsAll he ss inFunction _ ht)

end

/-- In a program without errors no variable is read in its own initializer. -/
theorem not_inOwnInitializer {program : List Stmt} (h : (resolve program).isOk) {s : Site}
    (hs : s ∈ sitesOf program) (hr : s.reference.assigns = false) : ¬ s.InOwnInitializer := by
  rintro ⟨r, outer, hregions, hopening⟩
  have herror : s.error? = some ⟨s.reference.name, .ownInitializer⟩ := by
    simp [Site.error?, hr, hregions, hopening]
  have hmem := mem_scopeErrorsAll herror program false [] hs
  rw [Resolution.isOk, errors_resolve, List.isEmpty_iff] at h
  rw [h] at hmem
  cases hmem

end Resolve
end Lox
