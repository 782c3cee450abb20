import Lox.Proofs.ForLoops.Evaluation
import Lox.Proofs.Parsing.Trees
import Lox.Proofs.Resolution
import Mathlib.Data.List.Nodup

/-! # Distances around an extra scope

What the parser makes of a `for` statement has a scope around the body and the increment that the loop itself does not
have, and nothing is ever declared in it. So a name is found at the same scope in both, as many scopes further outward
as there are such scopes in between (`Region.Inserted.findIdx?_eq`). Where the tables of two runs hold the distances of
two such statements, the statements are the same but for these distances (`Stmt.Like.skips`, `loops_of_recorded`). -/

namespace Lox

/-! ### An extra region -/

/-- The regions on the left are those on the right and, so many regions outward, one that declares nothing. -/
inductive Region.Inserted : Option Nat → List Region → List Region → Prop
  | same (rs : List Region) : Region.Inserted none rs rs
  | here {r : Region} {rs : List Region} (hdeclared : r.declared = []) (hopening : r.opening = none) :
    Region.Inserted (some 0) (r :: rs) rs
  | inside {extra : Option Nat} {rs rs' : List Region} (r : Region) (h : Region.Inserted extra rs rs') :
    Region.Inserted (inside extra) (r :: rs) (r :: rs')

namespace Region.Inserted
variable {extra : Option Nat} {rs rs' : List Region} (h : Region.Inserted extra rs rs')
include h

theorem findIdx?_eq (name : String) :
    rs.findIdx? (·.enters name) = (rs'.findIdx? (·.enters name)).map (skip extra) := by
  induction h with
  | same rs => exact (congrFun Option.map_id _).symm
  | @here r rs hdeclared hopening =>
    have hnone : r.enters name = false := by simp [Region.enters, hdeclared, hopening]
    rw [List.findIdx?_cons, hnone]
    rfl
  | @inside extra rs rs' r _ ih =>
    rw [List.findIdx?_cons, List.findIdx?_cons]
    cases r.enters name with
    | true => exact congrArg some (skip_inside_zero extra).symm
    | false =>
      have hsucc : skip (Lox.inside extra) ∘ (· + 1) = (· + 1) ∘ skip extra := funext (skip_inside_succ extra)
      simp only [Bool.false_eq_true, if_false, ih, Option.map_map, hsucc]

theorem declare (hextra : extra ≠ some 0) (names : List String) :
    Region.Inserted extra (Region.declare names rs) (Region.declare names rs') := by
  cases h with
  | same => exact .same _
  | here => exact absurd rfl hextra
  | inside r h => exact .inside { r with declared := r.declared ++ names } h

theorem openVar (hextra : extra ≠ some 0) (name : String) :
    Region.Inserted extra (Region.openVar name rs) (Region.openVar name rs') := by
  cases h with
  | same => exact .same _
  | here => exact absurd rfl hextra
  | inside r h => exact .inside { r with opening := some name } h

end Region.Inserted

theorem inside_ne (extra : Option Nat) : inside extra ≠ some 0 := by
  cases extra <;> simp [inside]

/-! ### Recorded distances -/

/-- The table holds the distances of these sites. -/
def Recorded (d : Distances) (sites : List Site) : Prop := ∀ t ∈ sites, d[t.reference.id]? = t.distance?

namespace Recorded
variable {d : Distances} {sites sites' : List Site}

theorem left (h : Recorded d (sites ++ sites')) : Recorded d sites := fun t ht => h t (List.mem_append_left _ ht)

theorem right (h : Recorded d (sites ++ sites')) : Recorded d sites' := fun t ht => h t (List.mem_append_right _ ht)

end Recorded

/-! ### Trees that are like -/

section
variable {L : Likeness}

mutual

theorem Stmt.Like.declares_eq {s s' : Stmt} : s.Like L s' → s'.declares = s.declares
  | .var hname _ | .function hname _ _ => congrArg (fun name => [name]) (L.lexeme_eq hname)
  | .branch _ hyes hno => by rw [Stmt.declares, Stmt.declares, hyes.declares_eq, hno.declares_eq]
  | .loop _ hbody => by rw [Stmt.declares, Stmt.declares, hbody.declares_eq]
  | .expression _ | .print _ | .block _ | .ret _ _ => rfl

theorem Stmt.Like?.declares_eq {s s' : Option Stmt} : Stmt.Like? L s s' → Stmt.declares? s' = Stmt.declares? s
  | .none => rfl
  | .some h => by rw [Stmt.declares?, Stmt.declares?, h.declares_eq]

end

theorem Stmt.LikeAll.declaresAll_eq {ss ss' : List Stmt} (h : Stmt.LikeAll L ss ss') :
    Stmt.declaresAll ss' = Stmt.declaresAll ss := by
  cases h with
  | nil => rfl
  | cons h hss => rw [Stmt.declaresAll_cons, Stmt.declaresAll_cons, h.declares_eq, hss.declaresAll_eq]

variable {tables : Tables} {extra : Option Nat} {rs rs' : List Region}

theorem pairs_of_recorded (hL : L.Exact) (hrs : Region.Inserted extra rs rs') {refs refs' : List Reference}
    (h : List.Forall₂ (Reference.Like L) refs refs') (hleft : Recorded tables.left (refs.map (⟨rs, ·⟩)))
    (hright : Recorded tables.right (refs'.map (⟨rs', ·⟩))) : (Likeness.skipping tables extra).Pairs refs refs' := by
  rintro ⟨r, r'⟩ hmem
  have hname : r.name = r'.name := hL (List.forall₂_zip h hmem).name
  obtain ⟨hr, hr'⟩ := List.of_mem_zip hmem
  have hdistance := hleft _ (List.mem_map_of_mem hr)
  have hdistance' := hright _ (List.mem_map_of_mem hr')
  rw [Site.distance?, Site.name, hrs.findIdx?_eq, hname] at hdistance
  rw [Site.distance?, Site.name] at hdistance'
  show tables.left[r.id]? = (tables.right[r'.id]?).map (skip extra)
  rw [hdistance, hdistance']

theorem Expr.Like.skipping (hL : L.Exact) {e e' : Expr} (h : e.Like L e') (hrs : Region.Inserted extra rs rs')
    (hleft : Recorded tables.left (e.sites rs)) (hright : Recorded tables.right (e'.sites rs')) :
    e.Like (.skipping tables extra) e' :=
  h.renumber hL (pairs_of_recorded hL hrs h.references hleft hright)

theorem Expr.Like?.skipping (hL : L.Exact) {e e' : Option Expr} (h : Expr.Like? L e e')
    (hrs : Region.Inserted extra rs rs') (hleft : Recorded tables.left (Expr.sites? rs e))
    (hright : Recorded tables.right (Expr.sites? rs' e')) :
    Expr.Like? (.skipping tables extra) e e' :=
  h.renumber hL (pairs_of_recorded hL hrs h.references hleft hright)

theorem Likeness.Exact.parameters_eq (hL : L.Exact) {ps ps' : List Token} (h : List.Forall₂ L.token ps ps') :
    ps = ps' :=
  List.forall₂_eq_eq_eq ▸ h.imp fun _ _ => hL

mutual

/-- The recorded distances of two statements that are like skip the extra scope. What stands in this scope itself
    declares nothing. -/
theorem Stmt.Like.skips (hL : L.Exact) {s s' : Stmt} {extra : Option Nat} {rs rs' : List Region} :
    s.Like L s' → Region.Inserted extra rs rs' → (extra = some 0 → s.isDeclaration = false) → s.Plain →
      Recorded tables.left (s.sites rs) → Recorded tables.right (s'.sites rs') → Stmt.Skips tables extra s s'
  | .expression h, hrs, _, _, hl, hr => .expression (h.skipping hL hrs hl hr)
  | .print h, hrs, _, _, hl, hr => .print (h.skipping hL hrs hl hr)
  | .ret hkeyword h, hrs, _, _, hl, hr => by
    cases hL hkeyword
    exact .ret (h.skipping hL hrs hl hr)
  | .var hname h, hrs, hdeclaration, _, hl, hr => by
    cases hL hname
    have hextra : extra ≠ some 0 := fun hc => Bool.noConfusion (hdeclaration hc)
    exact .var hextra (h.skipping hL (hrs.openVar hextra _) hl hr)
  | .block h, hrs, _, hplain, hl, hr => by
    rw [Stmt.sites, Region.ofBlock, h.declaresAll_eq] at hr
    exact .block (h.skips hL (.inside _ hrs) (inside_ne extra) hplain hl hr)
  | .branch hc hyes hno, hrs, _, ⟨hdeclaration, hplain, hplain'⟩, hl, hr => by
    have hnil := Stmt.declares_eq_nil hdeclaration hplain
    rw [Stmt.sites, hnil, Region.declare_nil] at hl
    rw [Stmt.sites, hyes.declares_eq, hnil, Region.declare_nil] at hr
    exact .branch (hc.skipping hL hrs hl.left.left hr.left.left)
      (hyes.skips hL hrs (fun _ => hdeclaration) hplain hl.left.right hr.left.right)
      (hno.skips hL hrs hplain' hl.right hr.right)
  | .loop hc hbody, hrs, _, ⟨hdeclaration, hplain⟩, hl, hr =>
    .loop (hc.skipping hL hrs hl.left hr.left) (hbody.skips hL hrs (fun _ => hdeclaration) hplain hl.right hr.right)
  | .function hname hparameters hbody, hrs, hdeclaration, hplain, hl, hr => by
    cases hL hname
    cases hL.parameters_eq hparameters
    have hextra : extra ≠ some 0 := fun hc => Bool.noConfusion (hdeclaration hc)
    rw [Stmt.sites, Region.ofFunction, hbody.declaresAll_eq] at hr
    exact .function hextra (hbody.skips hL (.inside _ (hrs.declare hextra _)) (inside_ne extra) hplain hl hr)

theorem Stmt.Like?.skips (hL : L.Exact) {s s' : Option Stmt} {extra : Option Nat} {rs rs' : List Region} :
    Stmt.Like? L s s' → Region.Inserted extra rs rs' → Stmt.Plain? s →
      Recorded tables.left (Stmt.sites? rs s) → Recorded tables.right (Stmt.sites? rs' s') →
        Stmt.Skips? tables extra s s'
  | .none, _, _, _, _ => .none
  | .some h, hrs, hplain, hl, hr => .some (h.skips hL hrs (fun _ => hplain.1) hplain.2 hl hr)

theorem Stmt.LikeAll.skips (hL : L.Exact) {ss ss' : List Stmt} {extra : Option Nat} {rs rs' : List Region} :
    Stmt.LikeAll L ss ss' → Region.Inserted extra rs rs' → extra ≠ some 0 → Stmt.PlainAll ss →
      Recorded tables.left (Stmt.sitesAll rs ss) → Recorded tables.right (Stmt.sitesAll rs' ss') →
        Stmt.SkipsAll tables extra ss ss'
  | .nil, _, _, _, _, _ => .nil
  | .cons h hss, hrs, hextra, hplain, hl, hr => by
    rw [Stmt.sitesAll, h.declares_eq] at hr
    exact .cons (h.skips hL hrs (fun hc => absurd hc hextra) hplain.1 hl.left hr.left)
      (hss.skips hL (hrs.declare hextra _) hextra hplain.2 hl.right hr.right)

end

end

/-! ### Loops -/

/-- The sites of the rounds of a loop inside some regions. -/
def Parse.ForClauses.roundSites (rs : List Region) (clauses : ForClauses) (body : Stmt) : List Site :=
  Expr.sites? rs clauses.condition ++ (body.sites rs ++ Expr.sites? rs clauses.increment)

/-- The sites of a loop inside some regions. With an initializer the loop is a region too. -/
def Parse.ForClauses.sites (rs : List Region) (clauses : ForClauses) (body : Stmt) : List Site :=
  match clauses.initializer with
  | none => clauses.roundSites rs body
  | some s => s.sites (.ofBlock [s] :: rs) ++ clauses.roundSites (Region.declare s.declares (.ofBlock [s] :: rs)) body

section
variable {rs : List Region} {clauses clauses' : Parse.ForClauses} {body body' : Stmt}

theorem Parse.ForClauses.roundSites_references (rs : List Region) (clauses : ForClauses) (body : Stmt) :
    (clauses.roundSites rs body).map Site.reference =
      Expr.references? clauses.condition ++ (body.references ++ Expr.references? clauses.increment) := by
  rw [roundSites, List.map_append, List.map_append, Expr.sites?_references, Stmt.sites_references,
    Expr.sites?_references]

/-- The references of a loop are those of what the parser makes of it. -/
theorem Parse.ForClauses.sites_references (rs : List Region) (clauses : ForClauses) (body : Stmt) :
    (clauses.sites rs body).map Site.reference = (clauses.toStmt body).references := by
  rw [toStmt_references, sites]
  cases clauses.initializer with
  | none => exact roundSites_references rs clauses body
  | some s =>
    rw [List.map_append, Stmt.sites_references, roundSites_references]
    rfl

namespace Resolve

/-- The walk over a loop records the distances of its sites. -/
theorem forLoop_walk (inFunction : Bool) {scopes : Scopes} (h : List.Forall₂ Region.Between rs scopes) (found : Found) :
    (forLoop inFunction scopes found clauses body).distances =
      (clauses.sites rs body).foldl record found.distances := by
  have hrounds : ∀ {rs : List Region} {scopes : Scopes} (_ : List.Forall₂ Region.Between rs scopes) (found : Found),
      (expr? scopes (stmt inFunction scopes (expr? scopes found clauses.condition) body).2
        clauses.increment).distances = (clauses.roundSites rs body).foldl record found.distances := by
    intro rs scopes h found
    have hd := describes_of_between h
    rw [Parse.ForClauses.roundSites, List.foldl_append, List.foldl_append, (expr?_walk hd _ _).distances,
      (stmt_walk inFunction h _ _).found.distances, (expr?_walk hd _ _).distances]
  rw [forLoop, Parse.ForClauses.sites]
  cases clauses.initializer with
  | none => exact hrounds h found
  | some s =>
    have hinit := stmt_walk inFunction (.cons (between_ofBlock [s]) h) s found
    rw [List.foldl_append, ← hinit.found.distances]
    exact hrounds hinit.scopes _

end Resolve

variable {L : Likeness} {tables : Tables}

theorem inner_declares (hdeclaration : body.isDeclaration = false) (hplain : body.Plain) (increment : Option Expr) :
    (Eval.inner body increment).declares = [] := by
  cases increment with
  | none => exact Stmt.declares_eq_nil hdeclaration hplain
  | some e => rfl

variable (hL : L.Exact) (hclauses : clauses.Like L clauses') (hbody : body.Like L body')
  (hdeclaration : body.isDeclaration = false) (hplain : body.Plain)
include hL hclauses hbody hdeclaration hplain

theorem rounds_of_recorded
    (hleft : Recorded tables.left ((Stmt.loop (clauses.condition.getD (.literal (.bool true)))
      (Eval.inner body clauses.increment)).sites rs))
    (hright : Recorded tables.right (clauses'.roundSites rs body')) :
    Expr.Like? (.skipping tables none) clauses.condition clauses'.condition ∧
      Stmt.Skips tables (clauses.increment.map fun _ => 0) body body' ∧
      Expr.Like? (.skipping tables (some 0)) clauses.increment clauses'.increment := by
  have hcondition : (clauses.condition.getD (.literal (.bool true))).sites rs = Expr.sites? rs clauses.condition := by
    cases clauses.condition <;> rfl
  rw [Stmt.sites, hcondition] at hleft
  have hright₁ := hright.right.left
  have hright₂ := hright.right.right
  refine ⟨hclauses.condition.skipping hL (.same rs) hleft.left hright.left, ?_⟩
  generalize clauses.increment = increment, clauses'.increment = increment', hclauses.increment = hincrement
    at hleft hright₂ ⊢
  cases hincrement with
  | none => exact ⟨hbody.skips hL (.same rs) (fun hc => nomatch hc) hplain hleft.right hright₁, .none⟩
  | @some e e' he =>
    -- The body and the increment stand in a block, whose scope stays empty.
    have hinserted : Region.Inserted (some 0) (.ofBlock [body, .expression e] :: rs) rs := .here rfl rfl
    have hinner := hleft.right
    rw [Eval.inner, Stmt.sites, Stmt.sitesAll, Stmt.sitesAll, Stmt.declares_eq_nil hdeclaration hplain,
      Region.declare_nil] at hinner
    exact ⟨hbody.skips hL hinserted (fun _ => hdeclaration) hplain hinner.left hright₁,
      .some (he.skipping hL hinserted hinner.right.left hright₂)⟩

/-- Where the tables hold the distances of what the parser makes of a `for` statement and of the loop, both are the same
    but for these distances. -/
theorem loops_of_recorded (hinit : ∀ s ∈ clauses.initializer, s.Plain)
    (hleft : Recorded tables.left ((clauses.toStmt body).sites rs))
    (hright : Recorded tables.right (clauses'.sites rs body')) : Eval.Loops tables clauses clauses' body body' := by
  rw [Eval.toStmt_eq] at hleft
  rw [Parse.ForClauses.sites] at hright
  have hinitializer := hclauses.initializer
  generalize hs : clauses.initializer = init, hs' : clauses'.initializer = init' at hinitializer hleft hright hinit
  cases hinitializer with
  | none =>
    obtain ⟨hcondition, hskips, hincrement⟩ := rounds_of_recorded hL hclauses hbody hdeclaration hplain hleft hright
    exact ⟨by rw [hs, hs']; exact .none, hcondition, hskips, hincrement⟩
  | @some s s' hlike =>
    have hregion : Region.ofBlock [s'] = Region.ofBlock [s, .loop (clauses.condition.getD (.literal (.bool true)))
        (Eval.inner body clauses.increment)] := by
      simp [Region.ofBlock, hlike.declares_eq, Stmt.declares, inner_declares hdeclaration hplain]
    dsimp only at hleft hright
    rw [hregion, hlike.declares_eq] at hright
    obtain ⟨hcondition, hskips, hincrement⟩ :=
      rounds_of_recorded hL hclauses hbody hdeclaration hplain hleft.right.left hright.right
    refine ⟨?_, hcondition, hskips, hincrement⟩
    rw [hs, hs']
    exact .some (hlike.skips hL (.same _) (fun hc => nomatch hc) (hinit s rfl) hleft.left hright.left)

end

/-! ### The table of the loop -/

namespace Resolve
variable {k : ExprId} {d : Distances} {inFunction : Bool} {rs : List Region} {scopes : Scopes}
  {clauses : Parse.ForClauses} {body : Stmt}

theorem shifted_ids : ((clauses.shifted k).sites rs (body.shifted k)).map (·.reference.id) =
    (clauses.toStmt body).references.map (·.id + k) := by
  have hids := ids_of_shift (clauses.shifted_like.toStmt body.shifted_like (L := .shift k)).references
  rwa [← Parse.ForClauses.sites_references rs, List.map_map] at hids

variable (h : List.Forall₂ Region.Between rs scopes)
include h

theorem getElem?_withLoop (id : ExprId) : (withLoop d k inFunction scopes clauses body)[id]? =
    (((clauses.shifted k).sites rs (body.shifted k)).foldl record ∅)[id]?.or d[id]? := by
  rw [withLoop, Std.HashMap.getElem?_union, forLoop_walk inFunction h]
  rfl

/-- Smaller identities keep their distances. -/
theorem getElem?_withLoop_of_lt {id : ExprId} (hid : id < k) :
    (withLoop d k inFunction scopes clauses body)[id]? = d[id]? := by
  have hnew : id ∉ ((clauses.shifted k).sites rs (body.shifted k)).map (·.reference.id) := by
    rw [shifted_ids, List.mem_map]
    rintro ⟨r, -, rfl⟩
    exact Nat.not_lt_of_le (Nat.le_add_left k r.id) hid
  have hnone : (∅ : Distances)[id]? = none := Std.HashMap.getElem?_empty
  rw [getElem?_withLoop h, getElem?_foldl_record_of_notMem _ _ hnew, hnone, Option.none_or]

/-- The distances of the loop are recorded. -/
theorem recorded_withLoop (hnodup : ((clauses.toStmt body).references.map (·.id)).Nodup)
    (hunused : ∀ id, k ≤ id → d[id]? = none) :
    Recorded (withLoop d k inFunction scopes clauses body) ((clauses.shifted k).sites rs (body.shifted k)) := by
  have hids : (((clauses.shifted k).sites rs (body.shifted k)).map (·.reference.id)).Nodup := by
    have hshifted := List.Nodup.map (f := (· + k)) (fun _ _ hc => Nat.add_right_cancel hc) hnodup
    rw [List.map_map] at hshifted
    rw [shifted_ids]
    exact hshifted
  intro t ht
  have hlower : k ≤ t.reference.id := by
    have hmem := List.mem_map_of_mem (f := (·.reference.id)) ht
    rw [shifted_ids, List.mem_map] at hmem
    obtain ⟨r, -, hr⟩ := hmem
    exact hr ▸ Nat.le_add_left k r.id
  rw [getElem?_withLoop h, getElem?_foldl_record _ _ hids (fun _ _ => Std.HashMap.getElem?_empty) t ht,
    hunused _ hlower, Option.or_none]

end Resolve

/-! ### Where a walk comes to -/

/-- The scopes that are open where the walk comes to statements are those of the regions around these, and their sites
    are sites of the program. -/
theorem Resolve.Reaches.regions {program : List Stmt} {inFunction : Bool} {scopes : Scopes} {ss : List Stmt}
    (h : Reaches program inFunction scopes ss) :
    ∃ rs, List.Forall₂ Region.Between rs scopes ∧ ∀ t ∈ Stmt.sitesAll rs ss, t ∈ sitesOf program := by
  induction h with
  | program => exact ⟨[], .nil, fun _ ht => ht⟩
  | @next inFunction _ s _ _ ih =>
    obtain ⟨rs, hrs, hsites⟩ := ih
    exact ⟨_, (stmt_walk inFunction hrs s .empty).scopes, fun t ht => hsites t (List.mem_append_right _ ht)⟩
  | @block _ _ body _ _ ih =>
    obtain ⟨rs, hrs, hsites⟩ := ih
    exact ⟨_, .cons (between_ofBlock body) hrs, fun t ht => hsites t (List.mem_append_left _ ht)⟩
  | @yes _ _ c yes no _ _ ih =>
    obtain ⟨rs, hrs, hsites⟩ := ih
    refine ⟨rs, hrs, fun t ht => hsites t (List.mem_append_left _ ?_)⟩
    simpa [Stmt.sitesAll, Stmt.sites] using .inr (.inl (by simpa [Stmt.sitesAll] using ht))
  | @no inFunction _ c yes no _ _ ih =>
    obtain ⟨rs, hrs, hsites⟩ := ih
    refine ⟨_, (stmt_walk inFunction hrs yes .empty).scopes, fun t ht => hsites t (List.mem_append_left _ ?_)⟩
    simpa [Stmt.sitesAll, Stmt.sites, Stmt.sites?] using .inr (.inr (by simpa [Stmt.sitesAll] using ht))
  | @loop _ _ c body _ _ ih =>
    obtain ⟨rs, hrs, hsites⟩ := ih
    refine ⟨rs, hrs, fun t ht => hsites t (List.mem_append_left _ ?_)⟩
    simpa [Stmt.sitesAll, Stmt.sites] using .inr (by simpa [Stmt.sitesAll] using ht)
  | @function _ _ name parameters body _ _ ih =>
    obtain ⟨rs, hrs, hsites⟩ := ih
    exact ⟨_, .cons (between_ofFunction parameters body) (between_declare hrs name),
      fun t ht => hsites t (List.mem_append_left _ ht)⟩

end Lox
