import Lox.Proofs.Renaming.Trees
import Lox.Proofs.Resolution

/-! # Resolving a renamed program

Around each place inside the renamed scope one region declares the new name where it declared the old one,
and no region declared the new name before. So every reference has the same distance as before, and a
program that was resolved without errors still is (`Renaming.AppliesAll.resolve_eq`). -/

namespace Lox
namespace Renaming
variable {r : Renaming}

/-! ### Names -/

/-- The names that a statement declares at this depth. -/
def names (r : Renaming) (depth : Option Nat) (ns : List String) : List String :=
  if depth = some 0 then ns.map r.name else ns

theorem names_append (depth : Option Nat) (ns ms : List String) :
    r.names depth (ns ++ ms) = r.names depth ns ++ r.names depth ms := by
  unfold names
  split
  · exact List.map_append
  · rfl

theorem names_declared (depth : Option Nat) (ts : List Token) :
    (ts.map (r.declared depth)).map (·.lexeme) = r.names depth (ts.map (·.lexeme)) := by
  unfold names declared
  split <;> simp [Function.comp_def, token]

end Renaming

section
variable {r : Renaming} {distances : Distances}

mutual

theorem Stmt.Renames.declares_eq : ∀ {depth : Option Nat} {s s' : Stmt}, Stmt.Renames r distances depth s s' →
    s'.declares = r.names depth s.declares
  | depth, _, _, @Stmt.Renames.var _ _ _ name init _ _ => Renaming.names_declared depth [name]
  | depth, _, _, @Stmt.Renames.function _ _ _ _ name _ _ _ _ hold _ _ _ => by
    simp only [Stmt.declares, Renaming.names]
    split
    · rename_i hdepth
      rw [List.map_singleton, Renaming.name_of_ne (hold hdepth)]
    · rfl
  | _, _, _, .branch _ hyes hno => by
    simp only [Stmt.declares, Renaming.names_append, hyes.declares_eq, hno.declares_eq]
  | _, _, _, .loop _ hbody => hbody.declares_eq
  | depth, _, _, .expression _ | depth, _, _, .print _ | depth, _, _, .block _ _ | depth, _, _, .ret _ => by
    simp only [Stmt.declares, Renaming.names, List.map_nil, ite_self]

theorem Stmt.Renames?.declares_eq : ∀ {depth : Option Nat} {s s' : Option Stmt}, Stmt.Renames? r distances depth s s' →
    Stmt.declares? s' = r.names depth (Stmt.declares? s)
  | _, _, _, .none => by simp only [Stmt.declares?, Renaming.names, List.map_nil, ite_self]
  | _, _, _, .some h => h.declares_eq

end

theorem Stmt.RenamesAll.declares_eq : ∀ {depth : Option Nat} {ss ss' : List Stmt},
    Stmt.RenamesAll r distances depth ss ss' → Stmt.declaresAll ss' = r.names depth (Stmt.declaresAll ss)
  | _, _, _, .nil => by simp only [Stmt.declaresAll_nil, Renaming.names, List.map_nil, ite_self]
  | _, _, _, .cons h hss => by
    rw [Stmt.declaresAll_cons, Stmt.declaresAll_cons, Renaming.names_append, h.declares_eq, hss.declares_eq]

mutual

theorem Stmt.Renames.new_notMem : ∀ {depth : Option Nat} {s s' : Stmt}, Stmt.Renames r distances depth s s' →
    depth ≠ none → r.new ∉ s.declares
  | _, _, _, .var hname _, hdepth => fun hmem => hname hdepth (List.mem_singleton.mp hmem).symm
  | _, _, _, .function hname _ _ _ _, hdepth => fun hmem => hname hdepth (List.mem_singleton.mp hmem).symm
  | _, _, _, .branch _ hyes hno, hdepth => fun hmem =>
    (List.mem_append.mp hmem).elim (hyes.new_notMem hdepth) (hno.new_notMem hdepth)
  | _, _, _, .loop _ hbody, hdepth => hbody.new_notMem hdepth
  | _, _, _, .expression _, _ | _, _, _, .print _, _ | _, _, _, .block _ _, _ | _, _, _, .ret _, _ => nofun

theorem Stmt.Renames?.new_notMem : ∀ {depth : Option Nat} {s s' : Option Stmt}, Stmt.Renames? r distances depth s s' →
    depth ≠ none → r.new ∉ Stmt.declares? s
  | _, _, _, .none, _ => nofun
  | _, _, _, .some h, hdepth => h.new_notMem hdepth

end

end

namespace Renaming
variable {r : Renaming} {rs : List Region} {n : String}

/-! ### Regions -/

/-- The region of the renamed scope. -/
def region (r : Renaming) (g : Region) : Region :=
  ⟨g.declared.map r.name, g.opening.map r.name, g.names.map r.name⟩

/-- The regions around a place at this depth. -/
def regions (r : Renaming) : Option Nat → List Region → List Region
  | none, rs => rs
  | some k, rs => rs.modify k r.region

/-- Up to the renamed scope no region has begun to declare the new name. -/
def Fresh (r : Renaming) (depth : Option Nat) (rs : List Region) : Prop :=
  ∀ k, depth = some k → ∀ g ∈ rs.take (k + 1), g.enters r.new = false

theorem enters_iff {g : Region} : g.enters n = true ↔ g.opening = some n ∨ n ∈ g.declared := by
  simp [Region.enters]

theorem enters_region {g : Region} (hfresh : g.enters r.new = false) (hn : n ≠ r.new) :
    (r.region g).enters (r.name n) = g.enters n := by
  have hne : ∀ m, g.opening = some m ∨ m ∈ g.declared → m ≠ r.new := by
    rintro m hm rfl
    rw [enters_iff.mpr hm] at hfresh
    cases hfresh
  rw [Bool.eq_iff_iff, enters_iff, enters_iff]
  constructor
  · rintro (ho | hd)
    · obtain ⟨m, hm, he⟩ := Option.map_eq_some_iff.mp ho
      exact .inl (name_injective (hne m (.inl hm)) hn he ▸ hm)
    · obtain ⟨m, hm, he⟩ := List.mem_map.mp hd
      exact .inr (name_injective (hne m (.inr hm)) hn he ▸ hm)
  · rintro (ho | hd)
    · exact .inl (Option.map_eq_some_iff.mpr ⟨n, ho, rfl⟩)
    · exact .inr (List.mem_map_of_mem hd)

theorem not_enters_region {g : Region} (h : g.enters n = false) (hn : n ≠ r.new) : (r.region g).enters n = false := by
  refine Bool.eq_false_iff.mpr fun he => Bool.eq_false_iff.mp h (enters_iff.mpr ?_)
  rcases enters_iff.mp he with ho | hd
  · obtain ⟨m, hm, he⟩ := Option.map_eq_some_iff.mp ho
    exact .inl (eq_of_name_eq hn he ▸ hm)
  · obtain ⟨m, hm, he⟩ := List.mem_map.mp hd
    exact .inr (eq_of_name_eq hn he ▸ hm)

/-- A name that is renamed exactly where it is found in the renamed scope is found there as before. -/
theorem findIdx?_modify (hn : n ≠ r.new) : ∀ {k : Nat} {rs : List Region},
    (∀ g ∈ rs.take (k + 1), g.enters r.new = false) →
      (rs.modify k r.region).findIdx?
          (·.enters (if rs.findIdx? (·.enters n) = some k then r.name n else n)) =
        rs.findIdx? (·.enters n)
  | _, [], _ => by simp
  | 0, g :: rs, hfresh => by
    have hg : g.enters r.new = false := hfresh g (by simp)
    rw [List.modify_zero_cons, List.findIdx?_cons, List.findIdx?_cons]
    cases hgn : g.enters n with
    | true => simp [enters_region hg hn, hgn]
    | false =>
      have hne : (Option.map (fun i => i + 1) (List.findIdx? (fun x => x.enters n) rs)) ≠ some 0 := by
        cases List.findIdx? (fun x => x.enters n) rs <;> simp
      simp [not_enters_region hgn hn, hne]
  | k + 1, g :: rs, hfresh => by
    have hg : g.enters r.new = false := hfresh g (by simp)
    have hrs : ∀ g ∈ rs.take (k + 1), g.enters r.new = false := fun g' hg' => hfresh g' (by simp [hg'])
    have ih := findIdx?_modify hn hrs
    rw [List.modify_succ_cons, List.findIdx?_cons, List.findIdx?_cons]
    cases hgn : g.enters n with
    | true => simp [hgn]
    | false =>
      have hcond :
          (Option.map (· + 1) (rs.findIdx? (·.enters n)) = some (k + 1)) = (rs.findIdx? (·.enters n) = some k) := by
        cases rs.findIdx? (·.enters n) <;> simp
      have hrenamed : g.enters (r.name n) = false := by
        unfold name
        split
        · exact hg
        · exact hgn
      have hboth : g.enters (if rs.findIdx? (·.enters n) = some k then r.name n else n) = false := by
        split
        · exact hrenamed
        · exact hgn
      simp only [Bool.false_eq_true, if_false, hcond, hboth]
      rw [ih]

/-! ### Sites -/

/-- The second site is the first in the renamed program: the same reference, at the same distance, and not
    an error if the first is none. -/
structure Mirrors (t t' : Site) : Prop where
  id : t'.reference.id = t.reference.id
  distance : t'.distance? = t.distance?
  error : t.error? = none → t'.error? = none

theorem error?_eq_none {t : Site} : t.error? = none ↔
    (t.reference.assigns = false → ∀ g ∈ t.regions.head?, g.opening ≠ some t.name) := by
  unfold Site.error?
  cases t.reference.assigns <;> cases t.regions <;> simp

theorem reference_mirrors {depth : Option Nat} {assigns : Bool} {id : ExprId} {name : Token} (hfresh : r.Fresh depth rs)
    (hname : depth ≠ none → name.lexeme ≠ r.new)
    (htable : r.distances[id]? = (⟨rs, ⟨assigns, id, name⟩⟩ : Site).distance?) :
    Mirrors ⟨rs, ⟨assigns, id, name⟩⟩ ⟨r.regions depth rs, ⟨assigns, id, r.reference depth id name⟩⟩ := by
  cases depth with
  | none => exact ⟨rfl, rfl, fun h => h⟩
  | some k =>
    have hn := hname nofun
    have hlexeme : (r.reference (some k) id name).lexeme =
        if rs.findIdx? (·.enters name.lexeme) = some k then r.name name.lexeme else name.lexeme := by
      have htable : r.distances[id]? = rs.findIdx? (·.enters name.lexeme) := htable
      simp only [reference, htable]
      split <;> rfl
    refine ⟨rfl, ?_, ?_⟩
    · unfold Site.distance? Site.name
      rw [hlexeme]
      exact findIdx?_modify hn (hfresh k rfl)
    · intro herror
      rw [error?_eq_none] at herror ⊢
      intro hreads g hg hopening
      have herror := herror hreads
      have hopening : g.opening =
          some (if rs.findIdx? (·.enters name.lexeme) = some k then r.name name.lexeme else name.lexeme) := by
        rw [← hlexeme]
        exact hopening
      have hfresh := hfresh k rfl
      cases rs with
      | nil => cases k <;> cases hg
      | cons g₀ outer =>
        have hg₀ : ∀ o, g₀.opening = some o → o ≠ r.new ∧ o ≠ name.lexeme := by
          refine fun o ho => ⟨fun hnew => ?_, fun hsame => herror g₀ rfl (ho.trans (congrArg some hsame))⟩
          have henters := enters_iff.mpr (.inl (hnew ▸ ho))
          rw [hfresh g₀ (by simp)] at henters
          cases henters
        cases k with
        | zero =>
          cases hg
          obtain ⟨o, ho, he⟩ := Option.map_eq_some_iff.mp hopening
          split at he
          · exact (hg₀ o ho).2 (name_injective (hg₀ o ho).1 hn he)
          · exact (hg₀ o ho).2 (eq_of_name_eq hn he)
        | succ k =>
          cases hg
          split at hopening
          · exact (hg₀ _ hopening).2 (eq_of_name_eq (hg₀ _ hopening).1 rfl).symm
          · exact (hg₀ _ hopening).2 rfl

mutual

theorem references_expr {depth : Option Nat} : ∀ e : Expr, (r.expr depth e).references =
    e.references.map fun ref => { ref with name := r.reference depth ref.id ref.name }
  | .literal _ | .var _ _ => rfl
  | .grouping e | .unary _ e => references_expr e
  | .binary left _ right | .logical left _ right => by
    simp only [expr, Expr.references, List.map_append, references_expr left, references_expr right]
  | .assign _ _ v => by
    simp only [expr, Expr.references, List.map_append, references_expr v, List.map_cons, List.map_nil]
  | .call f _ args => by
    simp only [expr, Expr.references, List.map_append, references_expr f, references_exprs args]

theorem references_exprs {depth : Option Nat} : ∀ es : List Expr, Expr.referencesAll (r.exprs depth es) =
    (Expr.referencesAll es).map fun ref => { ref with name := r.reference depth ref.id ref.name }
  | [] => rfl
  | e :: es => by
    simp only [exprs, Expr.referencesAll, List.map_append, references_expr e, references_exprs es]

end

theorem references_mirror {depth : Option Nat} (hfresh : r.Fresh depth rs) : ∀ {refs : List Reference},
    r.Admits r.distances depth refs → (∀ t ∈ refs.map (Site.mk rs), r.distances[t.reference.id]? = t.distance?) →
      List.Forall₂ Mirrors (refs.map (Site.mk rs))
        ((refs.map fun ref => { ref with name := r.reference depth ref.id ref.name }).map
          (Site.mk (r.regions depth rs)))
  | [], _, _ => .nil
  | ref :: refs, hadmits, htable => by
    have hname : depth ≠ none → ref.name.lexeme ≠ r.new := by
      intro hdepth
      obtain ⟨k, hk⟩ := Option.ne_none_iff_exists'.mp hdepth
      exact (hadmits k hk ref List.mem_cons_self).1
    exact .cons (reference_mirrors hfresh hname (htable _ List.mem_cons_self))
      (references_mirror hfresh (hadmits.sub fun _ href => List.mem_cons_of_mem _ href)
        fun t ht => htable t (List.mem_cons_of_mem _ ht))

theorem errors_eq_nil {sites sites' : List Site} (h : List.Forall₂ Mirrors sites sites')
    (herrors : Site.errors sites = []) : Site.errors sites' = [] := by
  induction h with
  | nil => rfl
  | @cons t t' ts ts' ht hts ih =>
    unfold Site.errors at herrors ih ⊢
    rw [List.filterMap_cons] at herrors ⊢
    cases he : t.error? with
    | none =>
      rw [he] at herrors
      rw [ht.error he]
      exact ih herrors
    | some e =>
      rw [he] at herrors
      cases herrors

/-! ### Going into scopes -/

section
variable {depth inner : Option Nat} {ns : List String} {g : Region}

theorem regions_declare :
    r.regions depth (Region.declare ns rs) = Region.declare (r.names depth ns) (r.regions depth rs) := by
  cases depth with
  | none => rfl
  | some k =>
    cases rs with
    | nil => cases k <;> rfl
    | cons g outer =>
      cases k with
      | zero => simp [regions, region, Region.declare, names]
      | succ k => simp [regions, Region.declare, names]

theorem regions_openVar {name : Token} :
    r.regions depth (Region.openVar name.lexeme rs) =
      Region.openVar (r.declared depth name).lexeme (r.regions depth rs) := by
  cases depth with
  | none => rfl
  | some k =>
    cases rs with
    | nil => cases k <;> rfl
    | cons g outer =>
      cases k with
      | zero => simp [regions, region, Region.openVar, declared, token]
      | succ k => simp [regions, Region.openVar, declared]

theorem regions_enter (h : Enters depth inner) :
    r.regions inner (g :: rs) = (if inner = some 0 then r.region g else g) :: r.regions depth rs := by
  rcases h with rfl | ⟨rfl, rfl⟩
  · cases depth <;> simp [regions]
  · simp [regions]

theorem Fresh.mono {rs' : List Region} (h : r.Fresh depth rs)
    (hsub : depth ≠ none → ∀ k, ∀ g ∈ rs'.take k, g.enters r.new = true → ∃ g' ∈ rs.take k, g'.enters r.new = true) :
    r.Fresh depth rs' := by
  intro k hk g hg
  refine Bool.eq_false_iff.mpr ?_
  intro he
  obtain ⟨g', hg', he'⟩ := hsub (by simp [hk]) (k + 1) g hg he
  rw [h k hk g' hg'] at he'
  cases he'

theorem Fresh.declare (h : r.Fresh depth rs) (hns : depth ≠ none → r.new ∉ ns) :
    r.Fresh depth (Region.declare ns rs) := by
  refine h.mono fun hdepth k g hg he => ?_
  cases rs with
  | nil => exact ⟨g, hg, he⟩
  | cons g₀ outer =>
    cases k with
    | zero => cases hg
    | succ k =>
      rcases List.mem_cons.mp hg with rfl | hg
      · refine ⟨g₀, List.mem_cons_self, enters_iff.mpr ((enters_iff.mp he).imp_right ?_)⟩
        intro hd
        exact (List.mem_append.mp hd).resolve_right (hns hdepth)
      · exact ⟨g, List.mem_cons_of_mem _ hg, he⟩

theorem Fresh.openVar {n : String} (h : r.Fresh depth rs) (hn : depth ≠ none → n ≠ r.new) :
    r.Fresh depth (Region.openVar n rs) := by
  refine h.mono fun hdepth k g hg he => ?_
  cases rs with
  | nil => exact ⟨g, hg, he⟩
  | cons g₀ outer =>
    cases k with
    | zero => cases hg
    | succ k =>
      rcases List.mem_cons.mp hg with rfl | hg
      · refine ⟨g₀, List.mem_cons_self, enters_iff.mpr (.inr ?_)⟩
        exact (enters_iff.mp he).resolve_left fun ho => hn hdepth (Option.some.inj ho)
      · exact ⟨g, List.mem_cons_of_mem _ hg, he⟩

theorem Fresh.enter (h : r.Fresh depth rs) (henters : Enters depth inner) (hg : inner ≠ none → g.enters r.new = false) :
    r.Fresh inner (g :: rs) := by
  intro k hk g' hg'
  rcases List.mem_cons.mp hg' with rfl | hg'
  · exact hg (by simp [hk])
  · rcases henters with rfl | ⟨rfl, rfl⟩
    · obtain ⟨j, hj, rfl⟩ := Option.map_eq_some_iff.mp hk
      exact h j hj g' hg'
    · cases hk
      cases hg'

end

/-- Sites and errors of a statement, and of the renamed one. -/
structure Resolves (sites sites' : List Site) (errors errors' : List ScopeError) : Prop where
  sites : List.Forall₂ Mirrors sites sites'
  errors : errors = [] → errors' = []

theorem Resolves.append {s₁ s₁' s₂ s₂' : List Site} {e₁ e₁' e₂ e₂' : List ScopeError} (h₁ : Resolves s₁ s₁' e₁ e₁')
    (h₂ : Resolves s₂ s₂' e₂ e₂') : Resolves (s₁ ++ s₂) (s₁' ++ s₂') (e₁ ++ e₂) (e₁' ++ e₂') where
  sites := List.rel_append h₁.sites h₂.sites
  errors h := by
    rw [List.append_eq_nil_iff] at h ⊢
    exact ⟨h₁.errors h.1, h₂.errors h.2⟩

section
variable {depth : Option Nat}

theorem expr_resolves {e : Expr} (hfresh : r.Fresh depth rs) (hadmits : r.Admits r.distances depth e.references)
    (htable : ∀ t ∈ e.sites rs, r.distances[t.reference.id]? = t.distance?) :
    Resolves (e.sites rs) ((r.expr depth e).sites (r.regions depth rs)) (Site.errors (e.sites rs))
      (Site.errors ((r.expr depth e).sites (r.regions depth rs))) := by
  have hsites : List.Forall₂ Mirrors (e.sites rs) ((r.expr depth e).sites (r.regions depth rs)) := by
    unfold Expr.sites
    rw [references_expr]
    exact references_mirror hfresh hadmits htable
  exact ⟨hsites, errors_eq_nil hsites⟩

theorem expr?_resolves {e : Option Expr} (hfresh : r.Fresh depth rs)
    (hadmits : r.Admits r.distances depth (Expr.references? e))
    (htable : ∀ t ∈ Expr.sites? rs e, r.distances[t.reference.id]? = t.distance?) :
    Resolves (Expr.sites? rs e) (Expr.sites? (r.regions depth rs) (e.map (r.expr depth)))
      (Site.errors (Expr.sites? rs e)) (Site.errors (Expr.sites? (r.regions depth rs) (e.map (r.expr depth)))) := by
  cases e with
  | none => exact ⟨.nil, fun h => h⟩
  | some e => exact expr_resolves hfresh hadmits htable

end
end Renaming

/-! ### Statements -/

section
variable {r : Renaming}

mutual

theorem Stmt.Renames.resolves {f : Bool} : ∀ {depth : Option Nat} {s s' : Stmt} {rs : List Region},
    Stmt.Renames r r.distances depth s s' → r.Fresh depth rs →
      (∀ t ∈ s.sites rs, r.distances[t.reference.id]? = t.distance?) →
        Renaming.Resolves (s.sites rs) (s'.sites (r.regions depth rs)) (s.scopeErrors f rs)
          (s'.scopeErrors f (r.regions depth rs))
  | _, _, _, _, .expression h, hfresh, htable => Renaming.expr_resolves hfresh h htable
  | _, _, _, _, .print h, hfresh, htable => Renaming.expr_resolves hfresh h htable
  | _, _, _, _, .var hname h, hfresh, htable => by
    have hinit := Renaming.expr?_resolves (hfresh.openVar hname) h htable
    rw [Renaming.regions_openVar] at hinit
    exact hinit
  | depth, _, _, rs, @Stmt.Renames.block _ _ _ inner body body' henters h, hfresh, htable => by
    have hbody := h.resolves (f := f) (hfresh.enter (g := .ofBlock body) henters fun _ => rfl) htable
    have hregion : (if inner = some 0 then r.region (.ofBlock body) else .ofBlock body) = Region.ofBlock body' := by
      unfold Region.ofBlock Renaming.region
      rw [h.declares_eq, Renaming.names]
      split <;> rfl
    rw [Renaming.regions_enter henters, hregion] at hbody
    exact hbody
  | _, _, _, rs, .branch h hyes hno, hfresh, htable => by
    have hc := Renaming.expr_resolves hfresh h fun t ht =>
      htable t (List.mem_append_left _ (List.mem_append_left _ ht))
    have hy := hyes.resolves (f := f) hfresh fun t ht => htable t (List.mem_append_left _ (List.mem_append_right _ ht))
    have hn := hno.resolves (f := f) (hfresh.declare hyes.new_notMem) fun t ht => htable t (List.mem_append_right _ ht)
    rw [Renaming.regions_declare, ← hyes.declares_eq] at hn
    exact (hc.append hy).append hn
  | _, _, _, _, .loop h hbody, hfresh, htable => by
    have hc := Renaming.expr_resolves hfresh h fun t ht => htable t (List.mem_append_left _ ht)
    have hb := hbody.resolves (f := f) hfresh fun t ht => htable t (List.mem_append_right _ ht)
    exact hc.append hb
  | depth, _, _, rs, @Stmt.Renames.function _ _ _ inner name parameters body body' hname hold henters hparameters h,
      hfresh, htable => by
    have hinside : r.Fresh depth (Region.declare [name.lexeme] rs) :=
      hfresh.declare fun hdepth hmem => hname hdepth (List.mem_singleton.mp hmem).symm
    have hregion : (if inner = some 0 then r.region (.ofFunction parameters body) else .ofFunction parameters body) =
        Region.ofFunction (parameters.map (r.declared inner)) body' := by
      unfold Region.ofFunction Renaming.region
      rw [Renaming.names_declared, h.declares_eq, Renaming.names, Renaming.names]
      split
      · rw [List.map_append, Option.map_none]
      · rfl
    have hself : r.names depth [name.lexeme] = [name.lexeme] :=
      (Stmt.Renames.function hname hold henters hparameters h).declares_eq.symm
    have hopens : inner ≠ none → (Region.ofFunction parameters body).enters r.new = false := by
      intro hinner
      refine Bool.eq_false_iff.mpr ?_
      intro he
      have hmem := (Renaming.enters_iff.mp he).resolve_left nofun
      obtain ⟨p, hp, hpnew⟩ := List.mem_map.mp hmem
      exact hparameters hinner p hp hpnew
    have hbody := h.resolves (f := true) (hinside.enter henters hopens) htable
    rw [Renaming.regions_enter henters, hregion, Renaming.regions_declare, hself] at hbody
    exact hbody
  | _, _, _, _, .ret h, hfresh, htable => by
    have hv := Renaming.expr?_resolves hfresh h htable
    exact ⟨hv.sites, fun herrors => by
      have hparts := List.append_eq_nil_iff.mp herrors
      exact List.append_eq_nil_iff.mpr ⟨hparts.1, hv.errors hparts.2⟩⟩

theorem Stmt.Renames?.resolves {f : Bool} : ∀ {depth : Option Nat} {s s' : Option Stmt} {rs : List Region},
    Stmt.Renames? r r.distances depth s s' → r.Fresh depth rs →
      (∀ t ∈ Stmt.sites? rs s, r.distances[t.reference.id]? = t.distance?) →
        Renaming.Resolves (Stmt.sites? rs s) (Stmt.sites? (r.regions depth rs) s') (Stmt.scopeErrors? f rs s)
          (Stmt.scopeErrors? f (r.regions depth rs) s')
  | _, _, _, _, .none, _, _ => ⟨.nil, fun h => h⟩
  | _, _, _, _, .some h, hfresh, htable => h.resolves hfresh htable

theorem Stmt.RenamesAll.resolves {f : Bool} : ∀ {depth : Option Nat} {ss ss' : List Stmt} {rs : List Region},
    Stmt.RenamesAll r r.distances depth ss ss' → r.Fresh depth rs →
      (∀ t ∈ Stmt.sitesAll rs ss, r.distances[t.reference.id]? = t.distance?) →
        Renaming.Resolves (Stmt.sitesAll rs ss) (Stmt.sitesAll (r.regions depth rs) ss') (Stmt.scopeErrorsAll f rs ss)
          (Stmt.scopeErrorsAll f (r.regions depth rs) ss')
  | _, _, _, _, .nil, _, _ => ⟨.nil, fun h => h⟩
  | _, _, _, _, .cons h hss, hfresh, htable => by
    have hs := h.resolves (f := f) hfresh fun t ht => htable t (List.mem_append_left _ ht)
    have hrest := hss.resolves (f := f) (hfresh.declare h.new_notMem) fun t ht => htable t (List.mem_append_right _ ht)
    rw [Renaming.regions_declare, ← h.declares_eq] at hrest
    exact hs.append hrest

end

/-! ### Programs -/

/-- Sites that mirror each other record the same distances. -/
theorem Renaming.foldl_record_eq {sites sites' : List Site} (h : List.Forall₂ Renaming.Mirrors sites sites') :
    ∀ distances : Distances, sites'.foldl Resolve.record distances = sites.foldl Resolve.record distances := by
  induction h with
  | nil => exact fun _ => rfl
  | @cons t t' _ _ ht _ ih =>
    intro distances
    have hrecord : Resolve.record distances t' = Resolve.record distances t := by
      unfold Resolve.record
      rw [ht.distance, ht.id]
    rw [List.foldl_cons, List.foldl_cons, hrecord, ih]

/-- The renamed program resolves as the program does. -/
theorem Renaming.AppliesAll.resolve_eq {program program' : List Stmt} (h : r.AppliesAll program program')
    (hnew : r.new ∉ Stmt.identifiersAll program) (hdistances : r.distances = (resolve program).distances)
    (hnodup : ((sitesOf program).map (·.reference.id)).Nodup) (hok : (resolve program).isOk = true) :
    resolve program' = resolve program := by
  have htable : ∀ t ∈ sitesOf program, r.distances[t.reference.id]? = t.distance? := by
    rw [hdistances]
    exact Resolve.distances_resolve hnodup
  have hrenames : Stmt.RenamesAll r r.distances none program program' := h.renames hnew fun _ _ => rfl
  have hfresh : r.Fresh none [] := nofun
  have hresolves := hrenames.resolves (f := false) hfresh htable
  have hsites : (resolve program').distances = (resolve program).distances :=
    (Resolve.resolve_walk program').distances.trans
      ((Renaming.foldl_record_eq hresolves.sites ∅).trans (Resolve.resolve_walk program).distances.symm)
  have herrors : (resolve program').errors = (resolve program).errors := by
    rw [Resolution.isOk, Resolve.errors_resolve, List.isEmpty_iff] at hok
    rw [Resolve.errors_resolve, Resolve.errors_resolve, hok]
    exact hresolves.errors hok
  calc resolve program' = ⟨(resolve program').distances, (resolve program').errors⟩ := rfl
    _ = ⟨(resolve program).distances, (resolve program).errors⟩ := by rw [hsites, herrors]
    _ = resolve program := rfl

end
end Lox
