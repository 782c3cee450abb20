import Lox.Syntax.References

/-! # Scopes of a program

Where the references of a program stand, said by the program alone. Around a reference there are blocks
and functions, a function's parameters and body being one scope; each of these regions has declared
some names before that place. The outermost level of a program is no region: what is declared there
is global. -/

namespace Lox

/-! ### Declarations -/

mutual

/-- The names that a statement declares in the scope it stands in. -/
def Stmt.declares : Stmt → List String
  | .var name _ | .function name _ _ => [name.lexeme]
  | .branch _ yes no => yes.declares ++ Stmt.declares? no
  | .loop _ body => body.declares
  | .expression _ | .print _ | .block _ | .ret _ _ => []

def Stmt.declares? : Option Stmt → List String
  | none => []
  | some s => s.declares

end

/-- The names that a list of statements declares in the scope it stands in. -/
def Stmt.declaresAll (ss : List Stmt) : List String := ss.flatMap Stmt.declares

@[simp] theorem Stmt.declaresAll_nil : Stmt.declaresAll [] = [] := rfl

@[simp] theorem Stmt.declaresAll_cons (s : Stmt) (ss : List Stmt) :
    Stmt.declaresAll (s :: ss) = s.declares ++ Stmt.declaresAll ss := rfl

/-- Declares a variable or a function. -/
def Stmt.isDeclaration : Stmt → Bool
  | .var _ _ | .function _ _ _ => true
  | _ => false

mutual

/-- No declaration is a branch or the body of a loop by itself. -/
def Stmt.Plain : Stmt → Prop
  | .block body | .function _ _ body => Stmt.PlainAll body
  | .branch _ yes no => yes.isDeclaration = false ∧ yes.Plain ∧ Stmt.Plain? no
  | .loop _ body => body.isDeclaration = false ∧ body.Plain
  | .expression _ | .print _ | .var _ _ | .ret _ _ => True

def Stmt.Plain? : Option Stmt → Prop
  | none => True
  | some s => s.isDeclaration = false ∧ s.Plain

def Stmt.PlainAll : List Stmt → Prop
  | [] => True
  | s :: ss => s.Plain ∧ Stmt.PlainAll ss

end

mutual

/-- A plain statement that is no declaration declares nothing where it stands. -/
theorem Stmt.declares_eq_nil : ∀ {s : Stmt}, s.isDeclaration = false → s.Plain → s.declares = []
  | .var _ _, h, _ | .function _ _ _, h, _ => by simp [Stmt.isDeclaration] at h
  | .branch _ yes no, _, h => by
    simp only [Stmt.Plain] at h
    simp only [Stmt.declares, Stmt.declares_eq_nil h.1 h.2.1, Stmt.declares?_eq_nil h.2.2, List.append_nil]
  | .loop _ body, _, h => by
    simp only [Stmt.Plain] at h
    simp only [Stmt.declares, Stmt.declares_eq_nil h.1 h.2]
  | .expression _, _, _ | .print _, _, _ | .block _, _, _ | .ret _ _, _, _ => rfl

theorem Stmt.declares?_eq_nil : ∀ {s : Option Stmt}, Stmt.Plain? s → Stmt.declares? s = []
  | none, _ => rfl
  | some s, h => by
    simp only [Stmt.Plain?] at h
    simp only [Stmt.declares?, Stmt.declares_eq_nil h.1 h.2]

end

/-! ### Regions -/

/-- A block or a function around a place of a program. -/
structure Region where
  /-- What it declares before the place. -/
  declared : List String
  /-- The variable of its own whose initializer the place is in. -/
  opening : Option String
  /-- All that it declares, before the place or after it. -/
  names : List String

namespace Region

/-- A declaration of the name begins before the place. -/
def enters (r : Region) (name : String) : Bool := r.opening == some name || r.declared.contains name

/-- A block at its beginning. -/
def ofBlock (body : List Stmt) : Region := ⟨[], none, Stmt.declaresAll body⟩

/-- A function at the beginning of its body. -/
def ofFunction (parameters : List Token) (body : List Stmt) : Region :=
  let names := parameters.map (·.lexeme)
  ⟨names, none, names ++ Stmt.declaresAll body⟩

/-- Declares names in the innermost region, if there is one. -/
def declare (names : List String) : List Region → List Region
  | [] => []
  | r :: outer => { r with declared := r.declared ++ names } :: outer

/-- Goes into the initializer of a variable of the innermost region. -/
def openVar (name : String) : List Region → List Region
  | [] => []
  | r :: outer => { r with opening := some name } :: outer

@[simp] theorem declare_nil (rs : List Region) : declare [] rs = rs := by
  cases rs <;> simp [declare]

@[simp] theorem declare_declare (a b : List String) (rs : List Region) :
    declare b (declare a rs) = declare (a ++ b) rs := by
  cases rs <;> simp [declare]

end Region

/-! ### Sites -/

/-- A reference, and the regions around it, the innermost first. -/
structure Site where
  regions : List Region
  reference : Reference

namespace Site

def name (s : Site) : String := s.reference.name.lexeme

/-- How many regions lie between the reference and the innermost one that has begun to declare its
    name; nothing if none has. -/
def distance? (s : Site) : Option Nat := s.regions.findIdx? (·.enters s.name)

/-- The place is in the initializer of a variable of this name in the innermost region. -/
def InOwnInitializer (s : Site) : Prop := ∃ r outer, s.regions = r :: outer ∧ r.opening = some s.name

/-- The place is in the initializer of a variable of this name in the innermost region, and that
    region has no earlier declaration of it. -/
def Premature (s : Site) : Prop :=
  ∃ r outer, s.regions = r :: outer ∧ r.opening = some s.name ∧ s.name ∉ r.declared

end Site

/-- The references of an expression inside some regions. -/
def Expr.sites (rs : List Region) (e : Expr) : List Site := e.references.map (⟨rs, ·⟩)

def Expr.sites? (rs : List Region) (e : Option Expr) : List Site := (Expr.references? e).map (⟨rs, ·⟩)

mutual

/-- The references of a statement that stands inside some regions. -/
def Stmt.sites (rs : List Region) : Stmt → List Site
  | .expression e | .print e => e.sites rs
  | .var name init => Expr.sites? (Region.openVar name.lexeme rs) init
  | .block body => Stmt.sitesAll (.ofBlock body :: rs) body
  | .branch c yes no => c.sites rs ++ yes.sites rs ++ Stmt.sites? (Region.declare yes.declares rs) no
  | .loop c body => c.sites rs ++ body.sites rs
  | .function name parameters body =>
    Stmt.sitesAll (.ofFunction parameters body :: Region.declare [name.lexeme] rs) body
  | .ret _ value => Expr.sites? rs value

def Stmt.sites? (rs : List Region) : Option Stmt → List Site
  | none => []
  | some s => s.sites rs

def Stmt.sitesAll (rs : List Region) : List Stmt → List Site
  | [] => []
  | s :: ss => s.sites rs ++ Stmt.sitesAll (Region.declare s.declares rs) ss

end

/-- The references of a program, which stands inside no region. -/
def sitesOf (program : List Stmt) : List Site := Stmt.sitesAll [] program

/-! ### Sites and references -/

theorem Expr.sites_references (rs : List Region) (e : Expr) :
    (e.sites rs).map Site.reference = e.references := by
  simp [Expr.sites, Function.comp_def]

theorem Expr.sites?_references (rs : List Region) (e : Option Expr) :
    (Expr.sites? rs e).map Site.reference = Expr.references? e := by
  simp [Expr.sites?, Function.comp_def]

mutual

/-- The sites of a statement are its references in their order. -/
theorem Stmt.sites_references (rs : List Region) :
    ∀ s : Stmt, (s.sites rs).map Site.reference = s.references
  | .expression e | .print e => Expr.sites_references rs e
  | .var _ init => Expr.sites?_references _ init
  | .block body => Stmt.sitesAll_references _ body
  | .branch c yes no => by
    simp only [Stmt.sites, Stmt.references, List.map_append, Expr.sites_references,
      Stmt.sites_references rs yes, Stmt.sites?_references _ no]
  | .loop c body => by
    simp only [Stmt.sites, Stmt.references, List.map_append, Expr.sites_references,
      Stmt.sites_references rs body]
  | .function _ _ body => Stmt.sitesAll_references _ body
  | .ret _ value => Expr.sites?_references rs value

theorem Stmt.sites?_references (rs : List Region) :
    ∀ s : Option Stmt, (Stmt.sites? rs s).map Site.reference = Stmt.references? s
  | none => rfl
  | some s => Stmt.sites_references rs s

theorem Stmt.sitesAll_references (rs : List Region) :
    ∀ ss : List Stmt, (Stmt.sitesAll rs ss).map Site.reference = Stmt.referencesAll ss
  | [] => rfl
  | s :: ss => by
    simp only [Stmt.sitesAll, Stmt.referencesAll, List.map_append, Stmt.sites_references rs s,
      Stmt.sitesAll_references _ ss]

end

/-! ### Regions of a site -/

/-- No place inside these regions is in an initializer of a variable of theirs. -/
def Region.AllClosed (rs : List Region) : Prop := ∀ r ∈ rs, r.opening = none

section
variable {rs : List Region}

theorem Region.AllClosed.cons {r : Region} (hr : r.opening = none) (h : Region.AllClosed rs) :
    Region.AllClosed (r :: rs) := by
  intro r' hr'
  rcases List.mem_cons.mp hr' with rfl | hr'
  · exact hr
  · exact h r' hr'

theorem Region.AllClosed.declare (names : List String) (h : Region.AllClosed rs) :
    Region.AllClosed (Region.declare names rs) := by
  cases rs with
  | nil => exact h
  | cons r outer =>
    exact Region.AllClosed.cons (h r List.mem_cons_self) fun r' hr' => h r' (List.mem_cons_of_mem _ hr')

theorem Region.AllClosed.tail_openVar (name : String) (h : Region.AllClosed rs) :
    Region.AllClosed (Region.openVar name rs).tail := by
  cases rs with
  | nil => exact h
  | cons r outer => exact fun r' hr' => h r' (List.mem_cons_of_mem _ hr')

theorem Region.AllClosed.tail (h : Region.AllClosed rs) : Region.AllClosed rs.tail :=
  fun r hr => h r (List.mem_of_mem_tail hr)

theorem Region.AllClosed.opening_mem (h : Region.AllClosed rs) :
    ∀ r ∈ rs.head?, ∀ n, r.opening = some n → n ∈ r.names := by
  intro r hr n hn
  rw [h r (List.mem_of_mem_head? hr)] at hn
  cases hn

end

theorem Expr.regions_of_mem_sites {rs : List Region} {e : Expr} {t : Site} (ht : t ∈ e.sites rs) : t.regions = rs := by
  obtain ⟨ref, -, rfl⟩ := List.mem_map.mp ht
  rfl

theorem Expr.regions_of_mem_sites? {rs : List Region} {e : Option Expr} {t : Site} (ht : t ∈ Expr.sites? rs e) :
    t.regions = rs := by
  obtain ⟨ref, -, rfl⟩ := List.mem_map.mp ht
  rfl

mutual

/-- Only in a variable of the innermost region can a place be in an initializer. -/
theorem Stmt.closed_tail {t : Site} : ∀ {s : Stmt} {rs : List Region}, Region.AllClosed rs → t ∈ s.sites rs →
    Region.AllClosed t.regions.tail
  | .expression _, _, h, ht | .print _, _, h, ht => Expr.regions_of_mem_sites ht ▸ h.tail
  | .var _ _, _, h, ht => Expr.regions_of_mem_sites? ht ▸ h.tail_openVar _
  | .block body, _, h, ht => Stmt.closed_tail_all (h.cons (r := .ofBlock body) rfl) ht
  | .branch _ yes no, _, h, ht => by
    rcases List.mem_append.mp ht with ht | ht
    · rcases List.mem_append.mp ht with ht | ht
      · exact Expr.regions_of_mem_sites ht ▸ h.tail
      · exact Stmt.closed_tail h ht
    · exact Stmt.closed_tail? (h.declare _) ht
  | .loop _ body, _, h, ht => by
    rcases List.mem_append.mp ht with ht | ht
    · exact Expr.regions_of_mem_sites ht ▸ h.tail
    · exact Stmt.closed_tail h ht
  | .function _ parameters body, _, h, ht =>
    Stmt.closed_tail_all ((h.declare _).cons (r := .ofFunction parameters body) rfl) ht
  | .ret _ _, _, h, ht => Expr.regions_of_mem_sites? ht ▸ h.tail

theorem Stmt.closed_tail? {t : Site} : ∀ {s : Option Stmt} {rs : List Region}, Region.AllClosed rs →
    t ∈ Stmt.sites? rs s → Region.AllClosed t.regions.tail
  | none, _, _, ht => by cases ht
  | some _, _, h, ht => Stmt.closed_tail h ht

theorem Stmt.closed_tail_all {t : Site} : ∀ {ss : List Stmt} {rs : List Region}, Region.AllClosed rs →
    t ∈ Stmt.sitesAll rs ss → Region.AllClosed t.regions.tail
  | [], _, _, ht => by cases ht
  | _ :: _, _, h, ht => by
    rcases List.mem_append.mp ht with ht | ht
    · exact Stmt.closed_tail h ht
    · exact Stmt.closed_tail_all (h.declare _) ht

end

/-- The innermost region declares these names, if there is one. -/
def Region.Admits (rs : List Region) (names : List String) : Prop := ∀ r ∈ rs.head?, ∀ n ∈ names, n ∈ r.names

theorem Region.Admits.declare {rs : List Region} {names : List String} (declared : List String)
    (h : Region.Admits rs names) : Region.Admits (Region.declare declared rs) names := by
  cases rs with
  | nil => exact h
  | cons r outer =>
    intro r' hr' n hn
    cases hr'
    exact h r rfl n hn

theorem Region.Admits.sub {rs : List Region} {names names' : List String} (h : Region.Admits rs names)
    (hsub : ∀ n ∈ names', n ∈ names) : Region.Admits rs names' := fun r hr n hn => h r hr n (hsub n hn)

mutual

/-- The variable whose initializer a place is in is one that its region declares. -/
theorem Stmt.opening_mem {t : Site} : ∀ {s : Stmt} {rs : List Region}, Region.AllClosed rs →
    Region.Admits rs s.declares → t ∈ s.sites rs → ∀ r ∈ t.regions.head?, ∀ n, r.opening = some n → n ∈ r.names
  | .expression _, _, h, _, ht | .print _, _, h, _, ht => Expr.regions_of_mem_sites ht ▸ h.opening_mem
  | .var name _, rs, _, hadmits, ht => by
    rw [Expr.regions_of_mem_sites? ht]
    cases rs with
    | nil => simp [Region.openVar]
    | cons r outer =>
      intro r' hr' n hn
      cases hr'
      cases hn
      exact hadmits r rfl _ (List.mem_singleton_self _)
  | .block body, _, h, _, ht => by
    refine Stmt.opening_mem_all (h.cons (r := .ofBlock body) rfl) ?_ ht
    intro r hr n hn
    cases hr
    exact hn
  | .branch _ yes no, _, h, hadmits, ht => by
    rcases List.mem_append.mp ht with ht | ht
    · rcases List.mem_append.mp ht with ht | ht
      · exact Expr.regions_of_mem_sites ht ▸ h.opening_mem
      · exact Stmt.opening_mem h (hadmits.sub fun _ hn => List.mem_append_left _ hn) ht
    · exact Stmt.opening_mem? (h.declare _) ((hadmits.sub fun _ hn => List.mem_append_right _ hn).declare _) ht
  | .loop _ body, _, h, hadmits, ht => by
    rcases List.mem_append.mp ht with ht | ht
    · exact Expr.regions_of_mem_sites ht ▸ h.opening_mem
    · exact Stmt.opening_mem (s := body) h hadmits ht
  | .function _ parameters body, _, h, _, ht => by
    refine Stmt.opening_mem_all ((h.declare _).cons (r := .ofFunction parameters body) rfl) ?_ ht
    intro r hr n hn
    cases hr
    exact List.mem_append_right _ hn
  | .ret _ _, _, h, _, ht => Expr.regions_of_mem_sites? ht ▸ h.opening_mem

theorem Stmt.opening_mem? {t : Site} : ∀ {s : Option Stmt} {rs : List Region}, Region.AllClosed rs →
    Region.Admits rs (Stmt.declares? s) → t ∈ Stmt.sites? rs s →
      ∀ r ∈ t.regions.head?, ∀ n, r.opening = some n → n ∈ r.names
  | none, _, _, _, ht => by cases ht
  | some _, _, h, hadmits, ht => Stmt.opening_mem h hadmits ht

theorem Stmt.opening_mem_all {t : Site} : ∀ {ss : List Stmt} {rs : List Region}, Region.AllClosed rs →
    Region.Admits rs (Stmt.declaresAll ss) → t ∈ Stmt.sitesAll rs ss →
      ∀ r ∈ t.regions.head?, ∀ n, r.opening = some n → n ∈ r.names
  | [], _, _, _, ht => by cases ht
  | _ :: _, _, h, hadmits, ht => by
    rcases List.mem_append.mp ht with ht | ht
    · exact Stmt.opening_mem h (hadmits.sub fun _ hn => List.mem_append_left _ hn) ht
    · exact Stmt.opening_mem_all (h.declare _) ((hadmits.sub fun _ hn => List.mem_append_right _ hn).declare _) ht

end

/-- The region at the distance of a site of a program has declared its name, or the site is in the
    initializer of the first declaration of its name. -/
theorem Site.declared_or_premature {program : List Stmt} {t : Site} (ht : t ∈ sitesOf program) {distance : Nat}
    (hd : t.distance? = some distance) {r : Region} (hr : t.regions[distance]? = some r) :
    t.name ∈ r.declared ∨ (t.Premature ∧ t.InOwnInitializer) := by
  obtain ⟨hlt, henters, -⟩ := List.findIdx?_eq_some_iff_getElem.mp hd
  have hget : t.regions[distance] = r := by
    rw [List.getElem?_eq_getElem hlt] at hr
    exact Option.some.inj hr
  rw [hget, Region.enters, Bool.or_eq_true, beq_iff_eq, List.contains_iff_mem] at henters
  by_cases hdecl : t.name ∈ r.declared
  · exact .inl hdecl
  · have hopening := henters.resolve_right hdecl
    have htail : Region.AllClosed t.regions.tail := Stmt.closed_tail_all (by simp [Region.AllClosed]) ht
    cases hregions : t.regions with
    | nil => simp [hregions] at hlt
    | cons r' outer =>
      cases distance with
      | zero =>
        have hr' : r' = r := by simpa [hregions] using hget
        subst hr'
        exact .inr ⟨⟨r', outer, hregions, hopening, hdecl⟩, ⟨r', outer, hregions, hopening⟩⟩
      | succ distance =>
        have hmem : r ∈ t.regions.tail := by
          rw [hregions, List.tail_cons]
          rw [hregions] at hr
          exact List.mem_of_getElem? hr
        rw [htail r hmem] at hopening
        cases hopening

end Lox
