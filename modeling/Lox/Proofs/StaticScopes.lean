import Lox.Proofs.Resolution
import Mathlib.Data.List.Induction

/-! # Static scoping

A walk over a program enters blocks and functions and leaves them, and in between it comes to declarations and
references. Which declaration a reference belongs to is said by this list of events alone: the blocks and
functions around it are those that the walk has entered and not left, and each of them has declared the names
that the walk came to directly in it (`HasDeclared`). The table of a program gives each reference the innermost of
those that have declared its name (`Resolve.distances_innermost`). -/

namespace Lox

/-! ### Events -/

/-- What a walk over a program comes to. A function's parameters are declared in it. -/
inductive Event where
  | enter
  | leave
  | declare (name : String)
  | refer (reference : Reference)

def Event.reference? : Event → Option Reference
  | .refer reference => some reference
  | .enter | .leave | .declare _ => none

mutual

/-- The events of a statement. A declaration comes before what belongs to it: the initializer of a variable, the
    parameters and the body of a function. -/
def Stmt.events : Stmt → List Event
  | .expression e | .print e => e.references.map .refer
  | .var name init => .declare name.lexeme :: (Expr.references? init).map .refer
  | .block body => .enter :: (Stmt.eventsAll body ++ [.leave])
  | .branch c yes no => c.references.map .refer ++ (yes.events ++ Stmt.events? no)
  | .loop c body => c.references.map .refer ++ body.events
  | .function name parameters body =>
    .declare name.lexeme :: .enter :: (parameters.map (.declare ·.lexeme) ++ (Stmt.eventsAll body ++ [.leave]))
  | .ret _ value => (Expr.references? value).map .refer

def Stmt.events? : Option Stmt → List Event
  | none => []
  | some s => s.events

def Stmt.eventsAll : List Stmt → List Event
  | [] => []
  | s :: ss => s.events ++ Stmt.eventsAll ss

end

theorem reference?_refer (refs : List Reference) : (refs.map Event.refer).filterMap Event.reference? = refs := by
  rw [List.filterMap_map]
  exact List.filterMap_some

theorem reference?_enter_leave (es : List Event) :
    (Event.enter :: (es ++ [.leave])).filterMap Event.reference? = es.filterMap Event.reference? := by
  rw [List.filterMap_cons_none (by rfl), List.filterMap_append, List.filterMap_cons_none (by rfl), List.filterMap_nil,
    List.append_nil]

theorem reference?_declare (parameters : List Token) :
    (parameters.map (Event.declare ·.lexeme)).filterMap Event.reference? = [] := by
  rw [List.filterMap_map]
  exact List.filterMap_eq_nil_iff.mpr fun _ _ => rfl

mutual

/-- The walk comes to every reference of a statement, in their order. -/
theorem Stmt.events_references : ∀ s : Stmt, s.events.filterMap Event.reference? = s.references
  | .expression e | .print e => reference?_refer _
  | .var _ init => reference?_refer _
  | .block body => by
    rw [Stmt.events, Stmt.references, reference?_enter_leave, Stmt.eventsAll_references body]
  | .branch c yes no => by
    simp only [Stmt.events, Stmt.references, List.filterMap_append, reference?_refer, Stmt.events_references yes,
      Stmt.events?_references no, List.append_assoc]
  | .loop c body => by
    simp only [Stmt.events, Stmt.references, List.filterMap_append, reference?_refer, Stmt.events_references body]
  | .function _ parameters body => by
    rw [Stmt.events, Stmt.references, List.filterMap_cons_none (by rfl), ← List.append_assoc, reference?_enter_leave,
      List.filterMap_append, reference?_declare, Stmt.eventsAll_references body, List.nil_append]
  | .ret _ _ => reference?_refer _

theorem Stmt.events?_references : ∀ s : Option Stmt, (Stmt.events? s).filterMap Event.reference? = Stmt.references? s
  | none => rfl
  | some s => Stmt.events_references s

theorem Stmt.eventsAll_references :
    ∀ ss : List Stmt, (Stmt.eventsAll ss).filterMap Event.reference? = Stmt.referencesAll ss
  | [] => rfl
  | s :: ss => by
    simp only [Stmt.eventsAll, Stmt.referencesAll, List.filterMap_append, Stmt.events_references s,
      Stmt.eventsAll_references ss]

end

/-! ### Declarations before a place -/

/-- Events that leave what they enter, and nothing else. -/
inductive Balanced : List Event → Prop
  | nil : Balanced []
  | declare {name : String} {es : List Event} (h : Balanced es) : Balanced (.declare name :: es)
  | refer {reference : Reference} {es : List Event} (h : Balanced es) : Balanced (.refer reference :: es)
  | inner {es es' : List Event} (h : Balanced es) (h' : Balanced es') : Balanced (.enter :: (es ++ .leave :: es'))

/-- Events that leave what they enter but for this many blocks and functions, which lie in each other. -/
inductive Descends : Nat → List Event → Prop
  | same {es : List Event} (h : Balanced es) : Descends 0 es
  | deeper {d : Nat} {es es' : List Event} (h : Balanced es) (h' : Descends d es') :
    Descends (d + 1) (es ++ .enter :: es')

/-- Behind these events the walk is in more than `d` blocks and functions; it entered the one with `d` others inside of
    it right before the events in `since`. -/
def Around (before : List Event) (d : Nat) (since : List Event) : Prop :=
  ∃ outer, before = outer ++ .enter :: since ∧ Descends d since

/-- Of the blocks and functions around the place behind these events, the one with `d` others inside of it has
    declared the name: the walk has come to a declaration of it directly there. -/
def HasDeclared (before : List Event) (d : Nat) (name : String) : Prop :=
  ∃ outer here since, before = outer ++ .enter :: (here ++ .declare name :: since) ∧ Balanced here ∧ Descends d since

/-- The innermost of them that has declared the name has `d` others inside of it. -/
def IsInnermost (before : List Event) (d : Nat) (name : String) : Prop :=
  HasDeclared before d name ∧ ∀ d' < d, ¬ HasDeclared before d' name

theorem Balanced.append {es es' : List Event} (h : Balanced es) (h' : Balanced es') : Balanced (es ++ es') := by
  induction h with
  | nil => exact h'
  | declare _ ih => exact .declare ih
  | refer _ ih => exact .refer ih
  | inner h _ _ ih =>
    rw [List.cons_append, List.append_assoc, List.cons_append]
    exact .inner h ih

namespace Descends
variable {d : Nat} {es es' : List Event}

theorem append (h : Descends d es) (h' : Balanced es') : Descends d (es ++ es') := by
  induction h with
  | same h => exact .same (h.append h')
  | deeper h _ ih =>
    rw [List.append_assoc, List.cons_append]
    exact .deeper h ih

theorem enter (h : Descends d es) : Descends (d + 1) (es ++ [.enter]) := by
  induction h with
  | same h => exact .deeper h (.same .nil)
  | deeper h _ ih =>
    rw [List.append_assoc, List.cons_append]
    exact .deeper h ih

/-- Leaving ends the innermost of the blocks and functions that are open. -/
theorem leave (h : Descends (d + 1) es) : Descends d (es ++ [.leave]) := by
  induction d generalizing es with
  | zero =>
    obtain _ | ⟨h, ⟨h'⟩⟩ := h
    rw [List.append_assoc, List.cons_append]
    exact .same (h.append (.inner h' .nil))
  | succ d ih =>
    obtain _ | ⟨h, h'⟩ := h
    rw [List.append_assoc, List.cons_append]
    exact .deeper h (ih h')

end Descends

/-! ### Open scopes -/

/-- What the blocks and functions around a place have declared, the innermost first. -/
abbrev Open := List (List String)

def Event.open : Open → Event → Open
  | scopes, .enter => [] :: scopes
  | scopes, .leave => scopes.tail
  | names :: outer, .declare name => (name :: names) :: outer
  | [], .declare _ => []
  | scopes, .refer _ => scopes

/-- What is open after some events. -/
def opened (scopes : Open) (es : List Event) : Open := es.foldl Event.open scopes

@[simp] theorem opened_nil (scopes : Open) : opened scopes [] = scopes := rfl

@[simp] theorem opened_cons (scopes : Open) (e : Event) (es : List Event) :
    opened scopes (e :: es) = opened (e.open scopes) es := rfl

@[simp] theorem opened_append (scopes : Open) (es es' : List Event) :
    opened scopes (es ++ es') = opened (opened scopes es) es' := List.foldl_append

/-- Balanced events end where they began, where names may have been added. -/
theorem Balanced.opened {es : List Event} (h : Balanced es) (names : List String) (outer : Open) :
    ∃ names', Lox.opened (names :: outer) es = names' :: outer ∧ names ⊆ names' := by
  induction h generalizing names outer with
  | nil => exact ⟨names, rfl, List.Subset.refl _⟩
  | @declare name _ _ ih =>
    obtain ⟨names', ho, hsub⟩ := ih (name :: names) outer
    exact ⟨names', ho, fun n hn => hsub (List.mem_cons_of_mem _ hn)⟩
  | refer _ ih => exact ih names outer
  | inner _ _ ih ih' =>
    obtain ⟨inner, ho, -⟩ := ih [] (names :: outer)
    obtain ⟨names', ho', hsub⟩ := ih' names outer
    refine ⟨names', ?_, hsub⟩
    rw [opened_cons, opened_append, Event.open, ho, opened_cons, Event.open, List.tail_cons, ho']

/-- Events that descend leave a scope below the ones they open, where names may have been added. -/
theorem Descends.opened {d : Nat} {es : List Event} (h : Descends d es) (names : List String) (outer : Open) :
    ∃ inner names', Lox.opened (names :: outer) es = inner ++ names' :: outer ∧ inner.length = d ∧ names ⊆ names' := by
  induction h generalizing names outer with
  | same h =>
    obtain ⟨names', ho, hsub⟩ := h.opened names outer
    exact ⟨[], names', ho, rfl, hsub⟩
  | deeper h _ ih =>
    obtain ⟨names', ho, hsub⟩ := h.opened names outer
    obtain ⟨inner, names'', ho', hlen, -⟩ := ih [] (names' :: outer)
    refine ⟨inner ++ [names''], names', ?_, by simp [hlen], hsub⟩
    rw [opened_append, ho, opened_cons, Event.open, ho', List.append_assoc, List.singleton_append]

/-- Each open scope was entered by an event. -/
theorem around_of_lt {before : List Event} :
    ∀ {d : Nat}, d < (opened [] before).length → ∃ since, Around before d since := by
  induction before using List.reverseRecOn with
  | nil => exact fun h => nomatch h
  | append_singleton es e ih =>
    intro d hd
    rw [opened_append, opened_cons, opened_nil] at hd
    cases e with
    | enter =>
      cases d with
      | zero => exact ⟨[], es, rfl, .same .nil⟩
      | succ d =>
        obtain ⟨since, outer, rfl, h⟩ := ih (Nat.lt_of_succ_lt_succ hd)
        exact ⟨_, outer, by rw [List.append_assoc, List.cons_append], h.enter⟩
    | leave =>
      rw [Event.open, List.length_tail] at hd
      obtain ⟨since, outer, rfl, h⟩ := ih (d := d + 1) (by omega)
      exact ⟨_, outer, by rw [List.append_assoc, List.cons_append], h.leave⟩
    | declare name =>
      have hlength : (Event.open (opened [] es) (.declare name)).length = (opened [] es).length := by
        cases opened [] es <;> rfl
      obtain ⟨since, outer, rfl, h⟩ := ih (hlength ▸ hd)
      exact ⟨_, outer, by rw [List.append_assoc, List.cons_append], h.append (.declare .nil)⟩
    | refer reference =>
      obtain ⟨since, outer, rfl, h⟩ := ih hd
      exact ⟨_, outer, by rw [List.append_assoc, List.cons_append], h.append (.refer .nil)⟩

namespace HasDeclared
variable {before : List Event} {d : Nat} {name : String}

theorem append {es : List Event} (h : HasDeclared before d name) (hes : Balanced es) :
    HasDeclared (before ++ es) d name := by
  obtain ⟨outer, here, since, rfl, hh, hs⟩ := h
  exact ⟨outer, here, since ++ es, by simp, hh, hs.append hes⟩

theorem enter (h : HasDeclared before d name) : HasDeclared (before ++ [.enter]) (d + 1) name := by
  obtain ⟨outer, here, since, rfl, hh, hs⟩ := h
  exact ⟨outer, here, since ++ [.enter], by simp, hh, hs.enter⟩

theorem leave (h : HasDeclared before (d + 1) name) : HasDeclared (before ++ [.leave]) d name := by
  obtain ⟨outer, here, since, rfl, hh, hs⟩ := h
  exact ⟨outer, here, since ++ [.leave], by simp, hh, hs.leave⟩

end HasDeclared

/-- The names that an open scope holds have been declared in it. -/
theorem hasDeclared_of_mem {before : List Event} {name : String} :
    ∀ {d : Nat} {names : List String}, (opened [] before)[d]? = some names → name ∈ names →
    HasDeclared before d name := by
  induction before using List.reverseRecOn with
  | nil => exact fun h => nomatch h
  | append_singleton es e ih =>
    intro d names hd hname
    rw [opened_append, opened_cons, opened_nil] at hd
    cases e with
    | enter =>
      cases d with
      | zero =>
        cases hd
        cases hname
      | succ d => exact (ih hd hname).enter
    | leave =>
      rw [Event.open, List.getElem?_tail] at hd
      exact (ih hd hname).leave
    | declare other =>
      cases ho : opened [] es with
      | nil =>
        rw [ho] at hd
        cases hd
      | cons top outer =>
        rw [ho, Event.open] at hd
        cases d with
        | zero =>
          cases hd
          rcases List.mem_cons.mp hname with rfl | hname
          · -- This is the declaration, directly in the innermost scope.
            have hlt : 0 < (opened [] es).length := by simp [ho]
            obtain ⟨since, outer', rfl, ⟨h⟩⟩ := around_of_lt hlt
            exact ⟨outer', since, [], by simp, h, .same .nil⟩
          · exact (ih (by rw [ho]; rfl) hname).append (.declare .nil)
        | succ d => exact (ih (by rw [ho]; exact hd) hname).append (.declare .nil)
    | refer reference => exact (ih hd hname).append (.refer .nil)

/-- What a block or function has declared is what its open scope holds. -/
theorem hasDeclared_iff {before : List Event} {d : Nat} {name : String} :
    HasDeclared before d name ↔ ∃ names, (opened [] before)[d]? = some names ∧ name ∈ names := by
  constructor
  · rintro ⟨outer, here, since, rfl, hh, hs⟩
    obtain ⟨top, htop, -⟩ := hh.opened [] (opened [] outer)
    obtain ⟨inner, names, hnames, rfl, hsub⟩ := hs.opened (name :: top) (opened [] outer)
    refine ⟨names, ?_, hsub List.mem_cons_self⟩
    rw [opened_append, opened_cons, Event.open, opened_append, htop, opened_cons, Event.open, hnames]
    simp
  · rintro ⟨names, hd, hname⟩
    exact hasDeclared_of_mem hd hname

/-! ### Regions and open scopes -/

/-- What is open at each reference among some events, with the reference. -/
def visits (scopes : Open) : List Event → List (Open × Reference)
  | [] => []
  | .refer reference :: es => (scopes, reference) :: visits scopes es
  | e :: es => visits (e.open scopes) es

theorem visits_append (es es' : List Event) : ∀ scopes : Open,
    visits scopes (es ++ es') = visits scopes es ++ visits (opened scopes es) es' := by
  induction es with
  | nil => exact fun _ => rfl
  | cons e es ih =>
    intro scopes
    cases e with
    | refer reference => exact congrArg ((scopes, reference) :: ·) (ih scopes)
    | enter | leave | declare name => exact ih _

theorem mem_visits (before after : List Event) (reference : Reference) (scopes : Open) :
    (opened scopes before, reference) ∈ visits scopes (before ++ .refer reference :: after) := by
  rw [visits_append]
  exact List.mem_append_right _ List.mem_cons_self

/-- The names that a region has begun to declare are those of an open scope. -/
def Region.Tells (r : Region) (names : List String) : Prop := ∀ name, r.enters name = true ↔ name ∈ names

/-- The same between two statements. -/
def Region.Holds (r : Region) (names : List String) : Prop := r.opening = none ∧ r.Tells names

/-- A site is such a reference. -/
def Site.Tells (s : Site) (visit : Open × Reference) : Prop :=
  s.reference = visit.2 ∧ List.Forall₂ Region.Tells s.regions visit.1

theorem Region.enters_iff {r : Region} {name : String} :
    r.enters name = true ↔ r.opening = some name ∨ name ∈ r.declared := by
  simp [Region.enters]

section
variable {rs : List Region} {scopes : Open}

theorem tells_of_holds (h : List.Forall₂ Region.Holds rs scopes) : List.Forall₂ Region.Tells rs scopes :=
  h.imp fun _ _ hr => hr.2

theorem tells_openVar (h : List.Forall₂ Region.Holds rs scopes) (name : String) :
    List.Forall₂ Region.Tells (Region.openVar name rs) (Event.open scopes (.declare name)) := by
  cases h with
  | nil => exact .nil
  | cons hr hrs =>
    refine .cons (fun m => ?_) (tells_of_holds hrs)
    have hm := hr.2 m
    rw [Region.enters_iff, hr.1] at hm
    rw [Region.enters_iff, List.mem_cons, ← hm]
    simp [eq_comm]

theorem holds_declare (h : List.Forall₂ Region.Holds rs scopes) (name : String) :
    List.Forall₂ Region.Holds (Region.declare [name] rs) (Event.open scopes (.declare name)) := by
  cases h with
  | nil => exact .nil
  | cons hr hrs =>
    refine .cons ⟨hr.1, fun m => ?_⟩ hrs
    have hm := hr.2 m
    rw [Region.enters_iff, hr.1] at hm
    rw [Region.enters_iff, List.mem_cons, ← hm]
    simp [hr.1, or_comm]

theorem holds_parameters (parameters : List Token) (body : List Stmt) (h : List.Forall₂ Region.Holds rs scopes) :
    List.Forall₂ Region.Holds (.ofFunction parameters body :: rs)
      (opened ([] :: scopes) (parameters.map (.declare ·.lexeme))) := by
  have hopened : ∀ names, opened (names :: scopes) (parameters.map (.declare ·.lexeme)) =
      ((parameters.map (·.lexeme)).reverse ++ names) :: scopes := by
    induction parameters with
    | nil => exact fun _ => rfl
    | cons p ps ih =>
      intro names
      rw [List.map_cons, opened_cons, Event.open, ih]
      simp
  rw [hopened]
  refine .cons ⟨rfl, fun m => ?_⟩ h
  simp [Region.enters, Region.ofFunction]

theorem tells_refer (h : List.Forall₂ Region.Tells rs scopes) (refs : List Reference) :
    List.Forall₂ Site.Tells (refs.map (⟨rs, ·⟩)) (visits scopes (refs.map .refer)) := by
  induction refs with
  | nil => exact .nil
  | cons r refs ih => exact .cons ⟨rfl, h⟩ ih

theorem visits_declare (scopes : Open) (names : List Token) : visits scopes (names.map (.declare ·.lexeme)) = [] := by
  induction names generalizing scopes with
  | nil => rfl
  | cons p ps ih => exact ih _

/-- A block or function that ends leaves what was open around it. -/
theorem tells_leave {r : Region} {names : List String} {sites : List Site} {es : List Event}
    (h : List.Forall₂ Site.Tells sites (visits scopes es) ∧
      List.Forall₂ Region.Holds (Region.declare names (r :: rs)) (opened scopes es)) :
    List.Forall₂ Site.Tells sites (visits scopes (es ++ [.leave])) ∧
      List.Forall₂ Region.Holds rs (opened scopes (es ++ [.leave])) := by
  rw [visits_append, opened_append]
  obtain ⟨hsites, hopened⟩ := h
  generalize opened scopes es = after at hopened
  cases hopened with
  | cons _ houter => exact ⟨by simpa [visits] using hsites, houter⟩

theorem opened_refer (scopes : Open) (refs : List Reference) : opened scopes (refs.map .refer) = scopes := by
  induction refs with
  | nil => rfl
  | cons r refs ih => exact ih

end

mutual

/-- The sites of a statement are the references among its events, and its events open what it declares. -/
theorem Stmt.sites_events : ∀ (s : Stmt) {rs : List Region} {scopes : Open}, List.Forall₂ Region.Holds rs scopes →
    List.Forall₂ Site.Tells (s.sites rs) (visits scopes s.events) ∧
      List.Forall₂ Region.Holds (Region.declare s.declares rs) (opened scopes s.events)
  | .expression e, rs, scopes, h | .print e, rs, scopes, h => by
    refine ⟨tells_refer (tells_of_holds h) e.references, ?_⟩
    rw [Stmt.events, opened_refer, Stmt.declares, Region.declare_nil]
    exact h
  | .ret _ value, rs, scopes, h => by
    refine ⟨tells_refer (tells_of_holds h) (Expr.references? value), ?_⟩
    rw [Stmt.events, opened_refer, Stmt.declares, Region.declare_nil]
    exact h
  | .var name init, rs, scopes, h => by
    refine ⟨tells_refer (tells_openVar h name.lexeme) (Expr.references? init), ?_⟩
    rw [Stmt.events, opened_cons, opened_refer]
    exact holds_declare h name.lexeme
  | .block body, rs, scopes, h => by
    have hinner : List.Forall₂ Region.Holds (.ofBlock body :: rs) ([] :: scopes) :=
      .cons ⟨rfl, fun m => by simp [Region.enters_iff, Region.ofBlock]⟩ h
    obtain ⟨hsites, hopened⟩ := tells_leave (Stmt.sitesAll_events body hinner)
    refine ⟨hsites, ?_⟩
    rw [Stmt.events, opened_cons, Stmt.declares, Region.declare_nil]
    exact hopened
  | .branch c yes no, rs, scopes, h => by
    obtain ⟨hyes, hyes'⟩ := Stmt.sites_events yes h
    obtain ⟨hno, hno'⟩ := Stmt.sites?_events no hyes'
    refine ⟨?_, ?_⟩
    · rw [Stmt.sites, Stmt.events, visits_append, visits_append, opened_refer, List.append_assoc]
      exact List.rel_append (tells_refer (tells_of_holds h) _) (List.rel_append hyes hno)
    · rw [Stmt.events, opened_append, opened_append, opened_refer, Stmt.declares, ← Region.declare_declare]
      exact hno'
  | .loop c body, rs, scopes, h => by
    obtain ⟨hbody, hbody'⟩ := Stmt.sites_events body h
    refine ⟨?_, ?_⟩
    · rw [Stmt.sites, Stmt.events, visits_append, opened_refer]
      exact List.rel_append (tells_refer (tells_of_holds h) _) hbody
    · rw [Stmt.events, opened_append, opened_refer]
      exact hbody'
  | .function name parameters body, rs, scopes, h => by
    have hname := holds_declare h name.lexeme
    have hinner := Stmt.sitesAll_events body (holds_parameters parameters body hname)
    obtain ⟨hsites, hopened⟩ := tells_leave hinner
    refine ⟨?_, ?_⟩
    · rw [Stmt.events, visits, visits, visits_append, visits_declare, List.nil_append]
      exact hsites
      all_goals simp
    · rw [Stmt.events, opened_cons, opened_cons, opened_append]
      exact hopened

theorem Stmt.sites?_events :
    ∀ (s : Option Stmt) {rs : List Region} {scopes : Open}, List.Forall₂ Region.Holds rs scopes →
    List.Forall₂ Site.Tells (Stmt.sites? rs s) (visits scopes (Stmt.events? s)) ∧
      List.Forall₂ Region.Holds (Region.declare (Stmt.declares? s) rs) (opened scopes (Stmt.events? s))
  | none, _, _, h => ⟨.nil, by simpa [Stmt.declares?, Stmt.events?] using h⟩
  | some s, _, _, h => Stmt.sites_events s h

theorem Stmt.sitesAll_events :
    ∀ (ss : List Stmt) {rs : List Region} {scopes : Open}, List.Forall₂ Region.Holds rs scopes →
    List.Forall₂ Site.Tells (Stmt.sitesAll rs ss) (visits scopes (Stmt.eventsAll ss)) ∧
      List.Forall₂ Region.Holds (Region.declare (Stmt.declaresAll ss) rs) (opened scopes (Stmt.eventsAll ss))
  | [], _, _, h => ⟨.nil, by simpa [Stmt.eventsAll] using h⟩
  | s :: ss, rs, scopes, h => by
    obtain ⟨hs, hs'⟩ := Stmt.sites_events s h
    obtain ⟨hss, hss'⟩ := Stmt.sitesAll_events ss hs'
    refine ⟨?_, ?_⟩
    · rw [Stmt.sitesAll, Stmt.eventsAll, visits_append]
      exact List.rel_append hs hss
    · rw [Stmt.eventsAll, opened_append, Stmt.declaresAll_cons, ← Region.declare_declare]
      exact hss'

end

/-! ### Distances -/

theorem findIdx?_of_tells {rs : List Region} {scopes : Open} (h : List.Forall₂ Region.Tells rs scopes) (name : String) :
    rs.findIdx? (·.enters name) = scopes.findIdx? (·.contains name) := by
  induction h with
  | nil => rfl
  | cons hr _ ih =>
    rw [List.findIdx?_cons, List.findIdx?_cons, ih, Bool.eq_iff_iff.mpr ((hr name).trans List.contains_iff_mem.symm)]

/-- The first open scope that holds a name is the innermost that has declared it. -/
theorem findIdx?_eq_some_iff_isInnermost {before : List Event} {name : String} {d : Nat} :
    (opened [] before).findIdx? (·.contains name) = some d ↔ IsInnermost before d name := by
  have hget : ∀ {d} (hd : d < (opened [] before).length),
      (opened [] before)[d].contains name = true ↔ HasDeclared before d name := by
    intro d hd
    rw [hasDeclared_iff, List.getElem?_eq_getElem hd, List.contains_iff_mem]
    simp
  rw [List.findIdx?_eq_some_iff_getElem, IsInnermost]
  constructor
  · rintro ⟨hlt, hmem, hnone⟩
    exact ⟨(hget hlt).mp hmem, fun d' hd' h => hnone d' hd' ((hget (Nat.lt_trans hd' hlt)).mpr h)⟩
  · rintro ⟨hd, hnone⟩
    obtain ⟨names, hnames, -⟩ := hasDeclared_iff.mp hd
    obtain ⟨hlt, -⟩ := List.getElem?_eq_some_iff.mp hnames
    exact ⟨hlt, (hget hlt).mpr hd, fun d' hd' h => hnone d' hd' ((hget (Nat.lt_trans hd' hlt)).mp h)⟩

theorem findIdx?_eq_none_iff_not_hasDeclared {before : List Event} {name : String} :
    (opened [] before).findIdx? (·.contains name) = none ↔ ∀ d, ¬ HasDeclared before d name := by
  simp only [List.findIdx?_eq_none_iff, hasDeclared_iff, List.contains_eq_mem, decide_eq_false_iff_not]
  constructor
  · rintro h d ⟨names, hnames, hname⟩
    exact h names (List.mem_of_getElem? hnames) hname
  · intro h names hnames hname
    obtain ⟨d, hd⟩ := List.mem_iff_getElem?.mp hnames
    exact h d ⟨names, hd, hname⟩

theorem exists_of_mem_right {R : α → β → Prop} {l : List α} {l' : List β} (h : List.Forall₂ R l l')
    {b : β} (hb : b ∈ l') :
    ∃ a ∈ l, R a b := by
  induction h with
  | nil => cases hb
  | cons hr _ ih =>
    rcases List.mem_cons.mp hb with rfl | hb
    · exact ⟨_, List.mem_cons_self, hr⟩
    · obtain ⟨a, ha, hab⟩ := ih hb
      exact ⟨a, List.mem_cons_of_mem _ ha, hab⟩

/-- At each reference of a program, the distance is that of the innermost block or function that has declared its
    name. -/
theorem exists_site_of_events {program : List Stmt} {before after : List Event} {reference : Reference}
    (h : Stmt.eventsAll program = before ++ .refer reference :: after) :
    ∃ s ∈ sitesOf program, s.reference = reference ∧
      (∀ d, s.distance? = some d ↔ IsInnermost before d reference.name.lexeme) ∧
      (s.distance? = none ↔ ∀ d, ¬ HasDeclared before d reference.name.lexeme) := by
  have hvisit : (opened [] before, reference) ∈ visits [] (Stmt.eventsAll program) := h ▸ mem_visits before after _ _
  have hall := (Stmt.sitesAll_events program (.nil : List.Forall₂ Region.Holds [] [])).1
  obtain ⟨s, hs, href, htells⟩ := exists_of_mem_right hall hvisit
  refine ⟨s, hs, href, ?_⟩
  rw [Site.distance?, findIdx?_of_tells htells, Site.name, href]
  exact ⟨fun _ => findIdx?_eq_some_iff_isInnermost, findIdx?_eq_none_iff_not_hasDeclared⟩

namespace Resolve

/-- The table of a program whose references all differ in identity is the rule of static scoping. The entry of a
    reference is `d` if and only if, of the blocks and functions around it, the one with `d` others inside of it is
    the innermost that has declared the name. There is no entry exactly if none of them has, nor for what is no
    reference; and errors that were found change nothing. -/
theorem distances_innermost {program : List Stmt} (hids : ((Stmt.referencesAll program).map (·.id)).Nodup) :
    (∀ before reference after, Stmt.eventsAll program = before ++ .refer reference :: after →
      (∀ d, (resolve program).distances[reference.id]? = some d ↔ IsInnermost before d reference.name.lexeme) ∧
      ((resolve program).distances[reference.id]? = none ↔ ∀ d, ¬ HasDeclared before d reference.name.lexeme)) ∧
    (∀ id ∉ (Stmt.referencesAll program).map (·.id), (resolve program).distances[id]? = none) ∧
    ∀ errors, (stmts false [] ⟨∅, errors⟩ program).2.distances = (resolve program).distances := by
  have hsites : (sitesOf program).map (·.reference.id) = (Stmt.referencesAll program).map (·.id) := by
    rw [← Stmt.sitesAll_references [] program, List.map_map]
    rfl
  refine ⟨?_, fun id hid => distances_resolve_of_notMem (hsites ▸ hid), fun errors => ?_⟩
  · intro before reference after hevents
    obtain ⟨s, hs, rfl, hdistance⟩ := exists_site_of_events hevents
    rw [distances_resolve (hsites ▸ hids) s hs]
    exact hdistance
  · exact (stmts_walk false .nil program ⟨∅, errors⟩).found.distances.trans (resolve_walk program).distances.symm

/-- In `{var a=a;fun f(b){c=a;} var c;}`, where an error is found, `a` has the distance 0 in its own
    initializer and 1 in the function, and `c`, which is declared later, none. -/
theorem distances_innermost_block :
    let a : Token := ⟨.identifier, "a", 1⟩
    let c : Token := ⟨.identifier, "c", 1⟩
    let program : List Stmt := [.block [.var a (some (.var 0 a)),
      .function ⟨.identifier, "f", 1⟩ [⟨.identifier, "b", 1⟩] [.expression (.assign 2 c (.var 1 a))], .var c none]]
    ((Stmt.referencesAll program).map (·.id)).Nodup ∧ (resolve program).errors ≠ [] ∧
      (resolve program).distances[0]? = some 0 ∧ (resolve program).distances[1]? = some 1 ∧
      (resolve program).distances[2]? = none := by
  intro a c program
  have hids : ((Stmt.referencesAll program).map (·.id)).Nodup := by decide
  obtain ⟨htable, -, -⟩ := distances_innermost hids
  have hevents : Stmt.eventsAll program = [.enter, .declare "a", .refer ⟨false, 0, a⟩, .declare "f", .enter,
    .declare "b", .refer ⟨false, 1, a⟩, .refer ⟨true, 2, c⟩, .leave, .declare "c", .leave] := by rfl
  refine ⟨hids, by decide +kernel, ?_, ?_, ?_⟩
  · have h := htable [.enter, .declare "a"] ⟨false, 0, a⟩ _ hevents
    exact (h.1 0).mpr (findIdx?_eq_some_iff_isInnermost.mp rfl)
  · have h := htable [.enter, .declare "a", .refer ⟨false, 0, a⟩, .declare "f", .enter, .declare "b"]
      ⟨false, 1, a⟩ _ hevents
    exact (h.1 1).mpr (findIdx?_eq_some_iff_isInnermost.mp rfl)
  · have h := htable [.enter, .declare "a", .refer ⟨false, 0, a⟩, .declare "f", .enter, .declare "b",
      .refer ⟨false, 1, a⟩] ⟨true, 2, c⟩ _ hevents
    exact h.2.mpr (findIdx?_eq_none_iff_not_hasDeclared.mp rfl)

end Resolve
end Lox
