import Lox.Resolve
import Lox.Syntax.References

/-! # Renaming the variable of a scope

A scope of a program is a block or a function with its parameters. Renaming its variable `old` to `new`
changes the declarations of `old` that stand in the scope itself and the references that are bound to them:
those whose distance is the number of scopes between the reference and the renamed one
(`Renaming.Applies`). All else stays as it is. For proofs the same is said of every statement inside or
around the scope, together with what is known of the names in it (`Stmt.Renames`). -/

namespace Lox

/-! ### Names of a program -/

mutual

/-- All names that occur in a statement. -/
def Stmt.identifiers : Stmt → List String
  | .expression e | .print e => e.references.map (·.name.lexeme)
  | .var name init => name.lexeme :: (Expr.references? init).map (·.name.lexeme)
  | .block body => Stmt.identifiersAll body
  | .branch c yes no => c.references.map (·.name.lexeme) ++ yes.identifiers ++ Stmt.identifiers? no
  | .loop c body => c.references.map (·.name.lexeme) ++ body.identifiers
  | .function name parameters body => name.lexeme :: (parameters.map (·.lexeme) ++ Stmt.identifiersAll body)
  | .ret _ value => (Expr.references? value).map (·.name.lexeme)

def Stmt.identifiers? : Option Stmt → List String
  | none => []
  | some s => s.identifiers

def Stmt.identifiersAll : List Stmt → List String
  | [] => []
  | s :: ss => s.identifiers ++ Stmt.identifiersAll ss

end

mutual

/-- The functions that a statement declares in the scope it stands in. -/
def Stmt.functions : Stmt → List String
  | .function name _ _ => [name.lexeme]
  | .branch _ yes no => yes.functions ++ Stmt.functions? no
  | .loop _ body => body.functions
  | .expression _ | .print _ | .var _ _ | .block _ | .ret _ _ => []

def Stmt.functions? : Option Stmt → List String
  | none => []
  | some s => s.functions

end

def Stmt.functionsAll : List Stmt → List String
  | [] => []
  | s :: ss => s.functions ++ Stmt.functionsAll ss

/-! ### Renaming -/

/-- A variable of a scope, its new name, and the distances of references. -/
structure Renaming where
  old : String
  new : String
  distances : Distances

namespace Renaming
def name (r : Renaming) (n : String) : String := if n = r.old then r.new else n

section
variable {r : Renaming} {n m : String}

theorem name_of_ne (h : n ≠ r.old) : r.name n = n := if_neg h

/-- Names other than the new one stay apart. -/
theorem name_injective (hn : n ≠ r.new) (hm : m ≠ r.new) (h : r.name n = r.name m) : n = m := by
  unfold name at h
  split at h <;> split at h
  · rename_i hn' hm'
    exact hn'.trans hm'.symm
  · exact absurd h.symm hm
  · exact absurd h hn
  · exact h

/-- Only the old name, or a name that is another one anyway, is left alone. -/
theorem eq_of_name_eq (hm : m ≠ r.new) (h : r.name n = m) : n = m := by
  unfold name at h
  split at h
  · exact absurd h.symm hm
  · exact h

end

def token (r : Renaming) (t : Token) : Token := { t with lexeme := r.name t.lexeme }

/-- The name of a reference that stands so many scopes inside the renamed one, or outside of it. -/
def reference (r : Renaming) : Option Nat → ExprId → Token → Token
  | some depth, id, t => if r.distances[id]? = some depth then r.token t else t
  | none, _, t => t

/-- The name of a declaration at this depth. -/
def declared (r : Renaming) (depth : Option Nat) (t : Token) : Token := if depth = some 0 then r.token t else t

mutual

def expr (r : Renaming) (depth : Option Nat) : Expr → Expr
  | .literal v => .literal v
  | .grouping e => .grouping (r.expr depth e)
  | .unary operator e => .unary operator (r.expr depth e)
  | .binary left operator right => .binary (r.expr depth left) operator (r.expr depth right)
  | .logical left operator right => .logical (r.expr depth left) operator (r.expr depth right)
  | .var id name => .var id (r.reference depth id name)
  | .assign id name v => .assign id (r.reference depth id name) (r.expr depth v)
  | .call f paren args => .call (r.expr depth f) paren (r.exprs depth args)

def exprs (r : Renaming) (depth : Option Nat) : List Expr → List Expr
  | [] => []
  | e :: es => r.expr depth e :: r.exprs depth es

end

mutual

/-- A statement inside the renamed scope, so many scopes deep. -/
def stmt (r : Renaming) (depth : Nat) : Stmt → Stmt
  | .expression e => .expression (r.expr (some depth) e)
  | .print e => .print (r.expr (some depth) e)
  | .var name init => .var (r.declared (some depth) name) (init.map (r.expr (some depth)))
  | .block body => .block (r.stmts (depth + 1) body)
  | .branch c yes no => .branch (r.expr (some depth) c) (r.stmt depth yes) (r.stmt? depth no)
  | .loop c body => .loop (r.expr (some depth) c) (r.stmt depth body)
  | .function name parameters body => .function name parameters (r.stmts (depth + 1) body)
  | .ret keyword value => .ret keyword (value.map (r.expr (some depth)))

def stmt? (r : Renaming) (depth : Nat) : Option Stmt → Option Stmt
  | none => none
  | some s => some (r.stmt depth s)

def stmts (r : Renaming) (depth : Nat) : List Stmt → List Stmt
  | [] => []
  | s :: ss => r.stmt depth s :: r.stmts depth ss

end

mutual

/-- The second statement is the first with the variable of one scope in it renamed. No function declared in
    that scope has the name. -/
inductive Applies (r : Renaming) : Stmt → Stmt → Prop
  | block {body : List Stmt} (h : r.old ∉ Stmt.functionsAll body) : Applies r (.block body) (.block (r.stmts 0 body))
  | function {name : Token} {parameters : List Token} {body : List Stmt} (h : r.old ∉ Stmt.functionsAll body) :
    Applies r (.function name parameters body) (.function name (parameters.map r.token) (r.stmts 0 body))
  | inBlock {body body' : List Stmt} (h : AppliesAll r body body') : Applies r (.block body) (.block body')
  | inFunction {name : Token} {parameters : List Token} {body body' : List Stmt} (h : AppliesAll r body body') :
    Applies r (.function name parameters body) (.function name parameters body')
  | inYes {c : Expr} {yes yes' : Stmt} {no : Option Stmt} (h : Applies r yes yes') :
    Applies r (.branch c yes no) (.branch c yes' no)
  | inNo {c : Expr} {yes no no' : Stmt} (h : Applies r no no') :
    Applies r (.branch c yes (some no)) (.branch c yes (some no'))
  | inLoop {c : Expr} {body body' : Stmt} (h : Applies r body body') : Applies r (.loop c body) (.loop c body')

/-- The same of one statement in a list. -/
inductive AppliesAll (r : Renaming) : List Stmt → List Stmt → Prop
  | head {s s' : Stmt} {ss : List Stmt} (h : Applies r s s') : AppliesAll r (s :: ss) (s' :: ss)
  | tail {s : Stmt} {ss ss' : List Stmt} (h : AppliesAll r ss ss') : AppliesAll r (s :: ss) (s :: ss')

end

/-! ### Statements inside and around the scope -/

/-- From this depth a body is entered at that depth: one scope deeper, or the body is the renamed scope. -/
def Enters (depth inner : Option Nat) : Prop := inner = depth.map (· + 1) ∨ (depth = none ∧ inner = some 0)

/-- Inside the scope no reference has the new name, and the distances of the renaming are those that
    evaluation uses. -/
def Admits (r : Renaming) (distances : Distances) (depth : Option Nat) (refs : List Reference) : Prop :=
  ∀ k, depth = some k → ∀ ref ∈ refs, ref.name.lexeme ≠ r.new ∧ distances[ref.id]? = r.distances[ref.id]?

end Renaming

mutual

/-- The second statement is the first with the scope renamed, both at this depth. -/
inductive Stmt.Renames (r : Renaming) (distances : Distances) : Option Nat → Stmt → Stmt → Prop
  | expression {depth : Option Nat} {e : Expr} (h : r.Admits distances depth e.references) :
    Stmt.Renames r distances depth (.expression e) (.expression (r.expr depth e))
  | print {depth : Option Nat} {e : Expr} (h : r.Admits distances depth e.references) :
    Stmt.Renames r distances depth (.print e) (.print (r.expr depth e))
  | var {depth : Option Nat} {name : Token} {init : Option Expr} (hname : depth ≠ none → name.lexeme ≠ r.new)
    (h : r.Admits distances depth (Expr.references? init)) :
    Stmt.Renames r distances depth (.var name init) (.var (r.declared depth name) (init.map (r.expr depth)))
  | block {depth inner : Option Nat} {body body' : List Stmt} (henters : Renaming.Enters depth inner)
    (h : Stmt.RenamesAll r distances inner body body') : Stmt.Renames r distances depth (.block body) (.block body')
  | branch {depth : Option Nat} {c : Expr} {yes yes' : Stmt} {no no' : Option Stmt}
    (h : r.Admits distances depth c.references) (hyes : Stmt.Renames r distances depth yes yes')
    (hno : Stmt.Renames? r distances depth no no') :
    Stmt.Renames r distances depth (.branch c yes no) (.branch (r.expr depth c) yes' no')
  | loop {depth : Option Nat} {c : Expr} {body body' : Stmt} (h : r.Admits distances depth c.references)
    (hbody : Stmt.Renames r distances depth body body') :
    Stmt.Renames r distances depth (.loop c body) (.loop (r.expr depth c) body')
  | function {depth inner : Option Nat} {name : Token} {parameters : List Token} {body body' : List Stmt}
    (hname : depth ≠ none → name.lexeme ≠ r.new) (hold : depth = some 0 → name.lexeme ≠ r.old)
    (henters : Renaming.Enters depth inner) (hparameters : inner ≠ none → ∀ p ∈ parameters, p.lexeme ≠ r.new)
    (h : Stmt.RenamesAll r distances inner body body') :
    Stmt.Renames r distances depth (.function name parameters body)
      (.function name (parameters.map (r.declared inner)) body')
  | ret {depth : Option Nat} {keyword : Token} {value : Option Expr}
    (h : r.Admits distances depth (Expr.references? value)) :
    Stmt.Renames r distances depth (.ret keyword value) (.ret keyword (value.map (r.expr depth)))

inductive Stmt.Renames? (r : Renaming) (distances : Distances) : Option Nat → Option Stmt → Option Stmt → Prop
  | none {depth : Option Nat} : Stmt.Renames? r distances depth none none
  | some {depth : Option Nat} {s s' : Stmt} (h : Stmt.Renames r distances depth s s') :
    Stmt.Renames? r distances depth (some s) (some s')

inductive Stmt.RenamesAll (r : Renaming) (distances : Distances) : Option Nat → List Stmt → List Stmt → Prop
  | nil {depth : Option Nat} : Stmt.RenamesAll r distances depth [] []
  | cons {depth : Option Nat} {s s' : Stmt} {ss ss' : List Stmt} (h : Stmt.Renames r distances depth s s')
    (hss : Stmt.RenamesAll r distances depth ss ss') : Stmt.RenamesAll r distances depth (s :: ss) (s' :: ss')

end

section
variable {r : Renaming} {distances : Distances}

mutual

@[simp] theorem Renaming.expr_none : ∀ e : Expr, r.expr none e = e
  | .literal _ | .var _ _ => rfl
  | .grouping e => congrArg _ (Renaming.expr_none e)
  | .unary operator e => congrArg _ (Renaming.expr_none e)
  | .binary left operator right | .logical left operator right => by
    rw [Renaming.expr, Renaming.expr_none left, Renaming.expr_none right]
  | .assign id name v => congrArg _ (Renaming.expr_none v)
  | .call f paren args => by rw [Renaming.expr, Renaming.expr_none f, Renaming.exprs_none args]

@[simp] theorem Renaming.exprs_none : ∀ es : List Expr, r.exprs none es = es
  | [] => rfl
  | e :: es => by rw [Renaming.exprs, Renaming.expr_none e, Renaming.exprs_none es]

end

theorem Renaming.map_expr_none (e : Option Expr) : e.map (r.expr none) = e := by
  cases e <;> simp

theorem Renaming.map_declared {depth : Option Nat} (h : depth ≠ some 0) (ts : List Token) :
    ts.map (r.declared depth) = ts := by
  have hid : r.declared depth = id := by
    funext t
    exact if_neg h
  rw [hid, List.map_id]

theorem Renaming.Admits.none {refs : List Reference} : r.Admits distances none refs := nofun

theorem Renaming.Admits.of_fresh {depth : Option Nat} {refs : List Reference}
    (hfresh : r.new ∉ refs.map (·.name.lexeme))
    (hids : ∀ ref ∈ refs, distances[ref.id]? = r.distances[ref.id]?) : r.Admits distances depth refs :=
  fun _ _ ref href => ⟨fun hnew => hfresh (List.mem_map.mpr ⟨ref, href, hnew⟩), hids ref href⟩

theorem Renaming.Admits.sub {depth : Option Nat} {refs refs' : List Reference} (h : r.Admits distances depth refs)
    (hsub : ∀ ref ∈ refs', ref ∈ refs) : r.Admits distances depth refs' :=
  fun k hk ref href => h k hk ref (hsub ref href)

theorem Renaming.enters_none : Renaming.Enters none none := .inl rfl

theorem Renaming.enters_some (k : Nat) : Renaming.Enters (some k) (some (k + 1)) := .inl rfl

theorem Renaming.enters_scope : Renaming.Enters none (some 0) := .inr ⟨rfl, rfl⟩

/-! Outside of the scope names stay, and what stands inside a statement may contain the scope. -/

theorem Stmt.Renames.branch_none {c : Expr} {yes yes' : Stmt} {no no' : Option Stmt}
    (hyes : Stmt.Renames r distances none yes yes') (hno : Stmt.Renames? r distances none no no') :
    Stmt.Renames r distances none (.branch c yes no) (.branch c yes' no') := by
  have h : Stmt.Renames r distances none (.branch c yes no) (.branch (r.expr none c) yes' no') := .branch .none hyes hno
  rwa [Renaming.expr_none] at h

theorem Stmt.Renames.loop_none {c : Expr} {body body' : Stmt} (hbody : Stmt.Renames r distances none body body') :
    Stmt.Renames r distances none (.loop c body) (.loop c body') := by
  have h : Stmt.Renames r distances none (.loop c body) (.loop (r.expr none c) body') := .loop .none hbody
  rwa [Renaming.expr_none] at h

theorem Stmt.Renames.function_none {name : Token} {parameters : List Token} {body body' : List Stmt}
    (hbody : Stmt.RenamesAll r distances none body body') :
    Stmt.Renames r distances none (.function name parameters body) (.function name parameters body') := by
  have h : Stmt.Renames r distances none (.function name parameters body)
      (.function name (parameters.map (r.declared none)) body') :=
    .function (absurd rfl) nofun Renaming.enters_none (absurd rfl) hbody
  have hnone : (none : Option Nat) ≠ some 0 := nofun
  rwa [Renaming.map_declared hnone] at h

/-- How a function is renamed: its name stays, and its parameters and body are at the depth of its scope. -/
theorem Stmt.Renames.of_function {depth : Option Nat} {name name' : Token} {parameters parameters' : List Token}
    {body body' : List Stmt}
    (h : Stmt.Renames r distances depth (.function name parameters body) (.function name' parameters' body')) :
    ∃ inner, name' = name ∧ parameters' = parameters.map (r.declared inner) ∧ Renaming.Enters depth inner ∧
      (inner ≠ none → ∀ p ∈ parameters, p.lexeme ≠ r.new) ∧ Stmt.RenamesAll r distances inner body body' := by
  cases h with
  | function _ _ henters hparameters h => exact ⟨_, rfl, rfl, henters, hparameters, h⟩

mutual

/-- A statement that does not contain the scope stays. -/
theorem Stmt.Renames.refl : ∀ s : Stmt, Stmt.Renames r distances none s s
  | .expression e => by
    have h : Stmt.Renames r distances none (.expression e) (.expression (r.expr none e)) := .expression .none
    rwa [Renaming.expr_none] at h
  | .print e => by
    have h : Stmt.Renames r distances none (.print e) (.print (r.expr none e)) := .print .none
    rwa [Renaming.expr_none] at h
  | .var name init => by
    have h : Stmt.Renames r distances none (.var name init) (.var name (init.map (r.expr none))) :=
      .var (absurd rfl) .none
    rwa [Renaming.map_expr_none] at h
  | .block body => .block Renaming.enters_none (Stmt.RenamesAll.refl body)
  | .branch _ yes no => .branch_none (Stmt.Renames.refl yes) (Stmt.Renames?.refl no)
  | .loop _ body => .loop_none (Stmt.Renames.refl body)
  | .function _ _ body => .function_none (Stmt.RenamesAll.refl body)
  | .ret keyword value => by
    have h : Stmt.Renames r distances none (.ret keyword value) (.ret keyword (value.map (r.expr none))) := .ret .none
    rwa [Renaming.map_expr_none] at h

theorem Stmt.Renames?.refl : ∀ s : Option Stmt, Stmt.Renames? r distances none s s
  | none => .none
  | some s => .some (Stmt.Renames.refl s)

theorem Stmt.RenamesAll.refl : ∀ ss : List Stmt, Stmt.RenamesAll r distances none ss ss
  | [] => .nil
  | s :: ss => .cons (Stmt.Renames.refl s) (Stmt.RenamesAll.refl ss)

end

mutual

/-- A statement inside the scope, so many scopes deep. -/
theorem Stmt.Renames.of_stmt : ∀ {s : Stmt} {k : Nat}, r.new ∉ s.identifiers → (k = 0 → r.old ∉ s.functions) →
    (∀ ref ∈ s.references, distances[ref.id]? = r.distances[ref.id]?) → Stmt.Renames r distances (some k) s (r.stmt k s)
  | .expression _, _, hnew, _, hids => .expression (.of_fresh hnew hids)
  | .print _, _, hnew, _, hids => .print (.of_fresh hnew hids)
  | .var name init, _, hnew, _, hids => by
    rw [Stmt.identifiers, List.mem_cons, not_or] at hnew
    exact .var (fun _ => Ne.symm hnew.1) (.of_fresh hnew.2 hids)
  | .block body, k, hnew, _, hids => .block (Renaming.enters_some k) (Stmt.RenamesAll.of_stmts hnew nofun hids)
  | .branch c yes no, k, hnew, hold, hids => by
    rw [Stmt.identifiers, List.mem_append, List.mem_append, not_or, not_or] at hnew
    rw [Stmt.functions, List.mem_append, not_or] at hold
    have hc : ∀ ref ∈ c.references, _ := fun ref href => hids ref (List.mem_append_left _ (List.mem_append_left _ href))
    exact .branch (.of_fresh hnew.1.1 hc)
      (Stmt.Renames.of_stmt hnew.1.2 (fun hk => (hold hk).1) fun ref href =>
        hids ref (List.mem_append_left _ (List.mem_append_right _ href)))
      (Stmt.Renames?.of_stmt? hnew.2 (fun hk => (hold hk).2) fun ref href => hids ref (List.mem_append_right _ href))
  | .loop c body, k, hnew, hold, hids => by
    rw [Stmt.identifiers, List.mem_append, not_or] at hnew
    exact .loop (.of_fresh hnew.1 fun ref href => hids ref (List.mem_append_left _ href))
      (Stmt.Renames.of_stmt hnew.2 hold fun ref href => hids ref (List.mem_append_right _ href))
  | .function name parameters body, k, hnew, hold, hids => by
    rw [Stmt.identifiers, List.mem_cons, List.mem_append, not_or, not_or] at hnew
    have hps : ∀ p ∈ parameters, p.lexeme ≠ r.new := fun p hp hn => hnew.2.1 (List.mem_map.mpr ⟨p, hp, hn⟩)
    have hold : some k = some 0 → name.lexeme ≠ r.old := fun hk ho =>
      hold (Option.some.inj hk) (List.mem_singleton.mpr ho.symm)
    have hinner : some (k + 1) ≠ some 0 := fun hk => by cases hk
    have h : Stmt.Renames r distances (some k) (.function name parameters body)
        (.function name (parameters.map (r.declared (some (k + 1)))) (r.stmts (k + 1) body)) :=
      .function (fun _ => Ne.symm hnew.1) hold (Renaming.enters_some k) (fun _ => hps)
        (Stmt.RenamesAll.of_stmts hnew.2.2 nofun hids)
    rwa [Renaming.map_declared hinner] at h
  | .ret _ _, _, hnew, _, hids => .ret (.of_fresh hnew hids)

theorem Stmt.Renames?.of_stmt? : ∀ {s : Option Stmt} {k : Nat}, r.new ∉ Stmt.identifiers? s →
    (k = 0 → r.old ∉ Stmt.functions? s) → (∀ ref ∈ Stmt.references? s, distances[ref.id]? = r.distances[ref.id]?) →
      Stmt.Renames? r distances (some k) s (r.stmt? k s)
  | none, _, _, _, _ => .none
  | some _, _, hnew, hold, hids => .some (Stmt.Renames.of_stmt hnew hold hids)

theorem Stmt.RenamesAll.of_stmts : ∀ {ss : List Stmt} {k : Nat}, r.new ∉ Stmt.identifiersAll ss →
    (k = 0 → r.old ∉ Stmt.functionsAll ss) →
      (∀ ref ∈ Stmt.referencesAll ss, distances[ref.id]? = r.distances[ref.id]?) →
        Stmt.RenamesAll r distances (some k) ss (r.stmts k ss)
  | [], _, _, _, _ => .nil
  | s :: ss, _, hnew, hold, hids => by
    rw [Stmt.identifiersAll, List.mem_append, not_or] at hnew
    rw [Stmt.functionsAll, List.mem_append, not_or] at hold
    exact .cons
      (Stmt.Renames.of_stmt hnew.1 (fun hk => (hold hk).1) fun ref href => hids ref (List.mem_append_left _ href))
      (Stmt.RenamesAll.of_stmts hnew.2 (fun hk => (hold hk).2) fun ref href => hids ref (List.mem_append_right _ href))

end

mutual

/-- A statement that contains the scope. -/
theorem Renaming.Applies.renames : ∀ {s s' : Stmt}, r.Applies s s' → r.new ∉ s.identifiers →
    (∀ ref ∈ s.references, distances[ref.id]? = r.distances[ref.id]?) → Stmt.Renames r distances none s s'
  | .block body, _, .block hold, hnew, hids => .block Renaming.enters_scope (.of_stmts hnew (fun _ => hold) hids)
  | .function name parameters body, _, .function hold, hnew, hids => by
    rw [Stmt.identifiers, List.mem_cons, List.mem_append, not_or, not_or] at hnew
    have hps : ∀ p ∈ parameters, p.lexeme ≠ r.new := fun p hp hn => hnew.2.1 (List.mem_map.mpr ⟨p, hp, hn⟩)
    have htoken : parameters.map (r.declared (some 0)) = parameters.map r.token :=
      List.map_congr_left fun _ _ => if_pos rfl
    rw [← htoken]
    exact .function (absurd rfl) nofun Renaming.enters_scope (fun _ => hps) (.of_stmts hnew.2.2 (fun _ => hold) hids)
  | .block body, _, .inBlock h, hnew, hids => .block Renaming.enters_none (h.renames hnew hids)
  | .function name parameters body, _, .inFunction h, hnew, hids => by
    rw [Stmt.identifiers, List.mem_cons, List.mem_append, not_or, not_or] at hnew
    exact .function_none (h.renames hnew.2.2 hids)
  | .branch c yes no, _, .inYes h, hnew, hids => by
    rw [Stmt.identifiers, List.mem_append, List.mem_append, not_or, not_or] at hnew
    refine .branch_none (h.renames hnew.1.2 fun ref href => hids ref ?_) (.refl no)
    exact List.mem_append_left _ (List.mem_append_right _ href)
  | .branch c yes (some no), _, .inNo h, hnew, hids => by
    rw [Stmt.identifiers, List.mem_append, not_or] at hnew
    exact .branch_none (.refl yes) (.some (h.renames hnew.2 fun ref href => hids ref (List.mem_append_right _ href)))
  | .loop c body, _, .inLoop h, hnew, hids => by
    rw [Stmt.identifiers, List.mem_append, not_or] at hnew
    exact .loop_none (h.renames hnew.2 fun ref href => hids ref (List.mem_append_right _ href))

theorem Renaming.AppliesAll.renames : ∀ {ss ss' : List Stmt}, r.AppliesAll ss ss' → r.new ∉ Stmt.identifiersAll ss →
    (∀ ref ∈ Stmt.referencesAll ss, distances[ref.id]? = r.distances[ref.id]?) →
      Stmt.RenamesAll r distances none ss ss'
  | s :: ss, _, .head h, hnew, hids => by
    rw [Stmt.identifiersAll, List.mem_append, not_or] at hnew
    exact .cons (h.renames hnew.1 fun ref href => hids ref (List.mem_append_left _ href)) (.refl ss)
  | s :: ss, _, .tail h, hnew, hids => by
    rw [Stmt.identifiersAll, List.mem_append, not_or] at hnew
    exact .cons (.refl s) (h.renames hnew.2 fun ref href => hids ref (List.mem_append_right _ href))

end

end
end Lox
