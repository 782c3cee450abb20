import Lox.Proofs.Parsing.Grammar
import Lox.Syntax.References
import Mathlib.Data.List.Forall2

/-! # Like programs

Two programs are like one another when they differ in the lines of their tokens and in the identities of
their references only. A likeness says which token may stand for which, and which identity for which
(`Likeness`); trees that are like have it token by token and reference by reference (`Expr.Like`,
`Stmt.Like`). Trees are like without regard to identities when they are so unnumbered
(`Stmt.Like.unnumbered`), and what their references say of identities can be put back
(`Stmt.like_of_unnumbered`). -/

namespace Lox

/-- Which tokens stand for each other in two programs, of one kind and with one text, and which identities. -/
structure Likeness where
  token : Token → Token → Prop
  id : ExprId → ExprId → Prop
  kind_eq : ∀ {t t' : Token}, token t t' → t'.kind = t.kind
  lexeme_eq : ∀ {t t' : Token}, token t t' → t'.lexeme = t.lexeme

namespace Likeness

/-- The same without regard to identities. -/
def unnumbered (L : Likeness) : Likeness := { L with id := fun _ _ => True }

/-- Different identities stand for different ones. -/
def Injective (L : Likeness) : Prop := ∀ {a a' b b' : ExprId}, L.id a a' → L.id b b' → (a = b ↔ a' = b')

/-- All tokens and all identities stand for themselves. -/
structure Reflexive (L : Likeness) : Prop where
  token : ∀ t, L.token t t
  id : ∀ a, L.id a a

end Likeness

mutual

inductive Expr.Like (L : Likeness) : Expr → Expr → Prop
  | literal (v : Literal) : Expr.Like L (.literal v) (.literal v)
  | grouping {e e' : Expr} (h : Expr.Like L e e') : Expr.Like L (.grouping e) (.grouping e')
  | unary {operator operator' : Token} {e e' : Expr} (hop : L.token operator operator') (h : Expr.Like L e e') :
    Expr.Like L (.unary operator e) (.unary operator' e')
  | binary {operator operator' : Token} {l l' r r' : Expr} (hl : Expr.Like L l l') (hop : L.token operator operator')
    (hr : Expr.Like L r r') : Expr.Like L (.binary l operator r) (.binary l' operator' r')
  | logical {operator operator' : Token} {l l' r r' : Expr} (hl : Expr.Like L l l') (hop : L.token operator operator')
    (hr : Expr.Like L r r') : Expr.Like L (.logical l operator r) (.logical l' operator' r')
  | var {id id' : ExprId} {name name' : Token} (hid : L.id id id') (hname : L.token name name') :
    Expr.Like L (.var id name) (.var id' name')
  | assign {id id' : ExprId} {name name' : Token} {v v' : Expr} (hid : L.id id id') (hname : L.token name name')
    (h : Expr.Like L v v') : Expr.Like L (.assign id name v) (.assign id' name' v')
  | call {f f' : Expr} {paren paren' : Token} {args args' : List Expr} (hf : Expr.Like L f f')
    (hparen : L.token paren paren') (hargs : Expr.LikeAll L args args') :
    Expr.Like L (.call f paren args) (.call f' paren' args')

inductive Expr.LikeAll (L : Likeness) : List Expr → List Expr → Prop
  | nil : Expr.LikeAll L [] []
  | cons {e e' : Expr} {es es' : List Expr} (h : Expr.Like L e e') (hes : Expr.LikeAll L es es') :
    Expr.LikeAll L (e :: es) (e' :: es')

end

/-- Both are absent, or they are like. -/
inductive Expr.Like? (L : Likeness) : Option Expr → Option Expr → Prop
  | none : Expr.Like? L none none
  | some {e e' : Expr} (h : Expr.Like L e e') : Expr.Like? L (some e) (some e')

mutual

inductive Stmt.Like (L : Likeness) : Stmt → Stmt → Prop
  | expression {e e' : Expr} (h : Expr.Like L e e') : Stmt.Like L (.expression e) (.expression e')
  | print {e e' : Expr} (h : Expr.Like L e e') : Stmt.Like L (.print e) (.print e')
  | var {name name' : Token} {init init' : Option Expr} (hname : L.token name name') (h : Expr.Like? L init init') :
    Stmt.Like L (.var name init) (.var name' init')
  | block {body body' : List Stmt} (h : Stmt.LikeAll L body body') : Stmt.Like L (.block body) (.block body')
  | branch {c c' : Expr} {yes yes' : Stmt} {no no' : Option Stmt} (hc : Expr.Like L c c') (hyes : Stmt.Like L yes yes')
    (hno : Stmt.Like? L no no') : Stmt.Like L (.branch c yes no) (.branch c' yes' no')
  | loop {c c' : Expr} {body body' : Stmt} (hc : Expr.Like L c c') (hbody : Stmt.Like L body body') :
    Stmt.Like L (.loop c body) (.loop c' body')
  | function {name name' : Token} {parameters parameters' : List Token} {body body' : List Stmt}
    (hname : L.token name name') (hparameters : List.Forall₂ L.token parameters parameters')
    (hbody : Stmt.LikeAll L body body') :
    Stmt.Like L (.function name parameters body) (.function name' parameters' body')
  | ret {keyword keyword' : Token} {value value' : Option Expr} (hkeyword : L.token keyword keyword')
    (h : Expr.Like? L value value') : Stmt.Like L (.ret keyword value) (.ret keyword' value')

inductive Stmt.Like? (L : Likeness) : Option Stmt → Option Stmt → Prop
  | none : Stmt.Like? L none none
  | some {s s' : Stmt} (h : Stmt.Like L s s') : Stmt.Like? L (some s) (some s')

inductive Stmt.LikeAll (L : Likeness) : List Stmt → List Stmt → Prop
  | nil : Stmt.LikeAll L [] []
  | cons {s s' : Stmt} {ss ss' : List Stmt} (h : Stmt.Like L s s') (hss : Stmt.LikeAll L ss ss') :
    Stmt.LikeAll L (s :: ss) (s' :: ss')

end

section
variable {L L' : Likeness}

/-! ### Lists -/

theorem Expr.LikeAll.append {es es' fs fs' : List Expr} (h : Expr.LikeAll L es es') (h' : Expr.LikeAll L fs fs') :
    Expr.LikeAll L (es ++ fs) (es' ++ fs') := by
  cases h with
  | nil => exact h'
  | cons he hes => exact .cons he (hes.append h')

theorem Expr.LikeAll.length_eq {es es' : List Expr} (h : Expr.LikeAll L es es') : es'.length = es.length := by
  cases h with
  | nil => rfl
  | cons _ hes => exact congrArg (· + 1) hes.length_eq

theorem Stmt.LikeAll.append {ss ss' ts ts' : List Stmt} (h : Stmt.LikeAll L ss ss') (h' : Stmt.LikeAll L ts ts') :
    Stmt.LikeAll L (ss ++ ts) (ss' ++ ts') := by
  cases h with
  | nil => exact h'
  | cons hs hss => exact .cons hs (hss.append h')

/-! ### Trees that stand for themselves -/

theorem Likeness.Reflexive.parameters (hL : L.Reflexive) (ps : List Token) : List.Forall₂ L.token ps ps :=
  List.forall₂_same.mpr fun t _ => hL.token t

mutual

theorem Expr.Like.refl (hL : L.Reflexive) : ∀ e : Expr, e.Like L e
  | .literal v => .literal v
  | .grouping e => .grouping (.refl hL e)
  | .unary operator e => .unary (hL.token operator) (.refl hL e)
  | .binary l operator r => .binary (.refl hL l) (hL.token operator) (.refl hL r)
  | .logical l operator r => .logical (.refl hL l) (hL.token operator) (.refl hL r)
  | .var id name => .var (hL.id id) (hL.token name)
  | .assign id name v => .assign (hL.id id) (hL.token name) (.refl hL v)
  | .call f paren args => .call (.refl hL f) (hL.token paren) (.refl hL args)

theorem Expr.LikeAll.refl (hL : L.Reflexive) : ∀ es : List Expr, Expr.LikeAll L es es
  | [] => .nil
  | e :: es => .cons (.refl hL e) (.refl hL es)

end

theorem Expr.Like?.refl (hL : L.Reflexive) (e : Option Expr) : Expr.Like? L e e := by
  cases e with
  | none => exact .none
  | some e => exact .some (.refl hL e)

mutual

theorem Stmt.Like.refl (hL : L.Reflexive) : ∀ s : Stmt, s.Like L s
  | .expression e => .expression (.refl hL e)
  | .print e => .print (.refl hL e)
  | .var name init => .var (hL.token name) (.refl hL init)
  | .block body => .block (.refl hL body)
  | .branch c yes no => .branch (.refl hL c) (.refl hL yes) (.refl hL no)
  | .loop c body => .loop (.refl hL c) (.refl hL body)
  | .function name parameters body => .function (hL.token name) (hL.parameters parameters) (.refl hL body)
  | .ret keyword value => .ret (hL.token keyword) (.refl hL value)

theorem Stmt.Like?.refl (hL : L.Reflexive) : ∀ s : Option Stmt, Stmt.Like? L s s
  | none => .none
  | some s => .some (.refl hL s)

theorem Stmt.LikeAll.refl (hL : L.Reflexive) : ∀ ss : List Stmt, Stmt.LikeAll L ss ss
  | [] => .nil
  | s :: ss => .cons (.refl hL s) (.refl hL ss)

end

/-! ### References -/

/-- References of one sort that stand for each other. -/
structure Reference.Like (L : Likeness) (r r' : Reference) : Prop where
  assigns : r'.assigns = r.assigns
  id : L.id r.id r'.id
  name : L.token r.name r'.name

mutual

theorem Expr.Like.references {e e' : Expr} :
    Expr.Like L e e' → List.Forall₂ (Reference.Like L) e.references e'.references
  | .literal _ => .nil
  | .grouping h => h.references
  | .unary _ h => h.references
  | .binary hl _ hr | .logical hl _ hr => List.rel_append hl.references hr.references
  | .var hid hname => .cons ⟨rfl, hid, hname⟩ .nil
  | .assign hid hname h => List.rel_append h.references (.cons ⟨rfl, hid, hname⟩ .nil)
  | .call hf _ hargs => List.rel_append hf.references hargs.references

theorem Expr.LikeAll.references {es es' : List Expr} :
    Expr.LikeAll L es es' → List.Forall₂ (Reference.Like L) (Expr.referencesAll es) (Expr.referencesAll es')
  | .nil => .nil
  | .cons h hes => List.rel_append h.references hes.references

end

theorem Expr.Like?.references {e e' : Option Expr} :
    Expr.Like? L e e' → List.Forall₂ (Reference.Like L) (Expr.references? e) (Expr.references? e')
  | .none => .nil
  | .some h => h.references

mutual

theorem Stmt.Like.references {s s' : Stmt} :
    Stmt.Like L s s' → List.Forall₂ (Reference.Like L) s.references s'.references
  | .expression h | .print h => h.references
  | .var _ h | .ret _ h => h.references
  | .block h | .function _ _ h => h.references
  | .branch hc hyes hno => List.rel_append (List.rel_append hc.references hyes.references) hno.references
  | .loop hc hbody => List.rel_append hc.references hbody.references

theorem Stmt.Like?.references {s s' : Option Stmt} :
    Stmt.Like? L s s' → List.Forall₂ (Reference.Like L) (Stmt.references? s) (Stmt.references? s')
  | .none => .nil
  | .some h => h.references

theorem Stmt.LikeAll.references {ss ss' : List Stmt} :
    Stmt.LikeAll L ss ss' → List.Forall₂ (Reference.Like L) (Stmt.referencesAll ss) (Stmt.referencesAll ss')
  | .nil => .nil
  | .cons h hss => List.rel_append h.references hss.references

end

/-! ### Identities -/

mutual

theorem Expr.Like.unnumbered {e e' : Expr} : Expr.Like L e e' → Expr.Like L.unnumbered e.unnumbered e'.unnumbered
  | .literal v => .literal v
  | .grouping h => .grouping h.unnumbered
  | .unary hop h => .unary hop h.unnumbered
  | .binary hl hop hr => .binary hl.unnumbered hop hr.unnumbered
  | .logical hl hop hr => .logical hl.unnumbered hop hr.unnumbered
  | .var _ hname => .var trivial hname
  | .assign _ hname h => .assign trivial hname h.unnumbered
  | .call hf hparen hargs => .call hf.unnumbered hparen hargs.unnumbered

theorem Expr.LikeAll.unnumbered {es es' : List Expr} :
    Expr.LikeAll L es es' → Expr.LikeAll L.unnumbered (Expr.unnumberedAll es) (Expr.unnumberedAll es')
  | .nil => .nil
  | .cons h hes => .cons h.unnumbered hes.unnumbered

end

theorem Expr.Like?.unnumbered {e e' : Option Expr} :
    Expr.Like? L e e' → Expr.Like? L.unnumbered (e.map Expr.unnumbered) (e'.map Expr.unnumbered)
  | .none => .none
  | .some h => .some h.unnumbered

mutual

theorem Stmt.Like.unnumbered {s s' : Stmt} : Stmt.Like L s s' → Stmt.Like L.unnumbered s.unnumbered s'.unnumbered
  | .expression h => .expression h.unnumbered
  | .print h => .print h.unnumbered
  | .var hname h => .var hname h.unnumbered
  | .block h => .block h.unnumbered
  | .branch hc hyes hno => .branch hc.unnumbered hyes.unnumbered hno.unnumbered
  | .loop hc hbody => .loop hc.unnumbered hbody.unnumbered
  | .function hname hparameters hbody => .function hname hparameters hbody.unnumbered
  | .ret hkeyword h => .ret hkeyword h.unnumbered

theorem Stmt.Like?.unnumbered {s s' : Option Stmt} :
    Stmt.Like? L s s' → Stmt.Like? L.unnumbered (Stmt.unnumbered? s) (Stmt.unnumbered? s')
  | .none => .none
  | .some h => .some h.unnumbered

theorem Stmt.LikeAll.unnumbered {ss ss' : List Stmt} :
    Stmt.LikeAll L ss ss' → Stmt.LikeAll L.unnumbered (Stmt.unnumberedAll ss) (Stmt.unnumberedAll ss')
  | .nil => .nil
  | .cons h hss => .cons h.unnumbered hss.unnumbered

end

mutual

/-- Trees that are like when nothing is numbered are like without regard to identities. -/
theorem Expr.like_of_unnumbered : ∀ {e e' : Expr}, Expr.Like L e.unnumbered e'.unnumbered → Expr.Like L.unnumbered e e'
  | .literal _, e', h => by
    cases e' with
    | literal =>
      cases h
      exact .literal _
    | _ => cases h
  | .grouping _, e', h => by
    cases e' with
    | grouping =>
      cases h with
      | grouping h => exact .grouping (Expr.like_of_unnumbered h)
    | _ => cases h
  | .unary _ _, e', h => by
    cases e' with
    | unary =>
      cases h with
      | unary hop h => exact .unary hop (Expr.like_of_unnumbered h)
    | _ => cases h
  | .binary _ _ _, e', h => by
    cases e' with
    | binary =>
      cases h with
      | binary hl hop hr => exact .binary (Expr.like_of_unnumbered hl) hop (Expr.like_of_unnumbered hr)
    | _ => cases h
  | .logical _ _ _, e', h => by
    cases e' with
    | logical =>
      cases h with
      | logical hl hop hr => exact .logical (Expr.like_of_unnumbered hl) hop (Expr.like_of_unnumbered hr)
    | _ => cases h
  | .var _ _, e', h => by
    cases e' with
    | var =>
      cases h with
      | var _ hname => exact .var trivial hname
    | _ => cases h
  | .assign _ _ _, e', h => by
    cases e' with
    | assign =>
      cases h with
      | assign _ hname h => exact .assign trivial hname (Expr.like_of_unnumbered h)
    | _ => cases h
  | .call _ _ _, e', h => by
    cases e' with
    | call =>
      cases h with
      | call hf hparen hargs => exact .call (Expr.like_of_unnumbered hf) hparen (Expr.likeAll_of_unnumbered hargs)
    | _ => cases h

theorem Expr.likeAll_of_unnumbered : ∀ {es es' : List Expr},
    Expr.LikeAll L (Expr.unnumberedAll es) (Expr.unnumberedAll es') → Expr.LikeAll L.unnumbered es es'
  | [], es', h => by
    cases es' with
    | nil => exact .nil
    | cons => cases h
  | _ :: _, es', h => by
    cases es' with
    | nil => cases h
    | cons =>
      cases h with
      | cons h hes => exact .cons (Expr.like_of_unnumbered h) (Expr.likeAll_of_unnumbered hes)

end

theorem Expr.like?_of_unnumbered {e e' : Option Expr}
    (h : Expr.Like? L (e.map Expr.unnumbered) (e'.map Expr.unnumbered)) : Expr.Like? L.unnumbered e e' := by
  cases e with
  | none =>
    cases e' with
    | none => exact .none
    | some => cases h
  | some =>
    cases e' with
    | none => cases h
    | some =>
      cases h with
      | some h => exact .some (Expr.like_of_unnumbered h)

mutual

theorem Stmt.like_of_unnumbered : ∀ {s s' : Stmt}, Stmt.Like L s.unnumbered s'.unnumbered → Stmt.Like L.unnumbered s s'
  | .expression _, s', h => by
    cases s' with
    | expression =>
      cases h with
      | expression h => exact .expression (Expr.like_of_unnumbered h)
    | _ => cases h
  | .print _, s', h => by
    cases s' with
    | print =>
      cases h with
      | print h => exact .print (Expr.like_of_unnumbered h)
    | _ => cases h
  | .var _ _, s', h => by
    cases s' with
    | var =>
      cases h with
      | var hname h => exact .var hname (Expr.like?_of_unnumbered h)
    | _ => cases h
  | .block _, s', h => by
    cases s' with
    | block =>
      cases h with
      | block h => exact .block (Stmt.likeAll_of_unnumbered h)
    | _ => cases h
  | .branch _ _ _, s', h => by
    cases s' with
    | branch =>
      cases h with
      | branch hc hyes hno =>
        exact .branch (Expr.like_of_unnumbered hc) (Stmt.like_of_unnumbered hyes) (Stmt.like?_of_unnumbered hno)
    | _ => cases h
  | .loop _ _, s', h => by
    cases s' with
    | loop =>
      cases h with
      | loop hc hbody => exact .loop (Expr.like_of_unnumbered hc) (Stmt.like_of_unnumbered hbody)
    | _ => cases h
  | .function _ _ _, s', h => by
    cases s' with
    | function =>
      cases h with
      | function hname hparameters hbody => exact .function hname hparameters (Stmt.likeAll_of_unnumbered hbody)
    | _ => cases h
  | .ret _ _, s', h => by
    cases s' with
    | ret =>
      cases h with
      | ret hkeyword h => exact .ret hkeyword (Expr.like?_of_unnumbered h)
    | _ => cases h

theorem Stmt.like?_of_unnumbered : ∀ {s s' : Option Stmt},
    Stmt.Like? L (Stmt.unnumbered? s) (Stmt.unnumbered? s') → Stmt.Like? L.unnumbered s s'
  | none, s', h => by
    cases s' with
    | none => exact .none
    | some => cases h
  | some _, s', h => by
    cases s' with
    | none => cases h
    | some =>
      cases h with
      | some h => exact .some (Stmt.like_of_unnumbered h)

theorem Stmt.likeAll_of_unnumbered : ∀ {ss ss' : List Stmt},
    Stmt.LikeAll L (Stmt.unnumberedAll ss) (Stmt.unnumberedAll ss') → Stmt.LikeAll L.unnumbered ss ss'
  | [], ss', h => by
    cases ss' with
    | nil => exact .nil
    | cons => cases h
  | _ :: _, ss', h => by
    cases ss' with
    | nil => cases h
    | cons =>
      cases h with
      | cons h hss => exact .cons (Stmt.like_of_unnumbered h) (Stmt.likeAll_of_unnumbered hss)

end

/-! ### Other likenesses -/

/-- References in the same place have identities that stand for each other. -/
def Likeness.Pairs (L : Likeness) (refs refs' : List Reference) : Prop := ∀ q ∈ refs.zip refs', L.id q.1.id q.2.id

namespace Likeness.Pairs
variable {refs refs' more more' : List Reference}

theorem left (h : L'.Pairs (refs ++ more) (refs' ++ more')) (hlike : List.Forall₂ (Reference.Like L) refs refs') :
    L'.Pairs refs refs' := by
  intro q hq
  refine h q ?_
  rw [List.zip_append hlike.length_eq]
  exact List.mem_append_left _ hq

theorem right (h : L'.Pairs (refs ++ more) (refs' ++ more')) (hlike : List.Forall₂ (Reference.Like L) refs refs') :
    L'.Pairs more more' := by
  intro q hq
  refine h q ?_
  rw [List.zip_append hlike.length_eq]
  exact List.mem_append_right _ hq

theorem head {r r' : Reference} (h : L'.Pairs [r] [r']) : L'.id r.id r'.id := h (r, r') (List.mem_singleton_self _)

end Likeness.Pairs

/-- One likeness admits the tokens of another. -/
def Likeness.Admits (L' L : Likeness) : Prop := ∀ {t t' : Token}, L.token t t' → L'.token t t'

mutual

/-- Trees that are like have any likeness that admits their tokens and pairs their references. -/
theorem Expr.Like.renumber (htoken : L'.Admits L) {e e' : Expr} :
    Expr.Like L e e' → L'.Pairs e.references e'.references → Expr.Like L' e e'
  | .literal v, _ => .literal v
  | .grouping h, hids => .grouping (h.renumber htoken hids)
  | .unary hop h, hids => .unary (htoken hop) (h.renumber htoken hids)
  | .binary hl hop hr, hids =>
    .binary (hl.renumber htoken (hids.left hl.references)) (htoken hop) (hr.renumber htoken (hids.right hl.references))
  | .logical hl hop hr, hids =>
    .logical (hl.renumber htoken (hids.left hl.references)) (htoken hop)
      (hr.renumber htoken (hids.right hl.references))
  | .var _ hname, hids => .var hids.head (htoken hname)
  | .assign _ hname h, hids =>
    .assign (hids.right h.references).head (htoken hname) (h.renumber htoken (hids.left h.references))
  | .call hf hparen hargs, hids =>
    .call (hf.renumber htoken (hids.left hf.references)) (htoken hparen)
      (hargs.renumber htoken (hids.right hf.references))

theorem Expr.LikeAll.renumber (htoken : L'.Admits L) {es es' : List Expr} :
    Expr.LikeAll L es es' → L'.Pairs (Expr.referencesAll es) (Expr.referencesAll es') → Expr.LikeAll L' es es'
  | .nil, _ => .nil
  | .cons h hes, hids =>
    .cons (h.renumber htoken (hids.left h.references)) (hes.renumber htoken (hids.right h.references))

end

theorem Expr.Like?.renumber (htoken : L'.Admits L) {e e' : Option Expr} :
    Expr.Like? L e e' → L'.Pairs (Expr.references? e) (Expr.references? e') → Expr.Like? L' e e'
  | .none, _ => .none
  | .some h, hids => .some (h.renumber htoken hids)

theorem Likeness.Admits.parameters (htoken : L'.Admits L) {ps ps' : List Token} (h : List.Forall₂ L.token ps ps') :
    List.Forall₂ L'.token ps ps' := h.imp fun _ _ => htoken

mutual

theorem Stmt.Like.renumber (htoken : L'.Admits L) {s s' : Stmt} :
    Stmt.Like L s s' → L'.Pairs s.references s'.references → Stmt.Like L' s s'
  | .expression h, hids => .expression (h.renumber htoken hids)
  | .print h, hids => .print (h.renumber htoken hids)
  | .var hname h, hids => .var (htoken hname) (h.renumber htoken hids)
  | .block h, hids => .block (h.renumber htoken hids)
  | .branch hc hyes hno, hids => by
    have hbefore := List.rel_append hc.references hyes.references
    have hids' := hids.left hbefore
    exact .branch (hc.renumber htoken (hids'.left hc.references)) (hyes.renumber htoken (hids'.right hc.references))
      (hno.renumber htoken (hids.right hbefore))
  | .loop hc hbody, hids =>
    .loop (hc.renumber htoken (hids.left hc.references)) (hbody.renumber htoken (hids.right hc.references))
  | .function hname hparameters hbody, hids =>
    .function (htoken hname) (htoken.parameters hparameters) (hbody.renumber htoken hids)
  | .ret hkeyword h, hids => .ret (htoken hkeyword) (h.renumber htoken hids)

theorem Stmt.Like?.renumber (htoken : L'.Admits L) {s s' : Option Stmt} :
    Stmt.Like? L s s' → L'.Pairs (Stmt.references? s) (Stmt.references? s') → Stmt.Like? L' s s'
  | .none, _ => .none
  | .some h, hids => .some (h.renumber htoken hids)

theorem Stmt.LikeAll.renumber (htoken : L'.Admits L) {ss ss' : List Stmt} :
    Stmt.LikeAll L ss ss' → L'.Pairs (Stmt.referencesAll ss) (Stmt.referencesAll ss') → Stmt.LikeAll L' ss ss'
  | .nil, _ => .nil
  | .cons h hss, hids =>
    .cons (h.renumber htoken (hids.left h.references)) (hss.renumber htoken (hids.right h.references))

end

/-- Trees that are like are so by any likeness that admits more. -/
theorem Stmt.LikeAll.mono {ss ss' : List Stmt} (htoken : L'.Admits L) (hid : ∀ {a a' : ExprId}, L.id a a' → L'.id a a')
    (h : Stmt.LikeAll L ss ss') : Stmt.LikeAll L' ss ss' :=
  h.renumber htoken fun _ hq => hid (List.forall₂_zip h.references hq).id

end
end Lox
