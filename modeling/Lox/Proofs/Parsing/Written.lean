import Lox.Proofs.Numbers.Numerals
import Lox.Proofs.Parsing.Soundness
import Lox.Proofs.Parsing.WellFormed
import Lox.Proofs.Scanning.Writing
import Lox.Syntax.PrefixForm

/-! # Trees whose tokens were written

The operators and names in a tree that is parsed from a text are written in the way tokens of their kinds are
written there (`Stmt.Written`). Constants are not kept as tokens, but what the prefix form shows for one is again the
text of a token with its value, if it is no string and no number that is too great (`Kind.isLegible`). -/

namespace Lox

/-- Neither a string nor a number that is too great for a finite double. -/
def Kind.isLegible : Kind → Bool
  | .string _ => false
  | .number x => !x.isInf
  | .mark _ | .keyword _ | .identifier | .endOfInput => true

/-- A token of one of these kinds, with a text of its kind. -/
structure Token.Written (kinds : Kind → Prop) (t : Token) : Prop where
  kind : kinds t.kind
  spells : Scan.Spells t.kind t.lexeme.toList

/-- The prefix form of the constant is the text of a token for it. -/
def Literal.Written (v : Literal) : Prop :=
  ∃ kind : Kind, Grammar.Constant kind v ∧ kind.isLegible = true ∧ Scan.Spells kind v.prefixForm.toList

mutual

/-- The operators and names in the expression are of the kinds that stand there and have texts of these kinds. -/
def Expr.Written : Expr → Prop
  | .literal v => v.Written
  | .grouping e => e.Written
  | .unary operator r => operator.Written Kind.IsUnaryOperator ∧ r.Written
  | .binary l operator r => l.Written ∧ operator.Written Kind.IsBinaryOperator ∧ r.Written
  | .logical l operator r => l.Written ∧ operator.Written Kind.IsLogicalOperator ∧ r.Written
  | .var _ name => name.Written (· = .identifier)
  | .assign _ name v => name.Written (· = .identifier) ∧ v.Written
  | .call f paren args => f.Written ∧ paren.Written (· = .mark .rightParen) ∧ Expr.WrittenAll args

def Expr.WrittenAll : List Expr → Prop
  | [] => True
  | e :: es => e.Written ∧ Expr.WrittenAll es

end

def Expr.Written? (e : Option Expr) : Prop := ∀ x ∈ e, x.Written

mutual

/-- The operators and names in the statement are of the kinds that stand there and have texts of these kinds. -/
def Stmt.Written : Stmt → Prop
  | .expression e | .print e => e.Written
  | .var name init => name.Written (· = .identifier) ∧ Expr.Written? init
  | .block body => Stmt.WrittenAll body
  | .branch c yes no => c.Written ∧ yes.Written ∧ Stmt.Written? no
  | .loop c body => c.Written ∧ body.Written
  | .function name params body =>
    name.Written (· = .identifier) ∧ (∀ p ∈ params, p.Written (· = .identifier)) ∧ Stmt.WrittenAll body
  | .ret keyword value => keyword.Written (· = .keyword .return) ∧ Expr.Written? value

def Stmt.Written? : Option Stmt → Prop
  | none => True
  | some s => s.Written

def Stmt.WrittenAll : List Stmt → Prop
  | [] => True
  | s :: ss => s.Written ∧ Stmt.WrittenAll ss

end

/-! ### Identities have nothing to do with texts -/

mutual

theorem Expr.Written.of_unnumbered : ∀ {e : Expr}, e.unnumbered.Written → e.Written
  | .literal _, h | .var _ _, h => h
  | .grouping e, h => Expr.Written.of_unnumbered (e := e) h
  | .unary _ _, h | .assign _ _ _, h => ⟨h.1, Expr.Written.of_unnumbered h.2⟩
  | .binary _ _ _, h | .logical _ _ _, h => ⟨Expr.Written.of_unnumbered h.1, h.2.1, Expr.Written.of_unnumbered h.2.2⟩
  | .call _ _ _, h => ⟨Expr.Written.of_unnumbered h.1, h.2.1, Expr.WrittenAll.of_unnumbered h.2.2⟩

theorem Expr.WrittenAll.of_unnumbered : ∀ {es : List Expr}, Expr.WrittenAll (Expr.unnumberedAll es) → Expr.WrittenAll es
  | [], h => h
  | _ :: _, h => ⟨Expr.Written.of_unnumbered h.1, Expr.WrittenAll.of_unnumbered h.2⟩

end

theorem Expr.Written?.of_unnumbered {e : Option Expr} (h : Expr.Written? (e.map Expr.unnumbered)) : Expr.Written? e :=
  fun x hx => .of_unnumbered (h x.unnumbered (Option.mem_map_of_mem _ hx))

mutual

theorem Stmt.Written.of_unnumbered : ∀ {s : Stmt}, s.unnumbered.Written → s.Written
  | .expression _, h | .print _, h => Expr.Written.of_unnumbered h
  | .var _ _, h | .ret _ _, h => ⟨h.1, .of_unnumbered h.2⟩
  | .block _, h => Stmt.WrittenAll.of_unnumbered h
  | .branch _ _ _, h => ⟨.of_unnumbered h.1, Stmt.Written.of_unnumbered h.2.1, Stmt.Written?.of_unnumbered h.2.2⟩
  | .loop _ _, h => ⟨.of_unnumbered h.1, Stmt.Written.of_unnumbered h.2⟩
  | .function _ _ _, h => ⟨h.1, h.2.1, Stmt.WrittenAll.of_unnumbered h.2.2⟩

theorem Stmt.Written?.of_unnumbered : ∀ {s : Option Stmt}, Stmt.Written? (Stmt.unnumbered? s) → Stmt.Written? s
  | none, h => h
  | some _, h => Stmt.Written.of_unnumbered h

theorem Stmt.WrittenAll.of_unnumbered : ∀ {ss : List Stmt}, Stmt.WrittenAll (Stmt.unnumberedAll ss) → Stmt.WrittenAll ss
  | [], h => h
  | _ :: _, h => ⟨Stmt.Written.of_unnumbered h.1, Stmt.WrittenAll.of_unnumbered h.2⟩

end

namespace Grammar

/-- A token with a text of its kind that the prefix form can show. -/
structure Legible (t : Token) : Prop where
  spells : Scan.Spells t.kind t.lexeme.toList
  isLegible : t.kind.isLegible = true

theorem Legible.written {t : Token} {kinds : Kind → Prop} (h : Legible t) (hkind : kinds t.kind) :
    t.Written kinds := ⟨hkind, h.spells⟩

/-! ### Expressions -/

theorem Constant.written {t : Token} {v : Literal} (h : Constant t.kind v) (ht : Legible t) : v.Written := by
  refine ⟨t.kind, h, ht.isLegible, ?_⟩
  have hspells := ht.spells
  have hlegible := ht.isLegible
  generalize t.kind = kind at h hspells hlegible
  cases h with
  | number x =>
    have hinf : x.isInf = Bool.false := by simpa [Kind.isLegible] using hlegible
    exact Number.inPrefixForm_spells (hspells.isFinite hinf) hspells.isMagnitude
  | string s => cases hlegible
  | «true» | «false» | nil => exact .keyword _

theorem operators_binary : ∀ level ∈ [Level.equality, .comparison, .term, .factor], ∀ k ∈ operators level,
    ∃ m ∈ Mark.binary, k = .mark m := by
  decide

theorem joined_written {level : Level} {l r : Expr} {operator : Token} (hop : operator.kind ∈ operators level)
    (hoperator : Legible operator) (hl : l.Written) (hr : r.Written) : (joined level l operator r).Written := by
  cases level with
  | or => exact ⟨hl, hoperator.written (.inr (List.mem_singleton.mp hop)), hr⟩
  | and => exact ⟨hl, hoperator.written (.inl (List.mem_singleton.mp hop)), hr⟩
  | equality | comparison | term | factor =>
    exact ⟨hl, hoperator.written (operators_binary _ (by decide) _ hop), hr⟩

mutual

theorem Derives.written {category : Category} {ts : List Token} {e : Expr} :
    Derives category ts e → (∀ t ∈ ts, Legible t) → e.Written
  | .assign hname _ h, hts => ⟨(hts _ (by simp)).written hname, h.written fun t ht => hts t (by simp [ht])⟩
  | .chain h, hts | .operand h, hts | .called h, hts | .callee h, hts => h.written hts
  | .join hl hop hr, hts => joined_written hop (hts _ (by simp)) (hl.written fun t ht => hts t (by simp [ht]))
      (hr.written fun t ht => hts t (by simp [ht]))
  | .sign hop h, hts => ⟨(hts _ (by simp)).written hop, h.written fun t ht => hts t (by simp [ht])⟩
  | .call hf _ hargs hclosing, hts => ⟨hf.written fun t ht => hts t (by simp [ht]), (hts _ (by simp)).written hclosing,
      hargs.written fun t ht => hts t (by simp [ht])⟩
  | .constant h, hts => h.written (hts _ (by simp))
  | .variable h, hts => (hts _ (by simp)).written h
  | .grouping _ h _, hts => h.written fun t ht => hts t (by simp [ht])

theorem Arguments.written {ts : List Token} {es : List Expr} :
    Arguments ts es → (∀ t ∈ ts, Legible t) → Expr.WrittenAll es
  | .none, _ => trivial
  | .some h, hts => h.written hts

theorem ArgumentList.written {ts : List Token} {es : List Expr} :
    ArgumentList ts es → (∀ t ∈ ts, Legible t) → Expr.WrittenAll es
  | .last h, hts => ⟨h.written hts, trivial⟩
  | .more h _ hes, hts => ⟨h.written fun t ht => hts t (by simp [ht]), hes.written fun t ht => hts t (by simp [ht])⟩

end

theorem Maybe.written {ts : List Token} {e : Option Expr} (h : Maybe ts e) (hts : ∀ t ∈ ts, Legible t) :
    Expr.Written? e := by
  cases h with
  | none => nofun
  | some h =>
    rintro _ ⟨⟩
    exact h.written hts

/-! ### Statements -/

theorem ExpressionStatement.written {ts : List Token} {s : Stmt} (h : ExpressionStatement ts s)
    (hts : ∀ t ∈ ts, Legible t) : s.Written := by
  cases h with
  | mk h hsemicolon => exact h.written fun t ht => hts t (by simp [ht])

theorem VarDeclaration.written {ts : List Token} {s : Stmt} (h : VarDeclaration ts s) (hts : ∀ t ∈ ts, Legible t) :
    s.Written := by
  cases h with
  | plain hkeyword hname => exact ⟨(hts _ (by simp)).written hname, nofun⟩
  | initialized hkeyword hname hequals h =>
    refine ⟨(hts _ (by simp)).written hname, ?_⟩
    rintro _ ⟨⟩
    exact h.written fun t ht => hts t (by simp [ht])

theorem ForInitializer.written {ts : List Token} {s : Option Stmt} (h : ForInitializer ts s)
    (hts : ∀ t ∈ ts, Legible t) :
    Stmt.Written? s := by
  cases h with
  | none => trivial
  | var h => exact h.written hts
  | expression h => exact h.written hts

theorem forLoop_written {init : Option Stmt} {condition increment : Option Expr} {body : Stmt}
    (hinit : Stmt.Written? init)
    (hcondition : Expr.Written? condition) (hincrement : Expr.Written? increment) (hbody : body.Written) :
    (forLoop init condition increment body).Written := by
  have htrue : (Literal.bool Bool.true).Written := ⟨_, .true, rfl, .keyword .true⟩
  have hloop : ∀ inner : Stmt, inner.Written → (forLoop none condition none inner).Written := fun inner hinner => by
    cases condition with
    | none => exact ⟨htrue, hinner⟩
    | some e => exact ⟨hcondition e rfl, hinner⟩
  cases increment with
  | none => cases init with
    | none => exact hloop _ hbody
    | some s => exact ⟨hinit, hloop _ hbody, trivial⟩
  | some e =>
    have hround : (Stmt.block [body, .expression e]).Written := ⟨hbody, hincrement e rfl, trivial⟩
    cases init with
    | none => exact hloop _ hround
    | some s => exact ⟨hinit, hloop _ hround, trivial⟩

theorem ParameterList.written {ts : List Token} {ps : List Token} (h : ParameterList ts ps)
    (hts : ∀ t ∈ ts, Legible t) :
    ∀ p ∈ ps, p.Written (· = .identifier) := by
  induction h with
  | last hp => exact List.forall_mem_singleton.mpr ((hts _ (by simp)).written hp)
  | more hp hcomma hps ih =>
    exact List.forall_mem_cons.mpr ⟨(hts _ (by simp)).written hp, ih fun t ht => hts t (by simp [ht])⟩

theorem Parameters.written {ts : List Token} {ps : List Token} (h : Parameters ts ps) (hts : ∀ t ∈ ts, Legible t) :
    ∀ p ∈ ps, p.Written (· = .identifier) := by
  cases h with
  | none => nofun
  | some h => exact h.written hts

mutual

theorem Statement.written {nearest dangling : Bool} {ts : List Token} {s : Stmt} :
    Statement nearest dangling ts s → (∀ t ∈ ts, Legible t) → s.Written
  | .expression h, hts => h.written hts
  | .forLoop _ _ hinit hcondition _ hincrement _ hbody, hts =>
    forLoop_written (hinit.written fun t ht => hts t (by simp [ht]))
      (hcondition.written fun t ht => hts t (by simp [ht]))
      (hincrement.written fun t ht => hts t (by simp [ht])) (hbody.written fun t ht => hts t (by simp [ht]))
  | .ifOnly _ _ hcondition _ hyes, hts =>
    ⟨hcondition.written fun t ht => hts t (by simp [ht]), hyes.written fun t ht => hts t (by simp [ht]), trivial⟩
  | .ifElse _ _ hcondition _ hyes _ _ hno, hts =>
    ⟨hcondition.written fun t ht => hts t (by simp [ht]), hyes.written fun t ht => hts t (by simp [ht]),
      hno.written fun t ht => hts t (by simp [ht])⟩
  | .print _ h _, hts => h.written fun t ht => hts t (by simp [ht])
  | .ret hkeyword h _, hts => ⟨(hts _ (by simp)).written hkeyword, h.written fun t ht => hts t (by simp [ht])⟩
  | .whileLoop _ _ hcondition _ hbody, hts =>
    ⟨hcondition.written fun t ht => hts t (by simp [ht]), hbody.written fun t ht => hts t (by simp [ht])⟩
  | .block _ hbody _, hts => hbody.written fun t ht => hts t (by simp [ht])

theorem Declaration.written {nearest : Bool} {ts : List Token} {s : Stmt} :
    Declaration nearest ts s → (∀ t ∈ ts, Legible t) → s.Written
  | .function _ hname _ hparams _ _ hbody _, hts => ⟨(hts _ (by simp)).written hname,
      hparams.written fun t ht => hts t (by simp [ht]), hbody.written fun t ht => hts t (by simp [ht])⟩
  | .var h, hts => h.written hts
  | .statement h, hts => h.written hts

theorem Declarations.written {nearest : Bool} {ts : List Token} {ss : List Stmt} :
    Declarations nearest ts ss → (∀ t ∈ ts, Legible t) → Stmt.WrittenAll ss
  | .nil, _ => trivial
  | .cons h hss, hts =>
    ⟨h.written fun t ht => hts t (List.mem_append_left _ ht),
      hss.written fun t ht => hts t (List.mem_append_right _ ht)⟩

end

end Grammar

/-- What is parsed without an error from legible tokens is written. -/
theorem Parse.parse_written {tokens : List Token} {nextId : ExprId} (h : (parse tokens nextId).errors = [])
    (htokens : ∀ t ∈ body tokens, Grammar.Legible t) : Stmt.WrittenAll (parse tokens nextId).statements :=
  .of_unnumbered ((parse_sound h).1.written htokens)

end Lox
