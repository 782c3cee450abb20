import Lox.Proofs.Lines
import Lox.Proofs.Parsing.Written
import Lox.Proofs.PrefixForms.Parts
import Lox.Session

/-! # The prefix form is unambiguous

An expression that is no constant and no variable has parts in its prefix form, and so has every statement. The parts
can be read off the text, and the first of them, with the number of the others, tells what the tree is: it is never a
name, but a word that belongs to the tree or an operator (`Expr.Written.agree`, `Stmt.Written.agree`). By recursion over
one of two trees with the same prefix form they are the same but for identities and the lines of tokens
(`Stmt.Written.like`), if what they are made of was written in a text (`Source.prefixForms_injective`). -/

namespace Lox

/-! ### Tokens -/

namespace Token.Written
variable {kinds kinds' : Kind → Prop} {t t' : Token}

theorem isPart_name (h : t.Written (· = .identifier)) : IsPart t.lexeme := h.spells.isPart (h.kind ▸ trivial)

/-- Tokens with the same text are of the same kind. -/
theorem lines_of_lexeme (h : t.Written kinds) (h' : t'.Written kinds') (hlexeme : t.lexeme = t'.lexeme) :
    Likeness.lines.token t t' := by
  have hspells := h.spells
  rw [hlexeme] at hspells
  have hkind := h'.spells.kind_unique hspells
  cases t
  cases t'
  cases hlexeme
  cases hkind
  rfl

theorem lexeme_mark {m : Mark} (h : t.Written kinds) (hkind : t.kind = .mark m) : t.lexeme = m.spelling := by
  have hspells := h.spells
  rw [hkind] at hspells
  generalize htext : t.lexeme.toList = text at hspells
  cases hspells
  exact String.toList_inj.mp htext

theorem lexeme_keyword {k : Keyword} (h : t.Written kinds) (hkind : t.kind = .keyword k) : t.lexeme = k.spelling := by
  have hspells := h.spells
  rw [hkind] at hspells
  generalize htext : t.lexeme.toList = text at hspells
  cases hspells
  exact String.toList_inj.mp htext

end Token.Written

/-! ### Expressions -/

namespace Expr

/-- What an expression is, as far as its parts tell. -/
inductive Form where
  | atom | grouping | unary | binary | logical | assign | call
deriving DecidableEq

/-- The form of the expressions with this first part and so many others. -/
def Form.ofHead (head : String) (others : Nat) : Form :=
  if head = "group" then .grouping
  else if head = "=" then .assign
  else if head = "call" then .call
  else if head = "and" ∨ head = "or" then .logical
  else if others = 1 then .unary
  else .binary

def Form.ofParts : List String → Form
  | [] => .atom
  | head :: others => .ofHead head others.length

def form : Expr → Form
  | .literal _ | .var _ _ => .atom
  | .grouping _ => .grouping
  | .unary _ _ => .unary
  | .binary _ _ _ => .binary
  | .logical _ _ _ => .logical
  | .assign _ _ _ => .assign
  | .call _ _ _ => .call

/-- What the prefix form has in parentheses. -/
def parts : Expr → List String
  | .literal _ | .var _ _ => []
  | .grouping e => ["group", e.prefixForm]
  | .unary operator r => [operator.lexeme, r.prefixForm]
  | .binary l operator r | .logical l operator r => [operator.lexeme, l.prefixForm, r.prefixForm]
  | .assign _ name v => ["=", name.lexeme, v.prefixForm]
  | .call f _ args => "call" :: f.prefixForm :: prefixForms args

theorem form_eq {e : Expr} (h : e.Written) : e.form = .ofParts e.parts := by
  cases e with
  | literal | grouping | var | assign | call => rfl
  | unary operator r =>
    show Form.unary = .ofHead operator.lexeme 1
    rcases h.1.kind with hkind | hkind <;> rw [h.1.lexeme_mark hkind] <;> rfl
  | binary l operator r =>
    obtain ⟨m, hm, hkind⟩ := h.2.1.kind
    show Form.binary = .ofHead operator.lexeme 2
    rw [h.2.1.lexeme_mark hkind]
    exact (by decide : ∀ m ∈ Mark.binary, Form.binary = .ofHead m.spelling 2) m hm
  | logical l operator r =>
    show Form.logical = .ofHead operator.lexeme 2
    rcases h.2.1.kind with hkind | hkind <;> rw [h.2.1.lexeme_keyword hkind] <;> rfl

end Expr

/-- The expression is a constant or a variable that a token of this kind stands for. -/
inductive Expr.Atom (kind : Kind) : Expr → Prop
  | literal {v : Literal} (h : Grammar.Constant kind v) : Atom kind (.literal v)
  | var {id : ExprId} {name : Token} (hname : name.Written (· = .identifier)) (h : kind = .identifier) :
    Atom kind (.var id name)

theorem Expr.Written.atom {e : Expr} (h : e.Written) (hform : e.form = .atom) :
    ∃ kind : Kind, kind.IsWord ∧ Scan.Spells kind e.prefixForm.toList ∧ e.Atom kind := by
  cases e with
  | literal v =>
    obtain ⟨kind, hconstant, hlegible, hspells⟩ := h
    refine ⟨kind, ?_, hspells, .literal hconstant⟩
    cases hconstant with
    | string s => cases hlegible
    | number | «true» | «false» | nil => trivial
  | var id name => exact ⟨.identifier, trivial, h.kind ▸ h.spells, .var h rfl⟩
  | grouping | unary | binary | logical | assign | call => cases hform

/-- Atoms with the same text are of the same kind. -/
theorem Expr.Atom.like {kind : Kind} {e e' : Expr} (h : e.Atom kind) (h' : e'.Atom kind)
    (heq : e.prefixForm = e'.prefixForm) : Expr.Like Likeness.lines.unnumbered e e' := by
  cases h with
  | literal h => cases h' with
    | literal h' =>
      cases h <;> cases h' <;> exact .literal _
    | var hname' hkind =>
      subst hkind
      cases h
  | var hname hkind => cases h' with
    | literal h' =>
      subst hkind
      cases h'
    | var hname' _ => exact .var trivial (hname.lines_of_lexeme hname' heq)

/-- An expression is a part when its own parts are. -/
theorem Expr.Written.isPart_of_parts {e : Expr} (h : e.Written) (hparts : ∀ p ∈ e.parts, IsPart p) :
    IsPart e.prefixForm := by
  cases e with
  | literal | var =>
    obtain ⟨kind, hword, hspells, -⟩ := h.atom rfl
    exact hspells.isPart hword
  | grouping | unary | binary | logical | assign | call => exact isPart_parenthesized hparts

mutual

theorem Expr.Written.isPart_parts : ∀ {e : Expr}, e.Written → ∀ p ∈ e.parts, IsPart p
  | .literal _, _ | .var _ _, _ => nofun
  | .grouping e, h => by
    have he : e.Written := h
    simp only [Expr.parts, List.forall_mem_cons]
    exact ⟨isPart_word (by decide) (by simp [IsWordChar]), he.isPart_of_parts he.isPart_parts, nofun⟩
  | .unary _ _, ⟨hop, hr⟩ => by
    simp only [Expr.parts, List.forall_mem_cons]
    exact ⟨hop.spells.isPart hop.kind.isWord, hr.isPart_of_parts hr.isPart_parts, nofun⟩
  | .binary _ _ _, ⟨hl, hop, hr⟩ => by
    simp only [Expr.parts, List.forall_mem_cons]
    exact ⟨hop.spells.isPart hop.kind.isWord, hl.isPart_of_parts hl.isPart_parts,
      hr.isPart_of_parts hr.isPart_parts, nofun⟩
  | .logical _ _ _, ⟨hl, hop, hr⟩ => by
    simp only [Expr.parts, List.forall_mem_cons]
    exact ⟨hop.spells.isPart hop.kind.isWord, hl.isPart_of_parts hl.isPart_parts,
      hr.isPart_of_parts hr.isPart_parts, nofun⟩
  | .assign _ _ _, ⟨hname, hv⟩ => by
    simp only [Expr.parts, List.forall_mem_cons]
    exact ⟨isPart_word (by decide) (by simp [IsWordChar]), hname.isPart_name,
      hv.isPart_of_parts hv.isPart_parts, nofun⟩
  | .call _ _ _, ⟨hf, _, hargs⟩ => by
    simp only [Expr.parts, List.forall_mem_cons]
    exact ⟨isPart_word (by decide) (by simp [IsWordChar]), hf.isPart_of_parts hf.isPart_parts, hargs.isPart⟩

theorem Expr.WrittenAll.isPart : ∀ {es : List Expr}, Expr.WrittenAll es → ∀ p ∈ Expr.prefixForms es, IsPart p
  | [], _ => nofun
  | _ :: _, ⟨h, hes⟩ => List.forall_mem_cons.mpr ⟨h.isPart_of_parts h.isPart_parts, hes.isPart⟩

end

theorem Expr.Written.isPart {e : Expr} (h : e.Written) : IsPart e.prefixForm := h.isPart_of_parts h.isPart_parts

/-- The prefix form of an expression tells its parts. -/
theorem Expr.Written.partsOf_prefixForm {e : Expr} (h : e.Written) :
    partsOf e.prefixForm.toList = e.parts.map String.toList := by
  cases e with
  | literal | var =>
    obtain ⟨kind, hword, hspells, -⟩ := h.atom rfl
    exact partsOf_word (hspells.isWordChar hword)
  | grouping | unary | binary | logical | assign | call => exact partsOf_parenthesized h.isPart_parts

/-- Expressions with the same prefix form have the same parts, and these tell what they are. -/
theorem Expr.Written.agree {e e' : Expr} (h : e.Written) (h' : e'.Written) (heq : e.prefixForm = e'.prefixForm) :
    e.form = e'.form ∧ e.parts = e'.parts := by
  have hparts : e.parts = e'.parts := by
    refine map_toList_injective ?_
    rw [← h.partsOf_prefixForm, heq, h'.partsOf_prefixForm]
  exact ⟨by rw [Expr.form_eq h, hparts, Expr.form_eq h'], hparts⟩

theorem Expr.Written.like_of_atom {e e' : Expr} (h : e.Written) (h' : e'.Written) (hatom : e.form = .atom)
    (heq : e.prefixForm = e'.prefixForm) : Expr.Like Likeness.lines.unnumbered e e' := by
  obtain ⟨kind, -, hspells, he⟩ := h.atom hatom
  obtain ⟨kind', -, hspells', he'⟩ := h'.atom ((h.agree h' heq).1.symm.trans hatom)
  rw [heq] at hspells
  obtain rfl := hspells'.kind_unique hspells
  exact he.like he' heq

mutual

/-- Expressions with the same prefix form are the same but for identities and lines. -/
theorem Expr.Written.like : ∀ {e e' : Expr}, e.Written → e'.Written → e.prefixForm = e'.prefixForm →
    Expr.Like Likeness.lines.unnumbered e e'
  | .literal _, _, h, h', heq | .var _ _, _, h, h', heq => h.like_of_atom h' rfl heq
  -- The forms leave one case for the other tree, and the parts are then compared one by one.
  | .grouping e, e', h, h', heq => by
    obtain ⟨hform, hparts⟩ := Expr.Written.agree h h' heq
    cases e' with
    | grouping e' =>
      simp only [Expr.parts, List.cons.injEq, and_true, true_and] at hparts
      exact .grouping (Expr.Written.like (e := e) h h' hparts)
    | literal | unary | binary | logical | var | assign | call => cases hform
  | .unary _ _, e', h, h', heq => by
    obtain ⟨hform, hparts⟩ := Expr.Written.agree h h' heq
    cases e' with
    | unary operator' r' =>
      simp only [Expr.parts, List.cons.injEq, and_true] at hparts
      exact .unary (h.1.lines_of_lexeme h'.1 hparts.1) (Expr.Written.like h.2 h'.2 hparts.2)
    | literal | grouping | binary | logical | var | assign | call => cases hform
  | .binary _ _ _, e', h, h', heq => by
    obtain ⟨hform, hparts⟩ := Expr.Written.agree h h' heq
    cases e' with
    | binary l' operator' r' =>
      simp only [Expr.parts, List.cons.injEq, and_true] at hparts
      exact .binary (Expr.Written.like h.1 h'.1 hparts.2.1) (h.2.1.lines_of_lexeme h'.2.1 hparts.1)
        (Expr.Written.like h.2.2 h'.2.2 hparts.2.2)
    | literal | grouping | unary | logical | var | assign | call => cases hform
  | .logical _ _ _, e', h, h', heq => by
    obtain ⟨hform, hparts⟩ := Expr.Written.agree h h' heq
    cases e' with
    | logical l' operator' r' =>
      simp only [Expr.parts, List.cons.injEq, and_true] at hparts
      exact .logical (Expr.Written.like h.1 h'.1 hparts.2.1) (h.2.1.lines_of_lexeme h'.2.1 hparts.1)
        (Expr.Written.like h.2.2 h'.2.2 hparts.2.2)
    | literal | grouping | unary | binary | var | assign | call => cases hform
  | .assign _ _ _, e', h, h', heq => by
    obtain ⟨hform, hparts⟩ := Expr.Written.agree h h' heq
    cases e' with
    | assign id' name' v' =>
      simp only [Expr.parts, List.cons.injEq, and_true, true_and] at hparts
      exact .assign trivial (h.1.lines_of_lexeme h'.1 hparts.1) (Expr.Written.like h.2 h'.2 hparts.2)
    | literal | grouping | unary | binary | logical | var | call => cases hform
  | .call _ _ _, e', h, h', heq => by
    obtain ⟨hform, hparts⟩ := Expr.Written.agree h h' heq
    cases e' with
    | call f' paren' args' =>
      simp only [Expr.parts, List.cons.injEq, true_and] at hparts
      have hparen := (h.2.1.lexeme_mark h.2.1.kind).trans (h'.2.1.lexeme_mark h'.2.1.kind).symm
      exact .call (Expr.Written.like h.1 h'.1 hparts.1) (h.2.1.lines_of_lexeme h'.2.1 hparen)
        (Expr.WrittenAll.like h.2.2 h'.2.2 hparts.2)
    | literal | grouping | unary | binary | logical | var | assign => cases hform

theorem Expr.WrittenAll.like : ∀ {es es' : List Expr}, Expr.WrittenAll es → Expr.WrittenAll es' →
    Expr.prefixForms es = Expr.prefixForms es' → Expr.LikeAll Likeness.lines.unnumbered es es'
  | [], [], _, _, _ => .nil
  | [], _ :: _, _, _, heq | _ :: _, [], _, _, heq => by cases heq
  | _ :: _, _ :: _, h, h', heq =>
    .cons (Expr.Written.like h.1 h'.1 (List.cons.inj heq).1) (Expr.WrittenAll.like h.2 h'.2 (List.cons.inj heq).2)

end

theorem Expr.Written?.like {e e' : Option Expr} (h : Expr.Written? e) (h' : Expr.Written? e')
    (heq : (e.map Expr.prefixForm).toList = (e'.map Expr.prefixForm).toList) :
    Expr.Like? Likeness.lines.unnumbered e e' := by
  cases e with
  | none => cases e' with
    | none => exact .none
    | some e' => cases heq
  | some e => cases e' with
    | none => cases heq
    | some e' => exact .some (Expr.Written.like (h e rfl) (h' e' rfl) (List.cons.inj heq).1)

/-! ### Statements -/

namespace Stmt

/-- What a statement is, as its first part tells. -/
inductive Form where
  | expression | print | var | block | branch | loop | function | ret
deriving DecidableEq

/-- The form of the statements with this first part. -/
def Form.ofHead (head : String) : Form :=
  if head = ";" then .expression
  else if head = "print" then .print
  else if head = "var" then .var
  else if head = "block" then .block
  else if head = "if" ∨ head = "if-else" then .branch
  else if head = "while" then .loop
  else if head = "fun" then .function
  else .ret

def form : Stmt → Form
  | .expression _ => .expression
  | .print _ => .print
  | .var _ _ => .var
  | .block _ => .block
  | .branch _ _ _ => .branch
  | .loop _ _ => .loop
  | .function _ _ _ => .function
  | .ret _ _ => .ret

/-- The first part of what the prefix form has in parentheses. -/
def head : Stmt → String
  | .expression _ => ";"
  | .print _ => "print"
  | .var _ _ => "var"
  | .block _ => "block"
  | .branch _ _ none => "if"
  | .branch _ _ (some _) => "if-else"
  | .loop _ _ => "while"
  | .function _ _ _ => "fun"
  | .ret _ _ => "return"

/-- The other parts. The name of a function makes one with its parameters. -/
def others : Stmt → List String
  | .expression e | .print e => [e.prefixForm]
  | .var name init => name.lexeme :: (init.map Expr.prefixForm).toList
  | .block body => prefixForms body
  | .branch c yes none => [c.prefixForm, yes.prefixForm]
  | .branch c yes (some no) => [c.prefixForm, yes.prefixForm, no.prefixForm]
  | .loop c body => [c.prefixForm, body.prefixForm]
  | .function name params body => (name.lexeme ++ parenthesized (params.map (·.lexeme))) :: prefixForms body
  | .ret _ value => (value.map Expr.prefixForm).toList

theorem form_eq (s : Stmt) : s.form = .ofHead s.head := by
  cases s with
  | branch c yes no => cases no <;> rfl
  | expression | print | var | block | loop | function | ret => rfl

theorem isPart_head (s : Stmt) : IsPart s.head := by
  cases s with
  | branch c yes no => cases no <;> exact isPart_word (by simp [head]) (by simp [IsWordChar, head])
  | expression | print | var | block | loop | function | ret =>
    exact isPart_word (by simp [head]) (by simp [IsWordChar, head])

theorem prefixForm_eq (s : Stmt) : s.prefixForm = parenthesized (s.head :: s.others) := by
  cases s with
  | var name init => cases init <;> rfl
  | branch c yes no => cases no <;> rfl
  | ret keyword value =>
    cases value with
    | none => exact (by decide : "(return)" = parenthesized ["return"])
    | some e => rfl
  | function name params body =>
    rw [← String.toList_inj, prefixForm, head, others, toList_parenthesized, toList_parenthesized]
    simp
  | expression | print | block | loop => rfl

/-- A statement is a part when its own parts are. -/
theorem isPart_of_others {s : Stmt} (h : ∀ p ∈ s.others, IsPart p) : IsPart s.prefixForm := by
  rw [prefixForm_eq]
  exact isPart_parenthesized (List.forall_mem_cons.mpr ⟨s.isPart_head, h⟩)

end Stmt

theorem isPart_option {e : Option Expr} (h : Expr.Written? e) : ∀ p ∈ (e.map Expr.prefixForm).toList, IsPart p := by
  cases e with
  | none => nofun
  | some e => exact List.forall_mem_singleton.mpr (h e rfl).isPart

theorem isPart_parameters {ps : List Token} (h : ∀ p ∈ ps, p.Written (· = .identifier)) :
    ∀ p ∈ ps.map (·.lexeme), IsPart p :=
  List.forall_mem_map.mpr fun p hp => (h p hp).isPart_name

mutual

theorem Stmt.Written.isPart_others : ∀ {s : Stmt}, s.Written → ∀ p ∈ s.others, IsPart p
  | .expression _, h | .print _, h => List.forall_mem_singleton.mpr (Expr.Written.isPart h)
  | .var _ _, ⟨hname, hinit⟩ =>
    List.forall_mem_cons.mpr ⟨hname.isPart_name, isPart_option hinit⟩
  | .block _, h => Stmt.WrittenAll.isPart h
  | .branch _ _ none, ⟨hc, hyes, _⟩ => by
    simp only [Stmt.others, List.forall_mem_cons]
    exact ⟨hc.isPart, Stmt.isPart_of_others hyes.isPart_others, nofun⟩
  | .branch _ _ (some no), ⟨hc, hyes, hno⟩ => by
    have hno : no.Written := hno
    simp only [Stmt.others, List.forall_mem_cons]
    exact ⟨hc.isPart, Stmt.isPart_of_others hyes.isPart_others, Stmt.isPart_of_others hno.isPart_others, nofun⟩
  | .loop _ _, ⟨hc, hbody⟩ => by
    simp only [Stmt.others, List.forall_mem_cons]
    exact ⟨hc.isPart, Stmt.isPart_of_others hbody.isPart_others, nofun⟩
  | .function _ _ _, ⟨hname, hparams, hbody⟩ => List.forall_mem_cons.mpr
      ⟨hname.isPart_name.append (isPart_parenthesized (isPart_parameters hparams)), hbody.isPart⟩
  | .ret _ _, h => isPart_option h.2

theorem Stmt.WrittenAll.isPart : ∀ {ss : List Stmt}, Stmt.WrittenAll ss → ∀ p ∈ Stmt.prefixForms ss, IsPart p
  | [], _ => nofun
  | _ :: _, ⟨h, hss⟩ => List.forall_mem_cons.mpr ⟨Stmt.isPart_of_others h.isPart_others, hss.isPart⟩

end

theorem Stmt.Written.isPart {s : Stmt} (h : s.Written) : IsPart s.prefixForm := Stmt.isPart_of_others h.isPart_others

/-- Statements with the same prefix form have the same parts, and the first of these tells what they are. -/
theorem Stmt.Written.agree {s s' : Stmt} (h : s.Written) (h' : s'.Written) (heq : s.prefixForm = s'.prefixForm) :
    s.form = s'.form ∧ s.head = s'.head ∧ s.others = s'.others := by
  have hparts : ∀ {s : Stmt}, s.Written → partsOf s.prefixForm.toList = (s.head :: s.others).map String.toList :=
    fun {s} h => by
      rw [Stmt.prefixForm_eq]
      exact partsOf_parenthesized (List.forall_mem_cons.mpr ⟨s.isPart_head, h.isPart_others⟩)
  have hmap := hparts h
  rw [heq, hparts h'] at hmap
  obtain ⟨hhead, hothers⟩ := List.cons.inj (map_toList_injective hmap.symm)
  exact ⟨by rw [s.form_eq, s'.form_eq, hhead], hhead, hothers⟩

theorem parameters_like : ∀ {ps ps' : List Token}, (∀ p ∈ ps, p.Written (· = .identifier)) →
    (∀ p ∈ ps', p.Written (· = .identifier)) → ps.map (·.lexeme) = ps'.map (·.lexeme) →
      List.Forall₂ Likeness.lines.token ps ps'
  | [], [], _, _, _ => .nil
  | [], _ :: _, _, _, heq | _ :: _, [], _, _, heq => by cases heq
  | p :: ps, p' :: ps', h, h', heq => by
    obtain ⟨hp, hps⟩ := List.forall_mem_cons.mp h
    obtain ⟨hp', hps'⟩ := List.forall_mem_cons.mp h'
    exact .cons (hp.lines_of_lexeme hp' (List.cons.inj heq).1) (parameters_like hps hps' (List.cons.inj heq).2)

/-- The name of a function ends where its parameters begin. -/
theorem function_like {name name' : Token} {ps ps' : List Token} (hname : name.Written (· = .identifier))
    (hname' : name'.Written (· = .identifier)) (hps : ∀ p ∈ ps, p.Written (· = .identifier))
    (hps' : ∀ p ∈ ps', p.Written (· = .identifier))
    (heq : name.lexeme ++ parenthesized (ps.map (·.lexeme)) = name'.lexeme ++ parenthesized (ps'.map (·.lexeme))) :
    Likeness.lines.token name name' ∧ List.Forall₂ Likeness.lines.token ps ps' := by
  have hopening : ∀ {name : Token}, name.Written (· = .identifier) → ∀ c ∈ name.lexeme.toList, (c != '(') = true :=
    fun hname c hc => bne_iff_ne.mpr (hname.spells.isWordChar (hname.kind ▸ trivial) c hc).2.1
  have hbehind : ∀ ps : List String, ∀ c ∈ (parenthesized ps).toList.head?, (c != '(') = false := fun ps c hc => by
    rw [toList_parenthesized] at hc
    cases hc
    rfl
  have htexts := congrArg String.toList heq
  rw [String.toList_append, String.toList_append] at htexts
  obtain ⟨hlexeme, hlists⟩ := Scan.run_unique htexts (hopening hname) (hopening hname') (hbehind _) (hbehind _)
  have hmap := congrArg partsOf hlists
  rw [partsOf_parenthesized (isPart_parameters hps), partsOf_parenthesized (isPart_parameters hps')] at hmap
  exact ⟨hname.lines_of_lexeme hname' (String.toList_inj.mp hlexeme),
    parameters_like hps hps' (map_toList_injective hmap)⟩

mutual

/-- Statements with the same prefix form are the same but for identities and lines. -/
theorem Stmt.Written.like : ∀ {s s' : Stmt}, s.Written → s'.Written → s.prefixForm = s'.prefixForm →
    Stmt.Like Likeness.lines.unnumbered s s'
  | .expression _, s', h, h', heq => by
    obtain ⟨hform, -, hothers⟩ := Stmt.Written.agree h h' heq
    cases s' with
    | expression e' => exact .expression (Expr.Written.like h h' (List.cons.inj hothers).1)
    | print | var | block | branch | loop | function | ret => cases hform
  | .print _, s', h, h', heq => by
    obtain ⟨hform, -, hothers⟩ := Stmt.Written.agree h h' heq
    cases s' with
    | print e' => exact .print (Expr.Written.like h h' (List.cons.inj hothers).1)
    | expression | var | block | branch | loop | function | ret => cases hform
  | .var _ _, s', h, h', heq => by
    obtain ⟨hform, -, hothers⟩ := Stmt.Written.agree h h' heq
    cases s' with
    | var name' init' =>
      exact .var (h.1.lines_of_lexeme h'.1 (List.cons.inj hothers).1) (h.2.like h'.2 (List.cons.inj hothers).2)
    | expression | print | block | branch | loop | function | ret => cases hform
  | .block _, s', h, h', heq => by
    obtain ⟨hform, -, hothers⟩ := Stmt.Written.agree h h' heq
    cases s' with
    | block body' => exact .block (Stmt.WrittenAll.like h h' hothers)
    | expression | print | var | branch | loop | function | ret => cases hform
  | .branch _ _ none, s', h, h', heq => by
    obtain ⟨hform, hhead, hothers⟩ := Stmt.Written.agree h h' heq
    cases s' with
    | branch c' yes' no' =>
      cases no' with
      | some no' => exact absurd (show "if" = "if-else" from hhead) (by decide)
      | none =>
        simp only [Stmt.others, List.cons.injEq, and_true] at hothers
        exact .branch (h.1.like h'.1 hothers.1) (Stmt.Written.like h.2.1 h'.2.1 hothers.2) .none
    | expression | print | var | block | loop | function | ret => cases hform
  | .branch _ _ (some no), s', h, h', heq => by
    obtain ⟨hform, hhead, hothers⟩ := Stmt.Written.agree h h' heq
    cases s' with
    | branch c' yes' no' =>
      cases no' with
      | none => exact absurd (show "if-else" = "if" from hhead) (by decide)
      | some no' =>
        simp only [Stmt.others, List.cons.injEq, and_true] at hothers
        exact .branch (h.1.like h'.1 hothers.1) (Stmt.Written.like h.2.1 h'.2.1 hothers.2.1)
          (.some (Stmt.Written.like (s := no) h.2.2 h'.2.2 hothers.2.2))
    | expression | print | var | block | loop | function | ret => cases hform
  | .loop _ _, s', h, h', heq => by
    obtain ⟨hform, -, hothers⟩ := Stmt.Written.agree h h' heq
    cases s' with
    | loop c' body' =>
      simp only [Stmt.others, List.cons.injEq, and_true] at hothers
      exact .loop (h.1.like h'.1 hothers.1) (Stmt.Written.like h.2 h'.2 hothers.2)
    | expression | print | var | block | branch | function | ret => cases hform
  | .function _ _ _, s', h, h', heq => by
    obtain ⟨hform, -, hothers⟩ := Stmt.Written.agree h h' heq
    cases s' with
    | function name' params' body' =>
      obtain ⟨hname, hparams⟩ := function_like h.1 h'.1 h.2.1 h'.2.1 (List.cons.inj hothers).1
      exact .function hname hparams (Stmt.WrittenAll.like h.2.2 h'.2.2 (List.cons.inj hothers).2)
    | expression | print | var | block | branch | loop | ret => cases hform
  | .ret _ _, s', h, h', heq => by
    obtain ⟨hform, -, hothers⟩ := Stmt.Written.agree h h' heq
    cases s' with
    | ret keyword' value' =>
      have hkeyword := (h.1.lexeme_keyword h.1.kind).trans (h'.1.lexeme_keyword h'.1.kind).symm
      exact .ret (h.1.lines_of_lexeme h'.1 hkeyword) (h.2.like h'.2 hothers)
    | expression | print | var | block | branch | loop | function => cases hform

theorem Stmt.WrittenAll.like : ∀ {ss ss' : List Stmt}, Stmt.WrittenAll ss → Stmt.WrittenAll ss' →
    Stmt.prefixForms ss = Stmt.prefixForms ss' → Stmt.LikeAll Likeness.lines.unnumbered ss ss'
  | [], [], _, _, _ => .nil
  | [], _ :: _, _, _, heq | _ :: _, [], _, _, heq => by cases heq
  | _ :: _, _ :: _, h, h', heq =>
    .cons (Stmt.Written.like h.1 h'.1 (List.cons.inj heq).1) (Stmt.WrittenAll.like h.2 h'.2 (List.cons.inj heq).2)

end

/-! ### Sources -/

namespace Source

/-- The source is scanned and parsed without an error, and in it are no string and no number that is too great for a
    finite double. -/
structure Legible (s : Source) : Prop where
  clean : s.diagnostics = []
  tokens : ∀ t ∈ Scan.tokens s.items, t.kind.isLegible = true

theorem Legible.written {text : String} {first : ExprId} (h : (read text first).Legible) :
    Stmt.WrittenAll (read text first).parsed.statements := by
  have herrors : (read text first).parsed.errors = [] := List.map_eq_nil_iff.mp (List.append_eq_nil_iff.mp h.clean).2
  refine Parse.parse_written herrors fun t ht => ?_
  have hmem : t ∈ Scan.tokens (Scan.items text) := (List.takeWhile_prefix _).subset ht
  refine ⟨?_, h.tokens t hmem⟩
  rw [Scan.tokens_items] at hmem
  rcases List.mem_append.mp hmem with hcontent | hend
  · exact Scan.spells_of_mem_content hcontent
  · have hnot : (!t.isEnd) = true := List.mem_takeWhile_imp (p := (!Token.isEnd ·)) ht
    rw [List.mem_singleton.mp hend] at hnot
    cases hnot

/-- The prefix form is unambiguous: of two legible sources with the same prefix forms, the statements are the same but
    for the identities of references and the lines of tokens. -/
theorem prefixForms_injective {text text' : String} {first first' : ExprId} (h : (read text first).Legible)
    (h' : (read text' first').Legible) (heq : Stmt.prefixForms (read text first).parsed.statements =
      Stmt.prefixForms (read text' first').parsed.statements) :
    Stmt.LikeAll Likeness.lines.unnumbered (read text first).parsed.statements (read text' first').parsed.statements :=
  Stmt.WrittenAll.like h.written h'.written heq

/-- Names that are spelled like first parts, and a number in two spellings, on one line and on two. -/
theorem prefixForms_injective_layout :
    let source := read "var block=-call(group,1.50);" 0
    let source' := read "var block =\n  -call(group, 1.5);" 5
    source.Legible ∧ source'.Legible ∧
      Stmt.prefixForms source.parsed.statements = Stmt.prefixForms source'.parsed.statements ∧
      Stmt.LikeAll Likeness.lines.unnumbered source.parsed.statements source'.parsed.statements := by
  intro source source'
  have h : source.Legible := ⟨by decide +kernel, by decide +kernel⟩
  have h' : source'.Legible := ⟨by decide +kernel, by decide +kernel⟩
  have heq : Stmt.prefixForms source.parsed.statements = Stmt.prefixForms source'.parsed.statements := by decide +kernel
  exact ⟨h, h', heq, prefixForms_injective h h' heq⟩

end Source
end Lox
