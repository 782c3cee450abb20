import Lox.Proofs.Parsing.Soundness

/-! # Code without loops

A program whose tokens have neither `while` nor `for` among them has no loop in it: only statements with these
keywords derive loops (`parse_loopFree`). -/

namespace Lox

mutual

/-- There is no loop in the statement, nor in a function inside of it. -/
def Stmt.LoopFree : Stmt → Prop
  | .block body | .function _ _ body => Stmt.LoopFreeAll body
  | .branch _ yes no => yes.LoopFree ∧ Stmt.LoopFree? no
  | .loop _ _ => False
  | .expression _ | .print _ | .var _ _ | .ret _ _ => True

def Stmt.LoopFree? : Option Stmt → Prop
  | none => True
  | some s => s.LoopFree

def Stmt.LoopFreeAll : List Stmt → Prop
  | [] => True
  | s :: ss => s.LoopFree ∧ Stmt.LoopFreeAll ss

end

mutual

/-- Identities have nothing to do with loops. -/
theorem Stmt.LoopFree.of_unnumbered : ∀ {s : Stmt}, s.unnumbered.LoopFree → s.LoopFree
  | .block _, h | .function _ _ _, h => Stmt.LoopFreeAll.of_unnumbered h
  | .branch _ _ _, h => ⟨Stmt.LoopFree.of_unnumbered h.1, Stmt.LoopFree?.of_unnumbered h.2⟩
  | .loop _ _, h => h
  | .expression _, h | .print _, h | .var _ _, h | .ret _ _, h => h

theorem Stmt.LoopFree?.of_unnumbered : ∀ {s : Option Stmt}, Stmt.LoopFree? (Stmt.unnumbered? s) → Stmt.LoopFree? s
  | none, h => h
  | some _, h => Stmt.LoopFree.of_unnumbered h

theorem Stmt.LoopFreeAll.of_unnumbered : ∀ {ss : List Stmt},
    Stmt.LoopFreeAll (Stmt.unnumberedAll ss) → Stmt.LoopFreeAll ss
  | [], h => h
  | _ :: _, h => ⟨Stmt.LoopFree.of_unnumbered h.1, Stmt.LoopFreeAll.of_unnumbered h.2⟩

end

/-- The token does not begin a loop. -/
def Token.BeginsNoLoop (t : Token) : Prop := t.kind ≠ .keyword .while ∧ t.kind ≠ .keyword .for

instance (t : Token) : Decidable t.BeginsNoLoop := inferInstanceAs (Decidable (_ ∧ _))

namespace Grammar

theorem ExpressionStatement.loopFree {ts : List Token} {s : Stmt} (h : ExpressionStatement ts s) : s.LoopFree := by
  cases h with
  | mk h hsemicolon => trivial

theorem VarDeclaration.loopFree {ts : List Token} {s : Stmt} (h : VarDeclaration ts s) : s.LoopFree := by
  cases h with
  | plain => trivial
  | initialized => trivial

mutual

theorem Statement.loopFree {nearest dangling : Bool} {ts : List Token} {s : Stmt} :
    Statement nearest dangling ts s → (∀ t ∈ ts, t.BeginsNoLoop) → s.LoopFree
  | .expression h, _ => h.loopFree
  | .forLoop hkeyword _ _ _ _ _ _ _, hts => absurd hkeyword (hts _ List.mem_cons_self).2
  | .ifOnly _ _ _ _ hyes, hts => ⟨hyes.loopFree fun t ht => hts t (by simp [ht]), trivial⟩
  | .ifElse _ _ _ _ hyes _ _ hno, hts =>
    ⟨hyes.loopFree fun t ht => hts t (by simp [ht]), hno.loopFree fun t ht => hts t (by simp [ht])⟩
  | .print _ _ _, _ => trivial
  | .ret _ _ _, _ => trivial
  | .whileLoop hkeyword _ _ _ _, hts => absurd hkeyword (hts _ List.mem_cons_self).1
  | .block _ hbody _, hts => hbody.loopFree fun t ht => hts t (by simp [ht])

theorem Declaration.loopFree {nearest : Bool} {ts : List Token} {s : Stmt} :
    Declaration nearest ts s → (∀ t ∈ ts, t.BeginsNoLoop) → s.LoopFree
  | .function _ _ _ _ _ _ hbody _, hts => hbody.loopFree fun t ht => hts t (by simp [ht])
  | .var h, _ => h.loopFree
  | .statement h, hts => h.loopFree hts

theorem Declarations.loopFree {nearest : Bool} {ts : List Token} {ss : List Stmt} :
    Declarations nearest ts ss → (∀ t ∈ ts, t.BeginsNoLoop) → Stmt.LoopFreeAll ss
  | .nil, _ => trivial
  | .cons h hss, hts =>
    ⟨h.loopFree fun t ht => hts t (List.mem_append_left _ ht),
      hss.loopFree fun t ht => hts t (List.mem_append_right _ ht)⟩

end

end Grammar

namespace Parse

/-- What is parsed without an error from tokens that begin no loop is free of loops. -/
theorem parse_loopFree {tokens : List Token} {nextId : ExprId} (h : (parse tokens nextId).errors = [])
    (htokens : ∀ t ∈ tokens, t.BeginsNoLoop) : Stmt.LoopFreeAll (parse tokens nextId).statements :=
  .of_unnumbered ((parse_sound h).1.loopFree fun t ht => htokens t ((List.takeWhile_prefix _).subset ht))

end Parse
end Lox
