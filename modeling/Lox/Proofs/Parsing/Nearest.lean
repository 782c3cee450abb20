import Lox.Proofs.Parsing.Grammar

/-! # Every program has a derivation of the nearest rule

What is derived at all is derived with every `else` at the nearest `if` (`Declarations.nearest`): an `else`
behind a statement that could take it moves into that statement (`Statement.attach`). The tree may be
another one, but the arguments and parameters in it are the same. -/

namespace Lox
namespace Grammar

/-- An `else` and a statement behind one that could take the `else` make one statement. -/
theorem Statement.attach {other : Token} {vs : List Token} {no : Stmt} {dangling : Bool} :
    ∀ {open? : Bool} {ts : List Token} {s : Stmt}, Statement true open? ts s → open? = true → s.WithinLimits →
      other.kind = .keyword .else → Statement true dangling vs no → no.WithinLimits →
        ∃ dangling' s', Statement true dangling' (ts ++ other :: vs) s' ∧ s'.WithinLimits
  | _, _, _, .forLoop hkeyword hopening hinit hcondition hsemicolon hincrement hclosing hbody, hopen, h, hother, hno,
      hlimits => by
    obtain ⟨h₁, h₂, h₃, h₄⟩ := forLoop_withinLimits.mp h
    obtain ⟨d, body', hbody', h₄'⟩ := hbody.attach hopen h₄ hother hno hlimits
    have hloop := Statement.forLoop hkeyword hopening hinit hcondition hsemicolon hincrement hclosing hbody'
    exact ⟨d, _, by simpa using hloop, forLoop_withinLimits.mpr ⟨h₁, h₂, h₃, h₄'⟩⟩
  | _, _, _, @Statement.ifOnly _ _ _ _ _ _ _ _ dangling' hkeyword hopening hcondition hclosing hyes, _, h, hother, hno,
      hlimits => by
    obtain ⟨h₁, h₂, -⟩ := h
    rcases Bool.eq_false_or_eq_true dangling' with hinner | hinner
    · obtain ⟨d, yes', hyes', h₂'⟩ := hyes.attach hinner h₂ hother hno hlimits
      have hif := Statement.ifOnly hkeyword hopening hcondition hclosing hyes'
      exact ⟨true, .branch _ yes' none, by simpa using hif, h₁, h₂', trivial⟩
    · have hif := Statement.ifElse hkeyword hopening hcondition hclosing hyes (fun _ => hinner) hother hno
      exact ⟨dangling, .branch _ _ (some no), by simpa using hif, h₁, h₂, hlimits⟩
  | _, _, _, .ifElse hkeyword hopening hcondition hclosing hyes hnearest hother' hno', hopen, h,
      hother, hno, hlimits => by
    obtain ⟨h₁, h₂, h₃⟩ := h
    obtain ⟨d, no'', hno'', h₃'⟩ := hno'.attach hopen h₃ hother hno hlimits
    have hif := Statement.ifElse hkeyword hopening hcondition hclosing hyes hnearest hother' hno''
    exact ⟨d, .branch _ _ (some no''), by simpa using hif, h₁, h₂, h₃'⟩
  | _, _, _, .whileLoop hkeyword hopening hcondition hclosing hbody, hopen, h, hother, hno, hlimits => by
    obtain ⟨h₁, h₂⟩ := h
    obtain ⟨d, body', hbody', h₂'⟩ := hbody.attach hopen h₂ hother hno hlimits
    have hloop := Statement.whileLoop hkeyword hopening hcondition hclosing hbody'
    exact ⟨d, .loop _ body', by simpa using hloop, h₁, h₂'⟩
  | _, _, _, .expression _, hopen, _, _, _, _ | _, _, _, .print _ _ _, hopen, _, _, _, _
  | _, _, _, .ret _ _ _, hopen, _, _, _, _ | _, _, _, .block _ _ _, hopen, _, _, _, _ => by cases hopen

mutual

theorem Statement.nearest {nearest dangling : Bool} {ts : List Token} {s : Stmt} :
    Statement nearest dangling ts s → s.WithinLimits → ∃ dangling' s', Statement true dangling' ts s' ∧ s'.WithinLimits
  | .expression h, hlimits => ⟨false, _, .expression h, hlimits⟩
  | .forLoop hkeyword hopening hinit hcondition hsemicolon hincrement hclosing hbody, hlimits => by
    obtain ⟨h₁, h₂, h₃, h₄⟩ := forLoop_withinLimits.mp hlimits
    obtain ⟨d, body', hbody', h₄'⟩ := hbody.nearest h₄
    exact ⟨d, _, .forLoop hkeyword hopening hinit hcondition hsemicolon hincrement hclosing hbody',
      forLoop_withinLimits.mpr ⟨h₁, h₂, h₃, h₄'⟩⟩
  | .ifOnly hkeyword hopening hcondition hclosing hyes, hlimits => by
    obtain ⟨h₁, h₂, -⟩ := hlimits
    obtain ⟨d, yes', hyes', h₂'⟩ := hyes.nearest h₂
    exact ⟨true, _, .ifOnly hkeyword hopening hcondition hclosing hyes', h₁, h₂', trivial⟩
  | .ifElse hkeyword hopening hcondition hclosing hyes _ hother hno, hlimits => by
    obtain ⟨h₁, h₂, h₃⟩ := hlimits
    obtain ⟨danglingYes, yes', hyes', h₂'⟩ := hyes.nearest h₂
    obtain ⟨d, no', hno', h₃'⟩ := hno.nearest h₃
    cases danglingYes with
    | true =>
      -- The `else` belongs to an `if` inside `yes'`, and the outer one has none.
      obtain ⟨d', s', hs', h'⟩ := hyes'.attach rfl h₂' hother hno' h₃'
      exact ⟨true, _, .ifOnly hkeyword hopening hcondition hclosing hs', h₁, h', trivial⟩
    | false =>
      exact ⟨d, _, .ifElse hkeyword hopening hcondition hclosing hyes' (fun _ => rfl) hother hno', h₁, h₂', h₃'⟩
  | .print hkeyword h hsemicolon, hlimits => ⟨false, _, .print hkeyword h hsemicolon, hlimits⟩
  | .ret hkeyword h hsemicolon, hlimits => ⟨false, _, .ret hkeyword h hsemicolon, hlimits⟩
  | .whileLoop hkeyword hopening hcondition hclosing hbody, hlimits => by
    obtain ⟨h₁, h₂⟩ := hlimits
    obtain ⟨d, body', hbody', h₂'⟩ := hbody.nearest h₂
    exact ⟨d, _, .whileLoop hkeyword hopening hcondition hclosing hbody', h₁, h₂'⟩
  | .block hopening hbody hclosing, hlimits => by
    obtain ⟨body', hbody', hlimits'⟩ := hbody.nearest hlimits
    exact ⟨false, _, .block hopening hbody' hclosing, hlimits'⟩

theorem Declaration.nearest {nearest : Bool} {ts : List Token} {s : Stmt} :
    Declaration nearest ts s → s.WithinLimits → ∃ s', Declaration true ts s' ∧ s'.WithinLimits
  | .function hkeyword hname hopening hparams hclosing hbrace hbody hlast, hlimits => by
    obtain ⟨h₁, h₂⟩ := hlimits
    obtain ⟨body', hbody', h₂'⟩ := hbody.nearest h₂
    exact ⟨_, .function hkeyword hname hopening hparams hclosing hbrace hbody' hlast, h₁, h₂'⟩
  | .var h, hlimits => ⟨_, .var h, hlimits⟩
  | .statement h, hlimits => by
    obtain ⟨d, s', hs', hlimits'⟩ := h.nearest hlimits
    exact ⟨s', .statement hs', hlimits'⟩

theorem Declarations.nearest {nearest : Bool} {ts : List Token} {ss : List Stmt} :
    Declarations nearest ts ss → Stmt.WithinLimitsAll ss → ∃ ss', Declarations true ts ss' ∧ Stmt.WithinLimitsAll ss'
  | .nil, _ => ⟨[], .nil, trivial⟩
  | .cons h hss, hlimits => by
    obtain ⟨s', hs', h₁⟩ := h.nearest hlimits.1
    obtain ⟨ss', hss', h₂⟩ := hss.nearest hlimits.2
    exact ⟨s' :: ss', .cons hs' hss', h₁, h₂⟩

end

mutual

/-- A derivation of the nearest rule is a derivation. -/
theorem Statement.any {nearest dangling : Bool} {ts : List Token} {s : Stmt} :
    Statement nearest dangling ts s → Statement false dangling ts s
  | .expression h => .expression h
  | .forLoop hkeyword hopening hinit hcondition hsemicolon hincrement hclosing hbody =>
    .forLoop hkeyword hopening hinit hcondition hsemicolon hincrement hclosing hbody.any
  | .ifOnly hkeyword hopening hcondition hclosing hyes => .ifOnly hkeyword hopening hcondition hclosing hyes.any
  | .ifElse hkeyword hopening hcondition hclosing hyes _ hother hno =>
    .ifElse hkeyword hopening hcondition hclosing hyes.any nofun hother hno.any
  | .print hkeyword h hsemicolon => .print hkeyword h hsemicolon
  | .ret hkeyword h hsemicolon => .ret hkeyword h hsemicolon
  | .whileLoop hkeyword hopening hcondition hclosing hbody => .whileLoop hkeyword hopening hcondition hclosing hbody.any
  | .block hopening hbody hclosing => .block hopening hbody.any hclosing

theorem Declaration.any {nearest : Bool} {ts : List Token} {s : Stmt} :
    Declaration nearest ts s → Declaration false ts s
  | .function hkeyword hname hopening hparams hclosing hbrace hbody hlast =>
    .function hkeyword hname hopening hparams hclosing hbrace hbody.any hlast
  | .var h => .var h
  | .statement h => .statement h.any

theorem Declarations.any {nearest : Bool} {ts : List Token} {ss : List Stmt} :
    Declarations nearest ts ss → Declarations false ts ss
  | .nil => .nil
  | .cons h hss => .cons h.any hss.any

end

end Grammar
end Lox
