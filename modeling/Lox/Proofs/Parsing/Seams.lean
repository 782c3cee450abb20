import Lox.Proofs.Parsing.Acceptance

/-! # Parsing two programs as one

Tokens of a program before those of another are the one program before the other: no declaration goes on
where it could end, but for an `else`, and no program begins with one (`parse_seam`). -/

namespace Lox

theorem Grammar.Declarations.append {nearest : Bool} {ts us : List Token} {ss tt : List Stmt}
    (h : Declarations nearest ts ss) (h' : Declarations nearest us tt) :
    Declarations nearest (ts ++ us) (ss ++ tt) := by
  cases h with
  | nil => exact h'
  | cons hs hss =>
    rw [List.append_assoc]
    exact .cons hs (hss.append h')

theorem Stmt.withinLimitsAll_append {ss tt : List Stmt} (h : Stmt.WithinLimitsAll ss) (h' : Stmt.WithinLimitsAll tt) :
    Stmt.WithinLimitsAll (ss ++ tt) := by
  induction ss with
  | nil => exact h'
  | cons s ss ih => exact ⟨h.1, ih h.2⟩

/-- Statements that are unnumbered two lists of statements are two such lists. -/
theorem Stmt.eq_append_of_unnumbered : ∀ {ss ts us : List Stmt},
    Stmt.unnumberedAll us = Stmt.unnumberedAll ss ++ Stmt.unnumberedAll ts → ∃ ss' ts', us = ss' ++ ts' ∧
      Stmt.unnumberedAll ss' = Stmt.unnumberedAll ss ∧ Stmt.unnumberedAll ts' = Stmt.unnumberedAll ts
  | [], _, us, h => ⟨[], us, rfl, rfl, h⟩
  | _ :: _, _, [], h => by cases h
  | s :: ss, ts, u :: us, h => by
    obtain ⟨hu, hus⟩ := List.cons.inj h
    obtain ⟨ss', ts', rfl, hss, hts⟩ := eq_append_of_unnumbered hus
    refine ⟨u :: ss', ts', rfl, ?_, hts⟩
    rw [Stmt.unnumberedAll, Stmt.unnumberedAll, hu, hss]

namespace Parse

theorem body_append {ts us : List Token} (h : ∀ t ∈ ts, t.isEnd = false) : body (ts ++ us) = ts ++ body us :=
  List.takeWhile_append_of_pos fun t ht => by rw [h t ht]; rfl

theorem body_ended {ts : List Token} {final : Token} (h : ∀ t ∈ ts, t.isEnd = false) (hfinal : final.isEnd = true) :
    body (ts ++ [final]) = ts := by
  have hend : body [final] = [] := List.takeWhile_cons_of_neg (by simp [hfinal])
  rw [body_append h, hend, List.append_nil]

/-- Two programs without errors are one without errors, whose trees are those of both, but for identities. -/
theorem parse_seam {ts us : List Token} {final : Token} (hts : ∀ t ∈ ts, t.isEnd = false) (hfinal : final.isEnd = true)
    {i j : ExprId} (h : (parse (ts ++ [final]) i).errors = []) (h' : (parse us j).errors = []) (k : ExprId) :
    (parse (ts ++ us) k).errors = [] ∧ ∃ ss' ts', (parse (ts ++ us) k).statements = ss' ++ ts' ∧
      Stmt.unnumberedAll ss' = Stmt.unnumberedAll (parse (ts ++ [final]) i).statements ∧
      Stmt.unnumberedAll ts' = Stmt.unnumberedAll (parse us j).statements := by
  obtain ⟨hfirst, hfirstLimits⟩ := parse_sound h
  obtain ⟨hsecond, hsecondLimits⟩ := parse_sound h'
  rw [body_ended hts hfinal] at hfirst
  -- The grammar admits one behind the other, and what it admits is parsed, whatever the numbers begin with.
  have hboth := Grammar.Declarations.append hfirst hsecond
  rw [← body_append hts] at hboth
  obtain ⟨htrees, herrors⟩ := @parse_complete _ k _ hboth
  exact ⟨herrors (Stmt.withinLimitsAll_append hfirstLimits hsecondLimits),
    Stmt.eq_append_of_unnumbered htrees⟩

end Parse
end Lox
