import Lox.Proofs.Evaluation.Made
import Lox.Proofs.Evaluation.Moments
import Lox.Proofs.Likeness.Values
import Lox.Proofs.Numbers.Texts
import Lox.Proofs.Sessions

/-! # Equal values

Equality of the language is an equivalence, on numbers too, where all patterns of NaN are one number and the zeros are
two. Values that are equal are the same, but for functions, which are equal when their identities are
(`Value.equals_iff`), and functions that were made in one session are then the same (`Moment.Made`). So nothing tells
equal values apart (`equal_values_interchangeable`). -/

namespace Lox

/-! ### Patterns of bits -/

namespace Parts

/-- The double of a pattern of bits has the parts that the pattern stands for. -/
theorem ofFloat_ofBits (bits : UInt64) : ofFloat (Float.ofBits bits) = ofBits bits.toNat := by
  have hpattern : Float.ofBits bits = (ofBits bits.toNat).toFloat :=
    congrArg (fun u => Float.ofModel (.pack u)) (unpack_eq bits.toBitVec)
  rw [hpattern]
  cases hparts : ofBits bits.toNat with
  | nan => decide +kernel
  | infinite neg => cases neg <;> decide +kernel
  | finite neg m e => exact ofFloat_toFloat (fits_of_ofBits hparts)

/-- Patterns with the same parts are the same, but for those of NaN. -/
theorem ofBits_inj {b c : Nat} (hb : b < 2 ^ 64) (hc : c < 2 ^ 64) (h : ofBits b = ofBits c) (hnan : ofBits b ≠ nan) :
    b = c := by
  have hsign : ∀ {a a' : Nat}, a < 2 ^ 64 → a' < 2 ^ 64 → decide (a / 2 ^ 63 = 1) = decide (a' / 2 ^ 63 = 1) →
      a / 2 ^ 63 = a' / 2 ^ 63 := fun ha ha' hs => by
    have hs := decide_eq_decide.mp hs
    omega
  simp only [ofBits, Nat.pow_eq] at h hnan
  split at h
  · split at h
    · split at h
      · split at h
        · have hs := hsign hb hc (infinite.inj h)
          omega
        · cases h
      · split at h <;> cases h
    · rw [if_pos ‹_›, if_neg ‹_›] at hnan
      exact absurd rfl hnan
  · split at h
    · split at h
      · split at h <;> cases h
      · split at h
        · obtain ⟨hs, hm, -⟩ := finite.inj h
          have hs := hsign hb hc hs
          omega
        · obtain ⟨-, hm, he⟩ := finite.inj h
          omega
    · split at h
      · split at h <;> cases h
      · split at h
        · obtain ⟨-, hm, he⟩ := finite.inj h
          omega
        · obtain ⟨hs, hm, he⟩ := finite.inj h
          have hs := hsign hb hc hs
          omega

end Parts

namespace Value
variable {v w u : Value}

/-- The language's equality of numbers is equality of doubles, of which one is NaN. -/
theorem sameNumber_iff {x y : Float} : sameNumber x y = true ↔ x = y := by
  rw [sameNumber, Bool.or_eq_true, beq_iff_eq, Bool.and_eq_true, Parts.toBits_inj]
  constructor
  · rintro (h | ⟨hx, hy⟩)
    · exact h
    · rw [← Parts.toFloat_ofFloat (Parts.isNaN_iff.mp hx), Parts.toFloat_ofFloat (Parts.isNaN_iff.mp hy)]
  · exact .inl

/-- Two patterns of bits are the same number if they are the same or both are NaN. -/
theorem sameNumber_ofBits (b c : UInt64) : sameNumber (Float.ofBits b) (Float.ofBits c) = true ↔
    b = c ∨ Parts.ofBits b.toNat = .nan ∧ Parts.ofBits c.toNat = .nan := by
  rw [sameNumber_iff]
  constructor
  · intro h
    have hparts := congrArg Parts.ofFloat h
    rw [Parts.ofFloat_ofBits, Parts.ofFloat_ofBits] at hparts
    by_cases hnan : Parts.ofBits b.toNat = .nan
    · exact .inr ⟨hnan, hparts ▸ hnan⟩
    · exact .inl (UInt64.toNat_inj.mp (Parts.ofBits_inj b.toNat_lt c.toNat_lt hparts hnan))
  · rintro (rfl | ⟨hb, hc⟩)
    · rfl
    · rw [← Parts.ofFloat_ofBits] at hb hc
      rw [← Parts.toFloat_ofFloat hb, Parts.toFloat_ofFloat hc]

/-! ### Equality -/

/-- Equal values are the same, but for functions with the same identity. -/
theorem equals_iff : v.equals w = true ↔ v = w ∨
    (∃ f g, v = .function f ∧ w = .function g ∧ f.identity = g.identity) ∨
    ∃ f g, v = .host f ∧ w = .host g ∧ f.identity = g.identity := by
  constructor
  · intro h
    cases v <;> cases w
    case nil.nil => exact .inl rfl
    case bool.bool => exact .inl (congrArg bool (beq_iff_eq.mp h))
    case number.number => exact .inl (congrArg number (sameNumber_iff.mp h))
    case string.string => exact .inl (congrArg string (beq_iff_eq.mp h))
    case function.function f g => exact .inr (.inl ⟨f, g, rfl, rfl, beq_iff_eq.mp h⟩)
    case host.host f g => exact .inr (.inr ⟨f, g, rfl, rfl, beq_iff_eq.mp h⟩)
    all_goals cases h
  · rintro (rfl | ⟨f, g, rfl, rfl, h⟩ | ⟨f, g, rfl, rfl, h⟩)
    · cases v with
      | nil => rfl
      | bool b => exact beq_self_eq_true b
      | number x => exact sameNumber_iff.mpr rfl
      | string s => exact beq_self_eq_true s
      | function f | host f => exact beq_self_eq_true f.identity
    · exact beq_iff_eq.mpr h
    · exact beq_iff_eq.mpr h

theorem equals_refl (v : Value) : v.equals v = true := equals_iff.mpr (.inl rfl)

theorem equals_symm (h : v.equals w = true) : w.equals v = true := by
  obtain rfl | ⟨f, g, rfl, rfl, hid⟩ | ⟨f, g, rfl, rfl, hid⟩ := equals_iff.mp h
  · exact h
  · exact equals_iff.mpr (.inr (.inl ⟨g, f, rfl, rfl, hid.symm⟩))
  · exact equals_iff.mpr (.inr (.inr ⟨g, f, rfl, rfl, hid.symm⟩))

theorem equals_trans (h : v.equals w = true) (h' : w.equals u = true) : v.equals u = true := by
  obtain rfl | ⟨f, g, rfl, rfl, hid⟩ | ⟨f, g, rfl, rfl, hid⟩ := equals_iff.mp h
  · exact h'
  · cases u with
    | function k => exact beq_iff_eq.mpr (hid.trans (beq_iff_eq.mp h'))
    | nil | bool _ | number _ | string _ | host _ => cases h'
  · cases u with
    | host k => exact beq_iff_eq.mpr (hid.trans (beq_iff_eq.mp h'))
    | nil | bool _ | number _ | string _ | function _ => cases h'

theorem equals_equivalence : Equivalence fun v w : Value => v.equals w = true :=
  ⟨equals_refl, equals_symm, equals_trans⟩

/-! ### What tells values apart -/

/-- Both fail with the same error, or both yield, and the values are equal. -/
abbrev SameAnswer : Except RuntimeError Value → Except RuntimeError Value → Prop :=
  Outcome.Like Eq fun v w => v.equals w = true

theorem SameAnswer.refl (answer : Except RuntimeError Value) : SameAnswer answer answer := by
  cases answer with
  | ok v => exact .ok (equals_refl v)
  | error e => exact .error rfl

/-- Nothing in the language tells the values apart: type, truth and text are the same, and so is what each operator
    makes of them, as the only operand or beside any other one. -/
structure Interchangeable (v w : Value) : Prop where
  typeName : v.typeName = w.typeName
  isTruthy : v.isTruthy = w.isTruthy
  display : v.display = w.display
  unary : ∀ operator, SameAnswer (Operator.unary operator v) (Operator.unary operator w)
  left : ∀ operator u, SameAnswer (Operator.binary operator v u) (Operator.binary operator w u)
  right : ∀ operator u, SameAnswer (Operator.binary operator u v) (Operator.binary operator u w)
  decides : ∀ operator, Operator.decides operator v = Operator.decides operator w

theorem Interchangeable.refl (v : Value) : v.Interchangeable v where
  typeName := rfl
  isTruthy := rfl
  display := rfl
  unary _ := .refl _
  left _ _ := .refl _
  right _ _ := .refl _
  decides _ := rfl

/-- Functions of the host show nothing but their identities. -/
theorem interchangeable_host {f g : HostFunction} (h : f.identity = g.identity) :
    (host f).Interchangeable (host g) := by
  have hleft : ∀ u, (host f).equals u = (host g).equals u := fun u => by
    cases u with
    | host k => rw [equals, equals, h]
    | nil | bool _ | number _ | string _ | function _ => rfl
  have hright : ∀ u : Value, u.equals (host f) = u.equals (host g) := fun u => by
    cases u with
    | host k => rw [equals, equals, h]
    | nil | bool _ | number _ | string _ | function _ => rfl
  refine ⟨rfl, rfl, rfl, fun operator => .refl _, fun operator u => ?_, fun operator u => ?_, fun operator => rfl⟩
  · have hsame : Operator.binary operator (host f) u = Operator.binary operator (host g) u := by
      rw [Operator.binary, Operator.binary, hleft u]
      rfl
    exact hsame ▸ .refl _
  · have hsame : Operator.binary operator u (host f) = Operator.binary operator u (host g) := by
      rw [Operator.binary, Operator.binary, hright u]
      cases u <;> rfl
    exact hsame ▸ .refl _

/-- Equal values are interchangeable, where functions with the same identity are the same. -/
theorem Among.interchangeable {made : List Closure} (hdistinct : (made.map (·.identity)).Nodup) (hv : v.Among made)
    (hw : w.Among made) (h : v.equals w = true) : v.Interchangeable w := by
  obtain rfl | ⟨f, g, rfl, rfl, hid⟩ | ⟨f, g, rfl, rfl, hid⟩ := equals_iff.mp h
  · exact .refl v
  · obtain rfl := hv.unique hdistinct hw hid
    exact .refl _
  · exact interchangeable_host hid

/-- Numbers that print the same are equal. -/
theorem equals_of_display {x y : Float} (h : (number x).display = (number y).display) :
    (number x).equals (number y) = true :=
  sameNumber_iff.mpr (Number.positional_injective ⟨'I', rfl, rfl, by decide, by decide⟩ h)

end Value

/-! ### Sessions -/

namespace Session
variable {host : Host} {s s' : Session} {texts : List String} {text : String} {program : List Stmt} {fuel : Nat}

theorem made_new (sink : Sink) : (Session.new sink).machine.Made [] where
  distinct := List.nodup_nil
  given := nofun
  values f name v hv := by
    have hv := Frames.here?_define.symm.trans hv
    split at hv
    · cases hv
      nofun
    · rw [Frames.here?_initial] at hv
      cases hv

theorem interpretIn_made {context : Context} {made : List Closure} (hhost : context.host.Honest)
    (h : s.machine.Made made) : ∃ made', (s.interpretIn context fuel program).session.machine.Made made' := by
  obtain ⟨made', -, hmade, -⟩ := (making_stable hhost).program fuel h fun _ _ => trivial
  refine ⟨made', ?_⟩
  unfold interpretIn
  unfold Eval.final at hmade
  split <;> rename_i hresult <;> rw [hresult] at hmade
  · rw [finish_session]
    exact hmade.congr rfl rfl
  · rw [finish_session]
    exact hmade.congr rfl rfl
  · exact hmade
  · exact hmade

/-- At any time there is a list of the functions that a session has made, with identities that are all different. -/
theorem Reachable.made (hhost : host.Honest) (h : s.Reachable host texts) : ∃ made, s.machine.Made made := by
  induction h with
  | new sink => exact ⟨[], made_new sink⟩
  | register _ key name arity ih =>
    obtain ⟨made, hmade⟩ := ih
    refine ⟨made, hmade.distinct, fun f hf => Nat.lt_succ_of_lt (hmade.given f hf), ?_⟩
    exact (hmade.define fun f hf => by cases hf).values
  | @run _ s _ fuel text ih =>
    obtain ⟨made, hmade⟩ := ih
    rcases run_cases host s fuel text with ⟨diagnostics, hrun⟩ | ⟨s', hmachine, hrun⟩
    · rw [hrun]
      exact ⟨made, hmade⟩
    · rw [hrun]
      exact interpretIn_made hhost (hmachine ▸ hmade)

end Session

/-- Equality of the language is an equivalence, the operator `!=` is its negation, and equal values are
    interchangeable, where functions with the same identity are the same. So they are at each moment of each run of a
    session, whether they are bound, passed on or about to be operands. Numbers that print the same are equal, and
    patterns of bits are equal numbers if they are the same or both of NaN. -/
theorem equal_values_interchangeable :
    (Equivalence fun v w : Value => v.equals w = true) ∧
    (∀ (operator : Token) (v w : Value),
      (operator.kind = .mark .equalEqual → Operator.binary operator v w = .ok (.bool (v.equals w))) ∧
      (operator.kind = .mark .bangEqual → Operator.binary operator v w = .ok (.bool !v.equals w))) ∧
    (∀ (made : List Closure) (v w : Value), (made.map (·.identity)).Nodup → v.Among made → w.Among made →
      v.equals w = true → v.Interchangeable w) ∧
    (∀ x y : Float, (Value.number x).display = (Value.number y).display → (Value.number x).equals (.number y) = true) ∧
    (∀ b c : UInt64, (Value.number (Float.ofBits b)).equals (.number (Float.ofBits c)) = true ↔
      b = c ∨ Parts.ofBits b.toNat = .nan ∧ Parts.ofBits c.toNat = .nan) ∧
    ∀ {host : Host} {s s' : Session} {texts : List String} {text : String} {program : List Stmt} {fuel : Nat}
      {mo : Moment}, host.Honest → s.Reachable host texts → s.Starts text program s' →
      Moment.Visits (s'.context host) ⟨fuel, .program program, s'.machine⟩ mo →
      (∃ made, mo.Made made) ∧ ∀ operator v w, mo.Operands (s'.context host) operator v w → v.equals w = true →
        v.Interchangeable w := by
  refine ⟨Value.equals_equivalence, fun operator v w => ⟨fun hop => ?_, fun hop => ?_⟩,
    fun made v w hdistinct hv hw => hv.interchangeable hdistinct hw, fun x y => Value.equals_of_display,
    Value.sameNumber_ofBits, ?_⟩
  · rw [Operator.binary, hop]
  · rw [Operator.binary, hop]
  · intro host s s' texts text program fuel mo hhost hreach hs hvisits
    obtain ⟨made, hmade⟩ := hreach.made hhost
    rw [← hs.machine_eq] at hmade
    obtain ⟨made', hmo⟩ := hvisits.keeps_made hhost ⟨hmade, trivial⟩
    refine ⟨⟨made', hmo⟩, fun operator v w hoperands hequal => ?_⟩
    obtain ⟨made'', hdistinct, hv, hw⟩ := hoperands.among hhost hmo
    exact hv.interchangeable hdistinct hw hequal

/-- A function and a second name for it are the operands of `==`. -/
theorem equal_values_interchangeable_renamed : ∃ (s' : Session) (program : List Stmt) (mo : Moment) (operator : Token)
    (v w : Value), (Session.new .unlimited).Starts "fun f()\x7b\x7dvar g=f;f==g;" program s' ∧
      Moment.Visits (s'.context (Host.withTime fun _ => 0)) ⟨9, .program program, s'.machine⟩ mo ∧
      mo.Operands (s'.context (Host.withTime fun _ => 0)) operator v w ∧ v.equals w = true ∧
      v.Interchangeable w ∧ w.display = "<fn f>" := by
  let f : Token := ⟨.identifier, "f", 1⟩
  let g : Token := ⟨.identifier, "g", 1⟩
  let operator : Token := ⟨.mark .equalEqual, "==", 1⟩
  let program : List Stmt := [.function f [] [], .var g (some (.var 0 f)),
    .expression (.binary (.var 1 f) operator (.var 2 g))]
  have hs : (Session.new .unlimited).Starts "fun f()\x7b\x7dvar g=f;f==g;" program _ :=
    Session.starts_of_tokens 0 [.ofKeyword .fun 1, f, .ofMark .leftParen 1, .ofMark .rightParen 1, .ofMark .leftBrace 1,
      .ofMark .rightBrace 1, .ofKeyword .var 1, g, .ofMark .equal 1, f, .ofMark .semicolon 1, f, operator, g,
      .ofMark .semicolon 1, .atEnd 1] rfl (by decide +kernel) (by cbv) (by decide +kernel)
  generalize hs' : Session.addDistances _ (resolve program).distances = s' at hs
  have hnone : ∀ id : ExprId, s'.distances[id]? = none := fun id =>
    (hs.distances_outermost (by decide) id).trans Std.HashMap.getElem?_empty
  have hread : ∀ {n id name v m}, m.frames.get? Frames.globals name.lexeme = some v →
      Eval.expr (s'.context (Host.withTime fun _ => 0)) (n + 1) (.var id name) m = .ok v m := fun hv => by
    rw [Eval.expr, Eval.read, Session.context, Access.get?, hnone, hv]
  let made : Value := .function ⟨1, ⟨f, [], []⟩, Frames.globals⟩
  let start : Machine := (Session.new .unlimited).machine
  let declared : Machine := { start with frames := start.frames.define Frames.globals "f" made, nextIdentity := 2 }
  let m : Machine := { declared with frames := declared.frames.define Frames.globals "g" made }
  have hbound :
      Eval.stmt (s'.context (Host.withTime fun _ => 0)) 9 (.var g (some (.var 0 f))) declared = .ok .normal m :=
    Eval.bind_of_ok (hread rfl)
  have hvisits := Moment.Visits.enter (c := s'.context (Host.withTime fun _ => 0)) (a := ⟨9, .program program, start⟩)
    (.proceed rfl) (.enter (.proceed hbound) (.enter .begin (.enter .expression .here)))
  rw [show start = s'.machine from hs.machine_eq.symm] at hvisits
  have hf : m.frames.get? Frames.globals f.lexeme = some made := rfl
  have hg : m.frames.get? Frames.globals g.lexeme = some made := rfl
  have hoperands : Moment.Operands (s'.context (Host.withTime fun _ => 0)) operator made made
    ⟨8, .expr (.binary (.var 1 f) operator (.var 2 g)), m⟩ := .binary (hread hf) (hread hg)
  obtain ⟨-, -, -, -, -, hsessions⟩ := equal_values_interchangeable
  obtain ⟨-, hoperators⟩ := hsessions (Host.withTime_honest _) (.new .unlimited) hs hvisits
  exact ⟨s', program, _, operator, made, made, hs, hvisits, hoperands, rfl,
    hoperators operator made made hoperands rfl, rfl⟩

end Lox
