import Lox.Proofs.Evaluation.Effects
import Mathlib.Data.Fintype.Card
import Mathlib.Order.Bounds.Basic

/-! # Outward lookup and lookup at a distance

Frames that stand inside one another without a cycle may share what they stand inside. Looking a name up outward ends
at the nearest frame that binds it (`Finds`), and this is the frame at the least distance at which looking it up
succeeds. Changing a binding is seen from every frame whose way outward for that name ends there, and from no other
(`Overwritten`). -/

namespace Lox
namespace Frames
variable {fs fs' : Frames} {e f g h : FrameId} {name m : String} {v : Value} {d n : Nat}

/-- No way outward comes back to where it began. -/
def Acyclic (fs : Frames) : Prop := ∀ f d, 0 < d → fs.ancestor? d f ≠ some f

/-- The frame or one that it stands inside binds the name. -/
def Sees (fs : Frames) (e : FrameId) (name : String) : Prop :=
  ∃ d g, fs.ancestor? d e = some g ∧ (fs.here? g name).isSome

/-- On the way outward from `e` the frame `g` is the first that binds the name. -/
def Finds (fs : Frames) (e : FrameId) (name : String) (g : FrameId) : Prop :=
  ∃ d, fs.ancestor? d e = some g ∧ (fs.here? g name).isSome ∧ ∀ d' < d, fs.getAt? e d' name = Option.none

/-! ### Ways outward -/

theorem ancestor?_succ : fs.ancestor? (d + 1) e = (fs.enclosing? e).bind (fs.ancestor? d) := by
  rw [ancestor?]
  cases fs.enclosing? e <;> rfl

theorem ancestor?_add : ∀ (d : Nat) {e : FrameId}, fs.ancestor? (d + n) e = (fs.ancestor? d e).bind (fs.ancestor? n)
  | 0, e => by rw [Nat.zero_add, ancestor?, Option.bind_some]
  | d + 1, e => by
    rw [Nat.add_right_comm, ancestor?_succ, ancestor?_succ, Option.bind_assoc]
    exact congrArg _ (funext fun _ => ancestor?_add d)

/-- Only frames that exist have others outward of them. -/
theorem lt_next_of_ancestor?_succ (hg : fs.ancestor? (d + 1) e = some g) : e < fs.next := by
  rw [ancestor?_succ] at hg
  obtain ⟨f, hf, -⟩ := Option.bind_eq_some_iff.mp hg
  exact lt_next_of_enclosing? hf

theorem ancestor?_congr (henclosing : ∀ f, fs'.enclosing? f = fs.enclosing? f) :
    ∀ (d : Nat) {e : FrameId}, fs'.ancestor? d e = fs.ancestor? d e
  | 0, _ => rfl
  | d + 1, e => by
    rw [ancestor?_succ, ancestor?_succ, henclosing]
    exact congrArg _ (funext fun _ => ancestor?_congr henclosing d)

/-- Frames stand inside one another without a cycle if each is given a rank above that of the frame outward of it. -/
theorem acyclic_of_rank (rank : FrameId → Nat) (hrank : ∀ f g, fs.enclosing? f = some g → rank g < rank f) :
    fs.Acyclic := by
  have hle : ∀ (d : Nat) (f g : FrameId), fs.ancestor? d f = some g → rank g + d ≤ rank f := by
    intro d
    induction d with
    | zero =>
      rintro f _ ⟨⟩
      exact Nat.le_refl _
    | succ d ih =>
      intro f g hg
      rw [ancestor?_succ] at hg
      obtain ⟨outer, houter, hg⟩ := Option.bind_eq_some_iff.mp hg
      have hstep := hrank f outer houter
      have hrest := ih outer g hg
      omega
  intro f d hd hf
  have hself := hle d f f hf
  omega

/-- Without a cycle the frames on a way outward are all different. -/
theorem Acyclic.distance_inj (hacyclic : fs.Acyclic) (hd : fs.ancestor? d e = some g) (hn : fs.ancestor? n e = some g) :
    d = n := by
  wlog hlt : d < n generalizing d n
  · rcases Nat.lt_trichotomy d n with h | h | h
    · exact absurd h hlt
    · exact h
    · exact (this hn hd h).symm
  obtain ⟨k, rfl⟩ := Nat.exists_eq_add_of_lt hlt
  rw [Nat.add_assoc, ancestor?_add, hd, Option.bind_some] at hn
  exact absurd hn (hacyclic g (k + 1) k.succ_pos)

/-- Without a cycle no frame that exists is further outward than there are frames. -/
theorem Acyclic.distance_lt (hacyclic : fs.Acyclic) (hd : fs.ancestor? d e = some g) (hg : g < fs.next) :
    d < fs.next := by
  have hplace : ∀ i : Fin (d + 1), ∃ f : Fin fs.next, fs.ancestor? i e = some f.val := by
    intro i
    obtain ⟨k, hk⟩ := Nat.exists_eq_add_of_le (Nat.le_of_lt_succ i.isLt)
    rw [hk, ancestor?_add] at hd
    obtain ⟨f, hf, hrest⟩ := Option.bind_eq_some_iff.mp hd
    cases k with
    | zero =>
      cases hrest
      exact ⟨⟨g, hg⟩, hf⟩
    | succ k => exact ⟨⟨f, lt_next_of_ancestor?_succ hrest⟩, hf⟩
  choose place hplace using hplace
  have hinj : Function.Injective place := fun i j hij =>
    Fin.ext (hacyclic.distance_inj (hplace i) (hij ▸ hplace j))
  have hcard := Fintype.card_le_of_injective place hinj
  rwa [Fintype.card_fin, Fintype.card_fin] at hcard

/-! ### Where the walk outward ends -/

theorem getAt?_zero : fs.getAt? e 0 name = fs.here? e name := rfl

theorem getAt?_succ : fs.getAt? e (d + 1) name = (fs.enclosing? e).bind (fs.getAt? · d name) := by
  rw [getAt?, ancestor?_succ, Option.bind_assoc]
  rfl

/-- A walk that looks at `n` frames ends at the nearest of them that binds the name. -/
theorem holderWithin?_eq_some_iff {n : Nat} {e : FrameId} : fs.holderWithin? name n e = some g ↔
    ∃ d < n, fs.ancestor? d e = some g ∧ (fs.here? g name).isSome ∧ ∀ d' < d, fs.getAt? e d' name = Option.none := by
  induction n generalizing e with
  | zero =>
    constructor
    · intro h
      cases h
    · rintro ⟨d, hlt, -⟩
      exact absurd hlt (Nat.not_lt_zero d)
  | succ n ih =>
    rw [holderWithin?]
    by_cases hbinds : (fs.here? e name).isSome
    · rw [if_pos hbinds]
      constructor
      · rintro ⟨⟩
        exact ⟨0, n.succ_pos, rfl, hbinds, fun d' hd' => absurd hd' (Nat.not_lt_zero d')⟩
      · rintro ⟨d, -, hd, -, hleast⟩
        cases d with
        | zero => exact hd
        | succ d =>
          have hnone := hleast 0 d.succ_pos
          rw [getAt?_zero] at hnone
          rw [hnone] at hbinds
          cases hbinds
    · rw [if_neg hbinds]
      have hnone : fs.here? e name = Option.none := Option.not_isSome_iff_eq_none.mp hbinds
      cases houter : fs.enclosing? e with
      | none =>
        constructor
        · intro h
          cases h
        · rintro ⟨d, -, hd, hg, -⟩
          cases d with
          | zero =>
            cases hd
            exact absurd hg hbinds
          | succ d =>
            rw [ancestor?_succ, houter] at hd
            cases hd
      | some outer =>
        refine ih.trans ⟨?_, ?_⟩
        · rintro ⟨d, hlt, hd, hg, hleast⟩
          refine ⟨d + 1, Nat.succ_lt_succ hlt, by rw [ancestor?_succ, houter]; exact hd, hg, fun d' hd' => ?_⟩
          cases d' with
          | zero => exact hnone
          | succ d' =>
            rw [getAt?_succ, houter]
            exact hleast d' (Nat.lt_of_succ_lt_succ hd')
        · rintro ⟨d, hlt, hd, hg, hleast⟩
          cases d with
          | zero =>
            cases hd
            exact absurd hg hbinds
          | succ d =>
            rw [ancestor?_succ, houter] at hd
            refine ⟨d, Nat.lt_of_succ_lt_succ hlt, hd, hg, fun d' hd' => ?_⟩
            have hsucc := hleast (d' + 1) (Nat.succ_lt_succ hd')
            rwa [getAt?_succ, houter] at hsucc

/-- Without a cycle the walk outward is long enough to find the nearest frame that binds the name. -/
theorem Acyclic.holder?_eq_some_iff (hacyclic : fs.Acyclic) : fs.holder? e name = some g ↔ fs.Finds e name g := by
  refine holderWithin?_eq_some_iff.trans ⟨?_, ?_⟩
  · rintro ⟨d, -, hfound⟩
    exact ⟨d, hfound⟩
  · rintro ⟨d, hd, hg, hleast⟩
    exact ⟨d, hacyclic.distance_lt hd (lt_next_of_here? hg), hd, hg, hleast⟩

/-- If any frame on the way outward binds the name, there is a nearest one. -/
theorem sees_iff_finds : fs.Sees e name ↔ ∃ g, fs.Finds e name g := by
  constructor
  · rintro ⟨d, g, hd, hg⟩
    have hsucceeds : ∃ d, (fs.getAt? e d name).isSome := ⟨d, by rw [getAt?, hd]; exact hg⟩
    obtain ⟨v, hv⟩ := Option.isSome_iff_exists.mp (Nat.find_spec hsucceeds)
    obtain ⟨g', hg', hv⟩ := getAt?_eq_some hv
    exact ⟨g', Nat.find hsucceeds, hg', by rw [hv]; rfl, fun d' hd' =>
      Option.not_isSome_iff_eq_none.mp (Nat.find_min hsucceeds hd')⟩
  · rintro ⟨g, d, hd, hg, -⟩
    exact ⟨d, g, hd, hg⟩

theorem Acyclic.holder?_isSome_iff (hacyclic : fs.Acyclic) : (fs.holder? e name).isSome ↔ fs.Sees e name := by
  rw [sees_iff_finds, Option.isSome_iff_exists]
  exact exists_congr fun _ => hacyclic.holder?_eq_some_iff

theorem Acyclic.get?_isSome_iff (hacyclic : fs.Acyclic) : (fs.get? e name).isSome ↔ fs.Sees e name := by
  rw [← hacyclic.holder?_isSome_iff, get?]
  cases hg : fs.holder? e name with
  | none => rfl
  | some g => exact ⟨fun _ => rfl, fun _ => holderWithin?_binds hg⟩

theorem Acyclic.assign?_isSome_iff (hacyclic : fs.Acyclic) : (fs.assign? e name v).isSome ↔ fs.Sees e name := by
  rw [← hacyclic.holder?_isSome_iff, assign?, Option.isSome_map]

/-- The nearest frame that binds the name is the one at the least distance at which looking it up succeeds. -/
theorem Acyclic.holder?_eq_ancestor? (hacyclic : fs.Acyclic) (hd : IsLeast {d | (fs.getAt? e d name).isSome} d) :
    fs.holder? e name = fs.ancestor? d e ∧ ∀ g, fs.ancestor? d e = some g → (fs.here? g name).isSome := by
  obtain ⟨v, hv⟩ := Option.isSome_iff_exists.mp hd.1
  obtain ⟨g, hg, hv⟩ := getAt?_eq_some hv
  have hbinds : (fs.here? g name).isSome := by rw [hv]; rfl
  have hleast : ∀ d' < d, fs.getAt? e d' name = Option.none := fun d' hd' =>
    Option.not_isSome_iff_eq_none.mp fun hsome => absurd (hd.2 hsome) (Nat.not_le_of_lt hd')
  rw [hacyclic.holder?_eq_some_iff.mpr ⟨d, hg, hbinds, hleast⟩, hg]
  refine ⟨rfl, ?_⟩
  rintro _ ⟨⟩
  exact hbinds

theorem Acyclic.get?_eq_getAt? (hacyclic : fs.Acyclic) (hd : IsLeast {d | (fs.getAt? e d name).isSome} d) :
    fs.get? e name = fs.getAt? e d name := by
  rw [get?, getAt?, (hacyclic.holder?_eq_ancestor? hd).1]

theorem Acyclic.assign?_eq_assignAt? (hacyclic : fs.Acyclic) (hd : IsLeast {d | (fs.getAt? e d name).isSome} d) :
    fs.assign? e name v = fs.assignAt? e d name v := by
  obtain ⟨hholder, hbinds⟩ := hacyclic.holder?_eq_ancestor? hd
  rw [assign?, assignAt?, hholder]
  cases hg : fs.ancestor? d e with
  | none => rfl
  | some g => exact (if_pos (hbinds g hg)).symm

/-! ### Changing a binding -/

/-- What changing the name's binding in the frame `g` makes of the frames: lookup gives the new value where it ends at
    this binding, outward or at a distance, and what it gave before anywhere else; names and links are as before. -/
structure Overwritten (fs : Frames) (g : FrameId) (name : String) (v : Value) (fs' : Frames) : Prop where
  next : fs'.next = fs.next
  enclosing : ∀ f, fs'.enclosing? f = fs.enclosing? f
  names : ∀ f m, (fs'.here? f m).isSome = (fs.here? f m).isSome
  changed : ∀ e, fs.Finds e name g → fs'.get? e name = some v
  kept : ∀ e m, ¬ (m = name ∧ fs.Finds e m g) → fs'.get? e m = fs.get? e m
  changedAt : ∀ e d, fs.ancestor? d e = some g → fs'.getAt? e d name = some v
  keptAt : ∀ e d m, ¬ (m = name ∧ fs.ancestor? d e = some g) → fs'.getAt? e d m = fs.getAt? e d m

theorem names_define (hg : (fs.here? g name).isSome) (f : FrameId) (m : String) :
    ((fs.define g name v).here? f m).isSome = (fs.here? f m).isSome := by
  rw [here?_define]
  split
  · rename_i hsame
    obtain ⟨rfl, rfl, -⟩ := hsame
    exact hg.symm
  · rfl

/-- Where walks outward end depends on the names and the links only. -/
theorem holderWithin?_congr (henclosing : ∀ f, fs'.enclosing? f = fs.enclosing? f)
    (hnames : ∀ f m, (fs'.here? f m).isSome = (fs.here? f m).isSome) :
    ∀ (n : Nat) {e : FrameId}, fs'.holderWithin? name n e = fs.holderWithin? name n e
  | 0, _ => rfl
  | n + 1, e => by
    rw [holderWithin?, holderWithin?, hnames, henclosing]
    cases fs.enclosing? e with
    | none => rfl
    | some outer =>
      dsimp only
      rw [holderWithin?_congr henclosing hnames n]

theorem Acyclic.overwritten (hacyclic : fs.Acyclic) (hg : (fs.here? g name).isSome) :
    fs.Overwritten g name v (fs.define g name v) := by
  have hnext : (fs.define g name v).next = fs.next := next_define
  have henclosing : ∀ f, (fs.define g name v).enclosing? f = fs.enclosing? f := fun _ => enclosing?_define
  have hnames := names_define (v := v) hg
  have hholder : ∀ e m, (fs.define g name v).holder? e m = fs.holder? e m := fun e m => by
    rw [holder?, holder?, show (fs.define g name v).all.size = fs.all.size from hnext]
    exact holderWithin?_congr henclosing hnames _
  have hvalue : (fs.define g name v).here? g name = some v := by
    rw [here?_define, if_pos ⟨rfl, rfl, lt_next_of_here? hg⟩]
  have hother : ∀ f m, ¬ (m = name ∧ f = g) → (fs.define g name v).here? f m = fs.here? f m := fun f m hne => by
    rw [here?_define, if_neg fun hsame => hne ⟨hsame.2.1, hsame.1⟩]
  refine ⟨hnext, henclosing, hnames, fun e he => ?_, fun e m hne => ?_, fun e d he => ?_, fun e d m hne => ?_⟩
  · rw [get?, hholder, hacyclic.holder?_eq_some_iff.mpr he]
    exact hvalue
  · rw [get?, get?, hholder]
    cases hf : fs.holder? e m with
    | none => rfl
    | some f =>
      refine hother f m ?_
      rintro ⟨rfl, rfl⟩
      exact hne ⟨rfl, hacyclic.holder?_eq_some_iff.mp hf⟩
  · rw [getAt?, ancestor?_congr henclosing, he]
    exact hvalue
  · rw [getAt?, getAt?, ancestor?_congr henclosing]
    cases hf : fs.ancestor? d e with
    | none => rfl
    | some f =>
      refine hother f m ?_
      rintro ⟨rfl, rfl⟩
      exact hne ⟨rfl, hf⟩

theorem Acyclic.assign?_overwritten (hacyclic : fs.Acyclic) (h : fs.assign? e name v = some fs') :
    ∃ g, fs.Finds e name g ∧ fs.Overwritten g name v fs' := by
  obtain ⟨g, hg, hbinds, rfl⟩ := assign?_eq_some h
  exact ⟨g, hacyclic.holder?_eq_some_iff.mp hg, hacyclic.overwritten hbinds⟩

theorem Acyclic.assignAt?_overwritten (hacyclic : fs.Acyclic) (h : fs.assignAt? e d name v = some fs') :
    ∃ g, fs.ancestor? d e = some g ∧ fs.Overwritten g name v fs' := by
  obtain ⟨g, hg, hbinds, rfl⟩ := assignAt?_eq_some h
  exact ⟨g, hg, hacyclic.overwritten hbinds⟩

/-! ### Both ways of lookup -/

/-- The step fails as it does not find the name, and leaves the whole machine as it was. -/
def Misses {α : Type} (step : Eval α) (token : Token) (machine : Machine) : Prop :=
  step machine = .error (.failed (.undefined token)) machine

/-- A reference that is not found fails without a change, in any way of access. -/
theorem access_failed (c : Context) (id : ExprId) (token : Token) (machine : Machine) :
    (c.access.get? machine.frames machine.current id token.lexeme = Option.none →
      Misses (Eval.read c id token) token machine) ∧
    ∀ v, c.access.assign? machine.frames machine.current id token.lexeme v = Option.none →
      Misses (Eval.assign c id token v) token machine := by
  refine ⟨fun hnone => ?_, fun v hnone => ?_⟩
  · rw [Misses, Eval.read, hnone]
  · rw [Misses, Eval.assign_apply, hnone]

/-- Outward lookup from `e` succeeds, and changing a binding outward does, exactly if `e` or a frame outward of it binds
    the name, and then it is lookup or change at the least distance at which lookup succeeds. A change, outward or at a
    distance, is seen where lookup ends at the very binding and nowhere else, and nothing is found or changed past the
    root. A reading or an assignment for which nothing is found leaves the whole machine as it was. -/
theorem outward_is_nearest (hacyclic : fs.Acyclic) (e : FrameId) (name : String) :
    ((fs.get? e name).isSome ↔ fs.Sees e name) ∧
    (∀ v, (fs.assign? e name v).isSome ↔ fs.Sees e name) ∧
    (fs.Sees e name → ∃ d, IsLeast {d | (fs.getAt? e d name).isSome} d ∧ fs.get? e name = fs.getAt? e d name ∧
      ∀ v, fs.assign? e name v = fs.assignAt? e d name v) ∧
    (∀ v fs', fs.assign? e name v = some fs' → ∃ g, fs.Finds e name g ∧ fs.Overwritten g name v fs') ∧
    (∀ d v fs', fs.assignAt? e d name v = some fs' → ∃ g, fs.ancestor? d e = some g ∧ fs.Overwritten g name v fs') ∧
    (∀ d, fs.ancestor? d e = Option.none →
      fs.getAt? e d name = Option.none ∧ ∀ v, fs.assignAt? e d name v = Option.none) ∧
    ∀ (machine : Machine) (host : Host) (id : ExprId) (token : Token) (distances : Distances) (d : Nat) (v : Value),
      machine.frames = fs → machine.current = e → token.lexeme = name → distances[id]? = some d →
      (fs.get? e name = Option.none → Misses (Eval.read ⟨.outward, host⟩ id token) token machine) ∧
      (fs.assign? e name v = Option.none → Misses (Eval.assign ⟨.outward, host⟩ id token v) token machine) ∧
      (fs.getAt? e d name = Option.none → Misses (Eval.read ⟨.resolved distances, host⟩ id token) token machine) ∧
      (fs.assignAt? e d name v = Option.none →
        Misses (Eval.assign ⟨.resolved distances, host⟩ id token v) token machine) := by
  refine ⟨hacyclic.get?_isSome_iff, fun v => hacyclic.assign?_isSome_iff, fun hsees => ?_,
    fun v fs' => hacyclic.assign?_overwritten, fun d v fs' => hacyclic.assignAt?_overwritten, fun d hroot => ?_, ?_⟩
  · obtain ⟨g, d, hd, hbinds, hleast⟩ := sees_iff_finds.mp hsees
    have hsucceeds : IsLeast {d | (fs.getAt? e d name).isSome} d := by
      refine ⟨by rw [Set.mem_ofPred_eq, getAt?, hd]; exact hbinds, fun d' hd' => Nat.le_of_not_lt fun hlt => ?_⟩
      rw [Set.mem_ofPred_eq, hleast d' hlt] at hd'
      cases hd'
    exact ⟨d, hsucceeds, hacyclic.get?_eq_getAt? hsucceeds, fun v => hacyclic.assign?_eq_assignAt? hsucceeds⟩
  · refine ⟨by rw [getAt?, hroot]; rfl, fun v => by rw [assignAt?, hroot]⟩
  · rintro machine host id token distances d v rfl rfl rfl hd
    obtain ⟨hread, hassign⟩ := access_failed ⟨.outward, host⟩ id token machine
    obtain ⟨hreadAt, hassignAt⟩ := access_failed ⟨.resolved distances, host⟩ id token machine
    simp only [Access.get?, Access.assign?, hd] at hreadAt hassignAt
    exact ⟨hread, hassign v, hreadAt, hassignAt v⟩

/-- Two frames share the one that they stand inside. A change from the one of them that does not bind the name is seen
    from the shared frame, and neither from the other, which binds the name itself, nor from the root. -/
theorem outward_is_nearest_shared : ∃ fs fs' : Frames, fs.Acyclic ∧ fs.assign? 0 "a" .nil = some fs' ∧
    fs'.get? 2 "a" = some .nil ∧ fs'.get? 1 "a" = some (.bool true) ∧ fs'.get? 3 "a" = some (.bool false) := by
  let fs : Frames := ⟨#[⟨some 2, []⟩, ⟨some 2, [("a", .bool true)]⟩, ⟨some 3, [("a", .string "s")]⟩,
    ⟨.none, [("a", .bool false)]⟩]⟩
  have hacyclic : fs.Acyclic := by
    refine acyclic_of_rank (fun f => 4 - f) fun f g hg => ?_
    have hplace : ∀ i : Nat, i < 4 → i = 0 ∨ i = 1 ∨ i = 2 ∨ i = 3 := by omega
    obtain rfl | rfl | rfl | rfl := hplace f (lt_next_of_enclosing? hg)
    all_goals cases hg
    all_goals decide
  obtain ⟨-, -, -, hchanges, -⟩ := outward_is_nearest hacyclic 0 "a"
  have hassign : fs.assign? 0 "a" .nil = some (fs.define 2 "a" .nil) := rfl
  obtain ⟨g, hfinds, hover⟩ := hchanges _ _ hassign
  obtain rfl : 2 = g := Option.some.inj (hacyclic.holder?_eq_some_iff.mpr hfinds)
  have hends : ∀ e g, fs.holder? e "a" = some g → g ≠ 2 → ¬ ("a" = "a" ∧ fs.Finds e "a" 2) := fun e g hg hne hsame =>
    hne (Option.some.inj (hg.symm.trans (hacyclic.holder?_eq_some_iff.mpr hsame.2)))
  exact ⟨fs, _, hacyclic, hassign, hover.changed 2 (hacyclic.holder?_eq_some_iff.mp rfl),
    hover.kept 1 "a" (hends 1 1 rfl (by decide)), hover.kept 3 "a" (hends 3 3 rfl (by decide))⟩

end Frames
end Lox
