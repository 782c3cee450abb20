import Lox.Proofs.Evaluation.Indistinct
import Lox.Proofs.Sessions

/-! # Lookup by distance and outward lookup

Looking a name up outward from the current frame finds the same frame as the distance of the reference,
if no region around the reference declares the name only later (`Site.Settled`): then a frame of a region
binds the name exactly if the region declares it. A program all of whose references are settled runs the
same with either way of access (`run_eq_outward`). -/

namespace Lox

/-- Every region around the place that declares the name at all has finished its first declaration. -/
def Site.Settled (t : Site) : Prop := ∀ r ∈ t.regions, t.name ∈ r.names → t.name ∈ r.declared

instance (t : Site) : Decidable t.Settled :=
  inferInstanceAs (Decidable (∀ r ∈ t.regions, t.name ∈ r.names → t.name ∈ r.declared))

/-! ### Where outward lookup ends -/

namespace Frames
variable {fs : Frames} {f : FrameId} {name : String}

theorem holderWithin?_of_binds {n : Nat} (h : (fs.here? f name).isSome) : fs.holderWithin? name (n + 1) f = some f := by
  rw [holderWithin?, if_pos h]

theorem holderWithin?_outer {n : Nat} {g : FrameId} (h : (fs.here? f name).isSome = false)
    (hg : fs.enclosing? f = some g) : fs.holderWithin? name (n + 1) f = fs.holderWithin? name n g := by
  rw [holderWithin?, h, hg]
  rfl

/-- The walk outward along a chain ends at the frame of the first region that has begun to declare the
    name, or at the globals if none has. -/
theorem Chain.holderWithin?_eq {roster : Roster} (houter : fs.enclosing? globals = .none)
    (hinward : ∀ f g, fs.enclosing? f = some g → g < f)
    (hroster : ∀ f name, f ≠ globals → (fs.here? f name).isSome → name ∈ roster f) :
    ∀ {rs : List Region} {f : FrameId} {n : Nat}, fs.Chain roster f rs → f < n →
      (∀ r ∈ rs, name ∈ r.names → name ∈ r.declared) → (∀ r ∈ rs, r.enters name = true → name ∈ r.names) →
        fs.holderWithin? name n f =
          match rs.findIdx? (·.enters name) with
          | some distance => fs.ancestor? distance f
          | .none => if (fs.here? globals name).isSome then some globals else .none
  | [], f, n + 1, h, _, _, _ => by
    cases h
    exact holderWithin?_globals houter
  | r :: outer, f, n + 1, ⟨hnames, hdeclared, g, hg, hchain⟩, hlt, hsettled, henters => by
    have hne : f ≠ globals := by
      intro hf
      rw [hf, houter] at hg
      cases hg
    rw [List.findIdx?_cons]
    cases hr : r.enters name with
    | true =>
      have hmem := hsettled r List.mem_cons_self (henters r List.mem_cons_self hr)
      rw [holderWithin?_of_binds (hdeclared name hmem)]
      rfl
    | false =>
      have hbinds : (fs.here? f name).isSome = false := by
        refine Bool.eq_false_iff.mpr ?_
        intro hb
        have hmem := hsettled r List.mem_cons_self (hnames ▸ hroster f name hne hb)
        rw [Region.enters, List.contains_iff_mem.mpr hmem, Bool.or_true] at hr
        cases hr
      have ih := Chain.holderWithin?_eq houter hinward hroster hchain
        (Nat.lt_of_lt_of_le (hinward f g hg) (Nat.le_of_lt_succ hlt))
        (fun r' hr' => hsettled r' (List.mem_cons_of_mem _ hr'))
        fun r' hr' => henters r' (List.mem_cons_of_mem _ hr')
      rw [holderWithin?_outer hbinds hg, ih]
      cases outer.findIdx? (·.enters name) with
      | none => rfl
      | some distance => simp [Frames.ancestor?, hg]

end Frames

/-! ### The two ways of access -/

section
variable {Q : Site → Prop} {w : World} {rs : List Region} {ref : Reference} {distances : Distances}

/-- What the regions of a chain have declared is among what they declare at all. -/
theorem World.Sound.declared_names (hs : w.Sound Q) : ∀ {rs : List Region} {f : FrameId},
    w.frames.Chain w.roster f rs → ∀ r ∈ rs, ∀ n ∈ r.declared, n ∈ r.names
  | r :: outer, f, ⟨hnames, hdeclared, g, hg, houter⟩, r', hr', n, hn => by
    rcases List.mem_cons.mp hr' with rfl | hr'
    · have hne : f ≠ Frames.globals := fun hf => by
        rw [hf, hs.outermost] at hg
        cases hg
      exact hnames ▸ hs.names f n hne (hdeclared n hn)
    · exact declared_names hs houter r' hr' n hn

/-- Outward lookup of a settled reference ends where its distance leads to. -/
theorem World.Sound.holder?_eq (hs : w.Sound Q) (hat : w.At rs) (hsettled : (⟨rs, ref⟩ : Site).Settled)
    (hopening : ∀ r ∈ rs, r.opening = some ref.name.lexeme → ref.name.lexeme ∈ r.names) :
    w.frames.holder? w.current ref.name.lexeme =
      match (⟨rs, ref⟩ : Site).distance? with
      | some distance => w.frames.ancestor? distance w.current
      | none => w.frames.holder? Frames.globals ref.name.lexeme := by
  have henters : ∀ r ∈ rs, r.enters ref.name.lexeme = true → ref.name.lexeme ∈ r.names := by
    intro r hr he
    rw [Region.enters, Bool.or_eq_true, beq_iff_eq, List.contains_iff_mem] at he
    rcases he with he | he
    · exact hopening r hr he
    · exact hs.declared_names hat r hr _ he
  have hlt : w.current < w.frames.all.size := hat.lt_next hs
  have hlookup := Frames.Chain.holderWithin?_eq hs.outermost hs.inward hs.names hat hlt hsettled henters
  rw [Frames.holder?_globals hs.outermost hs.exist]
  exact hlookup

/-- Where the table holds its distance, a settled reference stands for the same under both ways of
    access. -/
theorem World.Sound.get?_eq (hs : w.Sound Q) (hat : w.At rs) (hsettled : (⟨rs, ref⟩ : Site).Settled)
    (hopening : ∀ r ∈ rs, r.opening = some ref.name.lexeme → ref.name.lexeme ∈ r.names)
    (htable : distances[ref.id]? = (⟨rs, ref⟩ : Site).distance?) :
    (Access.resolved distances).get? w.frames w.current ref.id ref.name.lexeme =
      Access.outward.get? w.frames w.current ref.id ref.name.lexeme := by
  have hholder := hs.holder?_eq hat hsettled hopening
  simp only [Access.get?, Frames.get?, hholder, htable]
  cases (⟨rs, ref⟩ : Site).distance? <;> rfl

theorem World.Sound.assign?_eq (hs : w.Sound Q) (hat : w.At rs) (hsettled : (⟨rs, ref⟩ : Site).Settled)
    (hopening : ∀ r ∈ rs, r.opening = some ref.name.lexeme → ref.name.lexeme ∈ r.names)
    (htable : distances[ref.id]? = (⟨rs, ref⟩ : Site).distance?) (v : Value) :
    (Access.resolved distances).assign? w.frames w.current ref.id ref.name.lexeme v =
      Access.outward.assign? w.frames w.current ref.id ref.name.lexeme v := by
  have hholder := hs.holder?_eq hat hsettled hopening
  simp only [Access.assign?, Frames.assign?, htable]
  cases hd : (⟨rs, ref⟩ : Site).distance? with
  | none =>
    rw [hd] at hholder
    rw [hholder]
  | some distance =>
    rw [hd] at hholder
    have hbinds : ∀ g, w.frames.ancestor? distance w.current = some g → (w.frames.here? g ref.name.lexeme).isSome :=
      fun g hg => Frames.holderWithin?_binds (hholder.trans hg)
    have hholder : w.frames.holder? w.current ref.name.lexeme = w.frames.ancestor? distance w.current := hholder
    dsimp only
    rw [hholder, Frames.assignAt?]
    cases hg : w.frames.ancestor? distance w.current with
    | none => rfl
    | some g => exact if_pos (hbinds g hg)

end

/-! ### Programs -/

/-- In a program the variable whose initializer a site is in is declared by the region. -/
theorem Site.opening_mem {program : List Stmt} {t : Site} (ht : t ∈ sitesOf program) {r : Region} (hr : r ∈ t.regions)
    {n : String} (hn : r.opening = some n) : n ∈ r.names := by
  have hclosed : Region.AllClosed [] := by simp [Region.AllClosed]
  have htail := Stmt.closed_tail_all hclosed ht
  have hhead := Stmt.opening_mem_all hclosed (by simp [Region.Admits]) ht
  cases hregions : t.regions with
  | nil => simp [hregions] at hr
  | cons r' outer =>
    rw [hregions] at hr hhead htail
    rcases List.mem_cons.mp hr with rfl | hr
    · exact hhead r rfl n hn
    · rw [htail r hr] at hn
      cases hn

namespace Session
variable {host : Host} {s s' : Session} {text : String} {program : List Stmt}

/-- Before anything was run, both ways of access agree at every moment of a program whose references are settled. -/
theorem agreeFrom_outward (hhost : host.Honest) (h : s.Reachable host []) (hs : s.Starts text program s')
    (hsettled : ∀ t ∈ sitesOf program, t.Settled) (fuel : Nat) :
    Moment.AgreeFrom (s'.context host) ⟨.outward, host⟩ ⟨fuel, .program program, s'.machine⟩ := by
  intro mo hv
  have hsound := (h.sound hhost).starts hs
  have hmo := hv.sound hhost (hsound.moment hs.plain)
  have hsite : ∀ {ref : Reference}, mo.reference? = some ref →
      ∃ roster rs, World.Sound (OfPrograms [program]) ⟨mo.machine, roster⟩ ∧
      World.At ⟨mo.machine, roster⟩ rs ∧ (⟨rs, ref⟩ : Site).Settled ∧
        (∀ r ∈ rs, r.opening = some ref.name.lexeme → ref.name.lexeme ∈ r.names) ∧
          s'.distances[ref.id]? = (⟨rs, ref⟩ : Site).distance? := by
    intro ref href
    obtain ⟨roster, rs, hworld, hat, hQ⟩ := hmo.reference href
    obtain ⟨P, hP, ht⟩ := hQ
    rw [List.mem_singleton.mp hP] at ht
    exact ⟨roster, rs, hworld, hat, hsettled _ ht, fun r hr hn => Site.opening_mem ht hr hn,
      hsound.table _ ⟨program, List.mem_singleton_self _, ht⟩⟩
  unfold Moment.Agree
  split
  · rename_i id name htask
    have href : mo.reference? = some ⟨false, id, name⟩ := by rw [Moment.reference?, htask]
    obtain ⟨roster, rs, hworld, hat, hset, hopening, htable⟩ := hsite href
    unfold Eval.read
    rw [context, hworld.get?_eq hat hset hopening htable]
  · rename_i id name v htask
    have href : mo.reference? = some ⟨true, id, name⟩ := by rw [Moment.reference?, htask]
    obtain ⟨roster, rs, hworld, hat, hset, hopening, htable⟩ := hsite href
    rw [Eval.assign_apply, Eval.assign_apply, context, hworld.assign?_eq hat hset hopening htable]
  · trivial

/-- The first program of a session, in which the host may have added functions, runs as if every variable were looked
    up outward, if none of its references stands before the end of the first declaration of its name in a region
    around it. -/
theorem run_eq_outward (hhost : host.Honest) (h : s.Reachable host []) (hs : s.Starts text program s')
    (hsettled : ∀ t ∈ sitesOf program, t.Settled) (fuel : Nat) :
    s.run host fuel text = s'.interpretIn ⟨.outward, host⟩ fuel program := by
  have hagree := agreeFrom_outward hhost h hs hsettled fuel
  have hsameHost : (s'.context host).host = (⟨.outward, host⟩ : Context).host := rfl
  have hsame : Eval.program (s'.context host) fuel program s'.machine =
      Eval.program ⟨.outward, host⟩ fuel program s'.machine :=
    Moment.same_of_agree hsameHost fuel (.program program) s'.machine hagree
  rw [run_of_starts hs, interpret, interpretIn, interpretIn, hsame]

/-- A function that outlives the call that made it runs the same with either way of access. -/
theorem run_eq_outward_escaping : ∃ (s' : Session) (program : List Stmt), (Host.withTime fun _ => 0).Honest ∧
    (Session.new .unlimited).Reachable (Host.withTime fun _ => 0) [] ∧
    (Session.new .unlimited).Starts "fun f(x)\x7bfun g()\x7breturn x;\x7dreturn g;\x7dprint f(true)();" program s' ∧
      (∀ t ∈ sitesOf program, t.Settled) ∧
      (Session.new .unlimited).run (Host.withTime fun _ => 0) 40
          "fun f(x)\x7bfun g()\x7breturn x;\x7dreturn g;\x7dprint f(true)();" =
        s'.interpretIn ⟨.outward, Host.withTime fun _ => 0⟩ 40 program := by
  have hs : (Session.new .unlimited).Starts "fun f(x)\x7bfun g()\x7breturn x;\x7dreturn g;\x7dprint f(true)();" _ _ :=
    ⟨by decide +kernel, rfl, by decide +kernel, rfl⟩
  have hsettled : ∀ t ∈ sitesOf (Source.read "fun f(x)\x7bfun g()\x7breturn x;\x7dreturn g;\x7dprint f(true)();"
      (Session.new .unlimited).nextId).parsed.statements, t.Settled := by decide +kernel
  have hhonest := Host.withTime_honest fun _ => 0
  exact ⟨_, _, hhonest, .new .unlimited, hs, hsettled, run_eq_outward hhonest (.new .unlimited) hs hsettled 40⟩

end Session
end Lox
