import Lox.Proofs.Evaluation.Held
import Lox.Proofs.Evaluation.Indistinct
import Lox.Proofs.Lookup
import Lox.Proofs.Sessions

/-! # Scope chains end at the globals

Frames are made inside frames that are there already, and the links between them never change. So the way outward from
any frame ends at the globals, the only frame that stands inside no other (`Frames.Rooted`), and a lookup looks at each
frame on it once and comes to an end (`Frames.Looks`). Evaluation keeps frames so, and with them the frames that its
functions were made in (`rooted_stable`). All of this holds between the runs of a session and in the middle of
one, for functions in frames and for those that evaluation holds meanwhile (`Session.chains_rooted`). -/

namespace Lox
namespace Frames

/-- Every frame but the globals stands inside an earlier one, and the globals inside none. -/
structure Rooted (fs : Frames) : Prop where
  exist : globals < fs.next
  outermost : fs.enclosing? globals = Option.none
  inward : ∀ f, f < fs.next → f ≠ globals → ∃ g, fs.enclosing? f = some g ∧ g < f

/-- The way outward from the frame comes to the globals. -/
def LeadsOut (fs : Frames) (f : FrameId) : Prop := ∃ d, fs.ancestor? d f = some globals

/-- A lookup of the name that goes outward as far as it has to, without a bound: the frames that it looks at in their
    order, and the last of them if that binds the name. -/
inductive Looks (fs : Frames) (name : String) : FrameId → List FrameId → Option FrameId → Prop
  | here {f : FrameId} (h : (fs.here? f name).isSome) : Looks fs name f [f] (some f)
  | root {f : FrameId} (h : fs.here? f name = Option.none) (houter : fs.enclosing? f = Option.none) :
    Looks fs name f [f] Option.none
  | outward {f g : FrameId} {path : List FrameId} {holder : Option FrameId} (h : fs.here? f name = Option.none)
      (houter : fs.enclosing? f = some g) (hlooks : Looks fs name g path holder) : Looks fs name f (f :: path) holder

theorem Looks.unique {fs : Frames} {name : String} {f : FrameId} {path path' : List FrameId}
    {holder holder' : Option FrameId}
    (h : fs.Looks name f path holder) (h' : fs.Looks name f path' holder') : path' = path ∧ holder' = holder := by
  induction h generalizing path' with
  | here h =>
    cases h' with
    | here => exact ⟨rfl, rfl⟩
    | root hnone | outward hnone => simp [hnone] at h
  | root hnone houter =>
    cases h' with
    | here h => simp [hnone] at h
    | root => exact ⟨rfl, rfl⟩
    | outward _ houter' => simp [houter] at houter'
  | outward hnone houter _ ih =>
    cases h' with
    | here h => simp [hnone] at h
    | root _ houter' => simp [houter] at houter'
    | outward _ houter' hlooks =>
      obtain rfl := Option.some.inj (houter.symm.trans houter')
      obtain ⟨rfl, rfl⟩ := ih hlooks
      exact ⟨rfl, rfl⟩

namespace Rooted
variable {fs : Frames} {f g : FrameId} {name : String} {v : Value} {d : Nat}

theorem older (h : fs.Rooted) (hg : fs.enclosing? f = some g) : g < f := by
  by_cases hf : f = globals
  · rw [hf, h.outermost] at hg
    cases hg
  · obtain ⟨g', hg', hlt⟩ := h.inward f (lt_next_of_enclosing? hg) hf
    obtain rfl : g' = g := Option.some.inj (hg'.symm.trans hg)
    exact hlt

theorem acyclic (h : fs.Rooted) : fs.Acyclic := acyclic_of_rank id fun _ _ hg => h.older hg

theorem leadsOut (h : fs.Rooted) (hf : f < fs.next) : fs.LeadsOut f := by
  induction f using Nat.strong_induction_on with
  | _ f ih =>
    by_cases hglobals : f = globals
    · exact ⟨0, congrArg some hglobals⟩
    · obtain ⟨g, hg, hlt⟩ := h.inward f hf hglobals
      obtain ⟨d, hd⟩ := ih g hlt (Nat.lt_trans hlt hf)
      exact ⟨d + 1, by rw [ancestor?_succ, hg]; exact hd⟩

/-- No way goes on behind the globals. -/
theorem ancestor?_isSome_iff (h : fs.Rooted) (hd : fs.ancestor? d f = some globals) (n : Nat) :
    (fs.ancestor? n f).isSome ↔ n ≤ d := by
  constructor
  · intro hn
    by_contra hlt
    obtain ⟨k, rfl⟩ := Nat.exists_eq_add_of_lt (Nat.lt_of_not_le hlt)
    rw [Nat.add_assoc, ancestor?_add, hd, Option.bind_some, ancestor?_succ, h.outermost] at hn
    cases hn
  · intro hn
    obtain ⟨k, rfl⟩ := Nat.exists_eq_add_of_le hn
    rw [ancestor?_add] at hd
    obtain ⟨g, hg, -⟩ := Option.bind_eq_some_iff.mp hd
    rw [hg]
    rfl

/-- A lookup comes to its end, looks at no frame twice, and finds what the bounded one does. -/
theorem looks (h : fs.Rooted) (name : String) : ∀ {n : Nat} {f : FrameId}, f < n → ∃ path,
    fs.Looks name f path (fs.holderWithin? name n f) ∧ path.Nodup ∧ ∀ g ∈ path, g ≤ f
  | n + 1, f, hf => by
    rw [holderWithin?]
    by_cases hbinds : (fs.here? f name).isSome
    · rw [if_pos hbinds]
      exact ⟨[f], .here hbinds, List.nodup_singleton f, fun g hg => Nat.le_of_eq (List.mem_singleton.mp hg)⟩
    · have hnone := Option.not_isSome_iff_eq_none.mp hbinds
      rw [if_neg hbinds]
      cases houter : fs.enclosing? f with
      | none =>
        exact ⟨[f], .root hnone houter, List.nodup_singleton f, fun g hg => Nat.le_of_eq (List.mem_singleton.mp hg)⟩
      | some outer =>
        have hlt := h.older houter
        obtain ⟨path, hlooks, hnodup, hle⟩ := h.looks name (Nat.lt_of_lt_of_le hlt (Nat.le_of_lt_succ hf))
        refine ⟨f :: path, .outward hnone houter hlooks, ?_, ?_⟩
        · exact List.nodup_cons.mpr ⟨fun hmem => absurd (hle f hmem) (Nat.not_le_of_lt hlt), hnodup⟩
        · exact List.forall_mem_cons.mpr ⟨Nat.le_refl f, fun g hg => Nat.le_trans (hle g hg) (Nat.le_of_lt hlt)⟩

/-! ### Changes -/

theorem initial : Frames.initial.Rooted where
  exist := by decide
  outermost := enclosing?_initial
  inward f hf hne := absurd (Nat.lt_one_iff.mp hf) hne

theorem define (h : fs.Rooted) (f : FrameId) (name : String) (v : Value) : (fs.define f name v).Rooted where
  exist := Nat.lt_of_lt_of_eq h.exist next_define.symm
  outermost := enclosing?_define.trans h.outermost
  inward g hg hne := by
    rw [enclosing?_define]
    exact h.inward g (Nat.lt_of_lt_of_eq hg next_define) hne

theorem push {frame : Frame} {outer : FrameId} (h : fs.Rooted) (houter : frame.enclosing = some outer)
    (hlt : outer < fs.next) : (fs.push frame).Rooted where
  exist := Nat.lt_of_lt_of_le h.exist Grows.push.next
  outermost := by
    rw [enclosing?_push, if_neg (Nat.ne_of_lt h.exist)]
    exact h.outermost
  inward g hg hne := by
    rw [enclosing?_push]
    split
    · rename_i hnew
      exact ⟨outer, houter, hnew ▸ hlt⟩
    · rename_i hold
      rw [next_push] at hg
      exact h.inward g (Nat.lt_of_le_of_ne (Nat.le_of_lt_succ hg) hold) hne

end Rooted
end Frames

/-! ### Machines -/

/-- If the value is a function of the program, its frame is one of the first frames, so many of them. -/
def Value.MadeWithin (frames : Nat) (v : Value) : Prop := ∀ f, v = .function f → f.frame < frames

/-- The frames are rooted, and the current frame and those of all functions are among them. -/
structure Machine.Rooted (m : Machine) : Prop where
  frames : m.frames.Rooted
  current : m.current < m.frames.next
  values : ∀ f name v, m.frames.here? f name = some v → v.MadeWithin m.frames.next

/-- With so many frames the machine is rooted, and so are values. -/
def rooted : Invariant Nat where
  before := (· ≤ ·)
  machine frames m := m.frames.next = frames ∧ m.Rooted
  value frames v := v.MadeWithin frames
  function _ := True

namespace Machine.Rooted
variable {m m' : Machine}

theorem at_stage (h : m.Rooted) : rooted.machine m.frames.next m := ⟨rfl, h⟩

theorem define {v : Value} (h : m.Rooted) (f : FrameId) (name : String) (hv : v.MadeWithin m.frames.next) :
    Machine.Rooted { m with frames := m.frames.define f name v } where
  frames := h.frames.define f name v
  current := Nat.lt_of_lt_of_eq h.current Frames.next_define.symm
  values g n u hu := by
    rw [Frames.here?_define] at hu
    rw [Frames.next_define]
    split at hu
    · cases hu
      exact hv
    · exact h.values g n u hu

theorem push {frame : Frame} {outer : FrameId} (h : m.Rooted) (houter : frame.enclosing = some outer)
    (hlt : outer < m.frames.next) (hframe : ∀ name v, frame.get? name = some v → v.MadeWithin m.frames.next) :
    Machine.Rooted { m with frames := m.frames.push frame, current := m.frames.next } where
  frames := h.frames.push houter hlt
  current := Nat.lt_of_lt_of_eq (Nat.lt_succ_self _) Frames.next_push.symm
  values g n u hu f hf := by
    rw [Frames.here?_push] at hu
    rw [Frames.next_push]
    split at hu
    · exact Nat.lt_succ_of_lt (hframe n u hu f hf)
    · exact Nat.lt_succ_of_lt (h.values g n u hu f hf)

/-- Only the frames and which of them is current matter. -/
theorem congr (h : m.Rooted) (hframes : m'.frames = m.frames) (hcurrent : m'.current = m.current) : m'.Rooted where
  frames := hframes ▸ h.frames
  current := by rw [hframes, hcurrent]; exact h.current
  values := by rw [hframes]; exact h.values

theorem initial (sink : Sink) : (Machine.initial sink).Rooted where
  frames := Frames.Rooted.initial.define _ _ _
  current := Nat.lt_of_lt_of_eq (m := Frames.initial.next) Nat.zero_lt_one Frames.next_define.symm
  values f name v hv := by
    have hv := Frames.here?_define.symm.trans hv
    split at hv
    · cases hv
      nofun
    · rw [Frames.here?_initial] at hv
      cases hv

end Machine.Rooted

/-- Evaluation keeps machines rooted, if the host makes no functions of the program. -/
theorem rooted_stable {c : Context} (hhost : c.host.Honest) : rooted.Stable c where
  refl := Nat.le_refl
  trans := Nat.le_trans
  later hle h f hf := Nat.lt_of_lt_of_le (h f hf) hle
  plain h f hf := absurd hf (h f)
  bound h hv := h.1 ▸ h.2.values _ _ _ hv
  quiet h hframes hcurrent _ := ⟨hframes ▸ h.1, h.2.congr hframes hcurrent⟩
  define f name h hv := ⟨Frames.next_define.trans h.1, h.2.define f name (h.1.symm ▸ hv)⟩
  declare {frames m} d h _ := by
    refine ⟨frames, Nat.le_refl _, Frames.next_define.trans h.1, ?_⟩
    have hmade : Value.MadeWithin m.frames.next (.function ⟨m.nextIdentity, d, m.current⟩) := by
      rintro _ ⟨⟩
      exact h.2.current
    exact (h.2.define m.current d.name.lexeme hmade).congr rfl rfl
  host hv hargs f hf := by
    subst hf
    exact hargs _ (hhost _ _ _ _ hv) f rfl
  block {frames m} h := by
    refine ⟨frames + 1, Nat.le_succ _, ?_, h.2.push rfl h.2.current fun name v hv => by cases hv⟩
    rw [Frames.next_push, h.1]
  call {frames m f arguments} h hf hargs := by
    refine ⟨frames + 1, Nat.le_succ _, ?_, h.2.push Closure.enclosing_callFrame ?_ fun name v hv => ?_⟩
    · rw [Frames.next_push, h.1]
    · exact Nat.lt_of_lt_of_eq (hf f rfl) h.1.symm
    · exact h.1.symm ▸ hargs v (Closure.of_get?_callFrame hv).2
  leave h hle h' := by
    refine ⟨h'.1, h'.2.frames, ?_, h'.2.values⟩
    rw [h'.1]
    exact Nat.lt_of_lt_of_le (h.1 ▸ h.2.current) hle
  body _ _ _ := trivial

/-! ### Sessions -/

namespace Session
variable {host : Host} {s s' : Session} {texts : List String} {text : String} {program : List Stmt} {fuel : Nat}
  {m m' : Machine}

/-- A session with the host comes to the machine, between its runs or in the middle of one, where a task begins or where
    one ends. Evaluation then holds the values that have the property, besides those in frames. -/
inductive Passes (host : Host) : Machine → (Value → Prop) → Prop
  | rest {texts : List String} {s : Session} (h : s.Reachable host texts) : Passes host s.machine fun _ => False
  | begins {texts : List String} {s s' : Session} {text : String} {program : List Stmt} {fuel : Nat} {mo : Moment}
      (h : s.Reachable host texts) (hs : s.Starts text program s')
      (hv : Moment.Visits (s'.context host) ⟨fuel, .program program, s'.machine⟩ mo) :
    Passes host mo.machine (Moment.Holds (s'.context host) ⟨fuel, .program program, s'.machine⟩ mo)
  | ends {texts : List String} {s s' : Session} {text : String} {program : List Stmt} {fuel : Nat} {mo : Moment}
      (h : s.Reachable host texts) (hs : s.Starts text program s')
      (hv : Moment.Visits (s'.context host) ⟨fuel, .program program, s'.machine⟩ mo) :
    Passes host (mo.final (s'.context host)) fun v =>
      Moment.Holds (s'.context host) ⟨fuel, .program program, s'.machine⟩ mo v ∨ mo.Yields (s'.context host) v

/-- In the order of time a session with the host comes from the first machine to the second. -/
inductive Later (host : Host) : Machine → Machine → Prop
  | refl {m : Machine} : Later host m m
  | trans {m m' m'' : Machine} (h : Later host m m') (h' : Later host m' m'') : Later host m m''
  | register {s : Session} (key name : String) (arity : Nat) : Later host s.machine (s.register key name arity).machine
  | run {s : Session} (fuel : Nat) (text : String) : Later host s.machine (s.run host fuel text).session.machine
  /-- A part of a task begins. -/
  | enter {s : Session} {a b : Moment} (h : Moment.Enters (s.context host) a b) : Later host a.machine b.machine
  /-- A task ends. -/
  | finish {s : Session} (a : Moment) : Later host a.machine (a.final (s.context host))
  /-- A part of a task has ended, and then the task ends. -/
  | leave {s : Session} {a b : Moment} (h : Moment.Enters (s.context host) a b) :
    Later host (b.final (s.context host)) (a.final (s.context host))
  /-- A program has ended, and then its run ends. -/
  | stop {s s' : Session} {text : String} {program : List Stmt} {fuel : Nat} (hs : s.Starts text program s') :
    Later host (Moment.final (s'.context host) ⟨fuel, .program program, s'.machine⟩)
      (s.run host fuel text).session.machine

theorem interpretIn_rooted {context : Context} (hhost : context.host.Honest) (h : s.machine.Rooted) :
    (s.interpretIn context fuel program).session.machine.Rooted := by
  obtain ⟨hframes, hcurrent, -, -⟩ := @interpretIn_session s program fuel context
  obtain ⟨-, -, ⟨-, hrooted⟩, -⟩ := (rooted_stable hhost).program fuel h.at_stage fun _ _ => trivial
  exact hrooted.congr hframes hcurrent

/-- Between its runs the machine of a session is rooted. -/
theorem Reachable.rooted (hhost : host.Honest) (h : s.Reachable host texts) : s.machine.Rooted := by
  induction h with
  | new sink => exact .initial sink
  | register _ key name arity ih => exact (ih.define Frames.globals name fun f hf => by cases hf).congr rfl rfl
  | @run _ s _ fuel text ih =>
    rcases run_cases host s fuel text with ⟨diagnostics, hrun⟩ | ⟨s', hmachine, hrun⟩
    · rw [hrun]
      exact ih
    · rw [hrun]
      exact interpretIn_rooted hhost (hmachine ▸ ih)

/-- The moment at which a program begins to run. -/
theorem Reachable.rooted_at (hhost : host.Honest) (h : s.Reachable host texts) (hs : s.Starts text program s')
    (fuel : Nat) : Lox.rooted.At s'.machine.frames.next ⟨fuel, .program program, s'.machine⟩ where
  machine := (hs.machine_eq ▸ h.rooted hhost : s'.machine.Rooted).at_stage
  task _ _ := trivial

/-- At any time the machine is rooted, and so are the values that evaluation holds. -/
theorem Passes.rooted {held : Value → Prop} (hhost : host.Honest) (h : Passes host m held) :
    m.Rooted ∧ ∀ v, held v → v.MadeWithin m.frames.next := by
  cases h with
  | rest h => exact ⟨h.rooted hhost, nofun⟩
  | @begins _ _ s' _ _ fuel _ h hs hv =>
    have S : Lox.rooted.Stable (s'.context host) := rooted_stable hhost
    have hstart := h.rooted_at hhost hs fuel
    obtain ⟨-, -, ⟨-, hrooted⟩, -⟩ := S.visits hv hstart
    refine ⟨hrooted, fun v hheld => ?_⟩
    obtain ⟨-, -, ⟨⟨rfl, -⟩, -⟩, hvalue⟩ := S.holds hheld hstart
    exact hvalue
  | @ends _ _ s' _ _ fuel mo h hs hv =>
    have S : Lox.rooted.Stable (s'.context host) := rooted_stable hhost
    have hstart := h.rooted_at hhost hs fuel
    obtain ⟨frames, -, hmo⟩ := S.visits hv hstart
    obtain ⟨-, -, ⟨rfl, hrooted⟩, hyields⟩ := S.ends hmo
    refine ⟨hrooted, fun v hheld => ?_⟩
    rcases hheld with hheld | hyielded
    · obtain ⟨-, -, ⟨⟨rfl, -⟩, -⟩, hvalue⟩ := S.holds hheld hstart
      exact S.later mo.grows_final.next hvalue
    · exact hyields v hyielded

/-- In the course of time frames are added, and no link outward changes. -/
theorem Later.grows (h : Later host m m') : m.frames.Grows m'.frames := by
  induction h with
  | refl => exact .refl _
  | trans _ _ ih ih' => exact ih.trans ih'
  | register key name arity => exact .define
  | run fuel text => exact (run_respects Machine.Keeps.respected fun m => .of_eq rfl rfl rfl).frames
  | enter h => exact h.grows
  | finish a => exact a.grows_final
  | leave h => exact h.leaves
  | @stop s s' text program fuel hs =>
    rw [run_of_starts hs, interpret, (interpretIn_session _).1]
    exact .refl _

end Session

/-- At any time in a session, between its runs or in the middle of one, every frame but the globals stands inside an
    earlier one. From the current frame, and from the frame of each function in a frame or held by evaluation, the way
    outward leads to the globals. The way from any frame is finite and comes to no frame twice, so a lookup ends and
    looks at no frame twice. No link changes in the course of time. -/
theorem Session.chains_rooted {host : Host} (hhost : host.Honest) :
    (∀ m held, Session.Passes host m held →
      m.frames.Rooted ∧ m.frames.LeadsOut m.current ∧
      (∀ v, (held v ∨ ∃ g name, m.frames.here? g name = some v) → ∀ f, v = .function f → m.frames.LeadsOut f.frame) ∧
      ∀ f, f < m.frames.next →
        (∃ d, ∀ n, (m.frames.ancestor? n f).isSome ↔ n ≤ d) ∧
        (∀ i j g, m.frames.ancestor? i f = some g → m.frames.ancestor? j f = some g → i = j) ∧
        ∀ name, (∃ path holder, m.frames.Looks name f path holder) ∧
          ∀ path holder, m.frames.Looks name f path holder → path.Nodup ∧
            m.frames.get? f name = holder.bind (m.frames.here? · name) ∧
            ∀ v, m.frames.assign? f name v = holder.map fun g => m.frames.define g name v) ∧
    ∀ m m', Session.Later host m m' → ∀ f, f < m.frames.next →
      f < m'.frames.next ∧ m'.frames.enclosing? f = m.frames.enclosing? f := by
  refine ⟨fun m held hpasses => ?_, fun m m' hlater f hf => ?_⟩
  · obtain ⟨hm, hheld⟩ := hpasses.rooted hhost
    refine ⟨hm.frames, hm.frames.leadsOut hm.current, fun v hv f hfunction => hm.frames.leadsOut ?_, fun f hf => ?_⟩
    · rcases hv with hv | ⟨g, name, hv⟩
      · exact hheld v hv f hfunction
      · exact hm.values g name v hv f hfunction
    · obtain ⟨d, hd⟩ := hm.frames.leadsOut hf
      refine ⟨⟨d, hm.frames.ancestor?_isSome_iff hd⟩, fun i j g hi hj => hm.frames.acyclic.distance_inj hi hj,
        fun name => ?_⟩
      obtain ⟨path, hlooks, hnodup, -⟩ := hm.frames.looks name hf
      refine ⟨⟨path, _, hlooks⟩, fun path' holder' hlooks' => ?_⟩
      obtain ⟨rfl, rfl⟩ := hlooks.unique hlooks'
      exact ⟨hnodup, rfl, fun v => rfl⟩
  · have hgrows := hlater.grows
    exact ⟨Nat.lt_of_lt_of_le hf hgrows.next, hgrows.enclosing f hf⟩

/-- A function returned itself out of a first call, and evaluation holds it in the middle of a second one. The frame of
    that call is inside the block's. -/
theorem Session.chains_rooted_second_call : ∃ (m : Machine) (held : Value → Prop) (f : Closure),
    Session.Passes (Host.withTime fun _ => 0) m held ∧ held (.function f) ∧ m.current = 3 ∧ f.frame = 1 ∧
      m.frames.LeadsOut m.current ∧ m.frames.LeadsOut f.frame ∧
      ∃ path holder, m.frames.Looks "clock" m.current path holder ∧ path.Nodup := by
  let f : Token := ⟨.identifier, "f", 1⟩
  let paren : Token := ⟨.mark .rightParen, ")", 1⟩
  let result : Stmt := .ret ⟨.keyword .return, "return", 1⟩ (some (.var 0 f))
  let equal : Expr := .binary (.call (.var 1 f) paren []) ⟨.mark .equalEqual, "==", 1⟩ (.call (.var 2 f) paren [])
  let program : List Stmt := [.block [.function f [] [result], .expression equal]]
  have hs : (Session.new .unlimited).Starts "\x7bfun f()\x7breturn f;\x7df()==f();\x7d" program _ :=
    Session.starts_of_tokens 0
      [.ofMark .leftBrace 1, .ofKeyword .fun 1, f, .ofMark .leftParen 1, paren, .ofMark .leftBrace 1,
      .ofKeyword .return 1, f, .ofMark .semicolon 1, .ofMark .rightBrace 1, f, .ofMark .leftParen 1, paren,
      .ofMark .equalEqual 1, f, .ofMark .leftParen 1, paren, .ofMark .semicolon 1, .ofMark .rightBrace 1, .atEnd 1]
      rfl (by decide +kernel) (by cbv) (by decide +kernel)
  generalize Session.addDistances _ (resolve program).distances = s' at hs
  have hdistance : ∀ t ∈ sitesOf program, s'.distances[t.reference.id]? = t.distance? := fun t ht => by
    rw [hs.distances_eq, Resolve.distances_resolve hs.sites_fresh.1 t ht]
    exact (congrArg _ Std.HashMap.getElem?_empty).trans Option.or_none
  have hresult : s'.distances[0]? = some 1 := hdistance _ (List.mem_cons_self (l := _))
  have hleft : s'.distances[1]? = some 0 := hdistance _ (List.mem_cons_of_mem _ List.mem_cons_self)
  have hright : s'.distances[2]? = some 0 :=
    hdistance _ (List.mem_cons_of_mem _ (List.mem_cons_of_mem _ List.mem_cons_self))
  let c : Context := s'.context (Host.withTime fun _ => 0)
  have hread : ∀ {n id name d v m}, s'.distances[id]? = some d → m.frames.getAt? m.current d name.lexeme = some v →
      Eval.expr c (n + 1) (.var id name) m = .ok v m := fun hd hv => by
    simp only [c, Eval.expr, Eval.read, Session.context, Access.get?, hd, hv]
  let made : Closure := ⟨1, ⟨f, [], [result]⟩, 1⟩
  let start : Machine := (Session.new .unlimited).machine
  let inner : Machine := { start with frames := start.frames.push (.empty (some 0)), current := 1 }
  let m : Machine := { inner with frames := inner.frames.define 1 "f" (.function made), nextIdentity := 2 }
  let called : Machine := { m with frames := m.frames.push (.empty (some 1)), current := 2, depth := 1 }
  let m' : Machine := { m with frames := called.frames }
  have hdeclared : Eval.stmt c 10 (.function f [] [result]) inner = .ok .normal m := rfl
  have hbody : Eval.stmts c 4 [result] called = .ok (.returned (.function made)) called :=
    Eval.bind_of_ok (a := Flow.returned (.function made))
      (Eval.bind_of_ok (a := Value.function made) (hread hresult rfl))
  have hframe : Eval.inFrame (made.callFrame []) (Eval.stmts c 4 [result]) { m with depth := 1 } =
      .ok (.returned (.function made)) { m' with depth := 1 } := by
    rw [Eval.inFrame_apply]
    exact hbody ▸ rfl
  have hinvoke : Eval.invoke c 5 (.function made) [] paren { m with depth := 1 } =
      .ok (.function made) { m' with depth := 1 } := Eval.bind_of_ok hframe
  have hcall : Eval.call c 6 (.function made) [] paren m = .ok (.function made) m' := by
    have hdepth : ¬ maxDepth ≤ m.depth := by decide
    change Eval.asCall paren (Eval.invoke _ 5 (.function made) [] paren) m = _
    rw [Eval.asCall_apply, if_neg hdepth]
    exact hinvoke ▸ rfl
  have hnone : Eval.exprs c 6 #[] [] m = .ok #[] m := rfl
  have hfirst : Eval.expr c 7 (.call (.var 1 f) paren []) m = .ok (.function made) m' :=
    (Eval.bind_of_ok (hread hleft rfl)).trans ((Eval.bind_of_ok hnone).trans hcall)
  have hcallee : Eval.expr c 6 (.var 2 f) m' = .ok (.function made) m' := hread hright rfl
  have harguments : Eval.exprs c 6 #[] [] m' = .ok #[] m' := rfl
  have hcalled : Moment.Enters c ⟨7, .expr (.call (.var 2 f) paren []), m'⟩ ⟨6, .call (.function made) [] paren, m'⟩ :=
    .call hcallee harguments
  have hvisits := Moment.Visits.enter hcalled
    (.enter (.invoke rfl (by decide : m'.depth < maxDepth)) (.enter .body .here))
  have hholds := Moment.Holds.enter (a := ⟨12, .program program, start⟩) .begin
    (.enter .block (.enter (.stmts hdeclared) (.enter .stmt (.enter .expression (.retained (.left hfirst) hvisits)))))
  rw [show start = s'.machine from hs.machine_eq.symm] at hholds
  have hpasses := Session.Passes.begins (.new .unlimited) hs hholds.visits
  obtain ⟨hchains, -⟩ := Session.chains_rooted (Host.withTime_honest fun _ => 0)
  obtain ⟨-, hcurrent, hfunctions, hlookups⟩ := hchains _ _ hpasses
  obtain ⟨-, -, hnames⟩ := hlookups 3 (by decide)
  obtain ⟨⟨path, holder, hlooks⟩, hpaths⟩ := hnames "clock"
  exact ⟨_, _, made, hpasses, hholds, rfl, rfl, hcurrent, hfunctions _ (.inl hholds) made rfl, path, holder, hlooks,
    (hpaths path holder hlooks).1⟩

end Lox
