import Lox.Proofs.Likeness.Moved
import Lox.Proofs.Parsing.Seams

/-! # Two sources as one

Two sources without errors, one below the other, are a source without errors. Its program is that of the first
and then that of the second, up to the lines of the second and to identities (`Source.read_joined`), and the
tables of the two runs and of the one give references that stand for each other the same distances. The second
source may have been moved down by itself before: if that is by as many lines as the first has, all its tokens
are where they are in the one source. -/

namespace Lox

namespace Likeness

/-- Identities of references in the same place stand for each other. -/
def Paired (refs refs' : List Reference) (a a' : ExprId) : Prop := ∃ q ∈ refs.zip refs', q.1.id = a ∧ q.2.id = a'

/-- Identities from before stand for themselves. -/
def Numbered (old : ExprId) (refs refs' : List Reference) (a a' : ExprId) : Prop :=
  a' = a ∧ a < old ∨ Paired refs refs' a a'

variable {refs refs' : List Reference}

theorem Paired.mem {a a' : ExprId} (h : Paired refs refs' a a') :
    a ∈ refs.map Reference.id ∧ a' ∈ refs'.map Reference.id := by
  obtain ⟨q, hq, rfl, rfl⟩ := h
  exact ⟨List.mem_map_of_mem (List.of_mem_zip hq).1, List.mem_map_of_mem (List.of_mem_zip hq).2⟩

/-- References that all differ in identity are paired one to one. -/
theorem Paired.unique : ∀ {refs refs' : List Reference} {a a' b b' : ExprId}, (refs.map Reference.id).Nodup →
    (refs'.map Reference.id).Nodup → Paired refs refs' a a' → Paired refs refs' b b' → (a = b ↔ a' = b')
  | [], _, _, _, _, _, _, _, ⟨_, hq, _⟩, _ => by cases hq
  | _ :: _, [], _, _, _, _, _, _, ⟨_, hq, _⟩, _ => by cases hq
  | r :: refs, r' :: refs', a, a', b, b', hnodup, hnodup', ⟨q, hq, ha, ha'⟩, ⟨u, hu, hb, hb'⟩ => by
    rw [List.map_cons, List.nodup_cons] at hnodup hnodup'
    rw [List.zip_cons_cons, List.mem_cons] at hq hu
    rcases hq with rfl | hq
    · rcases hu with rfl | hu
      · exact ⟨fun _ => ha'.symm.trans hb', fun _ => ha.symm.trans hb⟩
      · have hmem := Paired.mem ⟨u, hu, hb, hb'⟩
        refine ⟨fun h => absurd ?_ hnodup.1, fun h => absurd ?_ hnodup'.1⟩
        · exact ha.trans h ▸ hmem.1
        · exact ha'.trans h ▸ hmem.2
    · have hmem := Paired.mem ⟨q, hq, ha, ha'⟩
      rcases hu with rfl | hu
      · refine ⟨fun h => absurd ?_ hnodup.1, fun h => absurd ?_ hnodup'.1⟩
        · exact hb.trans h.symm ▸ hmem.1
        · exact hb'.trans h.symm ▸ hmem.2
      · exact Paired.unique hnodup.2 hnodup'.2 ⟨q, hq, ha, ha'⟩ ⟨u, hu, hb, hb'⟩

theorem Paired.append {a a' : ExprId} (h : Paired refs refs' a a') (hlength : refs.length = refs'.length)
    (more more' : List Reference) : Paired (refs ++ more) (refs' ++ more') a a' := by
  obtain ⟨q, hq, ha, ha'⟩ := h
  refine ⟨q, ?_, ha, ha'⟩
  rw [List.zip_append hlength]
  exact List.mem_append_left _ hq

end Likeness

/-! ### Programs -/

/-- Two sources that scan and parse without errors do so as one, and the program is that of the upper and then
    that of the lower, in which the tokens are further down. -/
theorem Source.read_joined {upper lower : String} {lines : Nat} {i j : ExprId}
    (h : (Source.read upper i).diagnostics.isEmpty = true)
    (h' : (Source.read (moved lines lower) j).diagnostics.isEmpty = true) (texts : List String) (k : ExprId) :
    (Source.read (upper ++ "\n" ++ lower) k).diagnostics.isEmpty = true ∧
      ∃ ss ts, (Source.read (upper ++ "\n" ++ lower) k).parsed.statements = ss ++ ts ∧
        Stmt.LikeAll (.known (upper :: texts) fun _ _ => True) (Source.read upper i).parsed.statements ss ∧
        Stmt.LikeAll (.shifted lower lines (Scan.linesAbove upper) fun _ _ => True)
          (Source.read (moved lines lower) j).parsed.statements ts := by
  rw [Source.diagnostics_isEmpty] at *
  obtain ⟨hscan, hparse⟩ := h
  obtain ⟨hscan', hparse'⟩ := h'
  let L : Likeness := .shifted lower lines (Scan.linesAbove upper) fun _ _ => True
  let us := (Scan.tokens (Scan.items lower)).map (Token.below (Scan.linesAbove upper))
  have htokens : List.Forall₂ L.token (Scan.tokens (Scan.items (moved lines lower))) us := by
    have hmoved : us = Scan.tokens (Scan.items (moved (Scan.linesAbove upper) lower)) := (Scan.tokens_moved _ _).symm
    rw [hmoved]
    exact Likeness.tokens_shifted lower lines _ _
  have hmoved : Parsed.Like L (Source.read (moved lines lower) j).parsed (parse us j) :=
    Parse.parse_like htokens (Parse.finalOf_like htokens (tokens_end _)) fun _ => trivial
  have hmovedErrors : (parse us j).errors = [] := by
    have herrors := hmoved.errors
    rw [hparse'] at herrors
    exact List.forall₂_nil_left_iff.mp herrors
  have hupper : (parse (Scan.tokens (Scan.content upper) ++ [.atEnd (1 + upper.toList.count '\n')]) i).errors = [] := by
    rw [← Scan.tokens_items]
    exact hparse
  obtain ⟨herrors, ss, ts, hsplit, hss, hts⟩ := Parse.parse_seam (fun t ht => Scan.tokens_content_not_end ht) rfl hupper
    hmovedErrors k
  rw [← Scan.tokens_items] at hss
  rw [← Scan.tokens_seam hscan] at herrors hsplit
  refine ⟨⟨Scan.errors_seam hscan ((Scan.errors_moved lines lower).mp hscan'), herrors⟩, ss, ts, hsplit, ?_, ?_⟩
  · have hknown : Stmt.LikeAll (.known (upper :: texts) fun _ _ => True)
        (Stmt.unnumberedAll (Source.read upper i).parsed.statements) (Stmt.unnumberedAll ss) := by
      rw [show Stmt.unnumberedAll ss = _ from hss]
      exact (Source.read_known texts upper i).unnumbered
    exact Stmt.likeAll_of_unnumbered hknown
  · have hbelow := hmoved.statements.unnumbered
    rw [← hts] at hbelow
    exact Stmt.likeAll_of_unnumbered hbelow

/-! ### Tables -/

namespace Likeness

/-- What stands for what when the upper program is a part of the whole one. -/
def ofUpper (texts : List String) (upper : String) (old : ExprId) (program ss : List Stmt) : Likeness :=
  known (upper :: texts) (Numbered old (Stmt.referencesAll program) (Stmt.referencesAll ss))

/-- What stands for what when both programs are the whole one, and the lower source was so many lines down. -/
def ofBoth (texts : List String) (upper lower : String) (lines : Nat) (old : ExprId) (program ss : List Stmt) :
    Likeness :=
  moved (upper :: texts) lower lines (Scan.linesAbove upper)
    (Numbered old (Stmt.referencesAll program) (Stmt.referencesAll ss))

end Likeness

namespace Session

/-- What running the upper source and then the lower one, so many lines down, begins with, and what running both as
    one does: the programs are like, and in each part references that stand for each other have the same distances. -/
structure Joined (texts : List String) (upper lower : String) (lines : Nat) (s first second whole : Session)
    (program program' ss ts : List Stmt) : Prop where
  starts : s.Starts (upper ++ "\n" ++ lower) (ss ++ ts) whole
  upperLike : Stmt.LikeAll (.ofUpper texts upper s.nextId program ss) program ss
  upperTable : (Likeness.ofUpper texts upper s.nextId program ss).SameDistances first.distances whole.distances
  lowerLike : Stmt.LikeAll (.ofBoth texts upper lower lines s.nextId (program ++ program') (ss ++ ts)) program' ts
  lowerTable : (Likeness.ofBoth texts upper lower lines s.nextId (program ++ program') (ss ++ ts)).SameDistances
    second.distances whole.distances

variable {texts : List String} {upper lower : String} {lines : Nat} {s t first second whole : Session}
variable {program program' : List Stmt}

/-- What had a distance before keeps it. -/
theorem Starts.distances_old {text : String} (h : s.Starts text program first) {id : ExprId} (hid : id < s.nextId) :
    first.distances[id]? = s.distances[id]? := by
  rw [h.distances_eq, h.distances_other (.inl hid), Option.none_or]

/-- The identities in both programs are new and all differ. -/
theorem Starts.fresh_second (hupper : s.Starts upper program first) (hlower : t.Starts lower program' second)
    (hnext : t.nextId = first.nextId) :
    Fresh s.nextId second.nextId (Stmt.referencesAll (program ++ program')) := by
  rw [Stmt.referencesAll_append]
  exact hupper.fresh.append (hnext ▸ hlower.fresh) hupper.nextId_le (hnext ▸ hlower.nextId_le)

/-- The table after both runs: that of the lower program, that of the upper one, and the one before. -/
theorem Starts.distances_second (hupper : s.Starts upper program first) (hlower : t.Starts lower program' second)
    (htable : t.distances = first.distances) (id : ExprId) : second.distances[id]? =
      (resolve program').distances[id]?.or ((resolve program).distances[id]?.or s.distances[id]?) := by
  rw [hlower.distances_eq, htable, hupper.distances_eq]

/-- Programs that are like the two parts of a whole one give the same distances as it does. -/
theorem Known.sameDistances (h : s.Known texts) (hupper : s.Starts upper program first)
    (hlower : t.Starts lower program' second) (hnext : t.nextId = first.nextId) (htable : t.distances = first.distances)
    {text : String} {ss ts : List Stmt} (hwhole : s.Starts text (ss ++ ts) whole)
    (hleft : (Stmt.referencesAll program).length = (Stmt.referencesAll ss).length)
    (hsame : ∀ {a a' : ExprId},
      Likeness.Paired (Stmt.referencesAll (program ++ program')) (Stmt.referencesAll (ss ++ ts)) a a' →
      (resolve (ss ++ ts)).distances[a']? = (resolve (program ++ program')).distances[a]?) (a a' : ExprId) :
    (Likeness.Numbered s.nextId (Stmt.referencesAll (program ++ program')) (Stmt.referencesAll (ss ++ ts)) a a' →
      whole.distances[a']? = second.distances[a]?) ∧
    (Likeness.Numbered s.nextId (Stmt.referencesAll program) (Stmt.referencesAll ss) a a' →
      whole.distances[a']? = first.distances[a]?) := by
  have hle : first.nextId ≤ t.nextId := Nat.le_of_eq hnext.symm
  have hpaired : Likeness.Paired (Stmt.referencesAll (program ++ program')) (Stmt.referencesAll (ss ++ ts)) a a' →
      s.distances[a]? = none ∧
        whole.distances[a']? = (resolve program').distances[a]?.or (resolve program).distances[a]? := fun hpair => by
    obtain ⟨ha, ha'⟩ := hpair.mem
    obtain ⟨r, hr, rfl⟩ := List.mem_map.mp ha
    obtain ⟨r', hr', rfl⟩ := List.mem_map.mp ha'
    rw [hwhole.distances_eq, h.unused _ (hwhole.fresh.lower r' hr'), Option.or_none, hsame hpair,
      Resolve.distances_append]
    exact ⟨h.unused _ ((hupper.fresh_second hlower hnext).lower r hr), rfl⟩
  refine ⟨?_, ?_⟩
  · rintro (⟨rfl, ha⟩ | hpair)
    · have hlt := Nat.lt_of_lt_of_le ha (Nat.le_trans hupper.nextId_le hle)
      rw [hwhole.distances_old ha, hlower.distances_old hlt, htable, hupper.distances_old ha]
    · obtain ⟨hnone, hwhole⟩ := hpaired hpair
      rw [hwhole, hupper.distances_second hlower htable, hnone, Option.or_none]
  · rintro (⟨rfl, ha⟩ | hpair)
    · rw [hwhole.distances_old ha, hupper.distances_old ha]
    · -- A reference of the upper program keeps in the second run the distance that it got in the first.
      obtain ⟨r, hr, hra⟩ := List.mem_map.mp hpair.mem.1
      have hlt : a < t.nextId := Nat.lt_of_lt_of_le (hra ▸ hupper.fresh.upper r hr) hle
      have hpair := hpair.append hleft (Stmt.referencesAll program') (Stmt.referencesAll ts)
      rw [← Stmt.referencesAll_append, ← Stmt.referencesAll_append] at hpair
      obtain ⟨hnone, hwhole⟩ := hpaired hpair
      rw [hwhole, hlower.distances_other (.inl hlt), Option.none_or, hupper.distances_eq, hnone, Option.or_none]

theorem Known.joined (h : s.Known texts) (hupper : s.Starts upper program first)
    (hlower : t.Starts (Source.moved lines lower) program' second)
    (hnext : t.nextId = first.nextId) (htable : t.distances = first.distances) :
    ∃ ss ts whole, Joined texts upper lower lines s first second whole program program' ss ts := by
  obtain ⟨hread, ss, ts, hsplit, hss, hts⟩ := Source.read_joined hupper.read hlower.read texts s.nextId
  rw [hupper.parsed] at hss
  rw [hlower.parsed] at hts
  let refs := Stmt.referencesAll (program ++ program')
  let refs' := Stmt.referencesAll (ss ++ ts)
  let L : Likeness := .moved (upper :: texts) lower lines (Scan.linesAbove upper) (Likeness.Paired refs refs')
  have hpairs : L.Pairs refs refs' := fun q hq => ⟨q, hq, rfl, rfl⟩
  have hleft : List.Forall₂ _ (Stmt.referencesAll program) (Stmt.referencesAll ss) := hss.references
  have hrefs : refs = Stmt.referencesAll program ++ Stmt.referencesAll program' := Stmt.referencesAll_append _ _
  have hrefs' : refs' = Stmt.referencesAll ss ++ Stmt.referencesAll ts := Stmt.referencesAll_append _ _
  rw [hrefs, hrefs'] at hpairs
  have hlike : Stmt.LikeAll L (program ++ program') (ss ++ ts) :=
    (hss.renumber (Likeness.moved_known _ _ _ _ _ _) (hpairs.left hleft)).append
      (hts.renumber (Likeness.moved_shifted _ _ _ _ _ _) (hpairs.right hleft))
  have hfresh : Fresh s.nextId second.nextId refs := hupper.fresh_second hlower hnext
  have hfresh' : Fresh s.nextId (Source.read (upper ++ "\n" ++ lower) s.nextId).parsed.nextId refs' := by
    have hparsed := Parse.parse_fresh (Scan.tokens (Scan.items (upper ++ "\n" ++ lower))) s.nextId
    change (parse (Scan.tokens (Scan.items (upper ++ "\n" ++ lower))) s.nextId).statements = _ at hsplit
    rwa [hsplit] at hparsed
  -- References are paired by their places, and no two of them have one identity on either side.
  have hL : L.Injective := Likeness.Paired.unique hfresh.nodup hfresh'.nodup
  have hresolved := Resolution.isOk_like hL hlike (Resolve.isOk_append hupper.resolved hlower.resolved)
  have hwhole : s.Starts (upper ++ "\n" ++ lower) (ss ++ ts) _ := ⟨hread, hsplit, hresolved, rfl⟩
  have htables := h.sameDistances hupper hlower hnext htable hwhole hleft.length_eq (resolve_like hL hlike).2
  refine ⟨ss, ts, _, hwhole, ?_, fun a a' => (htables a a').2, ?_, fun a a' => (htables a a').1⟩
  · have hadmits :
        (Likeness.ofUpper texts upper s.nextId program ss).Admits (.known (upper :: texts) fun _ _ => True) :=
      fun h => h
    exact hss.renumber hadmits fun q hq => .inr ⟨q, hq, rfl, rfl⟩
  · have hadmits : (Likeness.ofBoth texts upper lower lines s.nextId (program ++ program') (ss ++ ts)).Admits
      (.shifted lower lines (Scan.linesAbove upper) fun _ _ => True) := .inr
    refine hts.renumber hadmits fun q hq => .inr ⟨q, ?_, rfl, rfl⟩
    change q ∈ refs.zip refs'
    rw [hrefs, hrefs', List.zip_append hleft.length_eq]
    exact List.mem_append_right _ hq

/-! ### Evaluating both -/

theorem program_append (c : Context) (n : Nat) : ∀ (ss ts : List Stmt),
    Eval.program c n (ss ++ ts) = Eval.program c n ss >>= fun _ => Eval.program c n ts
  | [], _ => rfl
  | s :: ss, ts => by
    rw [List.cons_append, Eval.program, Eval.program, bind_assoc]
    exact congrArg _ (funext fun _ => program_append c n ss ts)

section
variable {host : Host} {ss ts : List Stmt} {m n k : Nat} {m₁ m₁' : Machine}

/-- What is like in the upper part is like in the whole. -/
theorem Joined.mono (h : Joined texts upper lower lines s first second whole program program' ss ts)
    (hm : m₁.Like (.ofUpper texts upper s.nextId program ss) m₁') :
    m₁.Like (.ofBoth texts upper lower lines s.nextId (program ++ program') (ss ++ ts)) m₁' := by
  refine hm.mono (Likeness.moved_known _ _ _ _ _ _) fun hid => ?_
  rcases hid with hold | hpair
  · exact .inl hold
  · have hpair := hpair.append h.upperLike.references.length_eq (Stmt.referencesAll program') (Stmt.referencesAll ts)
    rw [← Stmt.referencesAll_append, ← Stmt.referencesAll_append] at hpair
    exact .inr hpair

/-- Evaluating the upper part of the whole follows evaluating it alone in the session. -/
theorem Joined.upper_follows (h : Joined texts upper lower lines s first second whole program program' ss ts)
    (hs : s.Known texts) (hhost : host.Uniform) (hm : m ≤ k) :
    Eval.Follows (.ofUpper texts upper s.nextId program ss) True (fun _ _ => True)
      (Eval.program (first.context host) m program s.machine) (Eval.program (whole.context host) k ss s.machine) :=
  Eval.program_simulates h.upperTable hhost hm (fun _ => trivial) h.upperLike
    (hs.machine.mono (Likeness.known_admits texts upper _ _) .inl)

/-- If the upper program comes out well, evaluating both follows evaluating the lower one after a flush. -/
theorem Joined.both_follow
    (h : Joined texts upper lower lines s first second whole program program' ss ts) (hs : s.Known texts)
    (hhost : host.Uniform) (hm : m ≤ k) (hn : n ≤ k)
    (heval : Eval.program (first.context host) m program s.machine = .ok () m₁) :
    Eval.Follows (.ofBoth texts upper lower lines s.nextId (program ++ program') (ss ++ ts)) True (fun _ _ => True)
      (Eval.program (second.context host) n program' { m₁ with sink := m₁.sink.flush.1 })
      (Eval.program (whole.context host) k (ss ++ ts) s.machine) := by
  have hupper := h.upper_follows hs hhost hm
  rw [heval] at hupper
  generalize hright : Eval.program (whole.context host) k ss s.machine = result at hupper
  cases hupper with
  | ok hlike =>
    rw [program_append, Eval.bind_of_ok hright]
    exact Eval.program_simulates h.lowerTable hhost hn (fun _ => trivial) h.lowerLike (h.mono hlike).flush_left

/-- If it fails, evaluating it fails in the same way when anything is behind it. -/
theorem Joined.upper_stops
    (h : Joined texts upper lower lines s first second whole program program' ss ts) (hs : s.Known texts)
    (hhost : host.Uniform) (hm : m ≤ k) {e : RuntimeError}
    (heval : Eval.program (first.context host) m program s.machine = .error (.failed e) m₁) :
    ∃ m', m₁.Like (.ofUpper texts upper s.nextId program ss) m' ∧
      e.Like (.ofUpper texts upper s.nextId program ss) e ∧
      ∀ behind, Eval.program (whole.context host) k (ss ++ behind) s.machine = .error (.failed e) m' := by
  have hupper := h.upper_follows hs hhost hm
  rw [heval] at hupper
  generalize hright : Eval.program (whole.context host) k ss s.machine = result at hupper
  cases hupper with
  | @error _ _ _ m' hlike hstop =>
    cases hstop with
    | @failed _ e' he =>
      have hsame : (⟨e'.token, e'.cause⟩ : RuntimeError) = ⟨e.token, e.cause⟩ := by rw [he.token.1, he.cause]
      obtain rfl : e' = e := hsame
      refine ⟨m', hlike, he, fun behind => ?_⟩
      rw [program_append, Eval.bind_of_error hright]

end
end Session
end Lox
