import ManagedCode.Proofs.Flow

/-!
# The analysis comes to its end

The two loops of the analysis, without the bounds that they are computed with. `Scans` is the loop over the
instructions; each round reads at least one byte, so there are no more rounds than bytes. `Rounds` is the loop over the
worklist, with a record of the offsets that were placed on the worklist and of those that were visited. An offset is
placed only while its flag is not set, and then it is set (`State.Places`). So nothing is placed twice, each round
leaves one visit less to come (`State.pending`), and the loop comes to an end of its own (`analysis_ends`).
-/

namespace ManagedCode

/-- **Every instruction takes at least one byte of the code**, and none behind it. -/
theorem Code.nextOffset_advances {c : Code} {pc next : Nat} (h : c.nextOffset pc = .ok next) :
    pc < next ∧ next ≤ c.size := by
  obtain ⟨-, -, hin, -⟩ := nextOffset_ok h
  exact ⟨lt_nextOffset h, hin⟩

namespace Analysis

variable {cx : Context} {s t u : State} {placed more visited : List Nat} {pc : Nat} {stack : List StackType}

/-! ## The loop over the instructions -/

/-- **The loop over the instructions**, with the number of its rounds: it marks the instruction that it reads and goes
on behind it, until it is behind the code or what it reads is no instruction. -/
inductive Scans (c : Code) : (rounds pc : Nat) → Array Bool → Except EngineError (Array Bool) → Prop where
  | done {pc : Nat} {starts : Array Bool} : c.size ≤ pc → Scans c 0 pc starts (.ok starts)
  | refused {pc : Nat} {starts : Array Bool} {e : EngineError} : pc < c.size → c.nextOffset pc = .error e →
      Scans c 1 pc starts (.error (Context.decodeError e))
  | next {rounds pc next : Nat} {starts : Array Bool} {r : Except EngineError (Array Bool)} : pc < c.size →
      c.nextOffset pc = .ok next → Scans c rounds next (starts.setIfInBounds pc true) r →
      Scans c (rounds + 1) pc starts r

/-- There are no more rounds than bytes. -/
theorem Scans.bounded {c : Code} {rounds : Nat} {starts : Array Bool} {r : Except EngineError (Array Bool)}
    (h : Scans c rounds pc starts r) : rounds ≤ c.size - pc := by
  induction h with
  | done _ => exact Nat.zero_le _
  | refused hlt _ => omega
  | next hlt hn _ ih =>
    obtain ⟨hprogress, hin⟩ := Code.nextOffset_advances hn
    omega

/-- **The bound of the scan is never met**: it ends as the loop does. -/
theorem scanFrom_scans (c : Code) (fuel pc : Nat) (starts : Array Bool) (hfuel : c.size ≤ pc + fuel) :
    ∃ rounds, Scans c rounds pc starts (scanFrom c fuel pc starts) := by
  induction fuel generalizing pc starts with
  | zero => exact ⟨0, .done hfuel⟩
  | succ fuel ih =>
    rw [scanFrom]
    split
    · rename_i hout
      exact ⟨0, .done hout⟩
    · rename_i hin
      have hlt : pc < c.size := Nat.lt_of_not_le hin
      cases hn : c.nextOffset pc with
      | error e => exact ⟨1, .refused hlt hn⟩
      | ok next =>
        have hprogress := Code.lt_nextOffset hn
        obtain ⟨rounds, hscans⟩ := ih next (starts.setIfInBounds pc true) (by omega)
        exact ⟨rounds + 1, .next hlt hn hscans⟩

/-! ## Placing offsets on the worklist -/

/-- The offsets on the worklist, the latest first. -/
def State.waiting (s : State) : List Nat := s.worklist.map (·.1)

/-- How many offsets were never put on the worklist. -/
def State.unqueued (s : State) : Nat := s.queued.count false

/-- How many visits there can still be: of the offsets that wait, and of those that may still come. -/
def State.pending (s : State) : Nat := s.unqueued + s.waiting.length

/-- **From one state to another, offsets were placed on the worklist**, each of them for the first time. -/
structure State.Places (s : State) (placed : List Nat) (t : State) : Prop where
  waiting : t.waiting = placed ++ s.waiting
  nodup : placed.Nodup
  fresh : ∀ pc ∈ placed, s.queued.getD pc false = false
  flags : ∀ pc, t.queued.getD pc false = true ↔ pc ∈ placed ∨ s.queued.getD pc false = true
  pending : t.pending = s.pending
  queued_size : t.queued.size = s.queued.size
  starts_size : t.result.starts.size = s.result.starts.size

namespace State.Places

/-- Nothing was placed where neither the worklist nor the flags changed. -/
theorem of_same (hw : t.worklist = s.worklist) (hq : t.queued = s.queued) (hs : t.result.starts = s.result.starts) :
    s.Places [] t where
  waiting := by rw [State.waiting, hw]; rfl
  nodup := List.nodup_nil
  fresh := fun _ hpc => absurd hpc List.not_mem_nil
  flags := fun pc => by rw [hq]; simp
  pending := by rw [State.pending, State.unqueued, State.waiting, hq, hw]; rfl
  queued_size := by rw [hq]
  starts_size := by rw [hs]

/-- What is placed was not among the offsets whose flags are set. -/
theorem nodup_append (h : s.Places more t) (hn : placed.Nodup) (hq : ∀ pc ∈ placed, s.queued.getD pc false = true) :
    (more ++ placed).Nodup := by
  refine List.nodup_append.2 ⟨h.nodup, hn, fun pc hm q hp he => ?_⟩
  subst he
  exact Bool.false_ne_true ((h.fresh pc hm).symm.trans (hq pc hp))

theorem trans (h : s.Places placed t) (h' : t.Places more u) : s.Places (more ++ placed) u where
  waiting := by rw [h'.waiting, h.waiting, List.append_assoc]
  nodup := h'.nodup_append h.nodup fun pc hp => (h.flags pc).2 (.inl hp)
  fresh := by
    intro pc hpc
    rcases List.mem_append.1 hpc with hm | hp
    · -- its flag was not set later, so neither was it before
      refine Bool.eq_false_iff.2 fun hs => ?_
      exact Bool.false_ne_true ((h'.fresh pc hm).symm.trans ((h.flags pc).2 (.inr hs)))
    · exact h.fresh pc hp
  flags := fun pc => by rw [h'.flags, h.flags, List.mem_append, or_assoc]
  pending := h'.pending.trans h.pending
  queued_size := h'.queued_size.trans h.queued_size
  starts_size := h'.starts_size.trans h.starts_size

/-- An offset whose flag is not set comes to the front of the worklist. -/
theorem front {target : Nat} (hlt : target < s.queued.size) (hq : s.queued.getD target false = false) :
    s.Places [target]
      { s with queued := s.queued.setIfInBounds target true, worklist := (target, stack) :: s.worklist } where
  waiting := rfl
  nodup := List.nodup_cons.2 ⟨List.not_mem_nil, List.nodup_nil⟩
  fresh := by simpa using hq
  flags := fun pc => by
    rw [getD_setIfInBounds s.queued target pc true false hlt, List.mem_singleton]
    split
    · rename_i he
      simp [he]
    · rename_i hne
      simp [Ne.symm hne]
  pending := by
    have hget : s.queued[target] = false := by simpa [Array.getD_eq_getD_getElem?, hlt] using hq
    have hpos : 0 < s.queued.count false := Array.count_pos_iff.2 (hget ▸ Array.getElem_mem hlt)
    have hcount : (s.queued.setIfInBounds target true).count false = s.queued.count false - 1 := by
      rw [Array.setIfInBounds, dif_pos hlt, Array.count_set hlt, hget]
      rfl
    show (s.queued.setIfInBounds target true).count false + (s.waiting.length + 1) =
      s.queued.count false + s.waiting.length
    omega
  queued_size := Array.size_setIfInBounds
  starts_size := rfl

end State.Places

/-- Whatever was placed since the first state was placed for the first time. -/
def State.Placing (s t : State) : Prop := ∃ placed, s.Places placed t

theorem State.Placing.same (h : s.Placing t) (hw : u.worklist = t.worklist) (hq : u.queued = t.queued)
    (hs : u.result.starts = t.result.starts) : s.Placing u := by
  obtain ⟨placed, hp⟩ := h
  exact ⟨[] ++ placed, hp.trans (.of_same hw hq hs)⟩

/-- Queueing an offset places it, if its flag is not set; where no instruction starts there it changes nothing. -/
theorem placing_enqueue {source target : Nat} (hsize : s.result.starts.size = s.queued.size) :
    Maintains s.Placing (enqueue source target stack) fun _ => True := by
  rintro t ⟨placed, hp⟩
  unfold enqueue
  refine Meets.get_bind ?_
  by_cases hstart : t.result.isStart target = true
  case neg =>
    simp only [hstart, Bool.not_false, if_pos]
    exact Meets.throw_bind ⟨placed, hp⟩
  simp only [hstart, Bool.not_true, Bool.false_eq_true, if_false]
  have hlt : target < t.queued.size := by
    rw [hp.queued_size, ← hsize, ← hp.starts_size]
    exact lt_size_of_getD hstart
  cases hq : t.queued.getD target false with
  | true =>
    simp only [Bool.not_true, Bool.false_eq_true, if_false]
    exact Meets.pure ⟨trivial, placed, hp⟩
  | false =>
    simp only [Bool.not_false, if_true]
    exact Meets.set ⟨trivial, [target] ++ placed, hp.trans (.front hlt hq)⟩

/-- **A visit places offsets for the first time only**, also where it breaks off. -/
theorem placing_visit (hsize : s.result.starts.size = s.queued.size) :
    Maintains s.Placing (visit cx pc stack) fun _ => True := by
  intro t ht
  have hnoted : ∀ types n, s.Placing (t.noted pc stack.length types n) := fun _ _ => ht.same rfl rfl rfl
  refine meets_visit (fun _ _ => hnoted none _) (fun _ _ n _ _ => hnoted none n)
    fun op types successors left n _ _ => ?_
  exact Maintains.bind .ofExcept (fun _ _ => .forM fun _ _ => placing_enqueue hsize) _ (hnoted types n)

/-! ## The loop over the worklist -/

/-- **The loop over the worklist**: the offsets that were placed on the worklist so far and those that were visited, the
latest first, how the last round ended, and the state that it left. A round that fails is the last one, and so is the
one after which nothing waits. -/
inductive Rounds (cx : Context) : (placed visited : List Nat) → Except EngineError Unit → State → Prop where
  | seeded {r : Except EngineError Unit} {s : State} : (seed cx).run (start cx.code.size) = (r, s) →
      Rounds cx s.waiting [] r s
  | next {placed visited more : List Nat} {pc : Nat} {stack : List StackType} {rest : List (Nat × List StackType)}
      {r : Except EngineError Unit} {s t : State} : Rounds cx placed visited (.ok ()) s →
      s.worklist = (pc, stack) :: rest → (visit cx pc stack).run { s with worklist := rest } = (r, t) →
      t.waiting = more ++ rest.map (·.1) → Rounds cx (more ++ placed) (pc :: visited) r t

/-- **The flags and the worklist are in step**: the flags stand for what was ever placed, nothing was placed twice,
and what was placed was visited or waits. -/
structure Recorded (cx : Context) (placed visited : List Nat) (s : State) : Prop where
  nodup : placed.Nodup
  flags : ∀ pc, s.queued.getD pc false = true ↔ pc ∈ placed
  split : placed.Perm (visited ++ s.waiting)
  pending : s.pending + visited.length = cx.code.size
  queued_size : s.queued.size = cx.code.size
  starts_size : s.result.starts.size = cx.code.size

namespace Recorded

/-- In the beginning nothing was placed. -/
theorem start {starts : Array Bool} (hsize : starts.size = cx.code.size) :
    Recorded cx [] [] { Analysis.start cx.code.size with result.starts := starts } where
  nodup := List.nodup_nil
  flags := fun pc => by
    simp only [Analysis.start, Array.getD_eq_getD_getElem?, Array.getElem?_replicate, List.not_mem_nil, iff_false]
    split <;> exact Bool.false_ne_true
  split := .refl _
  pending := by simp [State.pending, State.unqueued, State.waiting, Analysis.start]
  queued_size := Array.size_replicate
  starts_size := hsize

/-- What is placed is recorded. -/
theorem places (h : Recorded cx placed visited s) (hp : s.Places more t) :
    Recorded cx (more ++ placed) visited t where
  nodup := hp.nodup_append h.nodup fun pc hpc => (h.flags pc).2 hpc
  flags := fun pc => by rw [hp.flags, h.flags, List.mem_append]
  split := by
    rw [hp.waiting]
    refine (h.split.append_left more).trans ?_
    rw [← List.append_assoc, ← List.append_assoc]
    exact List.perm_append_comm.append_right s.waiting
  pending := by rw [hp.pending]; exact h.pending
  queued_size := hp.queued_size.trans h.queued_size
  starts_size := hp.starts_size.trans h.starts_size

/-- An offset that is taken from the worklist is visited, and one visit less is to come. -/
theorem take {rest : List (Nat × List StackType)} (h : Recorded cx placed visited s)
    (hw : s.worklist = (pc, stack) :: rest) : Recorded cx placed (pc :: visited) { s with worklist := rest } where
  nodup := h.nodup
  flags := h.flags
  split := by
    have hsplit := h.split
    rw [State.waiting, hw] at hsplit
    exact hsplit.trans List.perm_middle
  pending := by
    have hpending := h.pending
    simp only [State.pending, State.unqueued, State.waiting, hw, List.map_cons, List.length_cons] at hpending ⊢
    omega
  queued_size := h.queued_size
  starts_size := h.starts_size

/-- **One round keeps the flags and the worklist in step**, also if it fails. -/
theorem round {rest : List (Nat × List StackType)} {r : Except EngineError Unit} (h : Recorded cx placed visited s)
    (hw : s.worklist = (pc, stack) :: rest) (hrun : (visit cx pc stack).run { s with worklist := rest } = (r, t)) :
    ∃ more, t.waiting = more ++ rest.map (·.1) ∧ Recorded cx (more ++ placed) (pc :: visited) t := by
  have htaken := h.take hw
  have hplacing : Maintains (State.Placing { s with worklist := rest }) (visit cx pc stack) fun _ => True :=
    placing_visit (htaken.starts_size.trans htaken.queued_size.symm)
  have hplaced := hplacing.run ⟨[], .of_same rfl rfl rfl⟩
  rw [hrun] at hplaced
  obtain ⟨more, hp⟩ := hplaced
  exact ⟨more, hp.waiting, htaken.places hp⟩

/-- Before the first round the flags and the worklist are in step, also if there is none. -/
theorem seeded : Recorded cx ((seed cx).run (Analysis.start cx.code.size)).2.waiting []
    ((seed cx).run (Analysis.start cx.code.size)).2 := by
  have hplaced : ∀ {starts : Array Bool}, starts.size = cx.code.size → ∀ t,
      State.Placing { Analysis.start cx.code.size with result.starts := starts } t → Recorded cx t.waiting [] t := by
    rintro starts hsize t ⟨placed, hp⟩
    rw [hp.waiting]
    exact (start hsize).places hp
  refine Meets.state (S := fun t => Recorded cx t.waiting [] t) ?_
  unfold seed
  refine Meets.bind (Q := fun starts t => scan cx.code = .ok starts ∧ t = Analysis.start cx.code.size)
    (Meets.ofExcept (fun starts hs => ⟨hs, rfl⟩) fun _ _ => start Array.size_replicate) ?_
  rintro starts _ ⟨hscan, rfl⟩
  have hsize := (scan_ok hscan).size
  refine Meets.modify_bind ?_
  split
  · exact Meets.throw_bind (start hsize)
  · have hentries : Maintains (State.Placing { Analysis.start cx.code.size with result.starts := starts })
        ((entries cx.regions).forM fun e => enqueue e.1 e.1 e.2) fun _ => True :=
      .forM fun _ _ => placing_enqueue (hsize.trans Array.size_replicate.symm)
    exact (hentries _ ⟨[], .of_same rfl rfl rfl⟩).mono (fun _ t ht => hplaced hsize t ht.2) fun _ t ht =>
      hplaced hsize t ht

end Recorded

namespace Rounds

/-- **The flags and the worklist are in step through the whole run.** -/
theorem recorded {r : Except EngineError Unit} (h : Rounds cx placed visited r s) : Recorded cx placed visited s := by
  induction h with
  | @seeded r s hrun =>
    have hseeded : Recorded cx _ [] _ := Recorded.seeded
    rwa [hrun] at hseeded
  | next _ hw hrun hmore ih =>
    obtain ⟨more', hmore', hrecorded⟩ := ih.round hw hrun
    rwa [List.append_cancel_right (hmore.symm.trans hmore')]

/-- A visit of the offset in front is the next round. -/
theorem visit_meets {rest : List (Nat × List StackType)} (h : Rounds cx placed visited (.ok ()) s)
    (hw : s.worklist = (pc, stack) :: rest) : Meets (visit cx pc stack) { s with worklist := rest }
      (fun _ t => ∃ placed', Rounds cx placed' (pc :: visited) (.ok ()) t)
      fun e t => ∃ placed', Rounds cx placed' (pc :: visited) (.error e) t := by
  have hnext : ∀ {r : Except EngineError Unit} {t : State},
      (visit cx pc stack).run { s with worklist := rest } = (r, t) →
        ∃ placed', Rounds cx placed' (pc :: visited) r t := by
    intro r t hrun
    obtain ⟨more, hmore, -⟩ := h.recorded.round hw hrun
    exact ⟨more ++ placed, h.next hw hrun hmore⟩
  unfold Meets
  rcases hrun : (visit cx pc stack).run { s with worklist := rest } with ⟨e | _, t⟩
  · exact hnext hrun
  · exact hnext hrun

/-- **With a round for each offset of the code the loop comes to its end**: the bound of the visits is never met. -/
theorem visitAll_meets {fuel : Nat} (h : Rounds cx placed visited (.ok ()) s)
    (hfuel : cx.code.size ≤ fuel + visited.length) : Meets (visitAll cx fuel) s
      (fun _ t => (∃ placed visited, Rounds cx placed visited (.ok ()) t) ∧ t.worklist = [])
      fun e t => ∃ placed visited, Rounds cx placed visited (.error e) t := by
  induction fuel generalizing placed visited s with
  | zero =>
    have hpending := h.recorded.pending
    rw [State.pending, State.waiting, List.length_map] at hpending
    exact Meets.pure ⟨⟨placed, visited, h⟩, List.eq_nil_of_length_eq_zero (by omega)⟩
  | succ fuel ih =>
    unfold visitAll
    refine Meets.get_bind ?_
    cases hw : s.worklist with
    | nil => exact Meets.pure ⟨⟨placed, visited, h⟩, hw⟩
    | cons e rest =>
      obtain ⟨pc, stack⟩ := e
      refine Meets.modify_bind (Meets.bind ((h.visit_meets hw).mono (fun _ _ h => h) fun e t he => ?_) ?_)
      · obtain ⟨placed', h'⟩ := he
        exact ⟨placed', pc :: visited, h'⟩
      · rintro _ t ⟨placed', h'⟩
        exact ih h' (by rw [List.length_cons]; omega)

end Rounds

/-- **The pass is a run of the loop to its end.** -/
theorem pass_meets (cx : Context) : Meets (pass cx) (start cx.code.size)
    (fun _ t => (∃ placed visited, Rounds cx placed visited (.ok ()) t) ∧ t.worklist = [])
    fun e t => ∃ placed visited, Rounds cx placed visited (.error e) t := by
  rw [pass_eq]
  refine Meets.bind (Q := fun _ t => Rounds cx t.waiting [] (.ok ()) t) ?_ fun _ t h =>
    h.visitAll_meets (Nat.le_add_right _ _)
  unfold Meets
  rcases hrun : (seed cx).run (start cx.code.size) with ⟨e | _, t⟩
  · exact ⟨_, _, .seeded hrun⟩
  · exact .seeded hrun

end Analysis

open Analysis in
/-- **The loops of the analysis end**, whatever the code, the regions, the signature and the tables are. Every
instruction takes a byte of the code or more, so the loop over the instructions ends after at most as many rounds as
there are bytes. At every moment of the loop over the worklist, no offset was placed twice or visited twice, the flags
stand for those that were placed, and each round leaves one visit less to come than the one before. So that loop ends
too, and the analysis gives what it ended with. -/
theorem analysis_ends {md : Metadata} {m : MethodSymbol} {body : Body} (hb : m.body = some body) :
    (∀ pc next, (Code.mk body.code).nextOffset pc = .ok next → pc < next ∧ next ≤ body.code.size) ∧
    (∃ rounds ≤ body.code.size, Scans ⟨body.code⟩ rounds 0 (Array.replicate body.code.size false) (scan ⟨body.code⟩)) ∧
    (∀ placed visited r s, Rounds (contextOf md m body) placed visited r s →
      placed.Nodup ∧ visited.Nodup ∧ placed.Perm (visited ++ s.waiting) ∧
      (∀ pc, s.queued.getD pc false = true ↔ pc ∈ placed) ∧ s.pending + visited.length = body.code.size) ∧
    ∃ placed visited r s, Rounds (contextOf md m body) placed visited r s ∧ (r = .ok () → s.worklist = []) ∧
      analyze md m = (r.map fun _ => s.result, s.lookups) := by
  refine ⟨fun pc next h => Code.nextOffset_advances h, ?_, fun placed visited r s h => ?_, ?_⟩
  · obtain ⟨rounds, h⟩ := scanFrom_scans ⟨body.code⟩ body.code.size 0 (Array.replicate body.code.size false)
      (Nat.le_add_left _ _)
    exact ⟨rounds, h.bounded, h⟩
  · have hrecorded := h.recorded
    have hsplit := hrecorded.split.nodup_iff.1 hrecorded.nodup
    exact ⟨hrecorded.nodup, (List.nodup_append.1 hsplit).1, hrecorded.split, hrecorded.flags, hrecorded.pending⟩
  · have hends := pass_meets (contextOf md m body)
    rcases hrun : ((pass (contextOf md m body)).run).run (start body.code.size) with ⟨r, t⟩
    have hanalyze : analyze md m = (r.map fun _ => t.result, t.lookups) := by
      unfold analyze
      rw [hb]
      simp only [hrun]
    cases r with
    | error e =>
      obtain ⟨placed, visited, h⟩ := hends.of_error hrun
      exact ⟨placed, visited, .error e, t, h, fun hok => (by cases hok), hanalyze⟩
    | ok u =>
      obtain ⟨⟨placed, visited, h⟩, hempty⟩ := hends.of_ok hrun
      exact ⟨placed, visited, .ok (), t, h, fun _ => hempty, hanalyze⟩

/-- A jump table that leads back to the first instruction, behind it an instruction that jumps to itself, and two
handlers that start there. -/
def goesRoundBody : Body where
  code := #[0x16, 0x45, 1, 0, 0, 0, 0xF6, 0xFF, 0xFF, 0xFF, 0x2B, 0xFE]
  maxStack := 1
  regions := [⟨⟨0, 1⟩, ⟨10, 2⟩, .finallyBlock⟩, ⟨⟨0, 10⟩, ⟨10, 2⟩, .finallyBlock⟩]

/-- A method that does not end when it runs. -/
def goesRound : MethodSymbol where
  handle := ⟨3⟩
  name := "goesRound"
  declaring := Core.object
  signature := {}
  isVirtual := false
  body := some goesRoundBody

open Analysis in
/-- The analysis of `goesRound` ends with a result: from the table, from itself and from both handlers the last
instruction was placed once, and visited once. -/
theorem goesRound_ends : goesRound.body = some goesRoundBody ∧
    (Code.mk goesRoundBody.code).nextOffset 1 = .ok 10 ∧ 1 < 10 ∧ 10 ≤ goesRoundBody.code.size ∧
    ∃ placed visited s, Rounds (contextOf .core goesRound goesRoundBody) placed visited (.ok ()) s ∧
      s.worklist = [] ∧ placed.Nodup ∧ visited.Nodup ∧ placed.Perm visited ∧
      s.unqueued + visited.length = goesRoundBody.code.size := by
  have hr : (analyze .core goesRound).1.toOption.isSome = true := by decide +kernel
  obtain ⟨hadvances, -, hrecorded, placed, visited, r, s, hrounds, hends, hanalyze⟩ :=
    analysis_ends (show goesRound.body = some goesRoundBody from rfl)
  have hnext : (Code.mk goesRoundBody.code).nextOffset 1 = .ok 10 := by
    have ht : ((Code.mk goesRoundBody.code).nextOffset 1).toOption = some 10 := by decide +kernel
    cases hn : (Code.mk goesRoundBody.code).nextOffset 1 with
    | error e => rw [hn] at ht; cases ht
    | ok next => rw [hn] at ht; cases ht; rfl
  obtain ⟨hlt, hle⟩ := hadvances 1 10 hnext
  cases r with
  | error e =>
    rw [hanalyze] at hr
    cases hr
  | ok u =>
    obtain ⟨hplaced, hvisited, hsplit, -, hpending⟩ := hrecorded _ _ _ _ hrounds
    have hempty := hends rfl
    rw [State.waiting, hempty, List.map_nil, List.append_nil] at hsplit
    rw [State.pending, State.waiting, hempty] at hpending
    exact ⟨rfl, hnext, hlt, hle, placed, visited, s, hrounds, hempty, hplaced, hvisited, hsplit, hpending⟩

end ManagedCode
