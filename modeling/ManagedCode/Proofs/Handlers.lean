import ManagedCode.Unwinding

/-!
# Open handlers

The state of exception handling has two stacks, one of exceptions and one of leaves, but what an `endfinally` has to do
is decided by one order: that in which the running handlers were entered. `Reached` follows the state together with the
list of the handlers that control has entered and not left, the latest first, and `Coupled` says how the two stacks
make up that list. The last section says exactly when `endfinally` ends the handler that was entered last.
-/

namespace ManagedCode

namespace Span

/-- Every offset of `a` is in `b`. -/
def Within (a b : Span) : Prop := ∀ pc, a.contains pc = true → b.contains pc = true

/-- No offset is in both. -/
def Apart (a b : Span) : Prop := ∀ pc, a.contains pc = true → b.contains pc = false

theorem within_of_le {a b : Span} (h₁ : b.start ≤ a.start) (h₂ : a.stop ≤ b.stop) : a.Within b := by
  intro pc hpc
  unfold stop at h₂
  rw [contains_iff] at hpc ⊢
  omega

theorem apart_of_le {a b : Span} (h : a.stop ≤ b.start ∨ b.stop ≤ a.start) : a.Apart b := by
  intro pc hpc
  unfold stop at h
  rw [contains_iff] at hpc
  rw [Bool.eq_false_iff, Ne, contains_iff]
  omega

end Span

namespace RegionTable

variable {t : RegionTable} {i j k pc : Nat}

/-- Whether region `i` protects `pc`. -/
def inTry (t : RegionTable) (i pc : Nat) : Bool := (t.region? i).any (·.tryBlock.contains pc)

/-- Whether the handler of region `i` is a finally handler. -/
def isFinally (t : RegionTable) (i : Nat) : Bool := (t.region? i).any (·.isFinally)

/-- **The regions are properly nested, inner ones first**: a handler has a first offset and lies outside of its own try
block; an inner region lies inside or outside of each block of an outer one, and of its handler with both blocks. -/
structure Nested (t : RegionTable) : Prop where
  occupied : ∀ i r, t.region? i = some r → r.handler.contains r.handler.start = true
  apart : ∀ i r, t.region? i = some r → r.tryBlock.Apart r.handler
  tries : ∀ i j r s, i < j → t.region? i = some r → t.region? j = some s →
    (r.tryBlock.Within s.tryBlock ∨ r.tryBlock.Apart s.tryBlock) ∧
    (r.handler.Within s.tryBlock ∨ r.handler.Apart s.tryBlock)
  handlers : ∀ i j r s, i < j → t.region? i = some r → t.region? j = some s →
    (r.tryBlock.Within s.handler ∧ r.handler.Within s.handler) ∨
    (r.tryBlock.Apart s.handler ∧ r.handler.Apart s.handler)

theorem inTry_iff : t.inTry i pc = true ↔ ∃ r, t.region? i = some r ∧ r.tryBlock.contains pc = true := by
  rw [inTry, Option.any_eq_true_iff_get]
  cases t.region? i <;> simp

theorem inHandler_iff : t.inHandler i pc = true ↔ ∃ r, t.region? i = some r ∧ r.handler.contains pc = true := by
  rw [inHandler, Option.any_eq_true_iff_get]
  cases t.region? i <;> simp

namespace Nested

/-- No offset is in a try block and in the handler of the same region. -/
theorem not_both (h : t.Nested) (ht : t.inTry i pc = true) (hh : t.inHandler i pc = true) : False := by
  obtain ⟨r, hr, hpc⟩ := inTry_iff.1 ht
  obtain ⟨s, hs, hpc'⟩ := inHandler_iff.1 hh
  cases hr.symm.trans hs
  rw [h.apart i r hr pc hpc] at hpc'
  cases hpc'

/-- A region whose try block meets a handler, but does not cover it, has its own handler inside that handler. -/
theorem inside (h : t.Nested) {x y : Nat} (ht : t.inTry i pc = true) (hk : t.inHandler k pc = true)
    (hx : t.inHandler k x = true) (hx' : t.inTry i x ≠ true) (hy : t.inHandler i y = true) :
    t.inHandler k y = true := by
  obtain ⟨r, hr, hpc⟩ := inTry_iff.1 ht
  obtain ⟨s, hs, hpc'⟩ := inHandler_iff.1 hk
  obtain ⟨r', hr', hy⟩ := inHandler_iff.1 hy
  cases hr.symm.trans hr'
  rcases Nat.lt_trichotomy i k with hlt | rfl | hgt
  · rcases h.handlers i k r s hlt hr hs with ⟨-, hin⟩ | ⟨hout, -⟩
    · exact inHandler_iff.2 ⟨s, hs, hin y hy⟩
    · rw [hout pc hpc] at hpc'; cases hpc'
  · exact (h.not_both ht hk).elim
  · obtain ⟨s', hs', hx⟩ := inHandler_iff.1 hx
    cases hs.symm.trans hs'
    rcases (h.tries k i s r hgt hs hr).2 with hin | hout
    · exact absurd (inTry_iff.2 ⟨r, hr, hin x hx⟩) hx'
    · rw [hout pc hpc'] at hpc; cases hpc

/-- The handler of an outer region does not start inside the handler of an inner one that protects a common offset. -/
theorem not_inHandler_start (h : t.Nested) {s : Region} (hlt : i < j) (hs : t.region? j = some s)
    (hi : t.inTry i pc = true) (hj : t.inTry j pc = true) : t.inHandler i s.handler.start = false := by
  cases hc : t.inHandler i s.handler.start with
  | false => rfl
  | true =>
    obtain ⟨r, hr, hpc⟩ := inTry_iff.1 hi
    obtain ⟨r', hr', hstart⟩ := inHandler_iff.1 hc
    cases hr.symm.trans hr'
    rcases h.handlers i j r s hlt hr hs with ⟨hin, -⟩ | ⟨-, hout⟩
    · exact (h.not_both hj (inHandler_iff.2 ⟨s, hs, hin pc hpc⟩)).elim
    · have := hout _ hstart
      rw [h.occupied j s hs] at this; cases this

end Nested

/-! ## Searches -/

/-- A region that the search finds protects the offset, and is one that acts on exceptions. -/
theorem findFrom_ok {md : Metadata} {thrown : Option TypeHandle} : ∀ (l : List ResolvedRegion) (index : Nat),
    findFrom md pc thrown index l = .ok (some i) → index ≤ i ∧ ∃ e, l[i - index]? = some e ∧
      e.region.tryBlock.contains pc = true ∧ (e.region.isFinally = true ∨ e.region.isCatch = true)
  | [], _, h => by cases h
  | e :: rest, index, h => by
    have skip : findFrom md pc thrown (index + 1) rest = .ok (some i) → index ≤ i ∧
        ∃ e', (e :: rest)[i - index]? = some e' ∧ e'.region.tryBlock.contains pc = true ∧
          (e'.region.isFinally = true ∨ e'.region.isCatch = true) := by
      intro hr
      obtain ⟨hle, e', he', hpc⟩ := findFrom_ok rest (index + 1) hr
      refine ⟨by omega, e', ?_, hpc⟩
      rw [show i - index = (i - (index + 1)) + 1 by omega, List.getElem?_cons_succ]
      exact he'
    unfold findFrom at h
    split at h
    · exact skip h
    · rename_i hpc
      have here : e.region.isFinally = true ∨ e.region.isCatch = true → index = i → index ≤ i ∧
          ∃ e', (e :: rest)[i - index]? = some e' ∧ e'.region.tryBlock.contains pc = true ∧
            (e'.region.isFinally = true ∨ e'.region.isCatch = true) := by
        rintro hk rfl
        exact ⟨Nat.le_refl _, e, by rw [Nat.sub_self]; rfl, by simpa using hpc, hk⟩
      split at h
      · rename_i hk
        exact here (.inl (by rw [Region.isFinally, hk]; rfl)) (Option.some.inj (Except.ok.inj h))
      · rename_i hk
        split at h
        · split at h
          · cases h
          · exact here (.inr (by rw [Region.isCatch, hk])) (Option.some.inj (Except.ok.inj h))
          · exact skip h
        · exact skip h
      · cases h
      · cases h

/-- A search fails only where it has no end or meets a kind of handler that is not supported. -/
theorem findFrom_error {md : Metadata} {thrown : Option TypeHandle} {a : Abort} :
    ∀ (l : List ResolvedRegion) (index : Nat), findFrom md pc thrown index l = .error a →
      a = .endless ∨ ∃ w, a = .error (.notImplemented w)
  | [], _, h => by cases h
  | e :: rest, index, h => by
    unfold findFrom at h
    split at h
    · exact findFrom_error rest (index + 1) h
    · split at h
      · cases h
      · split at h
        · split at h
          · cases h; exact .inl rfl
          · cases h
          · exact findFrom_error rest (index + 1) h
        · exact findFrom_error rest (index + 1) h
      · cases h; exact .inr ⟨_, rfl⟩
      · cases h; exact .inr ⟨_, rfl⟩

theorem findHandler_ok {md : Metadata} {thrown : Option TypeHandle} {start : Nat}
    (h : t.findHandler md pc start thrown = .ok (some i)) :
    start ≤ i ∧ t.inTry i pc = true ∧ ∃ r, t.region? i = some r ∧ (r.isFinally = true ∨ r.isCatch = true) := by
  obtain ⟨hle, e, he, hpc, hk⟩ := findFrom_ok _ _ h
  rw [List.getElem?_drop, show start + (i - start) = i by omega] at he
  have hr : t.region? i = some e.region := by rw [region?, he, Option.map_some]
  exact ⟨hle, inTry_iff.2 ⟨e.region, hr, hpc⟩, e.region, hr, hk⟩

/-- The handlers that a leave runs are finally handlers whose try blocks it leaves. -/
theorem mem_finalliesBetween {target : Nat} (h : i ∈ t.finalliesBetween pc target) :
    ∃ r, t.region? i = some r ∧ r.isFinally = true ∧ t.inTry i pc = true ∧ t.inTry i target ≠ true := by
  obtain ⟨⟨e, n⟩, hm, rfl⟩ := List.mem_map.1 h
  obtain ⟨hmem, hp⟩ := List.mem_filter.1 hm
  have hr : t.region? n = some e.region := by
    rw [region?, (List.mem_zipIdx_iff_getElem?.1 hmem), Option.map_some]
  simp only [Bool.and_eq_true, Bool.not_eq_true'] at hp
  refine ⟨e.region, hr, hp.1.1, inTry_iff.2 ⟨_, hr, hp.1.2⟩, fun hc => ?_⟩
  obtain ⟨r, hr', hc⟩ := inTry_iff.1 hc
  cases hr.symm.trans hr'
  rw [hp.2] at hc; cases hc

end RegionTable

namespace Unwinding

variable {md : Metadata} {t : RegionTable} {u u' : Unwinding} {pc target : Nat}

/-- **What an exception does that some region acts on**: that region's handler starts, and handlers and leaves outside
of which it lies are abandoned. -/
theorem dispatch_resume {e : GuestException} {thrown : Option TypeHandle} {start h : Nat} {push : Option (Option Ref)}
    (hd : u.dispatch md t e thrown pc start = (.ok (.resume h push), u')) :
    ∃ i r, start ≤ i ∧ t.region? i = some r ∧ t.inTry i pc = true ∧ h = r.handler.start ∧
      (r.isFinally = true ∨ push.isSome = true) ∧ u' = ⟨⟨e, thrown, pc, i⟩ :: u.pending.filter (t.inHandler ·.region h),
        u.leaves.filter (t.inHandler ·.running h)⟩ := by
  unfold dispatch at hd
  split at hd
  · cases hd
  · cases hd
  · rename_i i hf
    obtain ⟨hle, htry, r, hr, hk⟩ := RegionTable.findHandler_ok hf
    simp only [hr] at hd
    cases hd
    exact ⟨i, r, hle, hr, htry, rfl, hk.imp id fun hk => by rw [hk]; rfl, rfl⟩

/-- Whether an `endfinally` at `pc` raises the latest pending exception again. -/
def reraises (t : RegionTable) (u : Unwinding) (pc : Nat) : Bool :=
  u.pending.head?.any fun p => t.isFinally p.region && t.inHandler p.region pc

theorem endFinally_reraises (md : Metadata) (h : u.reraises t pc = true) :
    ∃ p ps, u.pending = p :: ps ∧ t.isFinally p.region = true ∧
      u.endFinally md t pc = dispatch md t ⟨ps, u.leaves⟩ p.exception p.thrown p.raisedAt (p.region + 1) := by
  unfold reraises at h
  cases hp : u.pending with
  | nil => rw [hp] at h; cases h
  | cons p ps =>
    rw [hp] at h
    simp only [List.head?_cons, Option.any_some, Bool.and_eq_true] at h
    refine ⟨p, ps, rfl, h.1, ?_⟩
    have htest : (t.region? p.region).any (fun r => r.isFinally && r.handler.contains pc) = true := by
      unfold RegionTable.isFinally RegionTable.inHandler at h
      cases hr : t.region? p.region with
      | none => rw [hr] at h; cases h.1
      | some r =>
        rw [hr] at h
        simpa only [Option.any_some, Bool.and_eq_true] using h
    simp only [endFinally, hp, htest, if_true]

theorem reraises_of_head {p : PendingException} {ps : List PendingException} (hp : u.pending = p :: ps)
    (hf : t.isFinally p.region = true) (hpc : t.inHandler p.region pc = true) : u.reraises t pc = true := by
  rw [reraises, hp, List.head?_cons, Option.any_some, hf, hpc, Bool.and_self]

theorem endFinally_endLeave (h : u.reraises t pc = false) : u.endFinally md t pc = u.endLeave t pc := by
  unfold reraises at h
  unfold endFinally
  cases hp : u.pending with
  | nil => rfl
  | cons p ps =>
    rw [hp] at h
    have htest : (t.region? p.region).any (fun r => r.isFinally && r.handler.contains pc) = false := by
      simp only [List.head?_cons, Option.any_some] at h
      unfold RegionTable.isFinally RegionTable.inHandler at h
      cases hr : t.region? p.region with
      | none => rfl
      | some r =>
        rw [hr] at h
        simpa only [Option.any_some] using h
    simp only [htest, Bool.false_eq_true, if_false]

/-! ## The handlers that are running -/

/-- How control entered a handler: by an exception, or by a leave from the offset `source`. -/
inductive Entry where
  | raised (p : PendingException)
  | left (source : Nat) (l : PendingLeave)
  deriving DecidableEq, Repr

namespace Entry

def region : Entry → Nat
  | .raised p => p.region
  | .left _ l => l.running

/-- The offset at which the exception was raised, or that the leave came from. -/
def origin : Entry → Nat
  | .raised p => p.raisedAt
  | .left source _ => source

/-- Whether `pc` is inside the handler. -/
def runsAt (t : RegionTable) (pc : Nat) (o : Entry) : Bool := t.inHandler o.region pc

/-- **What the end of a finally handler has to do.** An exception is raised again, and the search goes on behind the
region. A leave goes on with its next handler or to its target, and every pending exception stays pending. -/
def close (md : Metadata) (t : RegionTable) (u : Unwinding) : Entry → Except Abort Transfer × Unwinding
  | .raised p =>
    dispatch md t { u with pending := u.pending.erase p } p.exception p.thrown p.raisedAt (p.region + 1)
  | .left _ l =>
    match l.queued with
    | [] => (.ok (.resume l.target none), { u with leaves := u.leaves.erase l })
    | next :: queued =>
      (.ok (.resume (((t.region? next).map (·.handler.start)).getD l.target) none),
        { u with leaves := ⟨l.target, queued, next⟩ :: u.leaves.erase l })

end Entry

/-- **The states that calls from running code reach**, each with the handlers that are running, the latest first. A
call is made at an offset inside all of these. A leave does not jump out of a finally handler that is running, and an
`endfinally` is executed in a finally handler itself, not in a catch handler inside of it. A handler that the next
offset lies outside of is not running any more. -/
inductive Reached (md : Metadata) (t : RegionTable) : Unwinding → List Entry → Prop where
  | start : Reached md t {} []
  | raise {u u' : Unwinding} {running : List Entry} {e : GuestException} {thrown : Option TypeHandle} {pc start h : Nat}
      {push : Option (Option Ref)} {p : PendingException} : Reached md t u running →
      (∀ o ∈ running, o.runsAt t pc = true) → u.dispatch md t e thrown pc start = (.ok (.resume h push), u') →
      u'.pending.head? = some p → Reached md t u' (.raised p :: running.filter (Entry.runsAt t h))
  | leave {u u' : Unwinding} {running : List Entry} {pc target : Nat} : Reached md t u running →
      (∀ o ∈ running, o.runsAt t pc = true) →
      (∀ o ∈ running, t.isFinally o.region = true → o.runsAt t target = true) →
      u.leave t pc target = (target, u') → t.finalliesBetween pc target = [] →
      Reached md t u' (running.filter (Entry.runsAt t target))
  | leaveThrough {u u' : Unwinding} {running : List Entry} {pc target h first : Nat} {queued : List Nat} :
      Reached md t u running → (∀ o ∈ running, o.runsAt t pc = true) →
      (∀ o ∈ running, t.isFinally o.region = true → o.runsAt t target = true) →
      u.leave t pc target = (h, u') → t.finalliesBetween pc target = first :: queued →
      Reached md t u' (.left pc ⟨target, queued, first⟩ :: running.filter (Entry.runsAt t h))
  | raiseAgain {u u' : Unwinding} {o : Entry} {running : List Entry} {pc h : Nat} {push : Option (Option Ref)}
      {p : PendingException} : Reached md t u (o :: running) → (∀ k ∈ o :: running, k.runsAt t pc = true) →
      t.isFinally o.region = true → u.reraises t pc = true → u.endFinally md t pc = (.ok (.resume h push), u') →
      u'.pending.head? = some p → Reached md t u' (.raised p :: (o :: running).filter (Entry.runsAt t h))
  | goOn {u u' : Unwinding} {o : Entry} {running : List Entry} {pc h : Nat} {push : Option (Option Ref)}
      {l : PendingLeave} : Reached md t u (o :: running) → (∀ k ∈ o :: running, k.runsAt t pc = true) →
      t.isFinally o.region = true → u.reraises t pc = false → u.endFinally md t pc = (.ok (.resume h push), u') →
      u.leaves.head? = some l → l.queued = [] → Reached md t u' (running.filter (Entry.runsAt t h))
  | goOnThrough {u u' : Unwinding} {o : Entry} {running : List Entry} {pc h next : Nat} {push : Option (Option Ref)}
      {l : PendingLeave} {queued : List Nat} : Reached md t u (o :: running) →
      (∀ k ∈ o :: running, k.runsAt t pc = true) → t.isFinally o.region = true → u.reraises t pc = false →
      u.endFinally md t pc = (.ok (.resume h push), u') → u.leaves.head? = some l → l.queued = next :: queued →
      Reached md t u' (.left o.origin ⟨l.target, queued, next⟩ :: running.filter (Entry.runsAt t h))

/-! ## The two stacks make up one -/

/-- **The running handlers, taken apart into the two stacks.** A catch handler that a leave is on its way out of is
still running, but its exception is not pending any more. What a leave found pending contains its target. -/
inductive Tracks (t : RegionTable) : List Entry → List PendingException → List PendingLeave → Prop where
  | nil : Tracks t [] [] []
  | raised {os : List Entry} {ps : List PendingException} {ls : List PendingLeave} {p : PendingException} :
      Tracks t os ps ls → Tracks t (.raised p :: os) (p :: ps) ls
  | leaving {os : List Entry} {ps : List PendingException} {ls : List PendingLeave} {p : PendingException} :
      t.isFinally p.region = false → Tracks t os ps ls → Tracks t (.raised p :: os) ps ls
  | left {os : List Entry} {ps : List PendingException} {ls : List PendingLeave} {source : Nat} {l : PendingLeave} :
      (∀ p ∈ ps, t.inHandler p.region l.target = true) → (∀ k ∈ ls, t.inHandler k.running l.target = true) →
      Tracks t os ps ls → Tracks t (.left source l :: os) ps (l :: ls)

namespace Tracks

variable {os : List Entry} {ps : List PendingException} {ls : List PendingLeave}

theorem mem_raised (h : Tracks t os ps ls) {p : PendingException} (hp : p ∈ ps) : Entry.raised p ∈ os := by
  induction h with
  | nil => cases hp
  | raised _ ih =>
    rcases List.mem_cons.1 hp with rfl | hp
    · exact List.mem_cons_self
    · exact List.mem_cons_of_mem _ (ih hp)
  | leaving _ _ ih => exact List.mem_cons_of_mem _ (ih hp)
  | left _ _ _ ih => exact List.mem_cons_of_mem _ (ih hp)

theorem mem_left (h : Tracks t os ps ls) {l : PendingLeave} (hl : l ∈ ls) : ∃ source, Entry.left source l ∈ os := by
  induction h with
  | nil => cases hl
  | raised _ ih =>
    obtain ⟨source, hm⟩ := ih hl
    exact ⟨source, List.mem_cons_of_mem _ hm⟩
  | leaving _ _ ih =>
    obtain ⟨source, hm⟩ := ih hl
    exact ⟨source, List.mem_cons_of_mem _ hm⟩
  | left _ _ _ ih =>
    rcases List.mem_cons.1 hl with rfl | hl
    · exact ⟨_, List.mem_cons_self⟩
    · obtain ⟨source, hm⟩ := ih hl
      exact ⟨source, List.mem_cons_of_mem _ hm⟩

/-- The handler of the latest pending exception is running. -/
theorem split {p : PendingException} (h : Tracks t os (p :: ps) ls) :
    ∃ above below, os = above ++ .raised p :: below := by
  generalize hps : p :: ps = qs at h
  induction h with
  | nil => cases hps
  | raised _ _ => cases hps; exact ⟨[], _, rfl⟩
  | leaving _ _ ih =>
    obtain ⟨above, below, rfl⟩ := ih hps
    exact ⟨_ :: above, below, rfl⟩
  | left _ _ _ ih =>
    obtain ⟨above, below, rfl⟩ := ih hps
    exact ⟨_ :: above, below, rfl⟩

/-- Control goes to `h`: the handlers around it stay, in all three lists. -/
theorem filter (hs : Tracks t os ps ls) (h : Nat) : Tracks t (os.filter (Entry.runsAt t h))
    (ps.filter (t.inHandler ·.region h)) (ls.filter (t.inHandler ·.running h)) := by
  induction hs with
  | nil => exact .nil
  | @raised os ps ls p _ ih =>
    cases hc : t.inHandler p.region h with
    | true => simpa [Entry.runsAt, Entry.region, hc] using ih.raised
    | false => simpa [Entry.runsAt, Entry.region, hc] using ih
  | @leaving os ps ls p hf _ ih =>
    cases hc : t.inHandler p.region h with
    | true => simpa [Entry.runsAt, Entry.region, hc] using ih.leaving hf
    | false => simpa [Entry.runsAt, Entry.region, hc] using ih
  | @left os ps ls source l hp hl _ ih =>
    cases hc : t.inHandler l.running h with
    | true =>
      have hleft : Tracks t (.left source l :: os.filter (Entry.runsAt t h)) _ (l :: _) :=
        ih.left (fun p hm => hp p (List.mem_filter.1 hm).1) fun k hm => hl k (List.mem_filter.1 hm).1
      simpa [Entry.runsAt, Entry.region, hc] using hleft
    | false => simpa [Entry.runsAt, Entry.region, hc] using ih

end Tracks

/-- One handler was entered while another one ran: from inside of it, and it lies inside of it. -/
def Above (t : RegionTable) (o k : Entry) : Prop :=
  t.inHandler k.region o.origin = true ∧ ∀ pc, t.inHandler o.region pc = true → t.inHandler k.region pc = true

/-- A handler was entered as its region says. The handlers that a leave still has to run are finally handlers whose
try blocks it leaves. -/
def Entry.Entered (t : RegionTable) (o : Entry) : Prop :=
  t.inTry o.region o.origin = true ∧ ∀ source l, o = .left source l → t.isFinally l.running = true ∧
    ∀ i ∈ l.queued, t.isFinally i = true ∧ t.inTry i source = true ∧ t.inTry i l.target ≠ true

/-- **How the state and the running handlers belong together.** -/
structure Coupled (t : RegionTable) (u : Unwinding) (running : List Entry) : Prop where
  tracks : Tracks t running u.pending u.leaves
  stacked : running.Pairwise (Above t)
  entered : ∀ o ∈ running, o.Entered t

/-- A handler that is entered from inside other handlers, and starts inside of them, lies inside of them. -/
theorem above_of_start (hn : t.Nested) {o k : Entry} {r : Region} (hr : t.region? o.region = some r)
    (htry : t.inTry o.region o.origin = true) (ho : t.inHandler k.region o.origin = true)
    (hs : t.inHandler k.region r.handler.start = true) : Above t o k :=
  ⟨ho, fun _ hy => hn.inside htry ho hs
    (fun hx => hn.not_both hx (RegionTable.inHandler_iff.2 ⟨r, hr, hn.occupied _ r hr⟩)) hy⟩

/-- Raising an exception, for the first time or again, at an offset inside the handlers that stay. -/
theorem Coupled.raise (hn : t.Nested) {running : List Entry} (hc : Coupled t u running) {p : PendingException}
    {r : Region} (hr : t.region? p.region = some r) (htry : t.inTry p.region p.raisedAt = true)
    (hall : ∀ o ∈ running, o.runsAt t r.handler.start = true → t.inHandler o.region p.raisedAt = true) :
    Coupled t ⟨p :: u.pending.filter (t.inHandler ·.region r.handler.start),
      u.leaves.filter (t.inHandler ·.running r.handler.start)⟩
      (.raised p :: running.filter (Entry.runsAt t r.handler.start)) where
  tracks := (hc.tracks.filter _).raised
  stacked := by
    refine List.pairwise_cons.2 ⟨fun k hk => ?_, hc.stacked.filter _⟩
    obtain ⟨hk, hs⟩ := List.mem_filter.1 hk
    exact above_of_start hn hr htry (hall k hk hs) hs
  entered := by
    intro o ho
    rcases List.mem_cons.1 ho with rfl | ho
    · exact ⟨htry, fun _ _ hl => by cases hl⟩
    · exact hc.entered o (List.mem_filter.1 ho).1

/-- The exceptions that stay pending when a leave goes from `pc` to `target`. -/
def afterLeave (t : RegionTable) (pc target : Nat) (ps : List PendingException) : List PendingException :=
  ps.dropWhile fun p => !(t.inHandler p.region pc && t.inHandler p.region target)

/-- A leave to `target`, which goes on at `h`: the pending exceptions that it drops are those of catch handlers around
`pc` that do not contain the target. -/
theorem Tracks.leave {os : List Entry} {ps : List PendingException} {ls : List PendingLeave} {h : Nat}
    (hs : Tracks t os ps ls) (hstacked : os.Pairwise (Above t)) (hentered : ∀ o ∈ os, o.Entered t)
    (hpc : ∀ o ∈ os, o.runsAt t pc = true)
    (hkeep : ∀ o ∈ os, t.isFinally o.region = true → o.runsAt t target = true)
    (hh : ∀ o ∈ os, o.runsAt t target = true → o.runsAt t h = true) :
    Tracks t (os.filter (Entry.runsAt t h)) (afterLeave t pc target ps) ls ∧
      ∀ p ∈ afterLeave t pc target ps, t.inHandler p.region target = true := by
  induction hs with
  | nil => exact ⟨.nil, fun p hp => by cases hp⟩
  | @raised os ps ls p hs ih =>
    have hpc' : t.inHandler p.region pc = true := hpc _ List.mem_cons_self
    obtain ⟨habove, hstacked⟩ := List.pairwise_cons.1 hstacked
    cases hc : t.inHandler p.region target with
    | true =>
      -- every handler below contains the target as well, so nothing below is dropped
      have hall : ∀ o ∈ Entry.raised p :: os, o.runsAt t target = true := by
        intro o ho
        rcases List.mem_cons.1 ho with rfl | ho
        · exact hc
        · exact (habove o ho).2 target hc
      have hfilter : (Entry.raised p :: os).filter (Entry.runsAt t h) = .raised p :: os :=
        List.filter_eq_self.2 fun o ho => hh o ho (hall o ho)
      have hdrop : afterLeave t pc target (p :: ps) = p :: ps := by
        simp only [afterLeave, List.dropWhile_cons, hpc', hc, Bool.and_self, Bool.not_true, Bool.false_eq_true,
          if_false]
      rw [hfilter, hdrop]
      exact ⟨hs.raised, fun q hq => hall _ (hs.raised.mem_raised hq)⟩
    | false =>
      have hdrop : afterLeave t pc target (p :: ps) = afterLeave t pc target ps := by
        simp only [afterLeave, List.dropWhile_cons, hc, Bool.and_false, Bool.not_false, if_true]
      have hcatch : t.isFinally p.region = false := by
        cases hf : t.isFinally p.region with
        | false => rfl
        | true =>
          cases hc.symm.trans (hkeep _ List.mem_cons_self hf)
      obtain ⟨htracks, hin⟩ := ih hstacked (fun o ho => hentered o (List.mem_cons_of_mem _ ho))
        (fun o ho => hpc o (List.mem_cons_of_mem _ ho)) (fun o ho => hkeep o (List.mem_cons_of_mem _ ho))
        fun o ho => hh o (List.mem_cons_of_mem _ ho)
      rw [hdrop, List.filter_cons]
      split
      · exact ⟨htracks.leaving hcatch, hin⟩
      · exact ⟨htracks, hin⟩
  | @leaving os ps ls p hf hs ih =>
    obtain ⟨htracks, hin⟩ := ih (List.pairwise_cons.1 hstacked).2 (fun o ho => hentered o (List.mem_cons_of_mem _ ho))
      (fun o ho => hpc o (List.mem_cons_of_mem _ ho)) (fun o ho => hkeep o (List.mem_cons_of_mem _ ho))
      fun o ho => hh o (List.mem_cons_of_mem _ ho)
    rw [List.filter_cons]
    split
    · exact ⟨htracks.leaving hf, hin⟩
    · exact ⟨htracks, hin⟩
  | @left os ps ls source l hp hl hs ih =>
    obtain ⟨htracks, hin⟩ := ih (List.pairwise_cons.1 hstacked).2 (fun o ho => hentered o (List.mem_cons_of_mem _ ho))
      (fun o ho => hpc o (List.mem_cons_of_mem _ ho)) (fun o ho => hkeep o (List.mem_cons_of_mem _ ho))
      fun o ho => hh o (List.mem_cons_of_mem _ ho)
    have hfinally := ((hentered _ List.mem_cons_self).2 source l rfl).1
    have hrun := hh _ List.mem_cons_self (hkeep _ List.mem_cons_self hfinally)
    rw [List.filter_cons, if_pos hrun]
    exact ⟨htracks.left (fun p hm => hp p ((List.dropWhile_sublist _).subset hm)) hl, hin⟩

theorem Coupled.leave {running : List Entry} (hc : Coupled t u running) (hpc : ∀ o ∈ running, o.runsAt t pc = true)
    (hkeep : ∀ o ∈ running, t.isFinally o.region = true → o.runsAt t target = true) :
    Coupled t ⟨afterLeave t pc target u.pending, u.leaves⟩ (running.filter (Entry.runsAt t target)) where
  tracks := (hc.tracks.leave hc.stacked hc.entered hpc hkeep fun _ _ h => h).1
  stacked := hc.stacked.filter _
  entered := fun o ho => hc.entered o (List.mem_filter.1 ho).1

theorem Coupled.leaveThrough (hn : t.Nested) {running : List Entry} {first : Nat} {queued : List Nat} {r : Region}
    (hc : Coupled t u running) (hpc : ∀ o ∈ running, o.runsAt t pc = true)
    (hkeep : ∀ o ∈ running, t.isFinally o.region = true → o.runsAt t target = true)
    (hbetween : t.finalliesBetween pc target = first :: queued) (hr : t.region? first = some r) :
    Coupled t ⟨afterLeave t pc target u.pending, ⟨target, queued, first⟩ :: u.leaves⟩
      (.left pc ⟨target, queued, first⟩ :: running.filter (Entry.runsAt t r.handler.start)) := by
  have hmem := fun i (hi : i ∈ first :: queued) => RegionTable.mem_finalliesBetween (hbetween ▸ hi)
  obtain ⟨_, hr', hfin, htry, hout⟩ := hmem first List.mem_cons_self
  cases hr.symm.trans hr'
  have hstart := RegionTable.inHandler_iff.2 ⟨r, hr, hn.occupied first r hr⟩
  have hh : ∀ o ∈ running, o.runsAt t target = true → o.runsAt t r.handler.start = true :=
    fun o ho ht => hn.inside htry (hpc o ho) ht hout hstart
  obtain ⟨htracks, hin⟩ := hc.tracks.leave hc.stacked hc.entered hpc hkeep hh
  refine ⟨htracks.left hin fun k hk => ?_, ?_, ?_⟩
  · obtain ⟨source, hm⟩ := hc.tracks.mem_left hk
    exact hkeep _ hm ((hc.entered _ hm).2 source k rfl).1
  · refine List.pairwise_cons.2 ⟨fun k hk => ?_, hc.stacked.filter _⟩
    obtain ⟨hk, hs⟩ := List.mem_filter.1 hk
    exact above_of_start hn hr htry (hpc k hk) hs
  · intro o ho
    rcases List.mem_cons.1 ho with rfl | ho
    · refine ⟨htry, fun source l hl => ?_⟩
      cases hl
      refine ⟨by rw [RegionTable.isFinally, hr]; exact hfin, fun i hi => ?_⟩
      obtain ⟨s, hs, hf, h1, h2⟩ := hmem i (List.mem_cons_of_mem _ hi)
      exact ⟨by rw [RegionTable.isFinally, hs]; exact hf, h1, h2⟩
    · exact hc.entered o (List.mem_filter.1 ho).1

/-- Raising the latest pending exception again ends its handler and everything inside of it. -/
theorem Coupled.raiseAgain (hn : t.Nested) {running : List Entry} (hc : Coupled t u running) {q : PendingException}
    {ps : List PendingException} (hq : u.pending = q :: ps) {i : Nat} {r : Region} (hlt : q.region < i)
    (hr : t.region? i = some r) (htry : t.inTry i q.raisedAt = true) :
    Coupled t ⟨⟨q.exception, q.thrown, q.raisedAt, i⟩ :: ps.filter (t.inHandler ·.region r.handler.start),
      u.leaves.filter (t.inHandler ·.running r.handler.start)⟩
      (.raised ⟨q.exception, q.thrown, q.raisedAt, i⟩ :: running.filter (Entry.runsAt t r.handler.start)) := by
  have htracks := hc.tracks
  rw [hq] at htracks
  obtain ⟨above, below, hsplit⟩ := htracks.split
  have hstacked := hc.stacked
  rw [hsplit, List.pairwise_append] at hstacked
  obtain ⟨-, hbelow, habove⟩ := hstacked
  have hqtry := (hc.entered (.raised q) (by rw [hsplit]; exact List.mem_append_right _ List.mem_cons_self)).1
  have hqout : t.inHandler q.region r.handler.start = false := hn.not_inHandler_start hlt hr hqtry htry
  have hfilter : u.pending.filter (t.inHandler ·.region r.handler.start) =
      ps.filter (t.inHandler ·.region r.handler.start) := by
    rw [hq, List.filter_cons, if_neg (by rw [hqout]; exact Bool.false_ne_true)]
  rw [← hfilter]
  refine hc.raise hn (p := ⟨q.exception, q.thrown, q.raisedAt, i⟩) hr htry fun o ho hrun => ?_
  rw [hsplit] at ho
  rcases List.mem_append.1 ho with ho | ho
  · -- a handler inside the one that ends does not contain the next offset
    cases hqout.symm.trans ((habove o ho _ List.mem_cons_self).2 _ hrun)
  · rcases List.mem_cons.1 ho with rfl | ho
    · cases hqout.symm.trans hrun
    · exact ((List.pairwise_cons.1 hbelow).1 o ho).1

/-- **The innermost handler, if it is a finally handler, is on top of its stack.** -/
theorem Coupled.head {o : Entry} {running : List Entry} (hc : Coupled t u (o :: running))
    (ho : t.isFinally o.region = true) :
    (∃ p ps, o = .raised p ∧ u.pending = p :: ps ∧ Tracks t running ps u.leaves) ∨
    (∃ source l ls, o = .left source l ∧ u.leaves = l :: ls ∧ Tracks t running u.pending ls ∧
      (∀ p ∈ u.pending, t.inHandler p.region l.target = true) ∧ ∀ k ∈ ls, t.inHandler k.running l.target = true) := by
  obtain ⟨htracks, -, -⟩ := hc
  generalize hps : u.pending = ps at htracks
  generalize hls : u.leaves = ls at htracks
  cases htracks with
  | raised htracks => exact .inl ⟨_, _, rfl, rfl, htracks⟩
  | leaving hf htracks => cases hf.symm.trans ho
  | left hp hl htracks => exact .inr ⟨_, _, _, rfl, rfl, htracks, hp, hl⟩

/-- A leave whose finally handler has ended: control goes on at `h`, which every handler that contains the target and
the source of the leave contains as well. -/
theorem Tracks.goOn {os : List Entry} {ps : List PendingException} {ls : List PendingLeave} {h : Nat}
    (hs : Tracks t os ps ls) (hp : ∀ p ∈ ps, t.inHandler p.region h = true)
    (hl : ∀ k ∈ ls, t.inHandler k.running h = true) : Tracks t (os.filter (Entry.runsAt t h)) ps ls := by
  have hfilter := hs.filter h
  rwa [List.filter_eq_self.2 hp, List.filter_eq_self.2 hl] at hfilter

/-- **Every reached state is coupled to its running handlers.** -/
theorem Reached.coupled (hn : t.Nested) {running : List Entry} (hr : Reached md t u running) :
    Coupled t u running := by
  induction hr with
  | start => exact ⟨.nil, .nil, fun o ho => by cases ho⟩
  | raise _ hpc hd hhead ih =>
    obtain ⟨i, r, -, hr, htry, rfl, -, rfl⟩ := dispatch_resume hd
    cases hhead
    exact ih.raise hn hr htry fun o ho _ => hpc o ho
  | leave _ hpc hkeep hleave hbetween ih =>
    rw [Unwinding.leave, hbetween] at hleave
    cases hleave
    exact ih.leave hpc hkeep
  | @leaveThrough u u' running pc target h first queued _ hpc hkeep hleave hbetween ih =>
    obtain ⟨r, hr, -⟩ := RegionTable.mem_finalliesBetween (hbetween ▸ List.mem_cons_self)
    rw [Unwinding.leave, hbetween] at hleave
    simp only [hr, Option.map_some, Option.getD_some] at hleave
    cases hleave
    exact ih.leaveThrough hn hpc hkeep hbetween hr
  | raiseAgain _ hpc ho hre hend hhead ih =>
    obtain ⟨q, ps, hq, -, heq⟩ := endFinally_reraises md hre
    rw [heq] at hend
    obtain ⟨i, r, hle, hr, htry, rfl, -, rfl⟩ := dispatch_resume hend
    cases hhead
    exact ih.raiseAgain hn hq hle hr htry
  | @goOn u u' o running pc h push l _ hpc ho hre hend hhead hqueued ih =>
    rcases ih.head ho with ⟨p, ps, rfl, hps, -⟩ | ⟨source, l', ls, rfl, hls, htracks, hp, hl⟩
    · cases hre.symm.trans (reraises_of_head hps ho (hpc _ List.mem_cons_self))
    · rw [hls] at hhead
      cases hhead
      simp only [endFinally_endLeave hre, endLeave, hls, hqueued] at hend
      cases hend
      exact ⟨htracks.goOn hp hl, (List.pairwise_cons.1 ih.stacked).2.filter _,
        fun k hk => ih.entered k (List.mem_cons_of_mem _ (List.mem_filter.1 hk).1)⟩
  | @goOnThrough u u' o running pc h next push l queued _ hpc ho hre hend hhead hqueued ih =>
    rcases ih.head ho with ⟨p, ps, rfl, hps, -⟩ | ⟨source, l', ls, rfl, hls, htracks, hp, hl⟩
    · cases hre.symm.trans (reraises_of_head hps ho (hpc _ List.mem_cons_self))
    · rw [hls] at hhead
      cases hhead
      obtain ⟨habove, hstacked⟩ := List.pairwise_cons.1 ih.stacked
      obtain ⟨-, hsource⟩ := ih.entered _ List.mem_cons_self
      obtain ⟨-, hq⟩ := hsource source l rfl
      rw [hqueued] at hq
      obtain ⟨hfin, htry, hout⟩ := hq next List.mem_cons_self
      obtain ⟨r, hr, -⟩ := RegionTable.inTry_iff.1 htry
      simp only [endFinally_endLeave hre, endLeave, hls, hqueued, hr] at hend
      cases hend
      have hstart := RegionTable.inHandler_iff.2 ⟨r, hr, hn.occupied next r hr⟩
      refine ⟨(htracks.goOn ?_ ?_).left hp hl, List.pairwise_cons.2 ⟨fun k hk => ?_, hstacked.filter _⟩, fun k hk => ?_⟩
      · intro p hm
        exact hn.inside htry (habove _ (htracks.mem_raised hm)).1 (hp p hm) hout hstart
      · intro k hm
        obtain ⟨source', hk⟩ := htracks.mem_left hm
        exact hn.inside htry (habove _ hk).1 (hl k hm) hout hstart
      · obtain ⟨hk, hs⟩ := List.mem_filter.1 hk
        exact above_of_start hn hr htry (habove k hk).1 hs
      · rcases List.mem_cons.1 hk with rfl | hk
        · refine ⟨htry, fun source' l' hl' => ?_⟩
          cases hl'
          exact ⟨hfin, fun i hi => hq i (List.mem_cons_of_mem _ hi)⟩
        · exact ih.entered k (List.mem_cons_of_mem _ (List.mem_filter.1 hk).1)

/-! ## What `endfinally` ends -/

/-- A leave comes to the end that it asks for. -/
theorem endLeave_eq_close (md : Metadata) (pc source : Nat) {l : PendingLeave} {ls : List PendingLeave}
    (hls : u.leaves = l :: ls) (hq : ∀ i ∈ l.queued, t.isFinally i = true) :
    u.endLeave t pc = (Entry.left source l).close md t u := by
  simp only [endLeave, Entry.close, hls, List.erase_cons_head]
  cases hqueued : l.queued with
  | nil => rfl
  | cons next queued =>
    have hfin := hq next (by rw [hqueued]; exact List.mem_cons_self)
    rw [RegionTable.isFinally] at hfin
    cases hr : t.region? next with
    | none => rw [hr] at hfin; cases hfin
    | some r => simp only [hr, Option.map_some, Option.getD_some]

/-- A leave that goes on keeps every exception pending and pushes nothing. -/
theorem close_left (md : Metadata) (t : RegionTable) (u : Unwinding) (source : Nat) (l : PendingLeave) :
    ∃ h ls, (Entry.left source l).close md t u = (.ok (.resume h none), ⟨u.pending, ls⟩) := by
  unfold Entry.close
  cases hq : l.queued with
  | nil =>
    simp only [hq]
    exact ⟨_, _, rfl⟩
  | cons next queued =>
    simp only [hq]
    exact ⟨_, _, rfl⟩

/-- An exception that is raised again becomes the latest pending one, of a region further out. -/
theorem dispatch_again {q : PendingException} {ps : List PendingException} {ls : List PendingLeave} {h : Nat}
    {push : Option (Option Ref)} (hd : dispatch md t ⟨ps, ls⟩ q.exception q.thrown q.raisedAt (q.region + 1) =
      (.ok (.resume h push), u')) :
    ∃ p, u'.pending.head? = some p ∧ q.region < p.region ∧ (t.isFinally p.region = true ∨ push.isSome = true) := by
  obtain ⟨i, r, hle, hr, -, -, hk, rfl⟩ := dispatch_resume hd
  exact ⟨_, rfl, hle, hk.imp (fun hf => by rw [RegionTable.isFinally, hr]; exact hf) id⟩

/-- The end of a leave that did not enter any running handler is an error of another kind than those of a search. -/
theorem dispatch_ne_outside {e : GuestException} {thrown : Option TypeHandle} {start : Nat}
    (hd : u.dispatch md t e thrown pc start = (.error (.error (.invalidProgram target .endFinallyOutside)), u')) :
    False := by
  unfold dispatch at hd
  split at hd
  · rename_i a ha
    rcases RegionTable.findFrom_error _ _ ha with rfl | ⟨w, rfl⟩
    · cases hd
    · cases hd
  · cases hd
  · split at hd
    · cases hd
    · cases hd

/-- The condition under which the two stacks show which finally handler was entered last: its exception is the latest
pending one, or, for a handler that a leave entered, the latest pending exception did not enter a finally handler. -/
def Entry.IsLatest (t : RegionTable) (u : Unwinding) : Entry → Prop
  | .raised p => u.pending.head? = some p
  | .left _ _ => ∀ p, u.pending.head? = some p → t.isFinally p.region = false

/-- The running finally handler that was entered last is on its stack: its exception below those of catch handlers
only, its leave on top. -/
theorem Coupled.find {running : List Entry} {o : Entry} (hc : Coupled t u running)
    (ho : running.find? (t.isFinally ·.region) = some o) :
    (∃ p, o = .raised p ∧ p ∈ u.pending ∧
      ∀ q, u.pending.head? = some q → q = p ∨ t.isFinally q.region = false) ∨
    (∃ source l ls, o = .left source l ∧ u.leaves = l :: ls) := by
  obtain ⟨htracks, -, hentered⟩ := hc
  generalize u.pending = ps at htracks
  generalize u.leaves = ls at htracks
  induction htracks with
  | nil => cases ho
  | @raised os ps ls p _ ih =>
    rw [List.find?_cons] at ho
    split at ho
    · cases ho
      refine .inl ⟨p, rfl, List.mem_cons_self, fun q hq => .inl ?_⟩
      cases hq; rfl
    · rename_i hf
      rcases ih ho fun k hk => hentered k (List.mem_cons_of_mem _ hk) with ⟨q, rfl, hq, -⟩ | hleft
      · refine .inl ⟨q, rfl, List.mem_cons_of_mem _ hq, fun k hk => .inr ?_⟩
        cases hk; exact hf
      · exact .inr hleft
  | @leaving os ps ls p hf _ ih =>
    rw [List.find?_cons, show t.isFinally (Entry.raised p).region = false from hf] at ho
    exact ih ho fun k hk => hentered k (List.mem_cons_of_mem _ hk)
  | @left os ps ls source l _ _ _ ih =>
    have hf := ((hentered _ List.mem_cons_self).2 source l rfl).1
    rw [List.find?_cons, show t.isFinally (Entry.left source l).region = true from hf] at ho
    cases ho
    exact .inr ⟨source, l, ls, rfl, rfl⟩

/-- **When `endfinally` ends the running finally handler that was entered last.** -/
theorem endFinally_eq_close_iff (hn : t.Nested) {o : Entry} {running : List Entry} (hr : Reached md t u running)
    (hpc : ∀ k ∈ running, k.runsAt t pc = true) (ho : running.find? (t.isFinally ·.region) = some o) :
    u.endFinally md t pc = o.close md t u ↔ o.IsLatest t u := by
  have hc := hr.coupled hn
  have hof : t.isFinally o.region = true := by simpa using List.find?_some ho
  have hom : o ∈ running := List.mem_of_find?_eq_some ho
  have hqueued : ∀ source l, Entry.left source l ∈ running → ∀ i ∈ l.queued, t.isFinally i = true :=
    fun source l hm i hi => (((hc.entered _ hm).2 source l rfl).2 i hi).1
  rcases hc.find ho with ⟨p, rfl, hp, hhead⟩ | ⟨source, l, ls, rfl, hls⟩
  · constructor
    · intro heq
      show u.pending.head? = some p
      cases hps : u.pending with
      | nil => rw [hps] at hp; cases hp
      | cons q ps =>
        rcases hhead q (by rw [hps]; rfl) with rfl | hq
        · rfl
        · -- a catch handler inside: the end of a leave is taken for the end of the handler
          exfalso
          have hre : u.reraises t pc = false := by rw [reraises, hps, List.head?_cons, Option.any_some, hq]; rfl
          rw [endFinally_endLeave hre, Entry.close] at heq
          cases hls : u.leaves with
          | nil =>
            rw [endLeave, hls] at heq
            exact dispatch_ne_outside heq.symm
          | cons l ls =>
            obtain ⟨source, hm⟩ := hc.tracks.mem_left (show l ∈ u.leaves by rw [hls]; exact List.mem_cons_self)
            obtain ⟨h, ls', hclose⟩ := close_left md t u source l
            rw [endLeave_eq_close md pc source hls (hqueued source l hm), hclose] at heq
            obtain ⟨k, hk, -, hk'⟩ := dispatch_again heq.symm
            rw [show (⟨u.pending, ls'⟩ : Unwinding).pending.head? = some q by rw [hps]; rfl] at hk
            cases hk
            rcases hk' with hk' | hk'
            · cases hq.symm.trans hk'
            · cases hk'
    · intro hlatest
      obtain ⟨ps, hps⟩ : ∃ ps, u.pending = p :: ps := by
        cases hps : u.pending with
        | nil => rw [hps] at hp; cases hp
        | cons q ps => rw [Entry.IsLatest, hps] at hlatest; cases hlatest; exact ⟨ps, rfl⟩
      obtain ⟨q, qs, hq, -, heq⟩ := endFinally_reraises md (reraises_of_head hps hof (hpc _ hom))
      cases hps.symm.trans hq
      rw [heq, Entry.close, hps, List.erase_cons_head]
  · have hclose := endLeave_eq_close md pc source hls (hqueued source l hom)
    constructor
    · intro heq p hp
      cases hf : t.isFinally p.region with
      | false => rfl
      | true =>
        -- the exception is raised again instead of the leave going on, and is not pending as before
        exfalso
        cases hps : u.pending with
        | nil => rw [hps] at hp; cases hp
        | cons q ps =>
          rw [hps] at hp
          cases hp
          have hrun := hpc _ (hc.tracks.mem_raised (show p ∈ u.pending by rw [hps]; exact List.mem_cons_self))
          obtain ⟨q, qs, hq, -, hre⟩ := endFinally_reraises md (reraises_of_head hps hf hrun)
          cases hps.symm.trans hq
          obtain ⟨h, ls', hleft⟩ := close_left md t u source l
          rw [hre, hleft] at heq
          obtain ⟨k, hk, hlt, -⟩ := dispatch_again heq
          rw [show (⟨u.pending, ls'⟩ : Unwinding).pending.head? = some p by rw [hps]; rfl] at hk
          cases hk
          exact Nat.lt_irrefl _ hlt
    · intro hlatest
      rw [← hclose]
      apply endFinally_endLeave
      unfold reraises
      cases hp : u.pending.head? with
      | none => rfl
      | some p => rw [Option.any_some, hlatest p hp, Bool.false_and]

/-! A finally handler with a protected block of its own, whose finally handler is entered by a leave while the outer
one runs for an exception. -/

/-- A finally handler inside a finally handler. -/
def nestedFinallies : RegionTable :=
  ⟨[⟨⟨⟨12, 4⟩, ⟨16, 4⟩, .finallyBlock⟩, none⟩, ⟨⟨⟨0, 10⟩, ⟨10, 20⟩, .finallyBlock⟩, none⟩]⟩

/-- An exception raised in the outer try block, with both finally handlers running, the inner one for a leave. -/
def leaveInsideUnwinding : Unwinding := ⟨[⟨⟨none, none, "lost"⟩, none, 5, 1⟩], [⟨22, [], 0⟩]⟩

theorem region?_nestedFinallies {i : Nat} {r : Region} (h : nestedFinallies.region? i = some r) :
    (i = 0 ∧ r = ⟨⟨12, 4⟩, ⟨16, 4⟩, .finallyBlock⟩) ∨ (i = 1 ∧ r = ⟨⟨0, 10⟩, ⟨10, 20⟩, .finallyBlock⟩) := by
  match i with
  | 0 => cases h; exact .inl ⟨rfl, rfl⟩
  | 1 => cases h; exact .inr ⟨rfl, rfl⟩
  | n + 2 => cases h

theorem nested_nestedFinallies : nestedFinallies.Nested where
  occupied := by
    intro i r hr
    rcases region?_nestedFinallies hr with ⟨-, rfl⟩ | ⟨-, rfl⟩
    · rfl
    · rfl
  apart := by
    intro i r hr
    rcases region?_nestedFinallies hr with ⟨-, rfl⟩ | ⟨-, rfl⟩
    · exact Span.apart_of_le (by decide)
    · exact Span.apart_of_le (by decide)
  tries := by
    intro i j r s hlt hr hs
    rcases region?_nestedFinallies hr with ⟨rfl, rfl⟩ | ⟨rfl, rfl⟩ <;>
      rcases region?_nestedFinallies hs with ⟨rfl, rfl⟩ | ⟨rfl, rfl⟩ <;> try omega
    exact ⟨.inr (Span.apart_of_le (by decide)), .inr (Span.apart_of_le (by decide))⟩
  handlers := by
    intro i j r s hlt hr hs
    rcases region?_nestedFinallies hr with ⟨rfl, rfl⟩ | ⟨rfl, rfl⟩ <;>
      rcases region?_nestedFinallies hs with ⟨rfl, rfl⟩ | ⟨rfl, rfl⟩ <;> try omega
    exact .inl ⟨Span.within_of_le (by decide) (by decide), Span.within_of_le (by decide) (by decide)⟩

theorem reached_leaveInsideUnwinding : Reached .core nestedFinallies leaveInsideUnwinding
    [.left 13 ⟨22, [], 0⟩, .raised ⟨⟨none, none, "lost"⟩, none, 5, 1⟩] := by
  have hraised : Reached .core nestedFinallies ⟨[⟨⟨none, none, "lost"⟩, none, 5, 1⟩], []⟩
      [.raised ⟨⟨none, none, "lost"⟩, none, 5, 1⟩] :=
    .raise .start (fun _ h => by cases h)
      (show dispatch .core nestedFinallies {} ⟨none, none, "lost"⟩ none 5 0 = (.ok (.resume 10 none), _) from rfl) rfl
  exact .leaveThrough hraised (by decide) (by decide)
    (show leave nestedFinallies _ 13 22 = (16, leaveInsideUnwinding) from rfl) rfl

/-- **The leave is lost.** The inner handler was entered last, by a leave to offset 22; `endfinally` in it raises the
exception of the outer handler again instead of going on there. -/
theorem endFinally_loses_leave :
    nestedFinallies.Nested ∧
    Reached .core nestedFinallies leaveInsideUnwinding
      [.left 13 ⟨22, [], 0⟩, .raised ⟨⟨none, none, "lost"⟩, none, 5, 1⟩] ∧
    leaveInsideUnwinding.endFinally .core nestedFinallies 17 = (.ok (.propagate ⟨none, none, "lost"⟩), {}) ∧
    (Entry.left 13 ⟨22, [], 0⟩).close .core nestedFinallies leaveInsideUnwinding =
      (.ok (.resume 22 none), ⟨leaveInsideUnwinding.pending, []⟩) :=
  ⟨nested_nestedFinallies, reached_leaveInsideUnwinding, rfl, rfl⟩

/-- The condition fails there: the latest pending exception entered a finally handler. -/
theorem endFinally_ne_close_inside : leaveInsideUnwinding.endFinally .core nestedFinallies 17 ≠
    (Entry.left 13 ⟨22, [], 0⟩).close .core nestedFinallies leaveInsideUnwinding := by
  intro h
  have hlatest := (endFinally_eq_close_iff nested_nestedFinallies reached_leaveInsideUnwinding (by decide) rfl).1 h
  cases hlatest _ rfl

end Unwinding

end ManagedCode
