import Mathlib.Data.List.Forall2
import ManagedCode.Proofs.Handlers

/-!
# Whole unwindings

Raising an exception and executing `leave` both start a sequence of finally handlers, of which each `endfinally` starts
the next. An exception passes the regions of `acting`, in the order of their declaration; a leave passes the finally
regions that it exits. Nothing is assumed about the nesting of the regions or about the state they start from.
-/

namespace ManagedCode

namespace RegionTable

variable {md : Metadata} {t : RegionTable} {pc : Nat} {thrown : Option TypeHandle}

/-- Whether the type of the object is assignable to the type of a catch handler; `none` when the test has no end. -/
def accepts? (md : Metadata) (thrown : Option TypeHandle) (x : ResolvedRegion) : Option Bool :=
  match x.catchType, thrown with
  | some caught, some type => md.isAssignable? type caught.handle
  | _, _ => some false

/-- Whether a region is a catch handler of a type that the object's is not assignable to. -/
def declines (md : Metadata) (thrown : Option TypeHandle) (x : ResolvedRegion) : Bool :=
  x.region.isCatch && accepts? md thrown x == some false

/-- The entries, numbered from `index`, that protect `pc` and do not decline the object. -/
def concerned (md : Metadata) (pc : Nat) (thrown : Option TypeHandle) (index : Nat) (l : List ResolvedRegion) :
    List (ResolvedRegion × Nat) :=
  (l.zipIdx index).filter fun x => x.1.region.tryBlock.contains pc && !declines md thrown x.1

/-- The entries up to the first catch handler. -/
def upToCatch : List (ResolvedRegion × Nat) → List (ResolvedRegion × Nat)
  | [] => []
  | x :: rest => if x.1.region.isCatch then [x] else x :: upToCatch rest

/-- **The regions that an exception raised at `pc` passes**, with their numbers. -/
def acting (md : Metadata) (t : RegionTable) (pc : Nat) (thrown : Option TypeHandle) : List (ResolvedRegion × Nat) :=
  upToCatch (concerned md pc thrown 0 t.entries)

theorem concerned_cons (index : Nat) (x : ResolvedRegion) (l : List ResolvedRegion) :
    concerned md pc thrown index (x :: l) = if x.region.tryBlock.contains pc && !declines md thrown x
      then (x, index) :: concerned md pc thrown (index + 1) l else concerned md pc thrown (index + 1) l := by
  rw [concerned, List.zipIdx_cons, List.filter_cons]
  rfl

/-- What becomes of a search at a region that is concerned. -/
def verdict (md : Metadata) (thrown : Option TypeHandle) : ResolvedRegion × Nat → Except Abort (Option Nat)
  | (x, i) =>
    match x.region.kind with
    | .finallyBlock => .ok (some i)
    | .catchType _ => if accepts? md thrown x = none then .error .endless else .ok (some i)
    | .faultBlock => .error (.error (.notImplemented .faultHandlers))
    | .filter _ => .error (.error (.notImplemented .filterHandlers))

theorem findFrom_cons (index : Nat) (x : ResolvedRegion) (l : List ResolvedRegion) :
    findFrom md pc thrown index (x :: l) = if x.region.tryBlock.contains pc && !declines md thrown x
      then verdict md thrown (x, index) else findFrom md pc thrown (index + 1) l := by
  conv => lhs; unfold findFrom
  obtain ⟨region, catchType⟩ := x
  cases region.tryBlock.contains pc with
  | false => rfl
  | true =>
    cases hk : region.kind with
    | catchType token =>
      simp only [declines, verdict, accepts?, Region.isCatch, hk, Bool.true_and]
      cases catchType with
      | none => rfl
      | some caught =>
        cases thrown with
        | none => rfl
        | some type =>
          cases ha : md.isAssignable? type caught.handle with
          | none => simp [ha]
          | some b => cases b <;> simp [ha]
    | finallyBlock => simp only [declines, verdict, Region.isCatch, hk]; rfl
    | faultBlock => simp only [declines, verdict, Region.isCatch, hk]; rfl
    | filter offset => simp only [declines, verdict, Region.isCatch, hk]; rfl

/-- **What the search finds is decided by the first region that is concerned.** -/
theorem findFrom_eq_verdict : ∀ (l : List ResolvedRegion) (index : Nat),
    findFrom md pc thrown index l = ((concerned md pc thrown index l).head?.map (verdict md thrown)).getD (.ok none)
  | [], _ => rfl
  | x :: l, index => by
    rw [concerned_cons, findFrom_cons]
    split
    · rfl
    · exact findFrom_eq_verdict l (index + 1)

/-- Behind the first region that is concerned stand those of the entries behind it. -/
theorem concerned_tail : ∀ (l : List ResolvedRegion) (index : Nat) {x : ResolvedRegion} {i : Nat}
    {rest : List (ResolvedRegion × Nat)}, concerned md pc thrown index l = (x, i) :: rest →
    index ≤ i ∧ l[i - index]? = some x ∧ rest = concerned md pc thrown (i + 1) (l.drop (i + 1 - index))
  | [], _, _, _, _, h => by cases h
  | y :: l, index, x, i, rest, h => by
    rw [concerned_cons] at h
    split at h
    · cases h
      refine ⟨Nat.le_refl _, by rw [Nat.sub_self]; rfl, ?_⟩
      rw [Nat.add_sub_cancel_left]
      rfl
    · obtain ⟨hle, hx, hrest⟩ := concerned_tail l (index + 1) h
      refine ⟨by omega, ?_, ?_⟩
      · rw [show i - index = (i - (index + 1)) + 1 by omega, List.getElem?_cons_succ]
        exact hx
      · rw [hrest, show i + 1 - index = (i + 1 - (index + 1)) + 1 by omega, List.drop_succ_cons]

/-- The same for the regions of a table from number `start` on. -/
theorem concerned_drop {start i : Nat} {x : ResolvedRegion} {rest : List (ResolvedRegion × Nat)}
    (h : concerned md pc thrown start (t.entries.drop start) = (x, i) :: rest) :
    t.entries[i]? = some x ∧ rest = concerned md pc thrown (i + 1) (t.entries.drop (i + 1)) := by
  obtain ⟨hle, hx, hrest⟩ := concerned_tail _ _ h
  rw [List.getElem?_drop, show start + (i - start) = i by omega] at hx
  refine ⟨hx, ?_⟩
  rw [hrest, List.drop_drop, show start + (i + 1 - start) = i + 1 by omega]

theorem upToCatch_sublist : ∀ l : List (ResolvedRegion × Nat), (upToCatch l).Sublist l
  | [] => .slnil
  | x :: l => by
    rw [upToCatch]
    split
    · exact (List.nil_sublist l).cons_cons x
    · exact (upToCatch_sublist l).cons_cons x

theorem pairwise_zipIdx (l : List ResolvedRegion) : (l.zipIdx.map (·.2)).Pairwise (· < ·) := by
  rw [List.zipIdx_map_snd]
  exact List.pairwise_lt_range'

/-- The regions that an exception passes are entries of the table, each at most once and in their order. -/
theorem acting_entries (md : Metadata) (t : RegionTable) (pc : Nat) (thrown : Option TypeHandle) :
    ((t.acting md pc thrown).map (·.2)).Pairwise (· < ·) ∧
      ∀ x ∈ t.acting md pc thrown, t.entries[x.2]? = some x.1 := by
  have hsub : (t.acting md pc thrown).Sublist t.entries.zipIdx :=
    (upToCatch_sublist _).trans List.filter_sublist
  refine ⟨?_, fun x hx => List.mem_zipIdx_iff_getElem?.1 (hsub.subset hx)⟩
  exact (pairwise_zipIdx t.entries).sublist (hsub.map _)

/-- Where the handler of region `i` starts. -/
def handlerStart? (t : RegionTable) (i : Nat) : Option Nat := (t.region? i).map (·.handler.start)

/-- The queue of a leave: the finally regions that it exits, in their order. -/
theorem finalliesBetween_eq {target : Nat} {q : List Nat} (hordered : q.Pairwise (· < ·))
    (hq : ∀ i, i ∈ q ↔ t.isFinally i = true ∧ t.inTry i pc = true ∧ t.inTry i target = false) :
    t.finalliesBetween pc target = q := by
  have hsorted : (t.finalliesBetween pc target).Pairwise (· < ·) :=
    (pairwise_zipIdx t.entries).sublist (List.filter_sublist.map _)
  refine List.Perm.eq_of_pairwise (fun a b _ _ h h' => by omega) hsorted hordered ?_
  refine (List.perm_ext_iff_of_nodup (hsorted.imp Nat.ne_of_lt) (hordered.imp Nat.ne_of_lt)).2 fun i => ?_
  rw [hq]
  constructor
  · intro hi
    obtain ⟨r, hr, hfinally, htry, hout⟩ := mem_finalliesBetween hi
    exact ⟨by rw [isFinally, hr]; exact hfinally, htry, by simpa using hout⟩
  · rintro ⟨hfinally, htry, hout⟩
    obtain ⟨r, hr, hpc⟩ := inTry_iff.1 htry
    obtain ⟨x, hx, rfl⟩ := Option.map_eq_some_iff.1 hr
    rw [isFinally, hr, Option.any_some] at hfinally
    rw [inTry, hr, Option.any_some] at hout
    refine List.mem_map.2 ⟨(x, i), List.mem_filter.2 ⟨List.mem_zipIdx_iff_getElem?.2 hx, ?_⟩, rfl⟩
    simp only [hfinally, hpc, hout, Bool.and_true, Bool.not_false]

end RegionTable

namespace Unwinding

variable {md : Metadata} {t : RegionTable} {u : Unwinding} {e : GuestException} {thrown : Option TypeHandle}
  {pc target : Nat}

/-! ## Exceptions -/

/-- **An exception passes the regions of a list.** A finally handler starts with nothing pushed, and each `endfinally`
inside of it takes the exception to the rest of the list. A catch handler starts with the object pushed; the way ends
there, or the test of the types has no end. Behind the last region the exception leaves the activation, with nothing
pending and no leave under way. -/
def Passes (md : Metadata) (t : RegionTable) (e : GuestException) (thrown : Option TypeHandle) :
    List (ResolvedRegion × Nat) → Except Abort Transfer × Unwinding → Prop
  | [], r => r = (.ok (.propagate e), {})
  | (x, _) :: rest, r =>
    match x.region.kind with
    | .finallyBlock => r.1 = .ok (.resume x.region.handler.start none) ∧
        ∀ q, x.region.handler.contains q = true → Passes md t e thrown rest (r.2.endFinally md t q)
    | .catchType _ => r.1 = if RegionTable.accepts? md thrown x = none then .error .endless
        else .ok (.resume x.region.handler.start (some e.object))
    | .faultBlock => r.1 = .error (.error (.notImplemented .faultHandlers))
    | .filter _ => r.1 = .error (.error (.notImplemented .filterHandlers))

/-- A region that the search finds starts its handler, and the exception is the latest that is pending. -/
theorem dispatch_found {start i : Nat} {x : ResolvedRegion} (hf : t.findHandler md pc start thrown = .ok (some i))
    (hx : t.entries[i]? = some x) : ∃ ps ls, u.dispatch md t e thrown pc start =
      (.ok (.resume x.region.handler.start (if x.region.isCatch then some e.object else none)),
        ⟨⟨e, thrown, pc, i⟩ :: ps, ls⟩) := by
  have hr : t.region? i = some x.region := by rw [RegionTable.region?, hx, Option.map_some]
  unfold dispatch
  simp only [hf, hr]
  exact ⟨_, _, rfl⟩

theorem dispatch_stopped {start : Nat} {a : Abort} (hf : t.findHandler md pc start thrown = .error a) :
    u.dispatch md t e thrown pc start = (.error a, u) := by
  unfold dispatch
  simp only [hf]

-- The induction is on the regions that are left: each `endfinally` goes on behind the region that the exception is at.
theorem dispatch_passes_from (l : List (ResolvedRegion × Nat)) : ∀ (u : Unwinding) (start : Nat),
    RegionTable.concerned md pc thrown start (t.entries.drop start) = l →
    Passes md t e thrown (RegionTable.upToCatch l) (u.dispatch md t e thrown pc start) := by
  induction l with
  | nil =>
    intro u start hl
    have hf : t.findHandler md pc start thrown = .ok none := by
      rw [RegionTable.findHandler, RegionTable.findFrom_eq_verdict, hl]
      rfl
    show u.dispatch md t e thrown pc start = (.ok (.propagate e), {})
    unfold dispatch
    simp only [hf]
  | cons y rest ih =>
    obtain ⟨x, i⟩ := y
    intro u start hl
    obtain ⟨hx, hrest⟩ := RegionTable.concerned_drop hl
    have hf : t.findHandler md pc start thrown = RegionTable.verdict md thrown (x, i) := by
      rw [RegionTable.findHandler, RegionTable.findFrom_eq_verdict, hl]
      rfl
    unfold RegionTable.verdict at hf
    unfold RegionTable.upToCatch
    cases hk : x.region.kind with
    | finallyBlock =>
      have hcatch : x.region.isCatch = false := by rw [Region.isCatch, hk]
      have hfinally : t.isFinally i = true := by
        rw [RegionTable.isFinally, RegionTable.region?, hx, Option.map_some, Option.any_some, Region.isFinally, hk]
        rfl
      simp only [hk] at hf
      obtain ⟨ps, ls, hd⟩ := dispatch_found (u := u) (e := e) hf hx
      rw [hcatch] at hd
      simp only [hcatch, hd, Bool.false_eq_true, if_false, Passes, hk, true_and]
      intro q hq
      have hin : t.inHandler i q = true :=
        RegionTable.inHandler_iff.2 ⟨x.region, by rw [RegionTable.region?, hx, Option.map_some], hq⟩
      obtain ⟨p, ps', hps, -, hend⟩ := endFinally_reraises md
        (reraises_of_head (u := ⟨⟨e, thrown, pc, i⟩ :: ps, ls⟩) rfl hfinally hin)
      cases hps
      rw [hend]
      exact ih _ (i + 1) hrest.symm
    | catchType token =>
      have hcatch : x.region.isCatch = true := by rw [Region.isCatch, hk]
      simp only [hk] at hf
      simp only [hcatch, if_true, Passes, hk]
      by_cases hnone : RegionTable.accepts? md thrown x = none
      · rw [if_pos hnone] at hf ⊢
        rw [dispatch_stopped hf]
      · rw [if_neg hnone] at hf ⊢
        obtain ⟨ps, ls, hd⟩ := dispatch_found (u := u) (e := e) hf hx
        rw [hd, hcatch]
        rfl
    | faultBlock =>
      have hcatch : x.region.isCatch = false := by rw [Region.isCatch, hk]
      simp only [hk] at hf
      simp only [hcatch, Bool.false_eq_true, if_false, Passes, hk, dispatch_stopped hf]
    | filter offset =>
      have hcatch : x.region.isCatch = false := by rw [Region.isCatch, hk]
      simp only [hk] at hf
      simp only [hcatch, Bool.false_eq_true, if_false, Passes, hk, dispatch_stopped hf]

/-- **An exception passes the regions that act on it, each once and in the order of their declaration.** -/
theorem dispatch_passes (md : Metadata) (t : RegionTable) (u : Unwinding) (e : GuestException)
    (thrown : Option TypeHandle) (pc : Nat) :
    ((t.acting md pc thrown).map (·.2)).Pairwise (· < ·) ∧
      (∀ x ∈ t.acting md pc thrown, t.entries[x.2]? = some x.1) ∧
      Passes md t e thrown (t.acting md pc thrown) (u.dispatch md t e thrown pc 0) := by
  obtain ⟨hordered, hentries⟩ := RegionTable.acting_entries md t pc thrown
  exact ⟨hordered, hentries, dispatch_passes_from _ u 0 rfl⟩

/-! ## Leaves -/

/-- One `endfinally` after the other, at the given offsets: what each of them does, and the state they end with. -/
def endEach (md : Metadata) (t : RegionTable) : Unwinding → List Nat → List (Except Abort Transfer) × Unwinding
  | u, [] => ([], u)
  | u, pc :: offsets =>
    let ended := u.endFinally md t pc
    let rest := endEach md t ended.2 offsets
    (ended.1 :: rest.1, rest.2)

/-- None of the exceptions entered a finally handler around one of the offsets. -/
def Undisturbed (t : RegionTable) (ps : List PendingException) (offsets : List Nat) : Prop :=
  ∀ p ∈ ps, ∀ o ∈ offsets, ¬ (t.isFinally p.region = true ∧ t.inHandler p.region o = true)

instance (t : RegionTable) (ps : List PendingException) (offsets : List Nat) : Decidable (Undisturbed t ps offsets) :=
  inferInstanceAs (Decidable (∀ p ∈ ps, ∀ o ∈ offsets, _))

theorem Undisturbed.not_reraises {ps : List PendingException} {ls : List PendingLeave} {offsets : List Nat} {o : Nat}
    (h : Undisturbed t ps offsets) (ho : o ∈ offsets) : reraises t ⟨ps, ls⟩ o = false := by
  unfold reraises
  cases ps with
  | nil => rfl
  | cons p ps =>
    have hp := h p List.mem_cons_self o ho
    rw [← Bool.and_eq_true, Bool.not_eq_true] at hp
    exact hp

-- The induction is on the handlers that the leave still has to run. Each `endfinally` starts the next of them, the last
-- one goes to the target and takes the leave from the stack.
theorem endEach_leave (md : Metadata) (target : Nat) (ls : List PendingLeave) {ps : List PendingException} :
    ∀ (queued : List Nat) (running : Nat) (offsets : List Nat), (∀ i ∈ queued, (t.handlerStart? i).isSome = true) →
      offsets.length = queued.length + 1 → Undisturbed t ps offsets →
      ∃ visited : List Nat, endEach md t ⟨ps, ⟨target, queued, running⟩ :: ls⟩ offsets =
          (visited.map fun h => .ok (.resume h none), ⟨ps, ls⟩) ∧
        visited.map some = queued.map t.handlerStart? ++ [some target]
  | [], running, offsets, _, hlength, hps => by
    obtain ⟨o, rfl⟩ := List.length_eq_one_iff.1 hlength
    refine ⟨[target], ?_, rfl⟩
    simp only [endEach, endFinally_endLeave (hps.not_reraises List.mem_cons_self), endLeave]
    rfl
  | next :: queued, running, [], _, hlength, _ => by cases hlength
  | next :: queued, running, o :: offsets, hstarts, hlength, hps => by
    have hrest : Undisturbed t ps offsets := fun p hp q hq => hps p hp q (List.mem_cons_of_mem _ hq)
    obtain ⟨visited, hend, hvisited⟩ := endEach_leave md target ls queued next offsets
      (fun i hi => hstarts i (List.mem_cons_of_mem _ hi)) (Nat.succ.inj hlength) hrest
    obtain ⟨h, hh⟩ := Option.isSome_iff_exists.1 (hstarts next List.mem_cons_self)
    obtain ⟨r, hr, rfl⟩ := Option.map_eq_some_iff.1 hh
    refine ⟨r.handler.start :: visited, ?_, ?_⟩
    · simp only [endEach, endFinally_endLeave (hps.not_reraises List.mem_cons_self), endLeave, hr, hend]
      rfl
    · rw [List.map_cons, List.map_cons, hvisited, hh]
      rfl

/-- **A leave runs the finally handlers that it exits, the innermost first, and then reaches its target.** With `q` the
finally regions that protect `pc` and not the target, in the order of their declaration, and one `endfinally` inside the
handler of each, control visits the handlers of `q` and goes on at the target; nothing is pushed, the pending exceptions
stay as the leave left them, and the leaves are those from before. -/
theorem leave_visits (md : Metadata) (t : RegionTable) (u : Unwinding) (pc target : Nat) (q offsets : List Nat)
    (hordered : q.Pairwise (· < ·))
    (hexited : ∀ i, i ∈ q ↔ t.isFinally i = true ∧ t.inTry i pc = true ∧ t.inTry i target = false)
    (hinside : List.Forall₂ (fun i o => t.inHandler i o = true) q offsets)
    (hundisturbed : Undisturbed t (u.leave t pc target).2.pending offsets) :
    ∃ visited : List Nat, endEach md t (u.leave t pc target).2 offsets =
        (visited.map fun h => .ok (.resume h none), ⟨(u.leave t pc target).2.pending, u.leaves⟩) ∧
      ((u.leave t pc target).1 :: visited).map some = q.map t.handlerStart? ++ [some target] := by
  have hq := RegionTable.finalliesBetween_eq hordered hexited
  have hlength := hinside.length_eq
  have hstarts : ∀ i ∈ q, (t.handlerStart? i).isSome = true := by
    intro i hi
    obtain ⟨r, hr, -⟩ := RegionTable.inTry_iff.1 ((hexited i).1 hi).2.1
    rw [RegionTable.handlerStart?, hr]
    rfl
  cases q with
  | nil =>
    cases hinside
    simp only [leave, hq]
    exact ⟨[], rfl, rfl⟩
  | cons first queued =>
    simp only [leave, hq] at hundisturbed ⊢
    obtain ⟨visited, hend, hvisited⟩ := endEach_leave md target u.leaves queued first offsets
      (fun i hi => hstarts i (List.mem_cons_of_mem _ hi)) hlength.symm hundisturbed
    refine ⟨visited, hend, ?_⟩
    obtain ⟨h, hh⟩ := Option.isSome_iff_exists.1 (hstarts first List.mem_cons_self)
    rw [List.map_cons, hvisited, List.map_cons, hh]
    rw [RegionTable.handlerStart?] at hh
    rw [hh]
    rfl

/-- A catch handler with two protected blocks in it, one inside the other, each with a finally handler. -/
def finalliesInCatch : RegionTable :=
  ⟨[⟨⟨⟨12, 4⟩, ⟨16, 3⟩, .finallyBlock⟩, none⟩, ⟨⟨⟨11, 9⟩, ⟨20, 3⟩, .finallyBlock⟩, none⟩,
    ⟨⟨⟨0, 10⟩, ⟨10, 30⟩, .catchType default⟩, none⟩]⟩

/-- The exception of the catch handler stays pending while a leave inside of it visits both finally handlers. -/
theorem leave_visits_inside_catch :
    let u : Unwinding := ⟨[⟨⟨none, none, "caught"⟩, none, 5, 2⟩], []⟩
    (u.leave finalliesInCatch 13 30).2.pending = u.pending ∧
      ∃ visited : List Nat, endEach .core finalliesInCatch (u.leave finalliesInCatch 13 30).2 [17, 21] =
          (visited.map fun h => .ok (.resume h none), ⟨(u.leave finalliesInCatch 13 30).2.pending, u.leaves⟩) ∧
        ((u.leave finalliesInCatch 13 30).1 :: visited).map some =
          [0, 1].map finalliesInCatch.handlerStart? ++ [some 30] := by
  intro u
  refine ⟨by decide, leave_visits .core finalliesInCatch u 13 30 [0, 1] [17, 21] (by decide) ?_ ?_ (by decide)⟩
  · intro i
    match i with
    | 0 => decide
    | 1 => decide
    | 2 => decide
    | n + 3 => simp [RegionTable.isFinally, RegionTable.region?, finalliesInCatch]
  · exact .cons (by decide) (.cons (by decide) .nil)

end Unwinding

end ManagedCode
