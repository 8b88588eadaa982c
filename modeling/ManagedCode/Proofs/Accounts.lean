import ManagedCode.Proofs.Caching
import ManagedCode.Proofs.Depths

/-!
# What the counts say of each other

An exception is counted when it is raised and when it enters a catch handler, and between the two it may wait for the
end of several finally handlers, in an activation that waits for a call itself. So the exceptions that were caught are
fewer than those that were raised by at least the ones that still wait, in all activations together (`Machine.Books`).
In the same way the backward jumps of all activations that were not paid for by a trigger yet are part of those that
were polled. A part of an instruction keeps these books (`ExecM.Accounted`), hence a step, and hence whatever a host
does with a machine (`Machine.Counted`).
-/

namespace ManagedCode

/-! ## Exceptions that wait -/

/-- The exceptions that a transfer takes to a catch handler. -/
def Transfer.caught : Except Abort Transfer → Nat
  | .ok (.resume _ (some _)) => 1
  | _ => 0

namespace Unwinding

variable {t : RegionTable} {u : Unwinding}

/-- **How many exceptions wait** for the end of a finally handler that they entered. -/
def waiting (t : RegionTable) (u : Unwinding) : Nat := u.pending.countP fun q => t.isFinally q.region

/-- An exception that is raised is caught, waits from now on, or leaves. -/
theorem dispatch_waiting (md : Metadata) (t : RegionTable) (u : Unwinding) (e : GuestException)
    (thrown : Option TypeHandle) (pc start : Nat) :
    (u.dispatch md t e thrown pc start).2.waiting t + Transfer.caught (u.dispatch md t e thrown pc start).1 ≤
      u.waiting t + 1 := by
  unfold dispatch
  split
  · exact Nat.le_succ _
  · exact Nat.zero_le _
  · rename_i i _
    cases hr : t.region? i with
    | none => exact Nat.le_succ _
    | some r =>
      have hkept : (u.pending.filter fun q => t.inHandler q.region r.handler.start).countP
          (fun q => t.isFinally q.region) ≤ u.waiting t := List.filter_sublist.countP_le
      have hfin : t.isFinally i = r.isFinally := by rw [RegionTable.isFinally, hr]; rfl
      -- the handler is entered by a catch, or waited for, but not both
      have honce : (if r.isFinally then 1 else 0) + Transfer.caught
          (.ok (.resume r.handler.start (if r.isCatch then some e.object else none))) ≤ 1 := by
        unfold Region.isCatch Region.isFinally
        cases r.kind with
        | catchType c => exact Nat.le_refl 1
        | finallyBlock => exact Nat.le_refl 1
        | faultBlock => exact Nat.zero_le 1
        | filter offset => exact Nat.zero_le 1
      dsimp only
      rw [waiting, List.countP_cons, hfin]
      omega

theorem endLeave_waiting (t : RegionTable) (u : Unwinding) (pc : Nat) :
    (u.endLeave t pc).2.waiting t + Transfer.caught (u.endLeave t pc).1 ≤ u.waiting t := by
  unfold endLeave
  split
  · exact Nat.le_refl _
  · rename_i l _ _
    cases l.queued with
    | nil => exact Nat.le_refl _
    | cons next queued =>
      dsimp only
      cases t.region? next with
      | none => exact Nat.le_refl _
      | some r => exact Nat.le_refl _

/-- An exception that is raised again has waited until now. -/
theorem endFinally_waiting (md : Metadata) (t : RegionTable) (u : Unwinding) (pc : Nat) :
    (u.endFinally md t pc).2.waiting t + Transfer.caught (u.endFinally md t pc).1 ≤ u.waiting t := by
  cases h : u.reraises t pc with
  | false =>
    rw [endFinally_endLeave h]
    exact endLeave_waiting t u pc
  | true =>
    obtain ⟨q, qs, hu, hq, hend⟩ := endFinally_reraises md h
    have hagain := dispatch_waiting md t ⟨qs, u.leaves⟩ q.exception q.thrown q.raisedAt (q.region + 1)
    have hpopped : u.waiting t = waiting t ⟨qs, u.leaves⟩ + 1 := by
      rw [waiting, hu, List.countP_cons, if_pos hq]
      rfl
    rw [hend, hpopped]
    exact hagain

/-- A `leave` gives up exceptions that wait, and adds none. -/
theorem leave_waiting (t : RegionTable) (u : Unwinding) (pc target : Nat) :
    (u.leave t pc target).2.waiting t ≤ u.waiting t := by
  unfold leave
  dsimp only
  cases t.finalliesBetween pc target with
  | nil => exact (List.dropWhile_sublist _).countP_le
  | cons first queued => exact (List.dropWhile_sublist _).countP_le

end Unwinding

/-! ## The books of a machine -/

namespace Machine

variable {m m' m'' : Machine} {waiting loops due : Nat}

/-- **The counts of a machine agree**, while `waiting` exceptions may still be caught, `loops` backward jumps count
towards the next trigger, and `due` call sites that were resolved are yet to be called. -/
structure Books (m : Machine) (waiting loops due : Nat) : Prop where
  caught : m.metrics.faultsCaught + waiting ≤ m.metrics.faultsRaised
  polled : m.settings.osrThreshold * m.metrics.osrTriggers + loops ≤ m.metrics.osrPolls
  disabled : m.settings.osrThreshold = 0 → m.metrics.osrTriggers = 0
  resolved : m.metrics.callSiteResolutions ≤ m.metrics.nodeInvocations + due
  ready : m.metrics.methodsPrepared = m.prepared.length
  nodup : (m.prepared.map Prod.fst).Nodup

/-- The regions of a method that is ready. -/
def regions? (m : Machine) (h : MethodHandle) : Option RegionTable := (m.prepared? h).map (·.regions)

/-- A method that is replaced by one with its regions leaves all regions as they are, and no method more. -/
theorem regions?_setPrepared {h : MethodHandle} {p : Prepared} (hp : m.regions? h = some p.regions)
    (k : MethodHandle) : (m.setPrepared h p).regions? k = m.regions? k := by
  rw [regions?, prepared?, setPrepared, lookup_insertEntry]
  by_cases hk : k == h
  · rw [if_pos hk, eq_of_beq hk, hp]
    rfl
  · rw [if_neg hk]
    rfl

theorem length_setPrepared {h : MethodHandle} {p : Prepared} (hp : (m.regions? h).isSome = true) :
    (m.setPrepared h p).prepared.length = m.prepared.length := by
  have hlength := length_insertEntry h p m.prepared
  rw [regions?, Option.isSome_map, prepared?] at hp
  obtain ⟨q, hq⟩ := Option.isSome_iff_exists.1 hp
  rw [hq] at hlength
  exact Nat.succ.inj hlength

/-- The counts, the settings and the methods are the same. -/
structure SameBooks (m m' : Machine) : Prop where
  metrics : m'.metrics = m.metrics
  settings : m'.settings = m.settings
  prepared : m'.prepared = m.prepared

theorem SameBooks.refl (m : Machine) : m.SameBooks m := ⟨rfl, rfl, rfl⟩

theorem SameBooks.trans (h : m.SameBooks m') (h' : m'.SameBooks m'') : m.SameBooks m'' :=
  ⟨h'.metrics.trans h.metrics, h'.settings.trans h.settings, h'.prepared.trans h.prepared⟩

theorem SameBooks.regions? (h : m.SameBooks m') (k : MethodHandle) : m'.regions? k = m.regions? k := by
  rw [Machine.regions?, Machine.regions?, prepared?, prepared?, h.prepared]

theorem SameBooks.books (h : m.SameBooks m') (hm : m.Books waiting loops due) : m'.Books waiting loops due := by
  obtain ⟨h1, h2, h3, h4, h5, h6⟩ := hm
  rw [← h.metrics] at h1 h2 h3 h4 h5
  rw [← h.settings] at h2 h3
  rw [← h.prepared] at h5 h6
  exact ⟨h1, h2, h3, h4, h5, h6⟩

/-- The books still agree, and a method that was ready has the regions it had. -/
structure Carries (m m' : Machine) : Prop where
  regions : ∀ h t, m.regions? h = some t → m'.regions? h = some t
  books : ∀ {waiting loops due : Nat}, m.Books waiting loops due → m'.Books waiting loops due

theorem SameBooks.carries (h : m.SameBooks m') : m.Carries m' :=
  ⟨fun k _ hk => (h.regions? k).trans hk, h.books⟩

theorem Carries.refl (m : Machine) : m.Carries m := (SameBooks.refl m).carries

theorem Carries.trans (h : m.Carries m') (h' : m'.Carries m'') : m.Carries m'' :=
  ⟨fun k t hk => h'.regions k t (h.regions k t hk), fun hm => h'.books (h.books hm)⟩

/-- A method that is made ready is counted. -/
theorem carries_prepare (m : Machine) (symbol : MethodSymbol) : m.Carries (m.prepare symbol).2 := by
  unfold prepare
  cases hp : m.prepared? symbol.handle with
  | some p => exact .refl m
  | none =>
    cases symbol.body with
    | none => exact .refl m
    | some body =>
      dsimp only
      cases (analyze m.metadata symbol).1 with
      | error e => exact SameBooks.carries ⟨rfl, rfl, rfl⟩
      | ok analysis =>
        dsimp only
        cases RegionTable.resolve m.metadata body.regions with
        | error e => exact SameBooks.carries ⟨rfl, rfl, rfl⟩
        | ok regions =>
          refine ⟨fun h t ht => ?_, fun hm => ⟨hm.caught, hm.polled, hm.disabled, hm.resolved, ?_, ?_⟩⟩
          · have hne : (h == symbol.handle) = false := by
              rw [Bool.eq_false_iff, ne_eq, beq_iff_eq]
              rintro rfl
              rw [Machine.regions?, hp] at ht
              cases ht
            show ((insertEntry symbol.handle _ m.prepared).lookup h).map _ = _
            rw [lookup_insertEntry, hne]
            exact ht
          · show m.metrics.methodsPrepared + 1 = (insertEntry symbol.handle _ m.prepared).length
            have hlength := length_insertEntry symbol.handle (.make symbol body analysis regions) m.prepared
            rw [show m.prepared.lookup symbol.handle = none from hp] at hlength
            rw [hm.ready]
            exact hlength.symm
          · exact nodup_keys_insertEntry _ _ hm.nodup

theorem carries_raise (m : Machine) (t : Trap) : m.Carries (m.raise t).2 := by
  cases t <;> exact SameBooks.carries ⟨rfl, rfl, rfl⟩

theorem carries_newFrame (m : Machine) (p : Prepared) (arguments : List Value) :
    m.Carries (m.newFrame p arguments).2 := by
  unfold newFrame
  split
  · exact .refl m
  · have hheap : m.Carries (m.onHeap (normalizeAll 0 p.argumentKinds arguments).run).2 :=
      SameBooks.carries ⟨rfl, rfl, rfl⟩
    dsimp only
    split
    · exact hheap.trans (carries_raise _ _)
    · exact SameBooks.carries ⟨rfl, rfl, rfl⟩

theorem carries_callNative (m : Machine) (symbol : MethodSymbol) (arguments : List Value) :
    m.Carries (m.callNative symbol arguments).2 := by
  unfold callNative
  split <;> exact SameBooks.carries ⟨rfl, rfl, rfl⟩

end Machine

/-! ## Parts of an instruction -/

/-- **The books agree, seen from an activation of `p`.** A method that was ready in `m` has the regions it had, and
other activations have `waiting` exceptions and `loops` backward jumps. -/
structure Workspace.Booked (m : Machine) (p : Prepared) (waiting loops due : Nat) (w : Workspace) : Prop where
  regions : ∀ h t, m.regions? h = some t → w.machine.regions? h = some t
  method : w.machine.regions? w.activation.method = some p.regions
  books : w.machine.Books (w.activation.unwinding.waiting p.regions + waiting) (w.activation.backEdges + loops) due

/-- Nothing was counted, patched or unwound. -/
structure Workspace.Uncounted (w w' : Workspace) : Prop where
  machine : w.machine.SameBooks w'.machine
  method : w'.activation.method = w.activation.method
  unwinding : w'.activation.unwinding = w.activation.unwinding
  backEdges : w'.activation.backEdges = w.activation.backEdges

namespace Workspace

variable {m : Machine} {p : Prepared} {w w' w'' : Workspace} {waiting waiting' loops due : Nat}

theorem Uncounted.trans (h : w.Uncounted w') (h' : w'.Uncounted w'') : w.Uncounted w'' :=
  ⟨h.machine.trans h'.machine, h'.method.trans h.method, h'.unwinding.trans h.unwinding,
    h'.backEdges.trans h.backEdges⟩

theorem Booked.uncounted (h : w.Booked m p waiting loops due) (hw : w.Uncounted w') :
    w'.Booked m p waiting loops due where
  regions k t hk := (hw.machine.regions? k).trans (h.regions k t hk)
  method := by
    rw [hw.method, hw.machine.regions?]
    exact h.method
  books := by
    rw [hw.unwinding, hw.backEdges]
    exact hw.machine.books h.books

theorem Booked.mono (h : w.Booked m p waiting loops due) (hle : waiting' ≤ waiting) :
    w.Booked m p waiting' loops due where
  regions := h.regions
  method := h.method
  books := { h.books with caught := Nat.le_trans (by omega) h.books.caught }

/-- Another state of unwinding, in which as many exceptions fewer wait as others may be caught more. -/
theorem Booked.withUnwinding {u : Unwinding} (h : w.Booked m p waiting loops due)
    (hle : u.waiting p.regions + waiting' ≤ w.activation.unwinding.waiting p.regions + waiting) :
    (w.withUnwinding u).Booked m p waiting' loops due where
  regions := h.regions
  method := h.method
  books := { h.books with caught := Nat.le_trans (Nat.add_le_add_left hle _) h.books.caught }

end Workspace

namespace ExecM

variable {α β : Type} {p : Prepared} {pc : Nat} {m : Machine} {waiting waiting' loops due : Nat}

/-- **What does not count keeps the books as they are.** -/
theorem Composed.uncounted {x : ExecM α} (h : Composed false x) : ∀ w : Workspace, w.Uncounted (x.run w).2 := by
  induction h with
  | @bind _ _ x f _ _ ihx ihf =>
    intro w
    have hx := ihx w
    rw [Meets.run_bind]
    rcases hr : x.run w with ⟨e | a, w'⟩
    · rw [hr] at hx
      exact hx
    · rw [hr] at hx
      exact hx.trans (ihf a w')
  | activation _ _ ih => exact fun w => ih w.activation w
  | machine _ _ ih => exact fun w => ih w.machine w
  | @modifyActivation g hg =>
    intro w
    have hsame := hg.same w.activation
    refine ⟨.refl _, ?_, hg.unwinding rfl w.activation, ?_⟩
    · show (g w.activation).method = _
      rw [hsame]
    · show (g w.activation).backEdges = _
      rw [hsame]
  | modifyMetrics h => cases h
  | setPrepared h => cases h
  | resolveMethod token =>
    intro w
    rw [resolveMethod_run]
    cases w.machine.metadata.resolveMethod token <;> exact ⟨⟨rfl, rfl, rfl⟩, rfl, rfl, rfl⟩
  | countBackEdge h => cases h
  | _ => exact fun w => ⟨⟨rfl, rfl, rfl⟩, rfl, rfl, rfl⟩

theorem Composed.books {x : ExecM α} (h : Composed false x) {w : Workspace} (hw : w.Booked m p waiting loops due) :
    Meets x w (fun _ => Workspace.Booked m p waiting loops due) fun _ => Workspace.Booked m p waiting loops due := by
  have hx := h.uncounted w
  unfold Meets
  rcases hr : x.run w with ⟨e | a, w'⟩
  · rw [hr] at hx
    exact hw.uncounted hx
  · rw [hr] at hx
    exact hw.uncounted hx

/-- **The computation keeps the books**, whatever other activations have. -/
def Accounted (p : Prepared) (x : ExecM α) : Prop :=
  ∀ m waiting loops w, Workspace.Booked m p waiting loops 0 w →
    Meets x w (fun _ => Workspace.Booked m p waiting loops 0) fun _ => Workspace.Booked m p waiting loops 0

theorem Accounted.bind {x : ExecM α} {f : α → ExecM β} (hx : Accounted p x) (hf : ∀ a, Accounted p (f a)) :
    Accounted p (x >>= f) :=
  fun m waiting loops w hw => Meets.bind (hx m waiting loops w hw) fun a w hw => hf a m waiting loops w hw

theorem Composed.accounted {x : ExecM α} (h : Composed false x) : Accounted p x := fun _ _ _ _ hw => h.books hw

/-- An exception that was raised may be counted as caught. -/
theorem enterHandler_books (target : Nat) (object : Option (Option Ref)) {w : Workspace}
    (hw : w.Booked m p (waiting + Transfer.caught (.ok (.resume target object))) loops due) :
    Meets (enterHandler p target object) w (fun _ => Workspace.Booked m p waiting loops due)
      fun _ => Workspace.Booked m p waiting loops due := by
  have hreset := (Composed.resetStack p : Composed false (resetStack p)).books hw
  refine Meets.bind (hreset.mono (fun _ _ h => h) fun _ _ h => h.mono (Nat.le_add_right _ _)) fun _ w₁ hw₁ => ?_
  cases object with
  | none =>
    dsimp only
    split
    · exact ⟨hw₁.regions, hw₁.method, { hw₁.books with }⟩
    · exact hw₁
  | some r =>
    have hpush := (Composed.push (.object r) : Composed false (push (.object r))).books hw₁
    refine Meets.bind (hpush.mono (fun _ _ h => h) fun _ _ h => h.mono (Nat.le_add_right _ _)) fun _ w₂ hw₂ => ?_
    have hcaught := hw₂.books.caught
    refine Meets.modify ⟨hw₂.regions, hw₂.method, { hw₂.books with caught := ?_ }⟩
    show w₂.machine.metrics.faultsCaught + 1 + (w₂.activation.unwinding.waiting p.regions + waiting) ≤
      w₂.machine.metrics.faultsRaised
    dsimp only [Transfer.caught] at hcaught
    omega

/-- Where an exception goes, and what it leaves behind, keeps the books. -/
theorem transfer_books {u : Unwinding} {r : Except Abort Transfer} {w : Workspace} {f : Transfer → ExecM α}
    (hw : w.Booked m p waiting' loops due)
    (hle : u.waiting p.regions + Transfer.caught r + waiting ≤ w.activation.unwinding.waiting p.regions + waiting')
    (hf : ∀ transfer w, w.Booked m p (waiting + Transfer.caught (.ok transfer)) loops due →
      Meets (f transfer) w (fun _ => Workspace.Booked m p waiting loops due)
        fun _ => Workspace.Booked m p waiting loops due) :
    Meets (do
      modifyActivation fun a => { a with unwinding := u }
      let transfer ← ofAbort r
      f transfer : ExecM α) w (fun _ => Workspace.Booked m p waiting loops due)
      fun _ => Workspace.Booked m p waiting loops due := by
  have hu : (w.withUnwinding u).Booked m p (waiting + Transfer.caught r) loops due := hw.withUnwinding (by omega)
  refine Meets.bind (Q := fun _ w' => w' = w.withUnwinding u) (Meets.modify rfl) ?_
  rintro _ w rfl
  cases r with
  | error a => exact hu
  | ok transfer => exact hf transfer _ hu

theorem accounted_endFinally (pc : Nat) : Accounted p (endFinally p pc) := by
  intro m waiting loops w hw
  have hend := w.activation.unwinding.endFinally_waiting w.machine.metadata p.regions pc
  refine activation_bind (metadata_bind ?_)
  refine transfer_books hw (Nat.add_le_add_right hend waiting) fun transfer w hw => ?_
  cases transfer with
  | propagate e => exact hw
  | resume target object => exact Meets.bind (enterHandler_books target object hw) fun _ _ h => h

theorem accounted_leave (pc : Nat) : Accounted p (leave p pc) := by
  refine Accounted.bind (Composed.ofEngine _).accounted fun target =>
    Accounted.bind (Composed.resetStack p).accounted fun _ m waiting loops w hw => activation_bind ?_
  have hleave := w.activation.unwinding.leave_waiting p.regions pc target
  rcases hr : w.activation.unwinding.leave p.regions pc target with ⟨next, u⟩
  rw [hr] at hleave
  refine Meets.bind (Q := fun _ => Workspace.Booked m p waiting loops 0) ?_ fun _ w₁ hw₁ => ?_
  · exact Meets.modify (hw.withUnwinding (Nat.add_le_add_right hleave _))
  · dsimp only
    split
    · exact Meets.bind (enterHandler_books next none hw₁) fun _ _ h => h
    · exact hw₁

/-- **An exception that is raised is counted**, and may then be caught, or wait. -/
theorem accounted_dispatch (e : GuestException) : Accounted p (dispatch p e) := by
  intro m waiting loops w hw
  unfold dispatch
  refine Meets.bind (Q := fun _ => Workspace.Booked m p (waiting + 1) loops 0) ?_ fun _ w₁ hw₁ => ?_
  · have hcaught := hw.books.caught
    refine Meets.modify ⟨hw.regions, hw.method, { hw.books with caught := ?_ }⟩
    show w.machine.metrics.faultsCaught + (w.activation.unwinding.waiting p.regions + (waiting + 1)) ≤
      w.machine.metrics.faultsRaised + 1
    omega
  refine Meets.bind (Q := fun m' w' => m' = w₁.machine ∧ w' = w₁) ⟨rfl, rfl⟩ ?_
  rintro _ w₁ ⟨rfl, rfl⟩
  refine activation_bind (Meets.bind (Q := fun _ w' => w₁.Uncounted w') ⟨⟨rfl, rfl, rfl⟩, rfl, rfl, rfl⟩ ?_)
  intro _ w₂ hw₂
  have hraised := w₁.activation.unwinding.dispatch_waiting w₁.machine.metadata p.regions e
    (w₁.machine.heap.typeOf? e.object) w₁.activation.pc 0
  rcases hr : w₁.activation.unwinding.dispatch w₁.machine.metadata p.regions e
    (w₁.machine.heap.typeOf? e.object) w₁.activation.pc 0 with ⟨r, u⟩
  rw [hr] at hraised
  dsimp only at hraised
  refine transfer_books (hw₁.uncounted hw₂) ?_ fun transfer w hw => ?_
  · rw [hw₂.unwinding]
    omega
  cases transfer with
  | propagate e => exact ⟨hw.regions, hw.method, { hw.books with }⟩
  | resume target object =>
    refine Meets.bind (enterHandler_books target object hw) fun _ w₃ hw₃ => ?_
    exact ⟨hw₃.regions, hw₃.method, { hw₃.books with }⟩

/-- **A backward jump that is polled** counts towards a trigger, and a trigger takes as many as the threshold says. -/
theorem accounted_countBackEdge (pc target : Nat) : Accounted p (countBackEdge pc target) := by
  intro m waiting loops w hw
  obtain ⟨hcaught, hpolled, hdisabled, hresolved, hready, hnodup⟩ := hw.books
  unfold countBackEdge
  refine Meets.bind (Q := fun m' w' => m' = w.machine ∧ w' = w) ⟨rfl, rfl⟩ ?_
  rintro _ w ⟨rfl, rfl⟩
  refine activation_bind ?_
  dsimp only
  by_cases hreached : 0 < w.machine.settings.osrThreshold ∧
      w.machine.settings.osrThreshold ≤ w.activation.backEdges + 1
  · simp only [hreached, and_self, decide_true, if_true]
    refine ⟨hw.regions, hw.method, hcaught, ?_, fun h => ?_, hresolved, hready, hnodup⟩
    · show w.machine.settings.osrThreshold * (w.machine.metrics.osrTriggers + 1) + (0 + loops) ≤
        w.machine.metrics.osrPolls + 1
      rw [Nat.mul_add, Nat.mul_one]
      omega
    · exact absurd hreached.1 (Nat.not_lt.2 (Nat.le_of_eq h))
  · simp only [hreached, decide_false, Bool.false_eq_true, if_false]
    refine ⟨hw.regions, hw.method, hcaught, ?_, hdisabled, hresolved, hready, hnodup⟩
    show w.machine.settings.osrThreshold * (w.machine.metrics.osrTriggers + 0) +
      (w.activation.backEdges + 1 + loops) ≤ w.machine.metrics.osrPolls + 1
    rw [Nat.add_zero]
    omega

theorem accounted_jumpTo (op : Opcode) (before target : Nat) : Accounted p (jumpTo p op before target) := by
  refine Accounted.bind (Composed.applyEffect p op before).accounted fun _ m waiting loops w hw => activation_bind ?_
  have goes (w : Workspace) (hw : w.Booked m p waiting loops 0) :
      Workspace.Booked m p waiting loops 0 { w with activation := { w.activation with pc := target } } :=
    hw.uncounted ⟨.refl _, rfl, rfl, rfl⟩
  dsimp only
  split
  · exact Meets.bind (accounted_countBackEdge _ _ m waiting loops w hw) fun _ w hw => goes w hw
  · exact goes w hw

/-! ## Calls -/

/-- **A call site that was resolved is called next.** -/
theorem invoke_books (site : CallSite) {w : Workspace} (hw : w.Booked m p waiting loops 1) :
    Meets (invoke p site) w (fun _ => Workspace.Booked m p waiting loops 0)
      fun _ => Workspace.Booked m p waiting loops 0 := by
  refine Meets.bind (Q := fun _ => Workspace.Booked m p waiting loops 0) ?_ fun _ w hw => ?_
  · exact Meets.modify ⟨hw.regions, hw.method, { hw.books with }⟩
  refine Composed.books ?_ hw
  cases site with
  | call m => exact .bind (.popArguments p _) fun _ => .pure _
  | callvirt m => exact .bind (.popArguments p _) fun _ => .bind (.virtualTarget m _) fun _ => .pure _
  | newobj m type =>
    exact .bind (.popArguments p _) fun _ => .bind .metadata fun _ => .bind (.onHeapTrap _) fun _ => .pure _
  | jmp m => exact .activation (fun _ _ => rfl) fun a => .bind (.gathered a.frame _) fun _ => .pure _

theorem installSite_books (pc : Nat) (site : CallSite) {w : Workspace} (hw : w.Booked m p waiting loops 0) :
    Meets (installSite p pc site) w (fun _ => Workspace.Booked m p waiting loops 1)
      fun _ => Workspace.Booked m p waiting loops 0 := by
  refine ofEngine_bind (fun next _ => ?_) fun _ _ => hw
  refine ofEngine_bind (fun bytes _ => ?_) fun _ _ => hw
  refine ofEngine_bind (fun code _ => ?_) fun _ _ => hw
  refine activation_bind (Meets.modify_bind (Meets.modify ?_))
  generalize hq : { p with code, callSites := p.callSites.push site } = q
  have hsame : w.machine.regions? w.activation.method = some q.regions := by
    rw [← hq]
    exact hw.method
  have hregions := Machine.regions?_setPrepared hsame
  obtain ⟨hcaught, hpolled, hdisabled, hresolved, hready, hnodup⟩ := hw.books
  refine ⟨fun h t ht => (hregions h).trans (hw.regions h t ht), (hregions _).trans hw.method, hcaught, hpolled,
    hdisabled, Nat.succ_le_succ hresolved, ?_, nodup_keys_insertEntry _ _ hnodup⟩
  have hlength := Machine.length_setPrepared (p := q) (by rw [hw.method]; rfl)
  exact hready.trans hlength.symm

theorem accounted_cachedCall (pc : Nat) : Accounted p (cachedCall p pc) := by
  refine Accounted.bind (Composed.ofEngine _).accounted fun index => ?_
  split
  · intro _ _ _ _ hw
    have hresolved := Nat.le_succ_of_le hw.books.resolved
    exact invoke_books _ { hw with books := { hw.books with resolved := hresolved } }
  · exact (Composed.throw _).accounted

theorem accounted_callSite (pc : Nat) (kind : CallKind) : Accounted p (callSite p pc kind) := by
  refine Accounted.bind (Composed.ofEngine _).accounted fun token =>
    Accounted.bind (Composed.resolveSite kind token).accounted fun site m waiting loops w hw => ?_
  exact Meets.bind (installSite_books pc site hw) fun _ w hw => invoke_books site hw

/-- **Every instruction keeps the books.** -/
theorem accounted_instruction (p : Prepared) (pc : Nat) (op : Opcode) : Accounted p (instruction p pc op) := by
  cases hcounted : op.action.isCounted with
  | false => exact (Composed.instruction p pc op fun h => by rw [hcounted] at h; cases h).accounted
  | true =>
    unfold instruction
    cases ha : op.action with
    | leave => exact accounted_leave pc
    | endFinally => exact accounted_endFinally pc
    | callSite kind => exact accounted_callSite pc kind
    | cachedCall => exact accounted_cachedCall pc
    | _ => rw [ha] at hcounted; cases hcounted

end ExecM

/-! ## Steps -/

namespace Machine

variable {m m' : Machine} {as : List Activation}

/-- How many exceptions wait in an activation. -/
def waiting (m : Machine) (a : Activation) : Nat := ((m.regions? a.method).map a.unwinding.waiting).getD 0

/-- **The books agree** while there are these activations, whose methods are ready. -/
structure Booked (m : Machine) (as : List Activation) : Prop where
  ready : ∀ a ∈ as, (m.regions? a.method).isSome = true
  books : m.Books (as.map m.waiting).sum (as.map (·.backEdges)).sum 0

theorem Carries.ready (h : m.Carries m') {k : MethodHandle} (hk : (m.regions? k).isSome = true) :
    m'.regions? k = m.regions? k := by
  obtain ⟨t, ht⟩ := Option.isSome_iff_exists.1 hk
  rw [ht]
  exact h.regions k t ht

/-- What waits in activations of methods that are ready. -/
theorem map_waiting (h : ∀ k t, m.regions? k = some t → m'.regions? k = some t)
    (hready : ∀ a ∈ as, (m.regions? a.method).isSome = true) : as.map m'.waiting = as.map m.waiting := by
  refine List.map_congr_left fun a ha => ?_
  obtain ⟨t, ht⟩ := Option.isSome_iff_exists.1 (hready a ha)
  rw [waiting, waiting, ht, h _ t ht]

theorem Booked.carried (h : m.Booked as) (hm : m.Carries m') : m'.Booked as where
  ready a ha := by
    rw [hm.ready (h.ready a ha)]
    exact h.ready a ha
  books := by
    rw [map_waiting hm.regions h.ready]
    exact hm.books h.books

/-- An activation has ended. -/
theorem Booked.tail {a : Activation} (h : m.Booked (a :: as)) : m.Booked as where
  ready b hb := h.ready b (List.mem_cons_of_mem _ hb)
  books := by
    have hbooks := h.books
    rw [List.map_cons, List.sum_cons, List.map_cons, List.sum_cons] at hbooks
    exact { hbooks with
      caught := Nat.le_trans (by omega) hbooks.caught
      polled := Nat.le_trans (by omega) hbooks.polled }

/-- An activation starts with nothing on its account. -/
theorem Booked.cons {a : Activation} (h : m.Booked as) (ha : (m.regions? a.method).isSome = true)
    (hu : a.unwinding = {}) (hn : a.backEdges = 0) : m.Booked (a :: as) where
  ready b hb := by
    rcases List.mem_cons.1 hb with rfl | hb
    · exact ha
    · exact h.ready b hb
  books := by
    have hnone : m.waiting a = 0 := by
      obtain ⟨t, ht⟩ := Option.isSome_iff_exists.1 ha
      rw [waiting, ht, hu]
      rfl
    rw [List.map_cons, List.sum_cons, List.map_cons, List.sum_cons, hnone, hn, Nat.zero_add, Nat.zero_add]
    exact h.books

end Machine

namespace Workspace

variable {p : Prepared} {w w' : Workspace} {as : List Activation}

/-- The activation of the workspace, one of the method `p`, and others. -/
structure Runs (p : Prepared) (as : List Activation) (w : Workspace) : Prop where
  method : w.machine.regions? w.activation.method = some p.regions
  booked : w.machine.Booked (w.activation :: as)

theorem Runs.opened (h : w.Runs p as) :
    w.Booked w.machine p (as.map w.machine.waiting).sum (as.map (·.backEdges)).sum 0 where
  regions _ _ hk := hk
  method := h.method
  books := by
    have hbooks := h.booked.books
    rw [List.map_cons, List.sum_cons, List.map_cons, List.sum_cons, Machine.waiting, h.method] at hbooks
    exact hbooks

theorem Runs.closed (h : w.Runs p as)
    (hw : w'.Booked w.machine p (as.map w.machine.waiting).sum (as.map (·.backEdges)).sum 0) : w'.Runs p as where
  method := hw.method
  booked := by
    have hready (a : Activation) (ha : a ∈ as) := h.booked.ready a (List.mem_cons_of_mem _ ha)
    refine ⟨fun a ha => ?_, ?_⟩
    · rcases List.mem_cons.1 ha with rfl | ha
      · rw [hw.method]
        rfl
      · obtain ⟨t, ht⟩ := Option.isSome_iff_exists.1 (hready a ha)
        rw [hw.regions _ t ht]
        rfl
    · rw [List.map_cons, List.sum_cons, List.map_cons, List.sum_cons, Machine.waiting, hw.method,
        Machine.map_waiting hw.regions hready]
      exact hw.books

/-- **What keeps the books of one activation keeps those of all.** -/
theorem Runs.after {α : Type} {x : ExecM α} (h : w.Runs p as) (hx : ExecM.Accounted p x) : (x.run w).2.Runs p as :=
  h.closed (Meets.state (hx w.machine _ _ w h.opened))

end Workspace

namespace Execution

variable {x y : Execution} {p : Prepared} {op : Opcode} {before : Nat} {callers : List Caller} {w : Workspace}
  {P : Execution → Prop}

/-- The activations that run or wait, the innermost first. -/
def activations (x : Execution) : List Activation :=
  match x.control with
  | .running a => a :: x.callers.map (·.activation)
  | .ending _ => x.callers.map (·.activation)

/-- **The books of a run agree.** -/
def Booked (x : Execution) : Prop := x.machine.Booked x.activations

end Execution

namespace Machine

variable {m m' : Machine} {callers : List Caller} {symbol : MethodSymbol}

/-- A call that an activation may come of. -/
theorem deeper_booked {enter : Machine → Control × Machine} (h : m.Booked (callers.map (·.activation)))
    (henter : ∀ m' : Machine, m'.Booked (callers.map (·.activation)) →
      Execution.Booked ⟨(enter m').2, (enter m').1, callers⟩) :
    Execution.Booked ⟨(m.deeper enter).2, (m.deeper enter).1, callers⟩ := by
  unfold deeper
  split
  · exact h
  · exact henter _ (h.carried (SameBooks.carries ⟨rfl, rfl, rfl⟩))

theorem leaveCall_booked (h : m.Booked (callers.map (·.activation))) (o : Outcome) :
    Execution.Booked ⟨(m.leaveCall o).2, (m.leaveCall o).1, callers⟩ :=
  h.carried (SameBooks.carries ⟨rfl, rfl, rfl⟩)

theorem activate_booked (h : m.Booked (callers.map (·.activation))) (hs : (m.regions? symbol.handle).isSome = true)
    (p : Prepared) (frame : Frame) (pc top : Nat) :
    Execution.Booked ⟨(m.activate symbol p frame pc top).2, (m.activate symbol p frame pc top).1, callers⟩ := by
  have hsame : m.SameBooks (m.activate symbol p frame pc top).2 := ⟨rfl, rfl, rfl⟩
  exact (h.carried hsame.carries).cons (a := { method := symbol.handle, frame, top, pc, depth := m.depth }) hs rfl rfl

/-- A method that was made ready. -/
theorem prepare_booked {as : List Activation} {p : Prepared} (h : m.Booked as)
    (hp : m.prepare symbol = (.ok p, m')) : m'.Booked as ∧ (m'.regions? symbol.handle).isSome = true := by
  have hcarried := h.carried (m.carries_prepare symbol)
  have hready := (prepare_prepares m symbol).prepared?_of_ok (congrArg Prod.fst hp)
  rw [hp] at hcarried hready
  dsimp only at hready
  refine ⟨hcarried, ?_⟩
  rw [regions?, hready]
  rfl

/-- **A call keeps the books.** -/
theorem enter_booked (h : m.Booked (callers.map (·.activation))) (symbol : MethodSymbol) (arguments : List Value) :
    Execution.Booked ⟨(m.enter symbol arguments).2, (m.enter symbol arguments).1, callers⟩ := by
  refine deeper_booked h fun m hm => ?_
  split
  · split
    · exact leaveCall_booked hm _
    · exact leaveCall_booked (hm.carried (carries_callNative m symbol arguments)) _
  · split
    · rename_i m₁ hr
      have hprepared := hm.carried (m.carries_prepare symbol)
      rw [hr] at hprepared
      exact leaveCall_booked hprepared _
    · rename_i p m₁ hr
      obtain ⟨hprepared, hready⟩ := prepare_booked hm hr
      have hframe := m₁.carries_newFrame p arguments
      split
      · rename_i m₂ hn
        rw [hn] at hframe
        exact leaveCall_booked (hprepared.carried hframe) _
      · rename_i frame m₂ hn
        rw [hn] at hframe
        refine activate_booked (hprepared.carried hframe) ?_ p frame 0 _
        rw [hframe.ready hready]
        exact hready

theorem reenter_booked (h : m.Booked (callers.map (·.activation))) (symbol : MethodSymbol) (frame : Frame)
    (offset top : Nat) :
    Execution.Booked ⟨(m.reenter symbol frame offset top).2, (m.reenter symbol frame offset top).1, callers⟩ := by
  refine deeper_booked h fun m hm => ?_
  split
  · rename_i m₁ hr
    have hprepared := hm.carried (m.carries_prepare symbol)
    rw [hr] at hprepared
    exact leaveCall_booked hprepared _
  · rename_i p m₁ hr
    obtain ⟨hprepared, hready⟩ := prepare_booked hm hr
    split
    · exact leaveCall_booked hprepared _
    · split
      · exact leaveCall_booked hprepared _
      · split
        · exact leaveCall_booked hprepared _
        · exact activate_booked hprepared hready p frame offset top

end Machine

namespace Execution

variable {x y : Execution} {p : Prepared} {op : Opcode} {before : Nat} {callers : List Caller} {w : Workspace}
  {P : Execution → Prop}

theorem finish_booked (h : w.machine.Booked (w.activation :: callers.map (·.activation))) (o : Outcome) :
    (finish w callers o).Booked :=
  h.tail.carried (Machine.SameBooks.carries ⟨rfl, rfl, rfl⟩)

theorem raised_booked (h : w.machine.Booked (w.activation :: callers.map (·.activation))) (t : Trap) (o : Outcome) :
    (finish { w with machine := (w.machine.raise t).2 } callers o).Booked :=
  finish_booked (w := ⟨(w.machine.raise t).2, w.activation⟩) (h.carried (w.machine.carries_raise t)) o

theorem proceed_booked {z : ExecM Unit} (h : w.Runs p (callers.map (·.activation))) (hz : ExecM.Accounted p z) :
    (proceed z w callers).Booked := by
  have hruns := h.after hz
  unfold Execution.proceed
  rcases hr : z.run w with ⟨t | _, v⟩
  · rw [hr] at hruns
    exact raised_booked hruns.booked t _
  · rw [hr] at hruns
    exact hruns.booked

theorem throwIn_booked (h : w.Runs p (callers.map (·.activation))) (e : GuestException) :
    (throwIn p e w callers).Booked := by
  have hruns := h.after (ExecM.accounted_dispatch e)
  unfold Execution.throwIn
  rcases hr : (ExecM.dispatch p e).run w with ⟨t | r, v⟩
  · rw [hr] at hruns
    exact raised_booked hruns.booked t _
  · rw [hr] at hruns
    cases r with
    | none => exact hruns.booked
    | some e' => exact finish_booked hruns.booked _

theorem traced_booked {as : List Activation} (h : w.machine.Booked (w.activation :: as)) (f : Trace → Nat → Trace) :
    (traced w f).machine.Booked ((traced w f).activation :: as) :=
  h.carried (Machine.SameBooks.carries ⟨rfl, rfl, rfl⟩)

theorem settle_booked {r : Except Trap Next × Workspace} (h : r.2.Runs p (callers.map (·.activation))) :
    (settle p op before callers r).Booked := by
  obtain ⟨r, w⟩ := r
  dsimp only at h
  cases r with
  | ok n =>
    cases n with
    | advance => exact proceed_booked h (ExecM.Composed.advance p op before).accounted
    | jump target => exact proceed_booked h (ExecM.accounted_jumpTo op before target)
    | ret value => exact finish_booked (traced_booked h.booked _) _
    | propagate e => exact finish_booked (traced_booked h.booked _) _
    | invoke target arguments c =>
      have hbooked : w.machine.Booked ((⟨w.activation, c⟩ :: callers : List Caller).map (·.activation)) := h.booked
      exact Machine.enter_booked hbooked target arguments
  | error t =>
    cases t with
    | abort a =>
      cases a with
      | error e => exact finish_booked (traced_booked h.booked _) _
      | endless | crash => exact finish_booked h.booked _
    | thrown e => exact throwIn_booked h e
    | fault k message =>
      have hsame : w.Uncounted { w with machine := (w.machine.faultException k message).2 } :=
        ⟨⟨rfl, rfl, rfl⟩, rfl, rfl, rfl⟩
      exact throwIn_booked (h.closed (h.opened.uncounted hsame)) _

/-- An activation whose method can be read is one of that method. -/
theorem runs_of_current {q : Prepared × Opcode} {as : List Activation} (h : w.machine.Booked (w.activation :: as))
    (hc : current w = .ok q) : w.Runs q.1 as := by
  refine ⟨?_, h⟩
  unfold current at hc
  split at hc
  · cases hc
  · rename_i p hp
    split at hc
    · cases hc
      rw [Machine.regions?, hp]
      rfl
    · cases hc

/-- **A step keeps the books.** -/
theorem Booked.step (h : x.Booked) : x.step.Booked := by
  obtain ⟨m, control, callers⟩ := x
  cases control with
  | running a =>
    have hw : m.Booked (a :: callers.map (·.activation)) := h
    show (stepInstruction ⟨m, a⟩ callers).Booked
    unfold stepInstruction
    split
    · exact finish_booked (w := ⟨m, a⟩) hw _
    · rename_i p op hc
      have hruns : Workspace.Runs p (callers.map (·.activation)) ⟨m, a⟩ := runs_of_current hw hc
      have hnoted : Workspace.Uncounted ⟨m, a⟩ (announced ⟨m, a⟩ op) := by
        unfold announced
        split <;> exact ⟨⟨rfl, rfl, rfl⟩, rfl, rfl, rfl⟩
      have hannounced := hruns.closed (hruns.opened.uncounted hnoted)
      exact settle_booked (hannounced.after (ExecM.accounted_instruction p a.pc op))
  | ending o =>
    cases callers with
    | nil => exact h
    | cons c callers =>
      have hw : m.Booked (c.activation :: callers.map (·.activation)) := h
      show (stepReturn ⟨m, c.activation⟩ c.continuation o callers).Booked
      unfold stepReturn
      split
      · split <;> exact finish_booked (w := ⟨m, c.activation⟩) hw _
      · rename_i p op hc
        have hruns : Workspace.Runs p (callers.map (·.activation)) ⟨m, c.activation⟩ := runs_of_current hw hc
        dsimp only
        split
        · exact settle_booked (hruns.after (ExecM.Composed.continueWith c.continuation _).accounted)
        · exact settle_booked (r := (_, _)) hruns
        · exact settle_booked (r := (_, _)) hruns

theorem Reaches.booked (h : x.Reaches P y) (hx : x.Booked) : y.Booked := by
  induction h with
  | refl => exact hx
  | step _ _ ih => exact ih.step

/-- What is reached from the next step is reached. -/
theorem Reaches.later (h : x.step.Reaches P y) (hx : P x) : x.Reaches P y := by
  induction h with
  | refl hs => exact .step (.refl hx) hs
  | step _ hy ih => exact .step ih hy

/-- What a run that has ended answers is where its steps lead. -/
theorem reaches_of_run {o : Outcome} {m : Machine} : ∀ {fuel : Nat} {x : Execution}, x.run fuel = some (o, m) →
    ∃ y, x.Reaches (fun _ => True) y ∧ y.machine = m
  | 0, _, h => by cases h
  | fuel + 1, x, h => by
    rw [run] at h
    cases ho : x.outcome? with
    | some o' =>
      rw [ho] at h
      cases h
      exact ⟨x, .refl trivial, rfl⟩
    | none =>
      rw [ho] at h
      obtain ⟨y, hy, hm⟩ := reaches_of_run h
      exact ⟨y, hy.later trivial, hm⟩

end Execution

/-! ## Whatever a host does -/

namespace Machine

variable {m m' : Machine}

/-- **The machines that a host can bring about** from one that has counted nothing. It makes methods ready and runs
them, from the start or from an offset, may stop a run anywhere, and does with all else as it likes. -/
inductive Counted : Machine → Prop where
  | fresh {m : Machine} : m.prepared = [] → m.metrics = {} → Counted m
  | changed {m m' : Machine} : Counted m → m.SameBooks m' → Counted m'
  | prepared {m : Machine} (symbol : MethodSymbol) : Counted m → Counted (m.prepare symbol).2
  | ran {m : Machine} {x y : Execution} : Counted m → m.Begins x → x.Reaches (fun _ => True) y → Counted y.machine

theorem booked_nil : m.Booked [] ↔ m.Books 0 0 0 := ⟨fun h => h.books, fun h => ⟨nofun, h⟩⟩

theorem Booked.nil {as : List Activation} (h : m.Booked as) : m.Booked [] := by
  induction as with
  | nil => exact h
  | cons a as ih => exact ih h.tail

theorem Begins.booked {x : Execution} (h : m.Begins x) (hm : m.Booked []) : x.Booked := by
  cases h with
  | start symbol arguments => exact enter_booked hm symbol arguments
  | restart symbol frame offset top => exact reenter_booked hm symbol frame offset top

theorem Counted.booked (h : m.Counted) : m.Booked [] := by
  induction h with
  | fresh hp hm =>
    refine booked_nil.2 ⟨?_, ?_, fun _ => ?_, ?_, ?_, ?_⟩ <;> simp [hm, hp]
  | changed _ hsame ih => exact ih.carried hsame.carries
  | prepared symbol _ ih => exact ih.carried (carries_prepare _ symbol)
  | ran _ hb hr ih => exact (hr.booked (hb.booked ih)).nil

/-- A call of a method by the host, or one that goes on at an offset, leaves a machine that was counted. -/
theorem Counted.executed {x : Execution} {fuel : Nat} {o : Outcome} (h : m.Counted) (hb : m.Begins x)
    (hr : x.run fuel = some (o, m')) : m'.Counted := by
  obtain ⟨y, hy, rfl⟩ := Execution.reaches_of_run hr
  exact .ran h hb hy

/-- **The counts agree, whatever a host does.** After any calls that make methods ready and run them, and at any point
of such a run: no more exceptions were caught than raised; the triggers took no more backward jumps than were polled,
and there are none if the threshold is zero; every call site that was resolved was called; and as many methods were
made ready as there are. -/
theorem counts_agree (h : m.Counted) :
    m.metrics.faultsCaught ≤ m.metrics.faultsRaised ∧
    m.settings.osrThreshold * m.metrics.osrTriggers ≤ m.metrics.osrPolls ∧
    (m.settings.osrThreshold = 0 → m.metrics.osrTriggers = 0) ∧
    m.metrics.callSiteResolutions ≤ m.metrics.nodeInvocations ∧
    m.metrics.methodsPrepared = m.prepared.length ∧ (m.prepared.map Prod.fst).Nodup := by
  obtain ⟨hcaught, hpolled, hdisabled, hresolved, hready, hnodup⟩ := h.booked.books
  exact ⟨hcaught, hpolled, hdisabled, hresolved, hready, hnodup⟩

/-- Where `throwsObject` is in its handler, it was made ready, its call site was resolved and called, and its exception
was raised and caught. -/
theorem throwsObjectRun_counts : (throwsObjectRun 3).machine.metrics.toList = [1, 1, 1, 0, 0, 1, 1, 0] ∧
    (throwsObjectRun 3).machine.metrics.faultsCaught ≤ (throwsObjectRun 3).machine.metrics.faultsRaised ∧
    (throwsObjectRun 3).machine.metrics.methodsPrepared = (throwsObjectRun 3).machine.prepared.length := by
  have hr : (throwsObjectRun 0).Reaches (fun _ => True) (throwsObjectRun 3) :=
    throwsObjectRun_reaches 3 fun _ _ => trivial
  obtain ⟨hcaught, -, -, -, hready, -⟩ := counts_agree (.ran (.fresh rfl rfl) throwsObjectRun_begins hr)
  exact ⟨by decide +kernel, hcaught, hready⟩

end Machine

end ManagedCode
