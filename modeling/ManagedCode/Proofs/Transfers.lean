import ManagedCode.Proofs.Handlers
import ManagedCode.Proofs.Sound

/-!
# What a transfer of control does

Returns, leaves, ends of handlers and calls move the height of the stack themselves. Each lemma here says of one of
them where control goes, how high the stack is then, and what becomes of the state of exception handling; all else is
left alone in the sense of `Workspace.Kept`. Control that does not follow the code enters a handler with its exception
or nothing on the stack, or the target of a leave with nothing.
-/

namespace ManagedCode

/-! ## Where exception handling goes -/

/-- A handler starts at `pc`: one that catches, or a finally handler. -/
def RegionTable.StartsHandler (t : RegionTable) (pc : Nat) (catches : Bool) : Prop :=
  ∃ i r, t.region? i = some r ∧ r.handler.start = pc ∧ (if catches then r.isCatch else r.isFinally) = true

namespace Unwinding

variable {md : Metadata} {t : RegionTable} {u u' : Unwinding} {pc target next : Nat} {object : Option (Option Ref)}

/-- Every leave that is not finished leads to a target as `P` says, through finally handlers. -/
def Leads (t : RegionTable) (P : Nat → Prop) (u : Unwinding) : Prop :=
  ∀ l ∈ u.leaves, P l.target ∧ ∀ i ∈ l.queued, ∃ r, t.region? i = some r ∧ r.isFinally = true

variable {P : Nat → Prop}

/-- An exception that is handled goes to the handler that acts on it, and no leave is added. -/
theorem dispatch_lands {e : GuestException} {thrown : Option TypeHandle} {start : Nat} (hu : u.Leads t P)
    (h : u.dispatch md t e thrown pc start = (.ok (.resume next object), u')) :
    t.StartsHandler next object.isSome ∧ u'.Leads t P := by
  unfold dispatch at h
  split at h
  · cases h
  · cases h
  · rename_i i hf
    obtain ⟨-, -, r, hr, hk⟩ := RegionTable.findHandler_ok hf
    simp only [hr] at h
    cases h
    refine ⟨⟨i, r, hr, rfl, ?_⟩, fun l hl => hu l (List.mem_filter.1 hl).1⟩
    cases hc : r.isCatch with
    | true => rfl
    | false => exact hk.resolve_right (by rw [hc]; exact Bool.false_ne_true)

theorem dispatch_error {e : GuestException} {thrown : Option TypeHandle} {start : Nat} {a : Abort}
    (h : u.dispatch md t e thrown pc start = (.error a, u')) : (Trap.abort a).isOrdinary = true := by
  unfold dispatch at h
  split at h
  · rename_i hf
    cases h
    rcases RegionTable.findFrom_error _ _ hf with rfl | ⟨w, rfl⟩
    · rfl
    · rfl
  · cases h
  · split at h
    · cases h; rfl
    · cases h

theorem dispatch_propagate {e e' : GuestException} {thrown : Option TypeHandle} {start : Nat}
    (h : u.dispatch md t e thrown pc start = (.ok (.propagate e'), u')) : e' = e := by
  unfold dispatch at h
  split at h
  · cases h
  · cases h; rfl
  · split at h
    · cases h
    · cases h

/-- A leave goes to a finally handler on its way, or to its target. -/
theorem leave_lands (hu : u.Leads t P) (hP : P target) (h : u.leave t pc target = (next, u')) :
    (next = target ∨ t.StartsHandler next false) ∧ u'.Leads t P := by
  have hall : ∀ i ∈ t.finalliesBetween pc target, ∃ r, t.region? i = some r ∧ r.isFinally = true := by
    intro i hi
    obtain ⟨r, hr, hfin, -, -⟩ := RegionTable.mem_finalliesBetween hi
    exact ⟨r, hr, hfin⟩
  unfold leave at h
  dsimp only at h
  split at h
  · cases h
    exact ⟨.inl rfl, hu⟩
  · rename_i first queued hq
    rw [hq] at hall
    obtain ⟨r, hr, hfin⟩ := hall first List.mem_cons_self
    rw [hr] at h
    cases h
    refine ⟨.inr ⟨first, r, hr, rfl, hfin⟩, fun l hl => ?_⟩
    rcases List.mem_cons.1 hl with rfl | hl
    · exact ⟨hP, fun i hi => hall i (List.mem_cons_of_mem _ hi)⟩
    · exact hu l hl

theorem endLeave_lands (hu : u.Leads t P) (h : u.endLeave t pc = (.ok (.resume next object), u')) :
    object = none ∧ (P next ∨ t.StartsHandler next false) ∧ u'.Leads t P := by
  unfold endLeave at h
  split at h
  · cases h
  · rename_i l leaves hl
    obtain ⟨htarget, hqueued⟩ := hu l (hl ▸ List.mem_cons_self)
    have hrest : ∀ k ∈ leaves, k ∈ u.leaves := fun k hk => hl ▸ List.mem_cons_of_mem _ hk
    split at h
    · cases h
      exact ⟨rfl, .inl htarget, fun k hk => hu k (hrest k hk)⟩
    · rename_i first queued hq
      rw [hq] at hqueued
      obtain ⟨r, hr, hfin⟩ := hqueued first List.mem_cons_self
      simp only [hr] at h
      cases h
      refine ⟨rfl, .inr ⟨first, r, hr, rfl, hfin⟩, fun k hk => ?_⟩
      rcases List.mem_cons.1 hk with rfl | hk
      · exact ⟨htarget, fun i hi => hqueued i (List.mem_cons_of_mem _ hi)⟩
      · exact hu k (hrest k hk)

theorem endLeave_error {a : Abort} (h : u.endLeave t pc = (.error a, u')) : (Trap.abort a).isOrdinary = true := by
  unfold endLeave at h
  split at h
  · cases h; rfl
  · split at h
    · cases h
    · dsimp only at h
      split at h
      · cases h; rfl
      · cases h

/-- **The end of a finally handler** goes to another handler, or to the target of the leave that it ends. -/
theorem endFinally_lands (hu : u.Leads t P) (h : u.endFinally md t pc = (.ok (.resume next object), u')) :
    (t.StartsHandler next object.isSome ∨ (object = none ∧ P next)) ∧ u'.Leads t P := by
  cases hr : u.reraises t pc with
  | true =>
    obtain ⟨p, ps, -, -, heq⟩ := endFinally_reraises md hr
    rw [heq] at h
    obtain ⟨hs, hl⟩ := dispatch_lands (u := ⟨ps, u.leaves⟩) hu h
    exact ⟨.inl hs, hl⟩
  | false =>
    rw [endFinally_endLeave hr] at h
    obtain ⟨rfl, hnext, hl⟩ := endLeave_lands hu h
    exact ⟨hnext.symm.imp id fun hp => ⟨rfl, hp⟩, hl⟩

theorem endFinally_error {a : Abort} (h : u.endFinally md t pc = (.error a, u')) :
    (Trap.abort a).isOrdinary = true := by
  cases hr : u.reraises t pc with
  | true =>
    obtain ⟨p, ps, -, -, heq⟩ := endFinally_reraises md hr
    rw [heq] at h
    exact dispatch_error h
  | false =>
    rw [endFinally_endLeave hr] at h
    exact endLeave_error h

end Unwinding

/-! ## Writing and clearing slots -/

namespace Frame

/-- The frame with another value in a slot. -/
def set (f : Frame) (slot : Nat) (v : Value) : Frame := { f with slots := f.slots.setIfInBounds slot v }

theorem sameFrame_set (f : Frame) (slot : Nat) (v : Value) : Workspace.SameFrame f (f.set slot v) :=
  ⟨rfl, rfl, Array.size_setIfInBounds⟩

theorem sameFrame_clearFrom : ∀ (count start : Nat) (f : Frame), Workspace.SameFrame f (f.clearFrom start count)
  | 0, _, f => .refl f
  | count + 1, start, f => (f.sameFrame_set start .null).trans (sameFrame_clearFrom count (start + 1) _)

theorem sameFrame_clearRange (f : Frame) (start stop : Nat) : Workspace.SameFrame f (f.clearRange start stop) :=
  sameFrame_clearFrom _ _ f

theorem mem_set {f : Frame} {slot i : Nat} {u v : Value} (h : (f.set slot v).slots[i]? = some u) :
    f.slots[i]? = some u ∨ u = v := by
  have h : (f.slots.setIfInBounds slot v)[i]? = some u := h
  rw [Array.getElem?_setIfInBounds] at h
  split at h
  · split at h
    · cases h; exact .inr rfl
    · cases h
  · exact .inl h

/-- A slot that is cleared becomes null. -/
theorem mem_clearFrom : ∀ (count start : Nat) {f : Frame} {i : Nat} {u : Value},
    (f.clearFrom start count).slots[i]? = some u → f.slots[i]? = some u ∨ u = .null
  | 0, _, _, _, _, h => .inl h
  | count + 1, start, _, _, _, h => (mem_clearFrom count (start + 1) h).elim (fun h => mem_set h) .inr

/-- Clearing leaves the slots around it alone. -/
theorem getElem?_clearFrom_outside {k : Nat} : ∀ (count start : Nat) (f : Frame), k < start ∨ start + count ≤ k →
    (f.clearFrom start count).slots[k]? = f.slots[k]?
  | 0, _, _, _ => rfl
  | count + 1, start, f, h => by
    rw [clearFrom, getElem?_clearFrom_outside count (start + 1) _ (by omega)]
    exact Array.getElem?_setIfInBounds_ne (by omega)

theorem eq_of_set_self {f : Frame} {slot : Nat} {u v : Value} (h : (f.set slot v).slots[slot]? = some u) : u = v := by
  have h : (f.slots.setIfInBounds slot v)[slot]? = some u := h
  rw [Array.getElem?_setIfInBounds, if_pos rfl] at h
  split at h
  · cases h; rfl
  · cases h

/-- Clearing makes the slots inside of it null. -/
theorem eq_null_of_clearFrom {k : Nat} {v : Value} : ∀ (count start : Nat) (f : Frame), start ≤ k → k < start + count →
    (f.clearFrom start count).slots[k]? = some v → v = .null
  | 0, _, _, _, _, _ => by omega
  | count + 1, start, f, hl, hh, hv => by
    rw [clearFrom] at hv
    by_cases hk : k = start
    · subst hk
      rw [getElem?_clearFrom_outside count (k + 1) _ (.inl (by omega))] at hv
      exact eq_of_set_self (f := f) hv
    · exact eq_null_of_clearFrom count (start + 1) _ (by omega) (by omega) hv

theorem getElem?_clearRange_outside {k start stop : Nat} (f : Frame) (h : k < start ∨ stop ≤ k) :
    (f.clearRange start stop).slots[k]? = f.slots[k]? := by
  by_cases hs : start ≤ stop
  · exact getElem?_clearFrom_outside _ _ f (by omega)
  · rw [clearRange, show min stop f.size - start = 0 by omega]
    rfl

theorem eq_null_of_clearRange {k start stop : Nat} {f : Frame} {v : Value} (hl : start ≤ k) (hh : k < stop)
    (hv : (f.clearRange start stop).slots[k]? = some v) : v = .null := by
  have hlt : k < (f.clearRange start stop).size := (Array.getElem?_eq_some_iff.1 hv).1
  rw [(sameFrame_clearRange f start stop).size] at hlt
  exact eq_null_of_clearFrom _ _ f hl (by omega) hv

end Frame

/-! ## The height of the stack -/

namespace Workspace

variable {w w' : Workspace}

/-- The workspace with the stack at another height. -/
def withTop (w : Workspace) (top : Nat) : Workspace := { w with activation := { w.activation with top } }

/-- The workspace with another state of exception handling. -/
def withUnwinding (w : Workspace) (unwinding : Unwinding) : Workspace :=
  { w with activation := { w.activation with unwinding } }

/-- The workspace with other slots. -/
def withFrame (w : Workspace) (frame : Frame) : Workspace := { w with activation := { w.activation with frame } }

/-- Nothing has changed but slots, the heap, counts, the trace, and the height of the stack. -/
def Shifted (w w' : Workspace) : Prop := ∃ n, (w.withTop n).Kept w'

theorem Kept.shifted (h : w.Kept w') : w.Shifted w' := ⟨w.activation.top, h⟩

theorem Kept.withTop (h : w.Kept w') (n : Nat) : (w.withTop n).Kept (w'.withTop n) where
  machine := h.machine
  activation := by
    have ha := h.activation
    show { w'.activation with top := n } = _
    rw [ha]
    rfl
  frame := h.frame

theorem Shifted.trans {w'' : Workspace} (h : w.Shifted w') (h' : w'.Shifted w'') : w.Shifted w'' := by
  obtain ⟨n, hn⟩ := h
  obtain ⟨k, hk⟩ := h'
  exact ⟨k, (hn.withTop k).trans hk⟩

/-- **A handler, or the target of a leave, has been entered**: the stack holds the object, if there is one, and nothing
else, and arguments and locals are as before. Other slots are as before or null; above the new top, a slot that is not
null was above the old one. -/
structure Entered (p : Prepared) (object : Option (Option Ref)) (w w' : Workspace) : Prop where
  kept : (w.withTop (p.layout.stackBase + if object.isSome then 1 else 0)).Kept w'
  below : ∀ i, i < p.layout.stackBase → w'.activation.frame.slots[i]? = w.activation.frame.slots[i]?
  slots : ∀ (i : Nat) v, w'.activation.frame.slots[i]? = some v →
    w.activation.frame.slots[i]? = some v ∨ ∃ r, v = .object r
  pushed : ∀ r, object = some r → w'.activation.frame.slots[p.layout.stackBase]? = some (.object r)
  above : ∀ (i : Nat) v, (p.layout.stackBase + if object.isSome then 1 else 0) ≤ i →
    w'.activation.frame.slots[i]? = some v →
    v = .null ∨ (w.activation.top ≤ i ∧ w.activation.frame.slots[i]? = some v)
  heap : w'.machine.heap = w.machine.heap

theorem Kept.withUnwinding (h : w.Kept w') (u : Unwinding) : (w.withUnwinding u).Kept (w'.withUnwinding u) where
  machine := h.machine
  activation := by
    have ha := h.activation
    show { w'.activation with unwinding := u } = _
    rw [ha]
    rfl
  frame := h.frame

namespace Entered

variable {p : Prepared} {object : Option (Option Ref)}

theorem withUnwinding (h : Entered p object w w') (u : Unwinding) :
    Entered p object (w.withUnwinding u) (w'.withUnwinding u) :=
  ⟨h.kept.withUnwinding u, h.below, h.slots, h.pushed, h.above, h.heap⟩

/-- Only the layout of the method matters. -/
theorem of_layout {p' : Prepared} (h : Entered p object w w') (hl : p'.layout = p.layout) : Entered p' object w w' := by
  refine ⟨?_, ?_, h.slots, ?_, ?_, h.heap⟩
  · rw [hl]
    exact h.kept
  · rw [hl]
    exact h.below
  · rw [hl]
    exact h.pushed
  · rw [hl]
    exact h.above

/-- What was entered first does not matter. -/
theorem again {w'' : Workspace} {object' : Option (Option Ref)} (h : Entered p object w w')
    (h' : Entered p object' w' w'') : Entered p object' w w'' where
  kept := (h.kept.withTop _).trans h'.kept
  below := fun i hi => (h'.below i hi).trans (h.below i hi)
  slots := fun i v hv => (h'.slots i v hv).elim (h.slots i v) .inr
  pushed := h'.pushed
  above := by
    intro i v hi hv
    have htop : w'.activation.top = p.layout.stackBase + if object.isSome then 1 else 0 := h.kept.top
    rcases h'.above i v hi hv with hn | ⟨ht, hv'⟩
    · exact .inl hn
    · exact h.above i v (htop ▸ ht) hv'
  heap := h'.heap.trans h.heap

end Entered

end Workspace

/-- Whether a trap ends the activation, whatever handlers it has. -/
def Trap.isAbort : Trap → Bool
  | .abort _ => true
  | _ => false

namespace ExecM

variable {α β : Type} {p : Prepared} {pc next : Nat} {op : Opcode} {w : Workspace}

theorem activation_bind {f : Activation → ExecM α} {Q : α → Workspace → Prop} {E : Trap → Workspace → Prop}
    (h : Meets (f w.activation) w Q E) : Meets (activation >>= f) w Q E := h

theorem metadata_bind {f : Metadata → ExecM α} {Q : α → Workspace → Prop} {E : Trap → Workspace → Prop}
    (h : Meets (f w.machine.metadata) w Q E) : Meets (metadata >>= f) w Q E := h

theorem ofEngine_bind {r : Except EngineError β} {f : β → ExecM α} {Q : α → Workspace → Prop}
    {E : Trap → Workspace → Prop} (hok : ∀ b, r = .ok b → Meets (f b) w Q E)
    (herr : ∀ e, r = .error e → E (.ofError e) w) : Meets (ofEngine r >>= f) w Q E := by
  cases r with
  | ok b => exact hok b rfl
  | error e => exact herr e rfl

theorem ofEngine_ok {b : β} {f : β → ExecM α} {Q : α → Workspace → Prop} {E : Trap → Workspace → Prop}
    (h : Meets (f b) w Q E) : Meets (ofEngine (.ok b) >>= f) w Q E := h

theorem put_meets (slot : Nat) (v : Value) : Meets (put slot v) w
    (fun _ w' => slot < w.activation.frame.size ∧ w' = w.withFrame (w.activation.frame.set slot v))
    fun t w' => t.isOrdinary = true ∧ t.isAbort = true ∧ ¬ slot < w.activation.frame.size ∧ w' = w := by
  unfold put
  refine activation_bind ?_
  unfold Frame.put
  by_cases h : slot < w.activation.frame.size
  · rw [if_pos h]
    exact ⟨h, rfl⟩
  · rw [if_neg h]
    exact ⟨rfl, rfl, h, rfl⟩

theorem push_meets (v : Value) : Meets (push v) w
    (fun _ w' => w.activation.top < w.activation.frame.size ∧
      w' = (w.withFrame (w.activation.frame.set w.activation.top v)).withTop (w.activation.top + 1))
    fun t w' => t.isOrdinary = true ∧ t.isAbort = true ∧ w' = w := by
  unfold push
  refine activation_bind ?_
  by_cases h : w.activation.frame.size ≤ w.activation.top
  · simp only [h, if_true]
    exact ⟨rfl, rfl, rfl⟩
  · simp only [h, if_false]
    refine Meets.bind ((put_meets _ _).mono (fun _ _ hq => hq) fun t w' ⟨ho, ha, _, hw⟩ => ⟨ho, ha, hw⟩) ?_
    rintro _ _ ⟨hlt, rfl⟩
    exact ⟨hlt, rfl⟩

/-- The value in a slot is moved out. -/
theorem take_meets (slot : Nat) {f : Value × Frame → ExecM α} {Q : α → Workspace → Prop} {E : Trap → Workspace → Prop}
    (hok : ∀ v, w.activation.frame.slots[slot]? = some v →
      Meets (f (v, w.activation.frame.set slot .null)) w Q E)
    (herr : ∀ t : Trap, t.isOrdinary = true → t.isAbort = true → E t w) :
    Meets (ofEngine (w.activation.frame.take slot) >>= f) w Q E := by
  unfold Frame.take Frame.get
  cases hv : w.activation.frame.slots[slot]? with
  | none => exact herr _ rfl rfl
  | some v =>
    have hlt : slot < w.activation.frame.size := (Array.getElem?_eq_some_iff.1 hv).1
    unfold Frame.clear Frame.put
    rw [if_pos hlt]
    exact hok v hv

theorem stackSlot_meets (n : Nat) : Meets (stackSlot p n) w
    (fun slot w' => p.layout.stackBase + n + 1 ≤ w.activation.top ∧ slot = w.activation.top - (n + 1) ∧ w' = w)
    fun t w' => t.isOrdinary = true ∧ t.isAbort = true ∧ w' = w := by
  unfold stackSlot
  refine activation_bind ?_
  by_cases h : p.layout.stackBase + n + 1 ≤ w.activation.top
  · simp only [h, if_true]
    exact ⟨trivial, rfl, rfl⟩
  · simp only [h, if_false]
    exact ⟨rfl, rfl, rfl⟩

theorem pop_meets : Meets (pop p) w
    (fun v w' => p.layout.stackBase + 1 ≤ w.activation.top ∧
      w.activation.frame.slots[w.activation.top - 1]? = some v ∧
      w' = (w.withFrame (w.activation.frame.set (w.activation.top - 1) .null)).withTop (w.activation.top - 1))
    fun t w' => t.isOrdinary = true ∧ t.isAbort = true ∧ w' = w := by
  unfold pop
  refine Meets.bind (stackSlot_meets 0) ?_
  rintro _ _ ⟨h, rfl, rfl⟩
  refine activation_bind (take_meets _ (fun v hv => ?_) fun t ho ha => ⟨ho, ha, rfl⟩)
  exact ⟨h, hv, rfl⟩

theorem takeSlots_meets : ∀ (count slot : Nat) (w : Workspace), Meets (takeSlots slot count) w
    (fun vs w' => vs.length = count ∧ (∀ i, i < count → w.activation.frame.slots[slot + i]? = vs[i]?) ∧
      w' = w.withFrame (w.activation.frame.clearFrom slot count))
    fun t w' => t.isOrdinary = true ∧ t.isAbort = true ∧ w.Kept w'
  | 0, slot, w => ⟨rfl, (fun i hi => absurd hi (Nat.not_lt_zero i)), rfl⟩
  | count + 1, slot, w => by
    unfold takeSlots
    refine activation_bind (take_meets _ (fun v hv => ?_) fun t ho ha => ⟨ho, ha, .refl w⟩)
    have hkept : w.Kept (w.withFrame (w.activation.frame.set slot .null)) := ⟨rfl, rfl, Frame.sameFrame_set ..⟩
    refine Meets.bind (Q := fun _ w' => w' = w.withFrame (w.activation.frame.set slot .null)) rfl ?_
    rintro _ _ rfl
    refine Meets.bind ((takeSlots_meets count (slot + 1) _).mono (fun _ _ h => h) fun t w' ⟨ho, ha, hk⟩ =>
      ⟨ho, ha, hkept.trans hk⟩) ?_
    rintro vs _ ⟨hlen, hvs, rfl⟩
    refine ⟨by rw [List.length_cons, hlen], fun i hi => ?_, rfl⟩
    cases i with
    | zero => exact hv
    | succ i =>
      rw [List.getElem?_cons_succ, ← hvs i (by omega), show slot + (i + 1) = slot + 1 + i by omega]
      exact (Array.getElem?_setIfInBounds_ne (by omega)).symm

/-- **The arguments of a call leave the stack**, the deepest first. -/
theorem popArguments_meets (count : Nat) : Meets (popArguments p count) w
    (fun vs w' => vs.length = count ∧ (count = 0 ∨ p.layout.stackBase + count ≤ w.activation.top) ∧
      (∀ i, i < count → w.activation.frame.slots[w.activation.top - count + i]? = vs[i]?) ∧
      w' = (w.withFrame (w.activation.frame.clearFrom (w.activation.top - count) count)).withTop
        (w.activation.top - count))
    fun t w' => t.isOrdinary = true ∧ t.isAbort = true ∧ w.Kept w' := by
  cases count with
  | zero => exact ⟨rfl, .inl rfl, (fun i hi => absurd hi (Nat.not_lt_zero i)), rfl⟩
  | succ n =>
    unfold popArguments
    refine Meets.bind ((stackSlot_meets n).mono (fun _ _ h => h) fun t w' ⟨ho, ha, hw⟩ => ⟨ho, ha, hw ▸ .refl w⟩) ?_
    rintro _ _ ⟨h, rfl, rfl⟩
    refine Meets.bind (takeSlots_meets (n + 1) _ _) ?_
    rintro vs _ ⟨hlen, hvs, rfl⟩
    exact ⟨hlen, .inr (by omega), hvs, rfl⟩

/-! ## Handlers -/

/-- The stack is emptied. -/
theorem resetStack_meets : Meets (resetStack p) w
    (fun _ w' => Workspace.Entered p none w w' ∧ w'.activation.unwinding = w.activation.unwinding)
    fun _ _ => False :=
  ⟨⟨⟨rfl, rfl, Frame.sameFrame_clearRange ..⟩, fun _ hi => Frame.getElem?_clearRange_outside _ (.inl hi),
    fun _ _ hv => (Frame.mem_clearFrom _ _ hv).imp_right fun h => ⟨none, h⟩, (fun _ hr => by cases hr),
    fun i v hi hv => by
      by_cases ht : i < w.activation.top
      · exact .inl (Frame.eq_null_of_clearRange hi ht hv)
      · exact .inr ⟨by omega, (Frame.getElem?_clearRange_outside _ (.inr (by omega))).symm.trans hv⟩, rfl⟩, rfl⟩

/-- **A handler is entered** with the exception, if it catches one, alone on the stack. -/
theorem enterHandler_meets (pc : Nat) (object : Option (Option Ref)) : Meets (enterHandler p pc object) w
    (fun _ w' => Workspace.Entered p object w w')
    fun t w' => t.isOrdinary = true ∧ t.isAbort = true ∧ object.isSome = true ∧ w.Shifted w' ∧
      w'.machine.heap = w.machine.heap := by
  unfold enterHandler
  refine Meets.bind (resetStack_meets.mono (fun _ _ h => h) fun _ _ h => h.elim) ?_
  rintro _ w₁ ⟨hreset, -⟩
  cases object with
  | none =>
    dsimp only
    split
    · exact ⟨hreset.kept.trans ⟨rfl, rfl, .refl _⟩, hreset.below, hreset.slots, hreset.pushed, hreset.above,
        hreset.heap⟩
    · exact hreset
  | some r =>
    refine Meets.bind ((push_meets (.object r)).mono (fun _ _ h => h) fun t w' ⟨ho, ha, hw⟩ =>
      ⟨ho, ha, rfl, hw ▸ ⟨_, hreset.kept⟩, hw ▸ hreset.heap⟩) ?_
    rintro _ _ ⟨hlt, rfl⟩
    have htop : w₁.activation.top = p.layout.stackBase := hreset.kept.top
    rw [htop] at hlt ⊢
    refine ⟨(hreset.kept.withTop _).trans ⟨rfl, rfl, Frame.sameFrame_set ..⟩, fun i hi => ?_, fun i v hv => ?_,
      fun r' hr => ?_, fun i v hi hv => ?_, hreset.heap⟩
    · exact (Array.getElem?_setIfInBounds_ne (Nat.ne_of_gt hi)).trans (hreset.below i hi)
    · exact (Frame.mem_set hv).elim (hreset.slots i v) fun h => .inr ⟨r, h⟩
    · cases hr
      exact Array.getElem?_setIfInBounds_self_of_lt hlt
    · have hi : p.layout.stackBase + 1 ≤ i := hi
      refine hreset.above i v (by simp only [Option.isSome_none, Bool.false_eq_true, if_false]; omega) ?_
      exact (Array.getElem?_setIfInBounds_ne (by omega)).symm.trans hv

theorem isOrdinary_ofError {e : EngineError} (h : e.isUnanalyzed = false) : (Trap.ofError e).isOrdinary = true := by
  rw [Trap.ofError, Trap.isOrdinary, h]
  rfl

/-- **A leave empties the stack** and goes to the next finally handler, or to its target. It fails only where it has no
target. -/
theorem leave_enters : Meets (leave p pc) w
    (fun n w' => ∃ target dest u, p.code.branchTarget pc = .ok target ∧
      w.activation.unwinding.leave p.regions pc target = (dest, u) ∧ n = .jump dest ∧
      Workspace.Entered p none (w.withUnwinding u) w')
    fun t w' => ∃ e, p.code.branchTarget pc = .error e ∧ t = .ofError e ∧ w' = w := by
  unfold leave
  refine ofEngine_bind (fun target ht => ?_) fun e he => ⟨e, he, rfl, rfl⟩
  refine Meets.bind (resetStack_meets.mono (fun _ _ h => h) fun _ _ h => h.elim) ?_
  rintro _ w₁ ⟨hreset, hunwinding⟩
  refine activation_bind ?_
  rw [hunwinding]
  rcases hu : w.activation.unwinding.leave p.regions pc target with ⟨dest, u⟩
  dsimp only
  refine Meets.bind (Q := fun _ w' => Workspace.Entered p none (w.withUnwinding u) w') (hreset.withUnwinding u) ?_
  intro _ w₂ hw₂
  by_cases heq : dest = target
  · simp only [heq, ne_eq, not_true_eq_false, if_false]
    exact ⟨target, target, u, ht, heq ▸ hu, rfl, hw₂⟩
  · simp only [heq, ne_eq, not_false_eq_true, if_true]
    refine Meets.bind ((enterHandler_meets dest none).mono (fun _ _ h => h) fun _ _ h => nomatch h.2.2.1) ?_
    exact fun _ w₃ hw₃ => ⟨target, dest, u, ht, hu, rfl, hw₂.again hw₃⟩

theorem leave_meets (h : Reads p pc op next) : Meets (leave p pc) w
    (fun n w' => ∃ target dest u, p.code.branchTarget pc = .ok target ∧
      w.activation.unwinding.leave p.regions pc target = (dest, u) ∧ n = .jump dest ∧
      Workspace.Entered p none (w.withUnwinding u) w')
    fun t w' => t.isOrdinary = true ∧ w.Kept w' := by
  refine leave_enters.mono (fun _ _ hq => hq) ?_
  rintro t w' ⟨e, he, rfl, rfl⟩
  exact ⟨isOrdinary_ofError (Code.branchTarget_error h.next h.opcode he), .refl w'⟩

/-- **The end of a finally handler** enters another one or the target of a leave, or the exception goes on to the
caller. -/
theorem endFinally_meets : Meets (endFinally p pc) w
    (fun n w' => ∃ u,
      (∃ dest object, w.activation.unwinding.endFinally w.machine.metadata p.regions pc = (.ok (.resume dest object), u) ∧
        n = .jump dest ∧ Workspace.Entered p object (w.withUnwinding u) w') ∨
      (∃ e, n = .propagate e ∧ w' = w.withUnwinding u))
    fun t w' => t.isOrdinary = true ∧ t.isAbort = true ∧ w'.machine.heap = w.machine.heap ∧
      ∃ u, (w.withUnwinding u).Shifted w' := by
  unfold endFinally
  refine activation_bind (metadata_bind ?_)
  rcases hu : w.activation.unwinding.endFinally w.machine.metadata p.regions pc with ⟨r, u⟩
  refine Meets.bind (Q := fun _ w' => w' = w.withUnwinding u) rfl ?_
  rintro _ _ rfl
  cases r with
  | error a => exact ⟨Unwinding.endFinally_error hu, rfl, rfl, u, Workspace.Kept.shifted (.refl _)⟩
  | ok transfer =>
    cases transfer with
    | propagate e => exact ⟨u, .inr ⟨e, rfl, rfl⟩⟩
    | resume dest object =>
      refine Meets.bind (Q := fun x w' => x = .resume dest object ∧ w' = w.withUnwinding u) ⟨rfl, rfl⟩ ?_
      rintro _ _ ⟨rfl, rfl⟩
      refine Meets.bind ((enterHandler_meets dest object).mono (fun _ _ h => h) fun t w' ⟨ho, ha, _, hs, hh⟩ =>
        ⟨ho, ha, hh, u, hs⟩) fun _ w' hw' => ?_
      exact ⟨u, .inl ⟨dest, object, rfl, rfl, hw'⟩⟩

/-- A return gives a value exactly when the signature has one. -/
theorem ret_meets : Meets (ret p) w
    (fun n w' => (∃ v, n = .ret v ∧ v.isSome = p.symbol.signature.result.isSome) ∧ w.Shifted w')
    fun t w' => t.isOrdinary = true ∧ w.Shifted w' := by
  unfold ret
  generalize p.symbol.signature.result = r
  have last : ∀ (v : Option Value) (w' : Workspace), v.isSome = r.isSome → w.Shifted w' →
      Meets (do
        let a ← activation
        if a.top ≠ p.layout.stackBase then fail (.invalidProgram a.pc .returnWithOperands)
        else return .ret v : ExecM Next) w'
      (fun n w' => (∃ v, n = .ret v ∧ v.isSome = r.isSome) ∧ w.Shifted w')
      fun t w' => t.isOrdinary = true ∧ w.Shifted w' := by
    intro v w' hv hw
    refine activation_bind ?_
    split
    · exact ⟨rfl, hw⟩
    · exact ⟨⟨v, rfl, hv⟩, hw⟩
  have hrefl : w.Shifted w := (Workspace.Kept.refl w).shifted
  cases r with
  | none => exact last none w rfl hrefl
  | some k =>
    refine Meets.bind (pop_meets.mono (fun _ _ h => h) fun t w' ⟨ho, _, hw⟩ => ⟨ho, hw ▸ hrefl⟩) ?_
    rintro v _ ⟨-, -, rfl⟩
    have hpop : w.Shifted ((w.withFrame (w.activation.frame.set (w.activation.top - 1) .null)).withTop
        (w.activation.top - 1)) := ⟨w.activation.top - 1, rfl, rfl, Frame.sameFrame_set ..⟩
    refine activation_bind (Meets.bind (((calm_normalize _ k v).meets _).mono (fun _ _ h => h) fun t w' ⟨ho, hk⟩ =>
      ⟨ho, hpop.trans hk.shifted⟩) ?_)
    rintro v' w' ⟨-, hk⟩
    exact last (some v') w' rfl (hpop.trans hk.shifted)

end ExecM

end ManagedCode
