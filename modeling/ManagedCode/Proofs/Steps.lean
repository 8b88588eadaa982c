import ManagedCode.Machine.Step
import ManagedCode.Proofs.Calls

/-!
# What a step can do

One step executes an instruction, or hands the end of a call to the activation that waited for it, and then acts on
what was asked for. `Settles` lists everything that can come of that: the activation goes on at the next instruction or
at a target, it calls a method, it enters a handler, or it ends. Invariants of runs are proved from this list and never
by opening the step again.
-/

namespace ManagedCode

/-! ## Going on in an activation -/

namespace Workspace

variable {w w' : Workspace}

/-- The workspace at another offset, with a count of backward jumps. -/
def goTo (w : Workspace) (pc backEdges : Nat) : Workspace :=
  { w with activation := { w.activation with pc, backEdges } }

/-- Nothing has changed but counts and the trace. -/
structure Noted (w w' : Workspace) : Prop where
  machine : w'.machine = { w.machine with metrics := w'.machine.metrics, trace := w'.machine.trace }
  activation : w'.activation = w.activation

namespace Noted

theorem refl (w : Workspace) : w.Noted w := ⟨rfl, rfl⟩

theorem trans {w'' : Workspace} (h : w.Noted w') (h' : w'.Noted w'') : w.Noted w'' where
  machine := by rw [h'.machine, h.machine]
  activation := h'.activation.trans h.activation

theorem heap (h : w.Noted w') : w'.machine.heap = w.machine.heap := by rw [h.machine]

theorem kept (h : w.Noted w') : w.Kept w' where
  machine := by rw [h.machine]
  activation := by rw [h.activation]
  frame := by
    rw [h.activation]
    exact .refl _

theorem withUnwinding (h : w.Noted w') (u : Unwinding) : (w.withUnwinding u).Noted (w'.withUnwinding u) where
  machine := h.machine
  activation := by
    show { w'.activation with unwinding := u } = _
    rw [h.activation]
    rfl

theorem entered {w'' : Workspace} {p : Prepared} {object : Option (Option Ref)} (h : w.Noted w')
    (he : Entered p object w' w'') : Entered p object w w'' where
  kept := (h.kept.withTop _).trans he.kept
  below := by
    intro i hi
    rw [he.below i hi, h.activation]
  slots := by
    rw [← h.activation]
    exact he.slots
  pushed := he.pushed
  above := by
    rw [← h.activation]
    exact he.above
  heap := he.heap.trans h.heap

end Noted

/-- **The fixed effect of an instruction has been applied**, if it has one: the top is moved and what was popped is
cleared. -/
def Effected (p : Prepared) (op : Opcode) (before : Nat) (w w' : Workspace) : Prop :=
  match op.effect with
  | .varying => w' = w
  | .fixed pops pushes => w.activation.top = before ∧ p.layout.stackBase + pops ≤ before ∧
      before - pops + pushes ≤ w.activation.frame.size ∧
      w' = (w.withFrame (w.activation.frame.clearRange (before - pops + pushes) before)).withTop
        (before - pops + pushes)

/-- The activation goes on at `to`. -/
def Moved (p : Prepared) (op : Opcode) (before dest : Nat) (w w' : Workspace) : Prop :=
  ∃ w₁ w₂ n, Effected p op before w w₁ ∧ w₁.Noted w₂ ∧ w' = w₂.goTo dest n

theorem Effected.shifted {p : Prepared} {op : Opcode} {before : Nat} (h : Effected p op before w w') :
    (w.withTop w'.activation.top).Kept w' := by
  unfold Effected at h
  split at h
  · rw [h]
    exact .refl w
  · obtain ⟨-, -, -, rfl⟩ := h
    exact ⟨rfl, rfl, Frame.sameFrame_clearRange ..⟩

theorem Effected.machine {p : Prepared} {op : Opcode} {before : Nat} (h : Effected p op before w w') :
    w'.machine = w.machine := by
  unfold Effected at h
  split at h
  · rw [h]
  · obtain ⟨-, -, -, rfl⟩ := h
    rfl

end Workspace

namespace ExecM

variable {p : Prepared} {pc next before : Nat} {op : Opcode} {w : Workspace}

theorem applyEffect_meets : Meets (applyEffect p op before) w (fun _ w' => Workspace.Effected p op before w w')
    fun t w' => t.isOrdinary = true ∧ t.isAbort = true ∧ w' = w := by
  unfold applyEffect Workspace.Effected
  cases op.effect with
  | varying => exact rfl
  | fixed pops pushes =>
    refine activation_bind ?_
    by_cases htop : w.activation.top = before
    · simp only [htop, ne_eq, not_true_eq_false, if_false]
      by_cases hlow : before < p.layout.stackBase + pops
      · simp only [hlow, if_true]
        exact ⟨rfl, rfl, rfl⟩
      · simp only [hlow, if_false]
        by_cases hhigh : w.activation.frame.size < before - pops + pushes
        · simp only [hhigh, if_true]
          exact ⟨rfl, rfl, rfl⟩
        · simp only [hhigh, if_false]
          exact ⟨trivial, by omega, by omega, rfl⟩
    · simp only [htop, ne_eq, not_false_eq_true, if_true]
      exact ⟨rfl, rfl, rfl⟩

theorem advance_meets : Meets (advance p op before) w
    (fun _ w' => ∃ next, p.code.nextOffset w.activation.pc = .ok next ∧ Workspace.Moved p op before next w w')
    fun t w' => t.isAbort = true ∧ w'.machine = w.machine := by
  unfold advance
  refine Meets.bind (applyEffect_meets.mono (fun _ _ h => h) fun t w' ⟨_, ha, hw⟩ => ⟨ha, by rw [hw]⟩) ?_
  intro _ w₁ hw
  refine activation_bind ?_
  rw [show w₁.activation.pc = w.activation.pc from hw.shifted.pc]
  refine ofEngine_bind (fun next hn => ?_) fun e _ => ⟨rfl, hw.machine⟩
  exact ⟨next, hn, w₁, w₁, w₁.activation.backEdges, hw, .refl w₁, rfl⟩

theorem countBackEdge_meets (pc target : Nat) : Meets (countBackEdge pc target) w
    (fun _ w' => w.Noted ⟨w'.machine, w.activation⟩ ∧ ∃ n, w'.activation = { w.activation with backEdges := n })
    fun _ _ => False := by
  unfold countBackEdge
  refine Meets.bind (Q := fun _ w' => w' = w) rfl ?_
  rintro m w rfl
  refine activation_bind ?_
  dsimp only
  generalize decide (0 < m.settings.osrThreshold ∧ m.settings.osrThreshold ≤ w.activation.backEdges + 1) = reached
  cases reached with
  | true => exact ⟨⟨rfl, rfl⟩, 0, rfl⟩
  | false => exact ⟨⟨rfl, rfl⟩, w.activation.backEdges + 1, rfl⟩

theorem jumpTo_meets (target : Nat) : Meets (jumpTo p op before target) w
    (fun _ w' => Workspace.Moved p op before target w w')
    fun t w' => t.isAbort = true ∧ w'.machine = w.machine := by
  unfold jumpTo
  refine Meets.bind (applyEffect_meets.mono (fun _ _ h => h) fun t w' ⟨_, ha, hw⟩ => ⟨ha, by rw [hw]⟩) ?_
  intro _ w₁ hw
  refine activation_bind ?_
  by_cases hc : target ≤ w₁.activation.pc ∧ countsJumps op = true
  · simp only [hc, and_self, if_true]
    refine Meets.bind ((countBackEdge_meets _ target).mono (fun _ _ h => h) fun _ _ h => h.elim) ?_
    rintro _ w₂ ⟨hw₂, n, hn⟩
    refine ⟨w₁, _, n, hw, hw₂, ?_⟩
    show Workspace.goTo w₂ target w₂.activation.backEdges = _
    unfold Workspace.goTo
    rw [hn]
  · simp only [hc, if_false]
    exact ⟨w₁, w₁, w₁.activation.backEdges, hw, .refl w₁, rfl⟩

/-! ## Exceptions -/

/-- **An exception goes to a handler of the activation**, or to none. -/
theorem dispatch_meets (e : GuestException) : Meets (dispatch p e) w
    (fun r w' => match r with
      | none => ∃ dest object u, w.activation.unwinding.dispatch w.machine.metadata p.regions e
          (w.machine.heap.typeOf? e.object) w.activation.pc 0 = (.ok (.resume dest object), u) ∧
          ∃ w₁, Workspace.Entered p object (w.withUnwinding u) w₁ ∧ w' = w₁.goTo dest w.activation.backEdges
      | some e' => e' = e ∧ w'.machine.heap = w.machine.heap ∧ ∃ u, (w.withUnwinding u).Kept w')
    fun t w' => t.isOrdinary = true ∧ t.isAbort = true ∧ w'.machine.heap = w.machine.heap ∧
      ∃ u, (w.withUnwinding u).Shifted w' := by
  unfold dispatch
  refine Meets.bind (Q := fun _ w' => w.Noted w') ⟨rfl, rfl⟩ fun _ w₁ hw₁ => ?_
  refine Meets.bind (Q := fun m w' => m = w₁.machine ∧ w' = w₁) ⟨rfl, rfl⟩ ?_
  rintro _ _ ⟨rfl, rfl⟩
  refine activation_bind ?_
  refine Meets.bind (Q := fun _ w' => w.Noted w') (hw₁.trans ⟨rfl, rfl⟩) fun _ w₂ hw₂ => ?_
  rw [hw₁.machine, hw₁.activation]
  rcases hu : w.activation.unwinding.dispatch w.machine.metadata p.regions e (w.machine.heap.typeOf? e.object)
    w.activation.pc 0 with ⟨r, u⟩
  refine Meets.bind (Q := fun _ w' => (w.withUnwinding u).Noted w') (hw₂.withUnwinding u) fun _ w₃ hw₃ => ?_
  cases r with
  | error a => exact ⟨Unwinding.dispatch_error hu, rfl, hw₃.heap, u, hw₃.kept.shifted⟩
  | ok transfer =>
    refine Meets.bind (Q := fun x w' => x = transfer ∧ (w.withUnwinding u).Noted w') ⟨rfl, hw₃⟩ ?_
    rintro x w₄ ⟨hx, hw₄⟩
    subst hx
    cases x with
    | propagate e' =>
      refine Meets.bind (Q := fun _ w' => (w.withUnwinding u).Noted w') (hw₄.trans ⟨rfl, rfl⟩) fun _ w₅ hw₅ => ?_
      exact ⟨Unwinding.dispatch_propagate hu, hw₅.heap, u, hw₅.kept⟩
    | resume dest object =>
      refine Meets.bind ((enterHandler_meets dest object).mono (fun _ _ h => h) fun t w' ⟨ho, ha, _, hs, hh⟩ =>
        ⟨ho, ha, hh.trans hw₄.heap, u, hw₄.kept.shifted.trans hs⟩) fun _ w₅ hw₅ => ?_
      have hent := hw₄.entered hw₅
      refine ⟨dest, object, u, rfl, w₅, hent, ?_⟩
      show w₅.goTo dest w₅.activation.backEdges = _
      rw [hent.kept.activation]
      rfl

end ExecM

/-! ## Everything that can come of an instruction -/

/-- The exception that a trap raises, with its object allocated. -/
def Trap.raised? (w : Workspace) : Trap → Option (GuestException × Workspace)
  | .thrown e => some (e, w)
  | .fault k message =>
    let (e, m) := w.machine.faultException k message
    some (e, { w with machine := m })
  | .abort _ => none

/-- Whether a method is to be called. -/
def Next.isCall : Next → Bool
  | .invoke .. => true
  | _ => false

namespace Execution

/-- The activation that executes the next instruction. -/
def running? (x : Execution) : Option Activation :=
  match x.control with
  | .running a => some a
  | .ending _ => none

/-- The end of a call that is about to be handed over. -/
def ending? (x : Execution) : Option Outcome :=
  match x.control with
  | .running _ => none
  | .ending o => some o

theorem running?_eq_some {x : Execution} {a : Activation} : x.running? = some a ↔ x.control = .running a := by
  unfold running?
  cases x.control <;> simp

theorem ending?_eq_some {x : Execution} {o : Outcome} : x.ending? = some o ↔ x.control = .ending o := by
  unfold ending?
  cases x.control <;> simp

theorem outcome?_eq_some {x : Execution} {o : Outcome} :
    x.outcome? = some o ↔ x.control = .ending o ∧ x.callers = [] := by
  unfold outcome?
  cases x.control <;> cases x.callers <;> simp

variable {p : Prepared} {op : Opcode} {before : Nat} {callers : List Caller}

/-- What an activation that ends leaves of its machine: the heap as it was, but for the object of an exception. -/
structure Leaves (m m' : Machine) : Prop where
  machine : m' = { m with
    heap := m'.heap, metrics := m'.metrics, trace := m'.trace, lookups := m'.lookups, depth := m'.depth }
  heap : m'.heap = m.heap ∨ ∃ k message, m'.heap = (m.faultException k message).2.heap

/-- Where control goes on in the activation. -/
def Goes (p : Prepared) (w : Workspace) (n : Next) (dest : Nat) : Prop :=
  (n = .advance ∧ p.code.nextOffset w.activation.pc = .ok dest) ∨ n = .jump dest

/-- **What can come of an instruction**, by what it asks for. -/
inductive Settles (p : Prepared) (op : Opcode) (before : Nat) (callers : List Caller) :
    Except Trap Next × Workspace → Execution → Prop where
  /-- The activation goes on at the next instruction, or at a target. -/
  | moved {n : Next} {dest : Nat} {w w' : Workspace} : Goes p w n dest → Workspace.Moved p op before dest w w' →
      Settles p op before callers (.ok n, w) ⟨w'.machine, .running w'.activation, callers⟩
  | called (target : MethodSymbol) (arguments : List Value) (c : Continuation) (w : Workspace) :
      Settles p op before callers (.ok (.invoke target arguments c), w)
        ⟨(w.machine.enter target arguments).2, (w.machine.enter target arguments).1, ⟨w.activation, c⟩ :: callers⟩
  /-- A handler of the activation takes the exception. -/
  | caught {t : Trap} {e : GuestException} {w w₁ w₂ : Workspace} {dest : Nat} {object : Option (Option Ref)}
      {u : Unwinding} : t.raised? w = some (e, w₁) →
      w₁.activation.unwinding.dispatch w₁.machine.metadata p.regions e (w₁.machine.heap.typeOf? e.object)
        w₁.activation.pc 0 = (.ok (.resume dest object), u) →
      Workspace.Entered p object (w₁.withUnwinding u) w₂ →
      Settles p op before callers (.error t, w)
        ⟨w₂.machine, .running (w₂.goTo dest w₁.activation.backEdges).activation, callers⟩
  /-- The activation ends; a result comes from a return only. -/
  | ended {r : Except Trap Next} {w : Workspace} {m : Machine} {o : Outcome} : Leaves w.machine m →
      (∀ v, o = .ok v → r = .ok (.ret v)) → Settles p op before callers (r, w) ⟨m, .ending o, callers⟩

theorem Leaves.finish {m : Machine} {w : Workspace} (h : Leaves m w.machine) :
    Leaves m { w.machine with depth := w.activation.depth - 1 } where
  machine := by rw [h.machine]
  heap := h.heap

theorem Leaves.refl (m : Machine) : Leaves m m := ⟨rfl, .inl rfl⟩

theorem Leaves.kept {m m₁ m₂ : Machine} (h : Leaves m m₁) (hm : m₂ = { m₁ with
    heap := m₂.heap, metrics := m₂.metrics, trace := m₂.trace, lookups := m₂.lookups })
    (hh : m₂.heap = m₁.heap) : Leaves m m₂ where
  machine := by rw [hm, h.machine]
  heap := by rw [hh]; exact h.heap

theorem proceed_settles {x : ExecM Unit} {w : Workspace} {n : Next}
    (hx : Meets x w (fun _ w' => ∃ dest, Goes p w n dest ∧ Workspace.Moved p op before dest w w')
      fun t w' => t.isAbort = true ∧ w'.machine = w.machine) :
    Settles p op before callers (.ok n, w) (proceed x w callers) := by
  unfold proceed
  rcases hr : x.run w with ⟨t | _, w'⟩
  · obtain ⟨ha, hm⟩ := hx.of_error hr
    cases t with
    | abort a =>
      refine .ended (Leaves.finish (w := w') ?_) fun v hv => by cases hv
      rw [hm]
      exact .refl _
    | thrown e => cases ha
    | fault k message => cases ha
  · obtain ⟨dest, hto, hm⟩ := hx.of_ok hr
    exact .moved hto hm

theorem throwIn_settles {t : Trap} {e : GuestException} {w w₁ : Workspace} (ht : t.raised? w = some (e, w₁))
    (hl : Leaves w.machine w₁.machine) : Settles p op before callers (.error t, w) (throwIn p e w₁ callers) := by
  have hd := ExecM.dispatch_meets (p := p) (w := w₁) e
  unfold throwIn
  rcases hr : (ExecM.dispatch p e).run w₁ with ⟨t' | r, w'⟩
  · obtain ⟨-, ha, hh, u, n, hk⟩ := hd.of_error hr
    cases t' with
    | abort a => exact .ended (Leaves.finish (w := w') (hl.kept hk.machine hh)) fun v hv => by cases hv
    | thrown e => cases ha
    | fault k message => cases ha
  · cases r with
    | none =>
      obtain ⟨dest, object, u, hu, w₂, hw₂, rfl⟩ := hd.of_ok hr
      have : Settles p op before callers (.error t, w)
          ⟨w₂.machine, .running (w₂.goTo dest w₁.activation.backEdges).activation, callers⟩ := .caught ht hu hw₂
      exact this
    | some e' =>
      obtain ⟨-, hh, u, hk⟩ := hd.of_ok hr
      exact .ended (Leaves.finish (w := w') (hl.kept hk.machine hh)) fun v hv => by cases hv

/-- **The list is complete.** -/
theorem settle_settles : ∀ r : Except Trap Next × Workspace,
    Settles p op before callers r (settle p op before callers r)
  | (.ok .advance, w) => proceed_settles (ExecM.advance_meets.mono (fun _ _ ⟨dest, hto, hm⟩ => ⟨dest, .inl ⟨rfl, hto⟩, hm⟩)
      fun _ _ h => h)
  | (.ok (.jump target), w) => proceed_settles ((ExecM.jumpTo_meets target).mono (fun _ _ hm => ⟨target, .inr rfl, hm⟩)
      fun _ _ h => h)
  | (.ok (.ret value), w) => .ended ⟨rfl, .inl rfl⟩ fun v hv => by cases hv; rfl
  | (.ok (.propagate e), w) => .ended ⟨rfl, .inl rfl⟩ fun v hv => by cases hv
  | (.ok (.invoke target arguments c), w) => .called target arguments c w
  | (.error (.abort (.error e)), w) => .ended ⟨rfl, .inl rfl⟩ fun v hv => by cases hv
  | (.error (.abort .endless), w) => .ended ⟨rfl, .inl rfl⟩ fun v hv => by cases hv
  | (.error (.abort .crash), w) => .ended ⟨rfl, .inl rfl⟩ fun v hv => by cases hv
  | (.error (.thrown e), w) => throwIn_settles rfl (.refl _)
  | (.error (.fault k message), w) => throwIn_settles rfl ⟨rfl, .inr ⟨k, message, rfl⟩⟩

/-! ## The two sorts of steps -/

/-- What an activation makes of the end of the call that it waited for. -/
def handed (c : Continuation) (w : Workspace) : Outcome → Except Trap Next × Workspace
  | .ok value => (ExecM.continueWith c value).run w
  | .error (.guest e) => (.error (.thrown e), w)
  | .error (.abort a) => (.error (.abort a), w)

variable {w : Workspace}

theorem current_ok (hp : w.machine.prepared? w.activation.method = some p)
    (ho : p.code.opcodeAt w.activation.pc = .ok op) : current w = .ok (p, op) := by
  unfold current
  rw [hp]
  simp only [ho]

/-- The workspace when the trace has the instruction that is about to be executed. -/
def announced (w : Workspace) (op : Opcode) : Workspace :=
  if w.machine.settings.traceInstructions then
    traced w fun t indent => t.instruction indent w.activation.pc op.mnemonic
  else w

theorem announced_noted (w : Workspace) (op : Opcode) : w.Noted (announced w op) := by
  unfold announced
  split
  · exact ⟨rfl, rfl⟩
  · exact .refl w

theorem stepInstruction_eq (hp : w.machine.prepared? w.activation.method = some p)
    (ho : p.code.opcodeAt w.activation.pc = .ok op) (callers : List Caller) : stepInstruction w callers =
      settle p op w.activation.top callers ((ExecM.instruction p w.activation.pc op).run (announced w op)) := by
  rw [stepInstruction, current_ok hp ho]
  rfl

/-- **An activation executes its instruction**, and acts on what it asks for. -/
theorem stepInstruction_settles (hp : w.machine.prepared? w.activation.method = some p)
    (ho : p.code.opcodeAt w.activation.pc = .ok op) (callers : List Caller) :
    Settles p op w.activation.top callers ((ExecM.instruction p w.activation.pc op).run (announced w op))
      (stepInstruction w callers) := by
  rw [stepInstruction_eq hp ho]
  exact settle_settles _

theorem stepReturn_eq (hp : w.machine.prepared? w.activation.method = some p)
    (ho : p.code.opcodeAt w.activation.pc = .ok op) (c : Continuation) (o : Outcome) (callers : List Caller) :
    stepReturn w c o callers = settle p op w.activation.top callers (handed c w o) := by
  rw [stepReturn, current_ok hp ho]
  cases o with
  | ok value => rfl
  | error f => cases f <;> rfl

/-- **An activation takes the end of a call**, and acts on what it makes of it. -/
theorem stepReturn_settles (hp : w.machine.prepared? w.activation.method = some p)
    (ho : p.code.opcodeAt w.activation.pc = .ok op) (c : Continuation) (o : Outcome) (callers : List Caller) :
    Settles p op w.activation.top callers (handed c w o) (stepReturn w c o callers) := by
  rw [stepReturn_eq hp ho]
  exact settle_settles _

end Execution

/-- The value that an activation pushes when its call ends, if it pushes one. -/
def Continuation.pushed? : Continuation → Option Value → Option Value
  | .pushResult m, value => if m.signature.result.isSome then value else none
  | .pushObject r, _ => some (.object (some r))
  | .returnResult, _ => none

/-- **What becomes of the end of a call**: a result is returned again, dropped or pushed, and a failure stays one. -/
inductive Execution.Handed (c : Continuation) (w : Workspace) : Outcome → Except Trap Next × Workspace → Prop where
  | returned {value : Option Value} : c = .returnResult → Handed c w (.ok value) (.ok (.ret value), w)
  | dropped {value : Option Value} {m : MethodSymbol} : c = .pushResult m → m.signature.result = none →
      Handed c w (.ok value) (.ok .advance, w)
  | pushed {value : Option Value} {v : Value} : c.pushed? value = some v → w.activation.top < w.activation.frame.size →
      Handed c w (.ok value)
        (.ok .advance, (w.withFrame (w.activation.frame.set w.activation.top v)).withTop (w.activation.top + 1))
  | refused {value : Option Value} {t : Trap} : t.isAbort = true → Handed c w (.ok value) (.error t, w)
  | thrown {e : GuestException} : Handed c w (.error (.guest e)) (.error (.thrown e), w)
  | aborted {a : Abort} : Handed c w (.error (.abort a)) (.error (.abort a), w)

namespace ExecM

variable {w : Workspace}

theorem push_handed {c : Continuation} {value : Option Value} {v : Value} (hv : c.pushed? value = some v) :
    Execution.Handed c w (.ok value) ((do push v; return .advance : ExecM Next).run w) := by
  have hp : Meets (do push v; return .advance : ExecM Next) w
      (fun n w' => n = .advance ∧ w.activation.top < w.activation.frame.size ∧
        w' = (w.withFrame (w.activation.frame.set w.activation.top v)).withTop (w.activation.top + 1))
      fun t w' => t.isOrdinary = true ∧ t.isAbort = true ∧ w' = w :=
    Meets.bind (push_meets v) fun _ w' h => ⟨rfl, h⟩
  rcases hr : (do push v; return .advance : ExecM Next).run w with ⟨t | n, w'⟩
  · obtain ⟨-, ha, rfl⟩ := hp.of_error hr
    exact .refused ha
  · obtain ⟨rfl, hlt, rfl⟩ := hp.of_ok hr
    exact .pushed hv hlt

end ExecM

/-- The list is complete. -/
theorem Execution.handed_handed (c : Continuation) (w : Workspace) : ∀ o, Handed c w o (handed c w o)
  | .error (.guest e) => .thrown
  | .error (.abort a) => .aborted
  | .ok value => by
    unfold handed ExecM.continueWith
    cases c with
    | returnResult => exact .returned rfl
    | pushObject r => exact ExecM.push_handed rfl
    | pushResult m =>
      dsimp only
      cases hr : m.signature.result with
      | none => exact .dropped rfl hr
      | some k =>
        cases value with
        | none => exact .refused rfl
        | some v =>
          refine ExecM.push_handed ?_
          rw [Continuation.pushed?, hr]
          rfl

end ManagedCode
