import ManagedCode.Proofs.Caching
import ManagedCode.Proofs.Depths
import ManagedCode.Proofs.Heights

/-!
# Resuming equals continuing

A host may take the frame of an activation and go on with it in a call of its own. The new activation has the frame, the
offset and the top of the old one; what it has not is the state of exception handling and the count of backward jumps.
The first is empty where the old activation was neither in a handler nor on its way out of one, and only observers see
the second (`run_observed`). So all that is to be proved is that a resume passes its checks (`Reaches.resumable`), and
that the activations that wait do not matter to the one that runs (`run_above`).
-/

namespace ManagedCode

namespace Execution

variable {x : Execution} {p : Prepared} {op : Opcode} {before : Nat} {w : Workspace} {callers : List Caller}

/-! ## Activations that wait -/

/-- The run with more activations that wait, outside of those that do. -/
def above (x : Execution) (outer : List Caller) : Execution := { x with callers := x.callers ++ outer }

/-- The outcome of the activation that is called with `waiting` others waiting, if it has ended. -/
def outcomeAbove? (waiting : Nat) (x : Execution) : Option Outcome :=
  match x.control with
  | .ending o => if x.callers.length ≤ waiting then some o else none
  | .running _ => none

/-- **Makes steps until the activation ends** that is called with `waiting` others waiting. There is no answer when
`fuel` steps are not enough. -/
def runTo (waiting : Nat) : (fuel : Nat) → Execution → Option (Outcome × Machine)
  | 0, _ => none
  | fuel + 1, x =>
    match x.outcomeAbove? waiting with
    | some o => some (o, x.machine)
    | none => runTo waiting fuel x.step

theorem proceed_above (z : ExecM Unit) (w : Workspace) (callers outer : List Caller) :
    proceed z w (callers ++ outer) = (proceed z w callers).above outer := by
  unfold proceed
  rcases z.run w with ⟨t | _, v⟩ <;> rfl

theorem throwIn_above (p : Prepared) (e : GuestException) (w : Workspace) (callers outer : List Caller) :
    throwIn p e w (callers ++ outer) = (throwIn p e w callers).above outer := by
  unfold throwIn
  rcases (ExecM.dispatch p e).run w with ⟨t | _ | e', v⟩ <;> rfl

/-- What follows an instruction does not depend on the activations that wait. -/
theorem settle_above (outer : List Caller) : ∀ r : Except Trap Next × Workspace,
    settle p op before (callers ++ outer) r = (settle p op before callers r).above outer
  | (.ok .advance, w) => proceed_above _ w callers outer
  | (.ok (.jump _), w) => proceed_above _ w callers outer
  | (.ok (.ret _), _) => rfl
  | (.ok (.propagate _), _) => rfl
  | (.ok (.invoke _ _ _), _) => rfl
  | (.error (.abort (.error _)), _) => rfl
  | (.error (.abort .endless), _) => rfl
  | (.error (.abort .crash), _) => rfl
  | (.error (.thrown e), w) => throwIn_above p e w callers outer
  | (.error (.fault _ _), _) => throwIn_above p _ _ callers outer

theorem stepInstruction_above (outer : List Caller) :
    stepInstruction w (callers ++ outer) = (stepInstruction w callers).above outer := by
  unfold stepInstruction
  cases current w with
  | error e => rfl
  | ok r => exact settle_above outer _

theorem stepReturn_above (c : Continuation) (o : Outcome) (outer : List Caller) :
    stepReturn w c o (callers ++ outer) = (stepReturn w c o callers).above outer := by
  unfold stepReturn
  cases current w with
  | error e =>
    cases o with
    | ok value => rfl
    | error f => cases f <;> rfl
  | ok r =>
    cases o with
    | ok value => exact settle_above outer _
    | error f => cases f <;> exact settle_above outer _

/-- **A step is the same under activations that wait**, until it is their turn. -/
theorem step_above (h : x.outcome? = none) (outer : List Caller) : (x.above outer).step = x.step.above outer := by
  rcases x with ⟨m, control, callers⟩
  cases control with
  | running a => exact stepInstruction_above outer
  | ending o =>
    cases callers with
    | nil => cases h
    | cons c callers => exact stepReturn_above c.continuation o outer

theorem outcomeAbove?_above (x : Execution) (outer : List Caller) :
    (x.above outer).outcomeAbove? outer.length = x.outcome? := by
  rcases x with ⟨m, control, callers⟩
  cases control with
  | running a => rfl
  | ending o =>
    cases callers with
    | nil => simp [above, outcomeAbove?, outcome?]
    | cons c callers =>
      have hlong : ¬ (c :: callers ++ outer).length ≤ outer.length := by
        rw [List.length_append, List.length_cons]
        omega
      exact if_neg hlong

/-- **A run is the same under activations that wait.** -/
theorem run_above (outer : List Caller) : ∀ (fuel : Nat) (x : Execution),
    (x.above outer).runTo outer.length fuel = x.run fuel
  | 0, _ => rfl
  | fuel + 1, x => by
    rw [runTo, run, outcomeAbove?_above]
    cases h : x.outcome? with
    | some o => rfl
    | none => rw [step_above h, run_above outer fuel]

end Execution

/-! ## What a resume checks -/

/-- **The innermost activation passes the checks of a resume**: its call is not too deep, its frame has the layout of
its method, its offset is that of an instruction, and its stack has the height that the analysis noted there. -/
structure Activation.Resumable (m : Machine) (p : Prepared) (a : Activation) : Prop where
  prepared : m.prepared? a.method = some p
  innermost : m.depth = a.depth
  nested : 0 < a.depth
  room : a.depth ≤ m.settings.maxCallDepth
  layout : a.frame.layout = p.layout
  start : p.analysis.isStart a.pc = true
  low : p.layout.stackBase ≤ a.top
  height : p.analysis.depth? a.pc = some (a.top - p.layout.stackBase)

namespace Execution

variable {m : Machine} {x : Execution} {a : Activation} {p : Prepared} {D : Nat → Nat} {entry symbol : MethodSymbol}
  {arguments : List Value}

/-- An activation whose stack has a height that does not depend on the path can be resumed. -/
theorem Reaches.resumable (hm : m.Reached)
    (hx : (m.start entry arguments).Reaches (fun y => y.Addressable ∧ y.KeepsResults) x)
    (ha : x.control = .running a) (hp : x.machine.prepared? a.method = some p)
    (hD : p.Leveled x.machine.metadata D) : a.Resumable x.machine p := by
  have hb : m.Begins (m.start entry arguments) := .start entry arguments
  have hall : ∀ q, x.machine.prepared? a.method = some q → q.Leveled x.machine.metadata D := by
    intro q hq
    cases hp.symm.trans hq
    exact hD
  obtain ⟨hin, -⟩ := (hx.mono fun _ hz => hz.1).inside (hb.inside hm.sound)
  obtain ⟨q, hq⟩ := hin.running a ha
  cases hp.symm.trans hq.prepared
  obtain ⟨q, hq', htop⟩ := (hx.level (hb.inside hm.sound) (hb.level hm.sound) hall).running a ha
  cases hp.symm.trans hq'
  obtain ⟨q, hq'', hframe⟩ := (hx.disciplined (disciplined_start hm.sound.framed entry arguments)).running a ha
  cases hp.symm.trans hq''
  have hsound := hin.sound _ p hp
  have hheight : p.analysis.depth? a.pc = some (a.top - p.layout.stackBase) := by
    rw [hD.depth?_eq hsound.accepted hq.reachable, htop rfl, Nat.add_sub_cancel_left]
  have hinner := (hx.nested (m.start_nested entry arguments)).innermost.1 a ha
  have hbounded := hinner.bounded
  refine ⟨hp, hinner.machine.trans hinner.activation.symm, ?_, ?_, hframe.layout, hsound.isStart hq.reachable,
    hframe.low, hheight⟩
  · rw [hinner.activation]
    omega
  · rw [hinner.activation, hinner.settings]
    omega

end Execution

/-- **A resume that passes its checks** starts an activation with the frame, the offset and the top. -/
theorem Activation.Resumable.restart {m : Machine} {p : Prepared} {a : Activation} {symbol : MethodSymbol}
    (h : a.Resumable m p) (hs : symbol.handle = a.method) (hu : a.unwinding = {}) :
    ({ m with depth := a.depth - 1 } : Machine).restart symbol a.frame a.pc a.top =
      ⟨{ m with trace := m.trace.entry (a.depth - 1) p.symbol.name "" }, .running { a with backEdges := 0 }, []⟩ := by
  have hdepth : a.depth - 1 + 1 = a.depth := Nat.sub_add_cancel h.nested
  have hroom : ¬ m.settings.maxCallDepth < a.depth := Nat.not_lt.2 h.room
  have hready : ({ m with depth := a.depth } : Machine).prepare symbol = (.ok p, { m with depth := a.depth }) :=
    Machine.prepare_ready (by rw [hs]; exact h.prepared)
  unfold Machine.restart Machine.reenter Machine.deeper
  simp only [hdepth, if_neg hroom, hready, h.layout, h.start, h.height, Nat.not_lt.2 h.low, ne_eq, not_true_eq_false,
    Bool.not_true, Bool.false_eq_true, or_self, if_false]
  unfold Machine.activate
  rw [hs, ← hu, ← h.innermost]

/-- **Resuming equals continuing.** Let the height of the stack of a method not depend on the path, and let every
override that a virtual call enters have a result exactly when the declared method has. Wherever a run has come to an
activation of the method that is neither in a handler nor on its way out of one, the activation can be resumed with its
frame, its offset and its top, from the depth that it was called at: the resume passes its checks, and it has the same
outcome as the activation that goes on, and leaves the same machine. -/
theorem Execution.resuming_equals_continuing {m : Machine} {x : Execution} {a : Activation} {p : Prepared}
    {D : Nat → Nat} {entry symbol : MethodSymbol} {arguments : List Value} (hm : m.Reached)
    (hx : (m.start entry arguments).Reaches (fun y => y.Addressable ∧ y.KeepsResults) x)
    (ha : x.control = .running a) (hp : x.machine.prepared? a.method = some p)
    (hD : p.Leveled x.machine.metadata D) (hu : a.unwinding = {}) (hs : symbol.handle = a.method) :
    let resumed : Machine := { x.machine with depth := m.depth + x.callers.length }
    (resumed.restart symbol a.frame a.pc a.top).control = .running { a with backEdges := 0 } ∧
    ∀ fuel, (resumed.resumeAt fuel symbol a.frame a.pc a.top).map (fun (o, m') => (o, m'.unobserved)) =
      (x.runTo x.callers.length fuel).map fun (o, m') => (o, m'.unobserved) := by
  have hdepth := (hx.nested (m.start_nested entry arguments)).running a ha
  have hcalled : a.depth - 1 = m.depth + x.callers.length := by omega
  have hrestart := (hx.resumable hm ha hp hD).restart hs hu
  rw [hcalled] at hrestart
  intro resumed
  refine ⟨congrArg Execution.control hrestart, fun fuel => ?_⟩
  -- the activation that goes on, without those that wait, is akin to the one that is resumed
  have hakin : Execution.Akin (.observers x.machine.settings.maxCallDepth) ⟨x.machine, .running a, []⟩
      (resumed.restart symbol a.frame a.pc a.top) := by
    rw [hrestart]
    exact ⟨⟨{ x.machine.backdrop with trace := _ }, ⟨rfl, rfl⟩, rfl⟩, .running ⟨0, trivial, rfl⟩, .nil⟩
  have hrun := run_above x.callers fuel ⟨x.machine, .running a, []⟩
  have hwhole : (⟨x.machine, .running a, []⟩ : Execution).above x.callers = x := by rw [above, ← ha]; rfl
  rw [hwhole] at hrun
  rw [hrun]
  exact Machine.unobserved_of_endsAkin (run_observed hakin fuel)

/-! ## The run that constructs and throws -/

/-- After two steps the object is on the stack. -/
theorem throwsObjectRun_two : ∃ a p, (throwsObjectRun 2).control = .running a ∧ a.pc = 5 ∧
    a.method = throwsObject.handle ∧ a.unwinding = {} ∧ (throwsObjectRun 2).machine.prepared? a.method = some p ∧
    p.symbol = throwsObject := by
  have h : (throwsObjectRun 2).running?.map (fun a =>
      (a.pc, a.method, a.unwinding, ((throwsObjectRun 2).machine.prepared? a.method).map (·.symbol))) =
      some (5, throwsObject.handle, {}, some throwsObject) := by decide +kernel
  obtain ⟨a, ha, h⟩ := Option.map_eq_some_iff.1 h
  simp only [Prod.mk.injEq, Option.map_eq_some_iff] at h
  obtain ⟨hpc, hmethod, hu, p, hp, hsymbol⟩ := h
  exact ⟨a, p, Execution.running?_eq_some.1 ha, hpc, hmethod, hu, hp, hsymbol⟩

/-- With the object on the stack, `throwsObject` can be resumed and ends as it does when it goes on. -/
theorem Execution.throwsObject_resumes : ∃ a, (throwsObjectRun 2).control = .running a ∧ a.pc = 5 ∧
    (({ (throwsObjectRun 2).machine with depth := 0 } : Machine).restart throwsObject a.frame a.pc a.top).control =
      .running { a with backEdges := 0 } ∧
    ∀ fuel, (({ (throwsObjectRun 2).machine with depth := 0 } : Machine).resumeAt fuel throwsObject a.frame a.pc
        a.top).map (fun (o, m') => (o, m'.unobserved)) =
      ((throwsObjectRun 2).runTo 0 fuel).map fun (o, m') => (o, m'.unobserved) := by
  have hr : ((Machine.make .core none {} {}).start throwsObject []).Reaches (fun y => y.Addressable ∧ y.KeepsResults)
      (throwsObjectRun 2) :=
    throwsObjectRun_reaches 2 fun i hi =>
      ⟨throwsObjectRun_addressable (by omega), throwsObjectRun_keepsResults (by omega)⟩
  obtain ⟨a, p, ha, hpc, hmethod, hu, hp, hsymbol⟩ := throwsObjectRun_two
  have hm : (Machine.make .core none {} {}).Reached := .fresh rfl
  have hb := Machine.Begins.start (m := .make .core none {} {}) throwsObject []
  have hmetadata : (throwsObjectRun 2).machine.metadata = .core :=
    ((hr.mono fun _ hy => hy.1).inside (hb.inside hm.sound)).2.metadata.trans (hb.metadata hm.sound)
  have hD : p.Leveled (throwsObjectRun 2).machine.metadata fun pc => if pc = 5 ∨ pc = 6 then 1 else 0 := by
    refine Analysis.Leveled.of_flows fun pc stack hf => ?_
    rw [hmetadata, Prepared.context, Prepared.body, hsymbol] at hf
    have hlen : ∀ e ∈ throwsObjectFlow, e.2.length = if e.1 = 5 ∨ e.1 = 6 then 1 else 0 := by decide
    exact hlen _ (throwsObject_flows hf)
  have hcallers : (throwsObjectRun 2).callers.length = 0 := by decide +kernel
  have h := resuming_equals_continuing hm hr ha hp hD hu hmethod.symm
  rw [hcallers] at h
  exact ⟨a, ha, hpc, h⟩

end ManagedCode
