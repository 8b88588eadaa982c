import ManagedCode.Proofs.Discipline

/-!
# Engine errors end a run

An exception of the program goes to a handler that takes it; an error of the engine goes to none. `Execution.Fails`
lists where a step can meet such an error, from the instruction that is executed to the method that is called and the
handlers that are looked for, and the list is complete (`step_aborting_iff`). From then on the run only unwinds: a step
ends the next activation that waits, and neither enters a handler of it nor executes an instruction (`GivenUp.step`).
So the run ends, and with that very error. It ends in the same way when an instruction crashes (`Executes.endsIn`).
-/

namespace ManagedCode

/-! ## How runs end -/

namespace Execution

variable {x y : Execution} {r r' : Outcome × Machine} {fuel fuel' : Nat} {P : Execution → Prop}

/-- The run comes to an end, with the outcome and the machine of `r`. -/
def EndsIn (x : Execution) (r : Outcome × Machine) : Prop := ∃ fuel, x.run fuel = some r

theorem run_succ : ∀ {fuel : Nat} {x : Execution}, x.run fuel = some r → x.run (fuel + 1) = some r
  | 0, _, h => by cases h
  | fuel + 1, x, h => by
    unfold run at h ⊢
    cases ho : x.outcome? with
    | some o =>
      rw [ho] at h
      exact h
    | none =>
      rw [ho] at h
      exact run_succ h

/-- More fuel does not change the answer. -/
theorem run_mono (h : x.run fuel = some r) (hle : fuel ≤ fuel') : x.run fuel' = some r := by
  induction hle with
  | refl => exact h
  | step _ ih => exact run_succ ih

theorem EndsIn.unique (h : x.EndsIn r) (h' : x.EndsIn r') : r = r' := by
  obtain ⟨fuel, hr⟩ := h
  obtain ⟨fuel', hr'⟩ := h'
  have hmax := run_mono hr (Nat.le_max_left fuel fuel')
  have hmax' := run_mono hr' (Nat.le_max_right fuel fuel')
  exact Option.some.inj (hmax.symm.trans hmax')

theorem endsIn_of_outcome {o : Outcome} (h : x.outcome? = some o) : x.EndsIn (o, x.machine) := by
  refine ⟨1, ?_⟩
  unfold run
  rw [h]

theorem step_of_outcome {o : Outcome} (h : x.outcome? = some o) : x.step = x := by
  obtain ⟨hcontrol, hcallers⟩ := outcome?_eq_some.1 h
  rw [step, hcontrol, hcallers]

/-- A step does not change how the run ends. -/
theorem endsIn_step : x.step.EndsIn r ↔ x.EndsIn r := by
  cases ho : x.outcome? with
  | some o => rw [step_of_outcome ho]
  | none =>
    have hrun : ∀ fuel, x.run (fuel + 1) = x.step.run fuel := by
      intro fuel
      rw [run, ho]
    constructor
    · rintro ⟨fuel, h⟩
      exact ⟨fuel + 1, (hrun fuel).trans h⟩
    · rintro ⟨fuel, h⟩
      exact ⟨fuel, (hrun fuel).symm.trans (run_succ h)⟩

/-- The states that a run passes through end as it does. -/
theorem Reaches.endsIn (h : x.Reaches P y) : y.EndsIn r ↔ x.EndsIn r := by
  induction h with
  | refl => exact Iff.rfl
  | step _ _ ih => exact endsIn_step.trans ih

end Execution

/-! ## Unwinding -/

/-- Nothing has changed but the trace and the depth of calls. -/
def Machine.Unrolls (m m' : Machine) : Prop := m' = { m with trace := m'.trace, depth := m'.depth }

theorem Machine.Unrolls.trans {m m' m'' : Machine} (h : m.Unrolls m') (h' : m'.Unrolls m'') : m.Unrolls m'' := by
  unfold Unrolls at h h' ⊢
  rw [h', h]

namespace Execution

variable {x : Execution} {b : Abort} {e : EngineError}

/-- An abort is on its way to the activations that wait, and no activation runs. -/
def GivenUp (b : Abort) (x : Execution) : Prop := x.control = .ending (.error (.abort b))

/-- **The run is being given up** because of the error `e`: no activation runs. -/
def Aborting (e : EngineError) (x : Execution) : Prop := x.control = .ending (.error (.abort (.error e)))

theorem Aborting.givenUp (h : x.Aborting e) : x.GivenUp (.error e) := h

theorem settle_givenUp (p : Prepared) (op : Opcode) (before : Nat) (callers : List Caller) (w : Workspace)
    {y : Execution} (hy : settle p op before callers (.error (.abort b), w) = y) :
    y.GivenUp b ∧ y.callers = callers ∧ w.machine.Unrolls y.machine := by
  subst hy
  cases b <;> exact ⟨rfl, rfl, rfl⟩

/-- An activation that waits hands the abort on, whatever handlers it has. -/
theorem stepReturn_givenUp (w : Workspace) (c : Continuation) (callers : List Caller) {y : Execution}
    (hy : stepReturn w c (.error (.abort b)) callers = y) :
    y.GivenUp b ∧ y.callers = callers ∧ w.machine.Unrolls y.machine := by
  unfold stepReturn at hy
  split at hy
  · subst hy
    exact ⟨rfl, rfl, rfl⟩
  · exact settle_givenUp _ _ _ callers w hy

/-- **One step ends the next activation that waits**, and nothing is done in it. -/
theorem GivenUp.step (h : x.GivenUp b) :
    x.step.GivenUp b ∧ x.step.callers = x.callers.tail ∧ x.machine.Unrolls x.step.machine := by
  obtain ⟨m, control, callers⟩ := x
  obtain rfl : control = _ := h
  cases callers with
  | nil => exact ⟨rfl, rfl, rfl⟩
  | cons c callers => exact stepReturn_givenUp ⟨m, c.activation⟩ c.continuation callers rfl

/-- **However many steps follow, they only end activations.** -/
theorem GivenUp.repeat (h : x.GivenUp b) (k : Nat) : (k.repeat Execution.step x).GivenUp b ∧
    (k.repeat Execution.step x).callers = x.callers.drop k ∧
    x.machine.Unrolls (k.repeat Execution.step x).machine := by
  induction k with
  | zero => exact ⟨h, rfl, rfl⟩
  | succ k ih =>
    obtain ⟨hk, hcallers, hmachine⟩ := ih
    obtain ⟨hstep, hcallers', hmachine'⟩ := hk.step
    refine ⟨hstep, ?_, hmachine.trans hmachine'⟩
    rw [← List.tail_drop, ← hcallers]
    exact hcallers'

/-- Every activation that waits is ended some time, and then the run ends with the abort. -/
theorem GivenUp.endsIn (h : x.GivenUp b) : ∃ m, x.machine.Unrolls m ∧ x.EndsIn (.error (.abort b), m) := by
  -- after as many steps as activations wait, none does
  obtain ⟨hcontrol, hcallers, hmachine⟩ := h.repeat x.callers.length
  have hr : x.Reaches (fun _ => True) (x.callers.length.repeat Execution.step x) := .repeat _ fun _ _ => trivial
  generalize x.callers.length.repeat Execution.step x = y at hcontrol hcallers hmachine hr
  rw [List.drop_length] at hcallers
  have ho : y.outcome? = some (.error (.abort b)) := by
    rw [outcome?, hcontrol, hcallers]
  exact ⟨y.machine, hmachine, hr.endsIn.1 (endsIn_of_outcome ho)⟩

end Execution

/-! ## Where engine errors come from -/

namespace Machine

variable {m : Machine} {symbol : MethodSymbol} {arguments : List Value} {e : EngineError}

/-- The machine with one more call nested. -/
def nested (m : Machine) : Machine := { m with depth := m.depth + 1 }

/-- **A method that is called cannot be entered**, or its host function gives an error. -/
inductive Refuses (m : Machine) (symbol : MethodSymbol) (arguments : List Value) : EngineError → Prop where
  | tooDeep : m.settings.maxCallDepth < m.depth + 1 →
      Refuses m symbol arguments (.stackOverflow m.settings.maxCallDepth)
  | miscounted : m.depth + 1 ≤ m.settings.maxCallDepth → symbol.body = none →
      arguments.length ≠ symbol.signature.arity →
      Refuses m symbol arguments (.argumentCount symbol.name symbol.signature.arity arguments.length)
  /-- The host function fails, or there is none. -/
  | native {e : EngineError} {m' : Machine} : m.depth + 1 ≤ m.settings.maxCallDepth → symbol.body = none →
      arguments.length = symbol.signature.arity →
      m.nested.callNative symbol arguments = (.error (.abort (.error e)), m') → Refuses m symbol arguments e
  /-- The analysis rejects the method, or its regions cannot be resolved. -/
  | unprepared {e : EngineError} {m' : Machine} : m.depth + 1 ≤ m.settings.maxCallDepth → symbol.body.isSome = true →
      m.nested.prepare symbol = (.error e, m') → Refuses m symbol arguments e
  /-- The arguments are too many, too few or do not fit their slots. -/
  | unframed {e : EngineError} {p : Prepared} {m' m'' : Machine} : m.depth + 1 ≤ m.settings.maxCallDepth →
      symbol.body.isSome = true → m.nested.prepare symbol = (.ok p, m') →
      m'.newFrame p arguments = (.error (.abort (.error e)), m'') → Refuses m symbol arguments e

theorem raise_eq_error {t : Trap} : (m.raise t).1 = .abort (.error e) ↔ t = .ofError e := by
  cases t with
  | abort a =>
    constructor
    · intro h
      cases h
      rfl
    · intro h
      cases h
      rfl
  | _ => exact ⟨(fun h => by cases h), fun h => by cases h⟩

/-- **A call gives an engine error exactly for these reasons.** -/
theorem enter_refuses_iff :
    (m.enter symbol arguments).1 = .ending (.error (.abort (.error e))) ↔ m.Refuses symbol arguments e := by
  constructor
  · intro h
    unfold enter deeper at h
    split at h
    · rename_i hdeep
      cases h
      exact .tooDeep hdeep
    rename_i hdeep
    have hroom := Nat.not_lt.1 hdeep
    split at h
    · rename_i hb
      split at h
      · rename_i hlen
        cases h
        exact .miscounted hroom hb hlen
      · rename_i hlen
        exact .native hroom hb (Decidable.not_not.1 hlen) (Prod.ext (Control.ending.inj h) rfl)
    · rename_i body hb
      have hsome : symbol.body.isSome = true := by rw [hb]; rfl
      dsimp only at h
      split at h
      · rename_i hp
        cases h
        exact .unprepared hroom hsome hp
      · rename_i hp
        split at h
        · rename_i hf
          cases h
          exact .unframed hroom hsome hp hf
        · cases h
  · intro h
    cases h with
    | tooDeep hdeep => rw [enter, deeper, if_pos hdeep]
    | miscounted hroom hb hlen => simp [enter, deeper, Nat.not_lt.2 hroom, hb, hlen, leaveCall]
    | native hroom hb hlen hn =>
      unfold nested at hn
      simp [enter, deeper, Nat.not_lt.2 hroom, hb, hlen, hn, leaveCall]
    | unprepared hroom hb hp =>
      obtain ⟨body, hb⟩ := Option.isSome_iff_exists.1 hb
      unfold nested at hp
      simp [enter, deeper, Nat.not_lt.2 hroom, hb, hp, leaveCall]
    | unframed hroom hb hp hf =>
      obtain ⟨body, hb⟩ := Option.isSome_iff_exists.1 hb
      unfold nested at hp
      simp [enter, deeper, Nat.not_lt.2 hroom, hb, hp, hf, leaveCall]

end Machine

namespace Execution

variable {p : Prepared} {op : Opcode} {before : Nat} {callers : List Caller} {w : Workspace} {e : EngineError}

/-- **An engine error in what follows an instruction**, or the end of a call, by what was asked for. -/
inductive Breaks (p : Prepared) (op : Opcode) (before : Nat) (e : EngineError) :
    Except Trap Next × Workspace → Prop where
  /-- The instruction itself gave the error. -/
  | failed (w : Workspace) : Breaks p op before e (.error (.ofError e), w)
  | advancing {w w' : Workspace} : (ExecM.advance p op before).run w = (.error (.ofError e), w') →
      Breaks p op before e (.ok .advance, w)
  | jumping {w w' : Workspace} {target : Nat} :
      (ExecM.jumpTo p op before target).run w = (.error (.ofError e), w') →
      Breaks p op before e (.ok (.jump target), w)
  | calling {w : Workspace} {target : MethodSymbol} {arguments : List Value} (c : Continuation) :
      w.machine.Refuses target arguments e → Breaks p op before e (.ok (.invoke target arguments c), w)
  /-- The search for a handler fails, as it does at a fault or filter region, or the handler cannot be entered. -/
  | raising {t : Trap} {g : GuestException} {w w₁ w' : Workspace} : t.raised? w = some (g, w₁) →
      (ExecM.dispatch p g).run w₁ = (.error (.ofError e), w') → Breaks p op before e (.error t, w)

theorem finish_raise_aborting_iff {t : Trap} {m : Machine} :
    (finish w callers (.error (m.raise t).1)).Aborting e ↔ t = .ofError e := by
  refine Iff.trans ?_ (m.raise_eq_error (e := e) (t := t))
  constructor
  · intro h
    exact Except.error.inj (Control.ending.inj h)
  · intro h
    exact congrArg (fun f => Control.ending (.error f)) h

theorem proceed_aborting_iff {x : ExecM Unit} :
    (proceed x w callers).Aborting e ↔ ∃ w', x.run w = (.error (.ofError e), w') := by
  unfold proceed
  rcases x.run w with ⟨t | _, w'⟩
  · refine finish_raise_aborting_iff.trans ⟨fun h => ⟨w', by rw [h]⟩, ?_⟩
    rintro ⟨_, h⟩
    cases h
    rfl
  · exact ⟨(fun h => by cases h), fun ⟨_, h⟩ => by cases h⟩

theorem throwIn_aborting_iff {g : GuestException} :
    (throwIn p g w callers).Aborting e ↔ ∃ w', (ExecM.dispatch p g).run w = (.error (.ofError e), w') := by
  unfold throwIn
  rcases (ExecM.dispatch p g).run w with ⟨t | r, w'⟩
  · refine finish_raise_aborting_iff.trans ⟨fun h => ⟨w', by rw [h]⟩, ?_⟩
    rintro ⟨_, h⟩
    cases h
    rfl
  · cases r <;> exact ⟨(fun h => by cases h), fun ⟨_, h⟩ => by cases h⟩

/-- **An engine error follows exactly for these reasons.** -/
theorem settle_aborting_iff (r : Except Trap Next × Workspace) :
    (settle p op before callers r).Aborting e ↔ Breaks p op before e r := by
  constructor
  · intro h
    obtain ⟨t | n, w⟩ := r
    · cases t with
      | abort a => cases a <;> cases h; exact .failed w
      | thrown g =>
        obtain ⟨w', h⟩ := throwIn_aborting_iff.1 h
        exact .raising rfl h
      | fault k message =>
        obtain ⟨w', h⟩ := throwIn_aborting_iff.1 h
        exact .raising rfl h
    · cases n with
      | advance =>
        obtain ⟨w', h⟩ := proceed_aborting_iff.1 h
        exact .advancing h
      | jump target =>
        obtain ⟨w', h⟩ := proceed_aborting_iff.1 h
        exact .jumping h
      | ret value => cases h
      | propagate g => cases h
      | invoke target arguments c => exact .calling c (Machine.enter_refuses_iff.1 h)
  · intro h
    cases h with
    | failed => rfl
    | advancing h => exact proceed_aborting_iff.2 ⟨_, h⟩
    | jumping h => exact proceed_aborting_iff.2 ⟨_, h⟩
    | calling c h => exact Machine.enter_refuses_iff.2 h
    | @raising t _ _ _ _ ht h =>
      cases t with
      | abort a => cases ht
      | _ => cases ht; exact throwIn_aborting_iff.2 ⟨_, h⟩

/-! ## Steps that fail -/

variable {x x₀ : Execution} {a : Activation} {c : Caller} {r : Except Trap Next × Workspace} {P : Execution → Prop}

/-- The activation whose turn it is: the one that runs, or the first that waits. -/
def turn? (x : Execution) : Option Activation :=
  match x.control, x.callers with
  | .running a, _ => some a
  | .ending _, c :: _ => some c.activation
  | .ending _, [] => none

/-- **The next step ends in the engine error `e`.** The activation whose turn it is cannot read its instruction, or
executes one and meets the error, or takes the end of a call and meets it; the call may have ended in the error. -/
inductive Fails (x : Execution) (e : EngineError) : Prop where
  | unreadable {a : Activation} : x.turn? = some a → (∀ b, x.control ≠ .ending (.error (.abort b))) →
      current ⟨x.machine, a⟩ = .error e → Fails x e
  | executing {a : Activation} {p : Prepared} {op : Opcode} {r : Except Trap Next × Workspace} :
      x.Executes a p op r → Breaks p op a.top e r → Fails x e
  | resuming {c : Caller} {p : Prepared} {op : Opcode} {r : Except Trap Next × Workspace} :
      x.Resumes c p op r → Breaks p op c.activation.top e r → Fails x e

theorem current_eq_ok (h : current w = .ok (p, op)) :
    w.machine.prepared? w.activation.method = some p ∧ p.code.opcodeAt w.activation.pc = .ok op := by
  unfold current at h
  split at h
  · cases h
  · rename_i hp
    split at h
    · rename_i ho
      cases h
      exact ⟨hp, ho⟩
    · cases h

theorem step_unreadable (ht : x.turn? = some a) (hlive : ∀ b, x.control ≠ .ending (.error (.abort b)))
    (hc : current ⟨x.machine, a⟩ = .error e) : x.step.Aborting e := by
  obtain ⟨m, control, callers⟩ := x
  cases control with
  | running a' =>
    cases ht
    show (stepInstruction _ _).Aborting e
    rw [stepInstruction, hc]
    rfl
  | ending o =>
    cases callers with
    | nil => cases ht
    | cons c callers =>
      cases ht
      show (stepReturn _ _ _ _).Aborting e
      rw [stepReturn, hc]
      dsimp only
      split
      · exact absurd rfl (hlive _)
      · rfl

theorem Fails.step (h : x.Fails e) : x.step.Aborting e := by
  cases h with
  | unreadable ht hlive hc => exact step_unreadable ht hlive hc
  | executing h hb =>
    rw [h.step_eq]
    exact (settle_aborting_iff _).2 hb
  | resuming h hb =>
    obtain ⟨rest, -, hstep⟩ := h.step_eq
    rw [hstep]
    exact (settle_aborting_iff _).2 hb

/-- **The list of errors is complete**: a run that is not given up already is so after a step that fails, and after no
other. -/
theorem step_aborting_iff (hlive : ∀ b, x.control ≠ .ending (.error (.abort b))) : x.step.Aborting e ↔ x.Fails e := by
  refine ⟨fun h => ?_, Fails.step⟩
  have unread : ∀ {a : Activation} {e' : EngineError}, x.turn? = some a → current ⟨x.machine, a⟩ = .error e' →
      x.Fails e := by
    intro a e' ht hc
    cases h.symm.trans (step_unreadable ht hlive hc)
    exact .unreadable ht hlive hc
  obtain ⟨m, control, callers⟩ := x
  cases control with
  | running a =>
    cases hc : current ⟨m, a⟩ with
    | error e' => exact unread rfl hc
    | ok q =>
      obtain ⟨hp, ho⟩ := current_eq_ok hc
      have hx : Executes ⟨m, .running a, callers⟩ a q.1 q.2 _ := ⟨rfl, hp, ho, rfl⟩
      rw [hx.step_eq] at h
      exact .executing hx ((settle_aborting_iff _).1 h)
  | ending o =>
    cases callers with
    | nil => exact absurd h (hlive _)
    | cons c callers =>
      cases hc : current ⟨m, c.activation⟩ with
      | error e' => exact unread rfl hc
      | ok q =>
        obtain ⟨hp, ho⟩ := current_eq_ok hc
        have hx : Resumes ⟨m, .ending o, c :: callers⟩ c q.1 q.2 _ := ⟨⟨o, callers, rfl, rfl, rfl⟩, hp, ho⟩
        obtain ⟨rest, -, hstep⟩ := hx.step_eq
        rw [hstep] at h
        exact .resuming hx ((settle_aborting_iff _).1 h)

/-- **A run in which a step fails ends with its error**, wherever it began. -/
theorem Fails.endsIn (hf : x.Fails e) (hx : x₀.Reaches P x) :
    ∃ m, x.step.machine.Unrolls m ∧ x₀.EndsIn (.error (.abort (.error e)), m) := by
  obtain ⟨m, hm, hend⟩ := hf.step.givenUp.endsIn
  exact ⟨m, hm, hx.endsIn.1 (endsIn_step.1 hend)⟩

/-- **What aborts an instruction ends the run**, wherever it began: a crash as well as an error. -/
theorem Executes.endsIn {b : Abort} {w : Workspace} (h : x.Executes a p op (.error (.abort b), w))
    (hx : x₀.Reaches P x) : ∃ m, x.step.machine.Unrolls m ∧ x₀.EndsIn (.error (.abort b), m) := by
  obtain ⟨m, hm, hend⟩ := (settle_givenUp p op a.top x.callers w h.step_eq.symm).1.endsIn
  exact ⟨m, hm, hx.endsIn.1 (endsIn_step.1 hend)⟩

end Execution

/-- **Engine errors are never caught.** Wherever the run of a method has come to, whatever the regions of its methods
and however deep calls are nested: if the next step fails with an engine error, no activation runs any more after it.
Each further step ends one that waits and writes to the trace; no handler is entered, no instruction executed and no
object changed. The run ends, and ends with exactly that error. -/
theorem Execution.engine_error_ends_run {m : Machine} {symbol : MethodSymbol} {arguments : List Value}
    {P : Execution → Prop} {x : Execution} {e : EngineError} (hx : (m.start symbol arguments).Reaches P x)
    (hf : x.Fails e) :
    (∀ k, (k.repeat step x.step).control = .ending (.error (.abort (.error e))) ∧
      (k.repeat step x.step).callers = x.step.callers.drop k ∧
      x.step.machine.Unrolls (k.repeat step x.step).machine) ∧
    (∃ fuel m', m.execute fuel symbol arguments = some (.error (.abort (.error e)), m') ∧
      x.step.machine.Unrolls m') ∧
    ∀ fuel o m', m.execute fuel symbol arguments = some (o, m') → o = .error (.abort (.error e)) := by
  obtain ⟨m', hm', fuel, hrun⟩ := hf.endsIn hx
  refine ⟨hf.step.givenUp.repeat, ⟨fuel, m', hrun, hm'⟩, fun fuel' o m'' h => ?_⟩
  have huniq := EndsIn.unique ⟨fuel', h⟩ ⟨fuel, hrun⟩
  exact congrArg Prod.fst huniq

/-- The core tables and a method without a body, `missing`. -/
def missingTables : Metadata := (Metadata.core.declareMethod Core.object.token "missing" {} false).2

/-- A method that calls `missing` and would catch every exception:
`call` and `leave.s`, and a handler of `pop` and `leave.s`, both to the final `ret`. -/
def callsMissing : MethodSymbol where
  handle := ⟨4⟩
  name := "callsMissing"
  declaring := Core.object
  signature := {}
  isVirtual := false
  body :=
    some {
      code := #[0x28, 3, 0, 0, 6, 0xDE, 3, 0x26, 0xDE, 0, 0x2A]
      maxStack := 1
      regions := [⟨⟨0, 7⟩, ⟨7, 3⟩, .catchType Core.object.token⟩] }

/-- The run of `callsMissing` at its start. -/
def callsMissingRun : Execution := (Machine.make missingTables none {} {}).start callsMissing []

theorem callsMissingRun_step : ∃ a, callsMissingRun.control = .running a ∧
    callsMissingRun.step.Aborting (.notImplemented (.nativeMethod "missing")) := by
  have hrun : callsMissingRun.running?.isSome = true := by decide +kernel
  have hstep : callsMissingRun.step.ending? =
      some (.error (.abort (.error (.notImplemented (.nativeMethod "missing"))))) := by decide +kernel
  obtain ⟨a, ha⟩ := Option.isSome_iff_exists.1 hrun
  exact ⟨a, Execution.running?_eq_some.1 ha, Execution.ending?_eq_some.1 hstep⟩

/-- No host function stands in for `missing`, and the handler around its call does not get to see that. -/
theorem Execution.callsMissing_ends_run : callsMissingRun.Fails (.notImplemented (.nativeMethod "missing")) ∧
    ∃ fuel m', (Machine.make missingTables none {} {}).execute fuel callsMissing [] =
      some (.error (.abort (.error (.notImplemented (.nativeMethod "missing")))), m') := by
  obtain ⟨a, hrunning, hstep⟩ := callsMissingRun_step
  have hlive : ∀ b, callsMissingRun.control ≠ .ending (.error (.abort b)) := by
    intro b hb
    cases hrunning.symm.trans hb
  have hfails := (step_aborting_iff hlive).1 hstep
  obtain ⟨-, ⟨fuel, m', hrun, -⟩, -⟩ := engine_error_ends_run (P := fun _ => True) (.refl trivial) hfails
  exact ⟨hfails, fuel, m', hrun⟩

end ManagedCode
