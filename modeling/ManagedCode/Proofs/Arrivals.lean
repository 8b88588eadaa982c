import ManagedCode.Proofs.Discipline
import ManagedCode.Proofs.Heights

/-!
# The stack where control arrives

Where control follows the code, the stack changes as the table says. It does not follow the code when an exception is
raised, when protected code is left and when a finally handler ends. `Execution.Arrives` lists where control goes then,
with what lies on the stack there: the object of the exception in a catch handler, and nothing in a finally handler or
at the target of a leave. Together with the invariant of frames this is the discipline of the stack
(`Execution.stack_discipline`): an instruction with a fixed effect leaves the top to the table.
-/

namespace ManagedCode

/-- What lies on the stack where the handler of the region starts: the exception's object, if the region catches it. -/
def Region.entryStack (r : Region) (e : GuestException) : List Value := if r.isCatch then [.object e.object] else []

theorem Region.entryStack_eq (r : Region) (e : GuestException) :
    r.entryStack e = (if r.isCatch then some e.object else none).toList.map .object := by
  unfold entryStack
  cases r.isCatch <;> rfl

/-! ## Stacks of frames -/

namespace Workspace

variable {p : Prepared} {op : Opcode} {before dest : Nat} {w w' : Workspace} {object : Option (Option Ref)}

/-- **Where control has arrived, the stack is the object**, if there is one. -/
theorem Entered.stack (h : Entered p object w w') (hl : w.activation.frame.layout = p.layout) :
    w'.activation.frame.stack w'.activation.top = object.toList.map .object := by
  have htop : w'.activation.top = p.layout.stackBase + if object.isSome then 1 else 0 := h.kept.top
  have hlayout : w'.activation.frame.layout = p.layout := h.kept.frame.layout.trans hl
  rw [Frame.stack, hlayout, htop]
  cases ho : object with
  | none =>
    rw [Array.toList_extract, List.extract_eq_take_drop]
    have hle : min (p.layout.stackBase + 0) w'.activation.frame.size - p.layout.stackBase = 0 := by omega
    exact (congrArg (fun n => List.take n _) hle).trans List.take_zero
  | some r =>
    obtain ⟨hlt, hget⟩ := Array.getElem?_eq_some_iff.1 (h.pushed r ho)
    have hsize : min (p.layout.stackBase + 1) w'.activation.frame.size = p.layout.stackBase + 1 :=
      Nat.min_eq_left hlt
    simp only [Option.isSome_some, if_true, hsize]
    rw [Array.extract_succ_right (by omega) hlt]
    simp [hget]

/-- Without a fixed effect, control goes on with the stack as it is. -/
theorem Moved.stack (h : Moved p op before dest w w') (he : op.effect = .varying) :
    w'.activation.frame.stack w'.activation.top = w.activation.frame.stack w.activation.top := by
  obtain ⟨w₁, w₂, n, heff, hn, rfl⟩ := h
  simp only [Effected, he] at heff
  subst heff
  show w₂.activation.frame.stack w₂.activation.top = _
  rw [hn.activation]

end Workspace

/-! ## Where exceptions arrive -/

/-- `r` is the first region from number `start` on that acts on an exception raised at `pc` with an object of the type
`thrown`. -/
def RegionTable.Takes (md : Metadata) (t : RegionTable) (pc start : Nat) (thrown : Option TypeHandle) (r : Region) :
    Prop :=
  ∃ i, t.findHandler md pc start thrown = .ok (some i) ∧ t.region? i = some r

/-- An exception that does not leave the activation goes to the region that takes it. -/
theorem Unwinding.dispatch_takes {md : Metadata} {t : RegionTable} {u u' : Unwinding} {e : GuestException}
    {thrown : Option TypeHandle} {pc start dest : Nat} {object : Option (Option Ref)}
    (h : u.dispatch md t e thrown pc start = (.ok (.resume dest object), u')) :
    ∃ r, t.Takes md pc start thrown r ∧ dest = r.handler.start ∧ object.toList.map .object = r.entryStack e := by
  unfold dispatch at h
  split at h
  · cases h
  · cases h
  · rename_i i hf
    cases hr : t.region? i with
    | none =>
      simp only [hr] at h
      cases h
    | some r =>
      simp only [hr] at h
      cases h
      exact ⟨r, ⟨i, hf, hr⟩, rfl, (r.entryStack_eq e).symm⟩

/-- A leave that goes on brings no object. -/
theorem Unwinding.endLeave_object {t : RegionTable} {u u' : Unwinding} {pc dest : Nat} {object : Option (Option Ref)}
    (h : u.endLeave t pc = (.ok (.resume dest object), u')) : object = none := by
  unfold endLeave at h
  split at h
  · cases h
  · split at h
    · cases h; rfl
    · dsimp only at h
      split at h
      · cases h
      · cases h; rfl

namespace Execution

variable {x y : Execution} {a b : Activation} {c : Caller} {p : Prepared} {op : Opcode} {before dest : Nat}
  {callers : List Caller} {n : Next} {t : Trap} {w : Workspace} {r : Except Trap Next × Workspace}

/-- The step raises `t`: an instruction traps, or the end of a call does. -/
def Raises (x : Execution) (p : Prepared) (t : Trap) (w : Workspace) : Prop :=
  (∃ a op, x.Executes a p op (.error t, w)) ∨ ∃ c op, x.Resumes c p op (.error t, w)

/-- **The step does not follow the code**: it raises an exception, leaves protected code or ends a finally handler. -/
inductive Unwinds (x : Execution) : Prop where
  | raises {p : Prepared} {t : Trap} {w : Workspace} : x.Raises p t w → Unwinds x
  | leaves {a : Activation} {p : Prepared} {op : Opcode} {r : Except Trap Next × Workspace} : x.Executes a p op r →
      op.action = .leave → Unwinds x
  | ends {a : Activation} {p : Prepared} {op : Opcode} {r : Except Trap Next × Workspace} : x.Executes a p op r →
      op.action = .endFinally → Unwinds x

/-- **Where control arrives that does not follow the code, and with what on its stack.** -/
inductive Arrives (x : Execution) : Nat → List Value → Prop where
  /-- An exception is raised, and a region takes it. -/
  | raised {p : Prepared} {t : Trap} {w w₁ : Workspace} {e : GuestException} {r : Region} : x.Raises p t w →
      t.raised? w = some (e, w₁) → p.regions.Takes w₁.machine.metadata w₁.activation.pc 0
        (w₁.machine.heap.typeOf? e.object) r → Arrives x r.handler.start (r.entryStack e)
  /-- The finally handler that ends was entered by an exception, and another region takes it. -/
  | raisedAgain {a : Activation} {p : Prepared} {op : Opcode} {result : Except Trap Next × Workspace} {r : Region}
      {pending : PendingException} {others : List PendingException} : x.Executes a p op result →
      op.action = .endFinally → a.unwinding.reraises p.regions a.pc = true →
      a.unwinding.pending = pending :: others →
      p.regions.Takes x.machine.metadata pending.raisedAt (pending.region + 1) pending.thrown r →
      Arrives x r.handler.start (r.entryStack pending.exception)
  /-- A leave goes to the first finally handler on its way, or to its target. -/
  | left {a : Activation} {p : Prepared} {op : Opcode} {result : Except Trap Next × Workspace} {target : Nat} :
      x.Executes a p op result → op.action = .leave → p.code.branchTarget a.pc = .ok target →
      Arrives x (a.unwinding.leave p.regions a.pc target).1 []
  /-- The finally handler that ends was entered by a leave, which goes to the next handler or to its target. -/
  | finished {a : Activation} {p : Prepared} {op : Opcode} {result : Except Trap Next × Workspace} {dest : Nat}
      {u : Unwinding} : x.Executes a p op result → op.action = .endFinally →
      a.unwinding.reraises p.regions a.pc = false →
      a.unwinding.endLeave p.regions a.pc = (.ok (.resume dest none), u) → Arrives x dest []

/-- Control that goes on after an exception is in the handler of the region that took it. -/
theorem Settles.raised (h : Settles p op before callers (.error t, w) y) (hb : y.control = .running b)
    (hw : t.isAbort = true ∨ w.activation.Disciplined p w.activation.top) : ∃ e w₁ r, t.raised? w = some (e, w₁) ∧
      p.regions.Takes w₁.machine.metadata w₁.activation.pc 0 (w₁.machine.heap.typeOf? e.object) r ∧
      b.pc = r.handler.start ∧ b.frame.stack b.top = r.entryStack e := by
  cases h with
  | ended _ _ => cases hb
  | @caught _ e _ w₁ w₂ dest object u ht hd hent =>
    cases hb
    obtain ⟨hab, -, hact⟩ := Trap.raised?_some ht
    obtain ⟨r, htakes, rfl, hstack⟩ := Unwinding.dispatch_takes hd
    have hlayout : w₁.activation.frame.layout = p.layout := by
      rw [hact]
      exact (hw.resolve_left (by rw [hab]; exact Bool.false_ne_true)).layout
    exact ⟨e, w₁, r, ht, htakes, rfl, (hent.stack hlayout).trans hstack⟩

/-- Without a fixed effect, a jump takes the stack along. -/
theorem Settles.jumped (h : Settles p op before callers (.ok (.jump dest), w) y) (hb : y.control = .running b)
    (he : op.effect = .varying) : b.pc = dest ∧ b.frame.stack b.top = w.activation.frame.stack w.activation.top := by
  cases h with
  | ended _ _ => cases hb
  | moved hgo hm =>
    cases hb
    rcases hgo with ⟨hn, -⟩ | hn
    · cases hn
    · cases hn
      exact ⟨hm.goes.2.2.1, hm.stack he⟩

theorem Raises.arrives (h : x.Raises p t w) (hx : x.Disciplined) (hb : x.step.control = .running b) :
    x.Arrives b.pc (b.frame.stack b.top) := by
  have main : (∃ e w₁ r, t.raised? w = some (e, w₁) ∧
      p.regions.Takes w₁.machine.metadata w₁.activation.pc 0 (w₁.machine.heap.typeOf? e.object) r ∧
      b.pc = r.handler.start ∧ b.frame.stack b.top = r.entryStack e) := by
    rcases h with ⟨a, op, h⟩ | ⟨c, op, h⟩
    · obtain ⟨w₀, -, -, hbehaves⟩ := h.behaves hx
      exact h.settles.raised hb (hbehaves.raises t rfl)
    · obtain ⟨rest, -, hset⟩ := h.settles
      exact hset.raised hb ((h.behaves hx).raises t rfl)
  obtain ⟨e, w₁, r, ht, htakes, hpc, hstack⟩ := main
  rw [hpc, hstack]
  exact .raised h ht htakes

/-- An instruction that enters a handler, or the target of a leave, leaves the object alone on the stack. -/
theorem Executes.entered (h : x.Executes a p op r) (hx : x.Disciplined) {object : Option (Option Ref)} {u : Unwinding}
    (hent : Workspace.Entered p object ((announced ⟨x.machine, a⟩ op).withUnwinding u) w) :
    w.activation.frame.stack w.activation.top = object.toList.map .object := by
  obtain ⟨q, hq, hd⟩ := hx.running a h.control
  cases h.prepared.symm.trans hq
  have hact : (announced ⟨x.machine, a⟩ op).activation = a := (announced_noted ⟨x.machine, a⟩ op).activation
  refine hent.stack ?_
  show (announced ⟨x.machine, a⟩ op).activation.frame.layout = p.layout
  rw [hact]
  exact hd.layout

theorem Executes.arrives_leave (h : x.Executes a p op r) (hact : op.action = .leave) (hx : x.Disciplined)
    (hb : x.step.control = .running b) : x.Arrives b.pc (b.frame.stack b.top) := by
  rcases r with ⟨t | n, w⟩
  · exact Raises.arrives (.inl ⟨a, op, h⟩) hx hb
  · have hactivation : (announced ⟨x.machine, a⟩ op).activation = a := (announced_noted ⟨x.machine, a⟩ op).activation
    have hresult := h.result
    simp only [ExecM.instruction, hact] at hresult
    obtain ⟨target, dest, u, ht, hu, rfl, hent⟩ := ExecM.leave_enters.of_ok hresult
    rw [hactivation] at hu
    obtain ⟨hpc, hstack⟩ := h.settles.jumped hb (op.effect_leave hact)
    have hempty : w.activation.frame.stack w.activation.top = [] := h.entered hx hent
    have hdest : dest = (a.unwinding.leave p.regions a.pc target).1 := by rw [hu]
    rw [hpc, hstack, hempty, hdest]
    exact .left h hact ht

theorem Executes.arrives_endFinally (h : x.Executes a p op r) (hact : op.action = .endFinally) (hx : x.Disciplined)
    (hb : x.step.control = .running b) : x.Arrives b.pc (b.frame.stack b.top) := by
  rcases r with ⟨t | n, w⟩
  · exact Raises.arrives (.inl ⟨a, op, h⟩) hx hb
  · have hnoted := announced_noted ⟨x.machine, a⟩ op
    have hactivation : (announced ⟨x.machine, a⟩ op).activation = a := hnoted.activation
    have hmetadata : (announced ⟨x.machine, a⟩ op).machine.metadata = x.machine.metadata := hnoted.samePrograms.metadata
    have hresult := h.result
    have hset := h.settles
    simp only [ExecM.instruction, hact] at hresult
    obtain ⟨u, ⟨dest, object, hu, rfl, hent⟩ | ⟨e, rfl, -⟩⟩ := ExecM.endFinally_meets.of_ok hresult
    · rw [hactivation, hmetadata] at hu
      obtain ⟨hpc, hstack⟩ := hset.jumped hb (op.effect_endFinally hact)
      rw [hpc, hstack, h.entered hx hent]
      cases hr : a.unwinding.reraises p.regions a.pc with
      | true =>
        obtain ⟨pending, others, hpending, -, heq⟩ := Unwinding.endFinally_reraises x.machine.metadata hr
        rw [heq] at hu
        obtain ⟨r, htakes, rfl, hentry⟩ := Unwinding.dispatch_takes hu
        rw [hentry]
        exact .raisedAgain h hact hr hpending htakes
      | false =>
        rw [Unwinding.endFinally_endLeave hr] at hu
        obtain rfl := Unwinding.endLeave_object hu
        exact .finished h hact hr hu
    · generalize x.step = y at hset hb
      cases hset with
      | ended _ _ => cases hb
      | moved hgo _ => rcases hgo with ⟨hn, -⟩ | hn <;> cases hn

/-- **Control that does not follow the code arrives as listed.** -/
theorem Unwinds.arrives (h : x.Unwinds) (hx : x.Disciplined) (hb : x.step.control = .running b) :
    x.Arrives b.pc (b.frame.stack b.top) := by
  cases h with
  | raises h => exact h.arrives hx hb
  | leaves h hact => exact h.arrives_leave hact hx hb
  | ends h hact => exact h.arrives_endFinally hact hx hb

end Execution

/-! ## The top of the stack -/

namespace ExecM

variable {p : Prepared} {op : Opcode} {pc before : Nat} {w : Workspace}

/-- **An instruction with a fixed effect leaves the top alone**, also when it traps. -/
theorem instruction_top (hp : p.Framed) (he : op.effect ≠ .varying) :
    ((instruction p pc op).run w).2.activation.top = w.activation.top := by
  have hplain : op.action.isTransfer = false := by
    cases ht : op.action.isTransfer with
    | false => rfl
    | true => exact absurd (op.effect_transfer ht) he
  have hx := instruction_wrote hp pc w hplain
  rcases hr : (instruction p pc op).run w with ⟨t | n, w'⟩
  · rw [(hx.of_error hr).activation]
  · obtain ⟨-, hwrote, -⟩ := hx.of_ok hr
    rw [hwrote.same]

/-- Applying the effect of `op` reports that the top of the stack was moved. -/
def ReportsMove (p : Prepared) (op : Opcode) (before : Nat) (w : Workspace) : Prop :=
  ∃ pc op' w', (applyEffect p op before).run w = (.error (.ofError (.invalidState pc (.movedTop op'))), w')

theorem not_reportsMove (h : op.effect = .varying ∨ w.activation.top = before) : ¬ ReportsMove p op before w := by
  have hx : Meets (applyEffect p op before) w (fun _ _ => True)
      fun t _ => ∀ pc op', t ≠ .ofError (.invalidState pc (.movedTop op')) := by
    unfold applyEffect
    cases he : op.effect with
    | varying => exact trivial
    | fixed pops pushes =>
      have htop : w.activation.top = before := h.resolve_left (by rw [he]; nofun)
      refine activation_bind ?_
      simp only [htop, ne_eq, not_true_eq_false, if_false]
      split
      · exact fun _ _ ht => by cases ht
      · split
        · exact fun _ _ ht => by cases ht
        · exact trivial
  rintro ⟨pc, op', w', hr⟩
  exact hx.of_error hr pc op' rfl

end ExecM

namespace Execution

variable {x : Execution} {a : Activation} {c : Caller} {p : Prepared} {op : Opcode} {r : Except Trap Next × Workspace}

theorem Executes.top (h : x.Executes a p op r) (hx : x.Disciplined) (he : op.effect ≠ .varying) :
    r.2.activation.top = a.top := by
  have hact : (announced ⟨x.machine, a⟩ op).activation = a := (announced_noted ⟨x.machine, a⟩ op).activation
  rw [← h.result, ExecM.instruction_top (hx.framed _ p h.prepared) he, hact]

/-- Where a call comes back to, there is a call, which has no fixed effect. -/
theorem Resumes.effect (h : x.Resumes c p op r) (hx : x.Inside) : op.effect = .varying := by
  obtain ⟨o, rest, -, hcallers, -⟩ := h.control
  obtain ⟨q, hin⟩ := hx.waiting c (hcallers ▸ List.mem_cons_self)
  cases h.prepared.symm.trans hin.activation.prepared
  obtain ⟨site, target, hsite, -⟩ := hin.site
  exact effect_of_site (hx.sound _ p h.prepared) hsite h.opcode

end Execution

/-- **The discipline of the evaluation stack.** Whatever the host did with the machine before, and wherever a run of a
method has come to:
* the stack of the activation that runs lies between the locals and the end of the frame, which has the slots of the
  layout, and every slot above the stack is null;
* where control does not follow the code, it arrives as listed: in a catch handler with the exception's object alone
  on the stack, and in a finally handler or at the target of a leave with nothing on it;
* an instruction with a fixed effect leaves the top alone, also when it traps;
* so applying the effect never reports that the top was moved, neither after an instruction nor, as long as code can be
  addressed, after the end of a call. -/
theorem Execution.stack_discipline {m : Machine} (hm : m.Reached) (symbol : MethodSymbol) (arguments : List Value)
    {P : Execution → Prop} {x : Execution} (hx : (m.start symbol arguments).Reaches P x) :
    (∀ a, x.control = .running a → ∃ p, x.machine.prepared? a.method = some p ∧ p.layout.stackBase ≤ a.top ∧
      a.top ≤ a.frame.size ∧ a.frame.size = p.layout.total ∧
      ∀ i, a.top ≤ i → i < a.frame.size → a.frame.slots[i]? = some .null) ∧
    (x.Unwinds → ∀ b, x.step.control = .running b → x.Arrives b.pc (b.frame.stack b.top)) ∧
    (∀ a p op r, x.Executes a p op r → op.effect ≠ .varying → r.2.activation.top = a.top) ∧
    (∀ a p op n w, x.Executes a p op (.ok n, w) → ¬ ExecM.ReportsMove p op a.top w) ∧
    ((∀ y, P y → y.Addressable) → ∀ c p op n w, x.Resumes c p op (.ok n, w) →
      ¬ ExecM.ReportsMove p op c.activation.top w) := by
  have hd := hx.disciplined (disciplined_start hm.sound.framed symbol arguments)
  refine ⟨fun a ha => ?_, fun hu b hb => hu.arrives hd hb, fun a p op r h he => h.top hd he, fun a p op n w h => ?_,
    fun hP c p op n w h => ?_⟩
  · obtain ⟨p, hp, hact⟩ := hd.running a ha
    refine ⟨p, hp, hact.low, by rw [hact.size]; exact hact.high, hact.size, fun i hi hlt => ?_⟩
    have hget := Array.getElem?_eq_getElem hlt
    rw [hget, hact.above i _ hi hget]
  · refine ExecM.not_reportsMove ?_
    by_cases he : op.effect = .varying
    · exact .inl he
    · exact .inr (h.top hd he)
  · have hin := ((hx.mono hP).inside ((Machine.Begins.start symbol arguments).inside hm.sound)).1
    exact ExecM.not_reportsMove (.inl (h.effect hin))

/-- A method that throws a fresh object from above another operand and catches it:
`ldc.i4.0`, `newobj`, `throw`, and a handler of `pop` and `leave.s` to the final `ret`. -/
def throwsAbove : MethodSymbol where
  handle := ⟨3⟩
  name := "throwsAbove"
  declaring := Core.object
  signature := {}
  isVirtual := false
  body :=
    some {
      code := #[0x16, 0x73, 1, 0, 0, 6, 0x7A, 0x26, 0xDE, 0, 0x2A]
      maxStack := 2
      regions := [⟨⟨0, 7⟩, ⟨7, 3⟩, .catchType Core.object.token⟩] }

/-- The run of `throwsAbove` on the core tables, after a number of steps. -/
def throwsAboveRun (steps : Nat) : Execution :=
  steps.repeat Execution.step ((Machine.make .core none {} {}).start throwsAbove [])

theorem throwsAboveRun_reaches (steps : Nat) :
    ((Machine.make .core none {} {}).start throwsAbove []).Reaches (fun _ => True) (throwsAboveRun steps) :=
  .repeat steps fun _ _ => trivial

theorem throwsAboveRun_step (steps : Nat) : (throwsAboveRun steps).step = throwsAboveRun (steps + 1) := rfl

/-- The throw finds two operands on the stack. -/
theorem throwsAboveRun_unwinds : (throwsAboveRun 3).Unwinds := by
  have hrun : (throwsAboveRun 3).running?.bind (fun a =>
      ((throwsAboveRun 3).machine.prepared? a.method).map fun p => (a.top, p.code.opcodeAt a.pc,
        ((ExecM.instruction p a.pc .throw).run
          (Execution.announced ⟨(throwsAboveRun 3).machine, a⟩ .throw)).1.isOk)) =
      some (2, .ok .throw, false) := by decide +kernel
  obtain ⟨a, ha, hrun⟩ := Option.bind_eq_some_iff.1 hrun
  obtain ⟨p, hp, hrun⟩ := Option.map_eq_some_iff.1 hrun
  simp only [Prod.mk.injEq] at hrun
  obtain ⟨-, hopcode, hresult⟩ := hrun
  generalize hr : (ExecM.instruction p a.pc .throw).run _ = r at hresult
  obtain ⟨t | n, w⟩ := r
  · exact .raises (.inl ⟨a, .throw, Execution.running?_eq_some.1 ha, hp, hopcode, hr⟩)
  · cases hresult

/-- In the handler the object is alone on the stack, and the slot of the other operand is null. -/
theorem Execution.throwsAbove_keeps_discipline : ∃ b, (throwsAboveRun 4).control = .running b ∧ b.pc = 7 ∧
    (throwsAboveRun 3).Arrives 7 [.object (some ⟨0⟩)] ∧ b.frame.slots[1]? = some .null := by
  have hrun : (throwsAboveRun 4).running?.map (fun b => (b.pc, b.top, b.frame.size, b.frame.stack b.top)) =
      some (7, 1, 2, [.object (some ⟨0⟩)]) := by decide +kernel
  obtain ⟨b, hb, hrun⟩ := Option.map_eq_some_iff.1 hrun
  simp only [Prod.mk.injEq] at hrun
  obtain ⟨hpc, htop, hsize, hstack⟩ := hrun
  have hcontrol := Execution.running?_eq_some.1 hb
  have harrives := (Execution.stack_discipline (.fresh rfl) throwsAbove [] (throwsAboveRun_reaches 3)).2.1
    throwsAboveRun_unwinds b (by rw [throwsAboveRun_step]; exact hcontrol)
  rw [hpc, hstack] at harrives
  obtain ⟨p, -, -, -, -, hnull⟩ :=
    (Execution.stack_discipline (.fresh rfl) throwsAbove [] (throwsAboveRun_reaches 4)).1 b hcontrol
  exact ⟨b, hcontrol, hpc, harrives, hnull 1 (by omega) (by omega)⟩

end ManagedCode
