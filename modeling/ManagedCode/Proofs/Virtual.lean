import ManagedCode.Proofs.Arrivals
import ManagedCode.Proofs.Definitions
import ManagedCode.Proofs.Passing
import ManagedCode.Proofs.Resuming

/-!
# What a virtual call leaves on the stack

A virtual call takes its arguments by the signature of the method that it names, and the analysis counts its result by
that signature too. The method that is entered is the one that the receiver selects (`Machine.Dispatches`), and the
result is pushed by the signature of that one. So the call changes the height of the stack as the analysis counted it
exactly if the two methods agree on having a result (`Execution.virtual_call_moves_top`).
-/

namespace ManagedCode

/-- How many values a call of a method pushes. -/
def Signature.results (s : Signature) : Nat := if s.result.isSome then 1 else 0

theorem Signature.results_inj {s s' : Signature} : s.results = s'.results ↔ s.result.isSome = s'.result.isSome := by
  unfold results
  cases s.result.isSome <;> cases s'.result.isSome <;> decide

/-! ## The method that a receiver selects -/

/-- **The method that a virtual call enters**: the implementation for the type of the receiver, if there is a receiver
of a known type and the named method is virtual, and otherwise the named method, which may have another body by now. -/
inductive Machine.Dispatches (m : Machine) (declared : MethodSymbol) : List Value → MethodSymbol → Prop where
  | implementation {r : Ref} {type : TypeHandle} {target : MethodSymbol} {rest : List Value} :
      declared.isVirtual = true → m.heap.typeOf? (some r) = some type →
      m.metadata.resolveVirtual declared type = .ok target → Dispatches m declared (.object (some r) :: rest) target
  | named {arguments : List Value} (body : Option Body) :
      (∀ r rest, arguments = .object (some r) :: rest →
        declared.isVirtual = false ∨ m.heap.typeOf? (some r) = none) →
      Dispatches m declared arguments { declared with body }

namespace Machine.Dispatches

variable {m m' : Machine} {declared target : MethodSymbol} {arguments : List Value}

theorem congr (h : m.Dispatches declared arguments target) (hheap : m'.heap = m.heap)
    (hmetadata : m'.metadata = m.metadata) : m'.Dispatches declared arguments target := by
  cases h with
  | implementation hvirtual htype htarget =>
    exact .implementation hvirtual (by rw [hheap]; exact htype) (by rw [hmetadata]; exact htarget)
  | named body hno => exact .named body (by rw [hheap]; exact hno)

/-- Only the name of the method counts, not its body. -/
theorem of_body {body : Option Body} (h : m.Dispatches { declared with body } arguments target) :
    m.Dispatches declared arguments target := by
  cases h with
  | implementation hvirtual htype htarget => exact .implementation hvirtual htype htarget
  | named body hno => exact .named body hno

end Machine.Dispatches

namespace ExecM

variable {p : Prepared} {w : Workspace}

theorem virtualTarget_dispatches (m : MethodSymbol) (arguments : List Value) : Meets (virtualTarget m arguments) w
    (fun target _ => w.machine.Dispatches m arguments target) fun _ _ => True := by
  unfold virtualTarget
  split
  · trivial
  · rename_i r rest
    refine Meets.bind (Q := fun m' w' => w' = w ∧ m' = w.machine) ⟨rfl, rfl⟩ ?_
    rintro _ w ⟨rfl, rfl⟩
    split
    · rename_i type hvirtual htype
      refine metadata_bind ?_
      cases hr : w.machine.metadata.resolveVirtual m type with
      | ok target => exact .implementation hvirtual htype hr
      | error a => trivial
    · rename_i hno
      refine .named m.body fun r' rest' h => ?_
      cases h
      cases hvirtual : m.isVirtual with
      | false => exact .inl rfl
      | true =>
        cases htype : w.machine.heap.typeOf? (some r) with
        | none => exact .inr rfl
        | some type => exact absurd htype (hno type hvirtual)
  · rename_i hno
    exact .named m.body fun r rest h => absurd h (hno r rest)

/-- A virtual call asks for the method that the receiver selects. -/
theorem invoke_dispatches (m : MethodSymbol) : Meets (invoke p (.callvirt m)) w
    (fun n _ => ∃ target arguments, n = .invoke target arguments (.pushResult target) ∧
      w.machine.Dispatches m arguments target) fun _ _ => True := by
  unfold invoke
  refine Meets.bind (Q := fun _ w' => w'.machine.heap = w.machine.heap ∧ w'.machine.metadata = w.machine.metadata)
    ⟨rfl, rfl⟩ ?_
  rintro _ w₁ ⟨hheap, hmetadata⟩
  refine Meets.bind (Q := fun _ w₂ => w₂.machine = w₁.machine) ?_ ?_
  · refine (popArguments_meets m.signature.arity).mono ?_ fun _ _ _ => trivial
    rintro arguments _ ⟨-, -, -, rfl⟩
    rfl
  · intro arguments w₂ hw₂
    refine Meets.bind (virtualTarget_dispatches m arguments) fun target _ h => ?_
    exact ⟨target, arguments, rfl, h.congr (by rw [hw₂, hheap]) (by rw [hw₂, hmetadata])⟩

end ExecM

namespace Prepared

variable {md : Metadata} {p : Prepared} {pc : Nat} {op : Opcode} {declared : MethodSymbol} {site : CallSite}

/-- The site of a virtual call, by the token of its instruction. -/
theorem HasSite.of_callvirt {t : Token} (hr : p.analysis.isReachable pc = true)
    (hop : p.declared.opcodeAt pc = .ok .callvirt) (ht : p.declared.token pc = .ok t)
    (hm : md.resolveMethod t = .ok declared) : p.HasSite md pc (.callvirt declared) where
  reachable := hr
  opcode := ⟨.callvirt, hop, rfl⟩
  names := ⟨t, ht, ⟨declared.body, hm⟩, fun _ _ h => by cases h⟩

/-- The site of a virtual call is one, whatever body its method had when it was resolved. -/
theorem HasSite.eq_callvirt (h : p.HasSite md pc (.callvirt declared)) (h' : p.HasSite md pc site) :
    ∃ body, site = .callvirt { declared with body } := by
  obtain ⟨hkind, -⟩ := h.same h'
  obtain ⟨t, ht, hn⟩ := h.names
  obtain ⟨t', ht', hn'⟩ := h'.names
  cases ht.symm.trans ht'
  obtain ⟨b, hm⟩ := hn.method
  obtain ⟨b', hm'⟩ := hn'.method
  have hmethod := Except.ok.inj (hm'.symm.trans hm)
  cases site with
  | callvirt m =>
    refine ⟨m.body, congrArg _ ?_⟩
    exact congrArg (fun s : MethodSymbol => { s with body := m.body }) hmethod
  | call m => cases hkind
  | newobj m type => cases hkind
  | jmp m => cases hkind

/-- **The analysis counts the result of a virtual call by the method that it names.** -/
theorem HasSite.analyzed (h : p.HasSite md pc (.callvirt declared)) {st after : List StackType}
    {types : Option OperandTypes} {successors : List Analysis.Successor}
    (ht : ((p.context md).transfer pc .callvirt).run st = .ok ((types, successors), after)) :
    after.length + declared.signature.arity = st.length + declared.signature.results := by
  obtain ⟨next, effect, -, hact, -⟩ := Analysis.Context.transfer_ok ht
  obtain ⟨op, hop, hchange⟩ := h.change nofun
  obtain ⟨op', hop', hact'⟩ := h.opcode
  cases hop.symm.trans hop'
  have hcallvirt : op = .callvirt := by
    cases op <;> first | rfl | cases hact'
  subst hcallvirt
  rcases Analysis.Context.act_varying hact rfl with ⟨hends, -⟩ | ⟨-, d, hd, hlen⟩
  · cases hends
  · cases hd.symm.trans hchange
    have hpushes : (CallSite.callvirt declared).pushes = declared.signature.results := rfl
    have hpops : (CallSite.callvirt declared).pops = declared.signature.arity := rfl
    rw [hpushes, hpops] at hlen
    omega

end Prepared

namespace ExecM

variable {p : Prepared} {w : Workspace} {md : Metadata} {pc : Nat} {op : Opcode} {declared : MethodSymbol}

/-- **The instruction of a virtual call asks for the method that the receiver selects**, whether it was resolved before
or not. -/
theorem instruction_dispatches (hs : p.Sound md) (hmd : w.machine.metadata = md) (hsize : p.declared.size ≤ 2 ^ 32)
    (hsite : p.HasSite md pc (.callvirt declared)) (hop : p.code.opcodeAt pc = .ok op) :
    Meets (instruction p pc op) w (fun n _ => ∃ target arguments, n = .invoke target arguments (.pushResult target) ∧
      w.machine.Dispatches declared arguments target) fun _ _ => True := by
  obtain ⟨op₀, next, hd⟩ := hs.declares hsite.reachable
  obtain ⟨op₁, hop₁, hact⟩ := hsite.opcode
  cases hd.opcode.symm.trans hop₁
  rcases hs.reads hsite.reachable hd with ha | ⟨i, site, hi, hhas, hc⟩
  · -- the bytes are the declared ones, so the site is resolved
    cases hop.symm.trans (Code.opcodeAt_agree hd.opcode ha (Code.nextOffset_bounds hd.next hd.opcode).1)
    have hinstruction : instruction p pc op = callSite p pc .callvirt := by rw [instruction, hact]; rfl
    obtain ⟨t, ht, hn⟩ := hsite.names
    obtain ⟨b, hm⟩ := hn.method
    rw [← Code.token_agree hd.next ha hd.opcode (op.size?_of_width? (by rw [hact]; rfl))] at ht
    have hresolved : CallSite.ofToken w.machine.metadata .callvirt t = .ok (.callvirt { declared with body := b }) := by
      rw [hmd, CallSite.ofToken, hm]
      rfl
    have hrun := callSite_run (hd.reads ha) (hd.next_callSite hact) ht .callvirt w
    rw [hresolved] at hrun
    unfold Meets
    rw [hinstruction, hrun]
    refine (invoke_dispatches _).mono ?_ fun _ _ h => h
    rintro n - ⟨target, arguments, rfl, h⟩
    exact ⟨target, arguments, rfl, h.of_body.congr rfl rfl⟩
  · -- the bytes are a cached call of the site
    cases hop.symm.trans hc.opcode
    obtain ⟨body, rfl⟩ := hsite.eq_callvirt hhas
    have hlt : i < 2 ^ 32 := Nat.lt_of_lt_of_le (Array.getElem?_eq_some_iff.1 hi).1 (Nat.le_trans hs.size_le hsize)
    show Meets (cachedCall p pc) w _ _
    unfold cachedCall
    rw [hc.operand, Nat.mod_eq_of_lt hlt]
    refine ofEngine_ok ?_
    simp only [hi]
    refine (invoke_dispatches _).mono ?_ fun _ _ h => h
    rintro n - ⟨target, arguments, rfl, h⟩
    exact ⟨target, arguments, rfl, h.of_body⟩

end ExecM

/-! ## The call and its end -/

namespace Execution

variable {x y : Execution} {a b : Activation} {c : Caller} {p : Prepared} {op : Opcode} {before : Nat}
  {callers : List Caller} {r : Except Trap Next × Workspace} {declared target : MethodSymbol} {value : Option Value}

/-- An activation waits after a call only. -/
theorem Settles.called_of_callers (h : Settles p op before callers r y) (hc : y.callers = c :: callers) :
    ∃ target arguments k w, r = (.ok (.invoke target arguments k), w) ∧ c = ⟨w.activation, k⟩ ∧
      y = (w.machine.start target arguments).above (c :: callers) := by
  cases h with
  | called target arguments k w =>
    obtain rfl := (List.cons.inj hc).1
    exact ⟨target, arguments, k, w, rfl, rfl, rfl⟩
  | moved => exact absurd hc (List.cons_ne_self c callers).symm
  | caught => exact absurd hc (List.cons_ne_self c callers).symm
  | ended => exact absurd hc (List.cons_ne_self c callers).symm

/-- **A virtual call** takes its arguments by the signature of the method that it names, and runs the method that the
receiver selects. -/
theorem calls_selected (hin : x.Inside) (hn : x.Addressable) (ha : x.control = .running a)
    (hp : x.machine.prepared? a.method = some p) (hsite : p.HasSite x.machine.metadata a.pc (.callvirt declared))
    (hc : x.step.callers = c :: x.callers) : ∃ m target arguments, x.machine.Dispatches declared arguments target ∧
      x.step = (Machine.start m target arguments).above (c :: x.callers) ∧ c.continuation = .pushResult target ∧
      c.activation.method = a.method ∧ c.activation.pc = a.pc ∧
      c.activation.top + declared.signature.arity = a.top := by
  obtain ⟨q, op, next, w, rfl, hx⟩ := hin.executing hn ha
  cases hp.symm.trans ((hx.samePrograms.prepared? _).symm.trans hx.inside.prepared)
  have hmd : w.machine.metadata = x.machine.metadata := hx.samePrograms.metadata
  have hran := hx.ran
  have hdispatches := ExecM.instruction_dispatches (w := w) (hin.sound _ p hp) hmd (hn _ p hp) hsite hx.opcode
  obtain ⟨target, arguments, k, w', hr, rfl, hstep⟩ := hx.settles.called_of_callers hc
  rw [hr] at hran
  obtain ⟨target', arguments', hinvoke, hselects⟩ := hdispatches.of_ok hr
  cases hinvoke
  refine ⟨w'.machine, target, arguments, ?_, hstep, rfl, ?_⟩
  · refine hselects.congr ?_ hmd.symm
    rw [hx.noted.machine]
  · obtain ⟨-, -, hmethod, hpc⟩ := hran.keeps
    obtain ⟨site, w₁, hhas, -, -, hheight, hk⟩ := hran.of_invoke
    rw [hmd] at hhas
    obtain ⟨body, rfl⟩ := hsite.eq_callvirt hhas
    have hpops : (CallSite.callvirt { declared with body }).pops = declared.signature.arity := rfl
    have htop : w'.activation.top = w.activation.top - (CallSite.callvirt { declared with body }).pops := hk.top
    rw [hpops] at htop hheight
    refine ⟨hmethod, hpc, ?_⟩
    show w'.activation.top + _ = _
    omega

/-- **The end of a call** pushes its result by the signature of the method that was entered, and goes on behind the
call. -/
theorem returns_pushing (hin : y.Inside) (hcallers : y.callers = c :: callers)
    (hc : c.continuation = .pushResult target) (hend : y.control = .ending (.ok value))
    (hb : y.step.control = .running b) :
    ∃ p, y.machine.prepared? c.activation.method = some p ∧ p.declared.nextOffset c.activation.pc = .ok b.pc ∧
      b.method = c.activation.method ∧ b.top = c.activation.top + target.signature.results := by
  obtain ⟨p, op, r, hx⟩ := hin.returning hend hcallers
  have hp := hx.inside
  have hsound := hin.sound _ p hp.activation.prepared
  obtain ⟨site, target', hsite, hent⟩ := hp.site
  have hvarying := effect_of_site hsound hsite hx.opcode
  obtain ⟨op₀, next, hd⟩ := hsound.declares hp.activation.reachable
  obtain ⟨op₁, hreads⟩ := hsound.readable hp.activation.reachable hd
  have hset := hx.settles
  have hhanded := hx.handed
  generalize y.step = z at hset hb
  refine ⟨p, hp.activation.prepared, ?_⟩
  cases hset with
  | ended => cases hb
  | called => cases hhanded
  | caught ht =>
    cases hhanded with
    | refused ha => rw [(Trap.raised?_some ht).1] at ha; cases ha
  | @moved n dest w₁ w₂ hgo hm =>
    cases hb
    obtain ⟨-, hmethod₁, -, -⟩ := hhanded.keeps
    obtain ⟨rfl, -, -, hnext⟩ := hhanded.goes hgo
    rw [hc] at hhanded
    obtain ⟨-, htop⟩ := hhanded.top (.call target) rfl fun _ _ h => by cases h
    obtain ⟨-, hmethod, hpc, -⟩ := hm.goes
    refine ⟨?_, hmethod.trans hmethod₁, (hm.top_varying hvarying).trans htop⟩
    rw [hd.next, hpc, ← Except.ok.inj (hnext.symm.trans hreads.next)]

/-- **The effect of a virtual call on the stack.** Whatever the host did before and wherever a run has come to, let the
activation `a` make a virtual call of `declared` and wait for its end as `c`. The call is a run of the method `target`
that the receiver selects. When it has ended with a value, or without one, and the activation goes on as `b`,
* it is behind the call, the arguments have left its stack by the signature of `declared`, and the result has been
  pushed by the signature of `target`;
* the analysis, on whatever types, counts the result by the signature of `declared`;
* so the height of the stack is the analyzed one exactly if `target` has a result exactly when `declared` has. -/
theorem virtual_call_moves_top {m : Machine} {x₀ : Execution} (hm : m.Reached) (hb : m.Begins x₀)
    (hx : x₀.Reaches Addressable x) (ha : x.control = .running a) (hp : x.machine.prepared? a.method = some p)
    (hsite : p.HasSite x.machine.metadata a.pc (.callvirt declared)) (hc : x.step.callers = c :: x.callers)
    (hy : x.step.Reaches Addressable y) (hcallers : y.callers = c :: x.callers)
    (hend : y.control = .ending (.ok value)) (hgo : y.step.control = .running b) :
    ∃ m' target arguments, x.machine.Dispatches declared arguments target ∧
      x.step = (Machine.start m' target arguments).above (c :: x.callers) ∧ c.continuation = .pushResult target ∧
      b.method = a.method ∧ p.declared.nextOffset a.pc = .ok b.pc ∧
      b.top + declared.signature.arity = a.top + target.signature.results ∧
      (∀ st types successors after,
        ((p.context x.machine.metadata).transfer a.pc .callvirt).run st = .ok ((types, successors), after) →
        after.length + declared.signature.arity = st.length + declared.signature.results) ∧
      (b.top + declared.signature.arity = a.top + declared.signature.results ↔
        target.signature.result.isSome = declared.signature.result.isSome) := by
  obtain ⟨hin, -⟩ := hx.inside (hb.inside hm.sound)
  obtain ⟨hin', hev⟩ := hin.step hx.holds
  obtain ⟨hiny, hevy⟩ := hy.inside hin'
  obtain ⟨m', target, arguments, hselects, hcall, hcont, hmethod, hpc, htop⟩ :=
    calls_selected hin hx.holds ha hp hsite hc
  obtain ⟨q, hq, hnext, hmethod', htop'⟩ := returns_pushing hiny hcallers hcont hend hgo
  obtain ⟨q', hq', hevolves⟩ := (hev.trans hevy).prepared _ p hp
  rw [hmethod] at hq
  cases hq.symm.trans hq'
  have hheight : b.top + declared.signature.arity = a.top + target.signature.results := by omega
  refine ⟨m', target, arguments, hselects, hcall, hcont, hmethod'.trans hmethod, ?_, hheight,
    fun _ _ _ _ => hsite.analyzed, ?_⟩
  · rw [← hevolves.declared, ← hpc]
    exact hnext
  · rw [hheight, ← Signature.results_inj]
    omega

end Execution

/-! ## An override with a result of its own -/

/-- Tables with a virtual method without a result, an implementation of it for all objects that returns 5, and a method
that makes an object and calls the virtual method on it: `newobj`, `callvirt`, `ret`. -/
def overriddenTables : Metadata :=
  let method (row : Nat) : Token := .make Token.methodDef row
  .built [.overrideMethod (method 3) Core.object.token (method 4),
    .defineMethod "callsGreet" {} ⟨#[0x73, 1, 0, 0, 6, 0x6F, 3, 0, 0, 6, 0x2A], 1, [], []⟩,
    .defineBody (method 4) ⟨#[0x1B, 0x2A], 1, [], []⟩,
    .declareMethod Core.object.token "Answer" { receiver := some .object, result := some .i4 } true,
    .declareMethod Core.object.token "Greet" { receiver := some .object } true]

/-- The method of the tables. -/
def overriddenMethod (row : Nat) : MethodSymbol := (overriddenTables.methodSymbol? ⟨row⟩).getD default

/-- The run of the calling method, after a number of steps. -/
def callsGreetRun (steps : Nat) : Execution :=
  steps.repeat Execution.step ((Machine.make overriddenTables none {} {}).start (overriddenMethod 5) [])

/-- The result of the override stays on the stack, where the analysis has nothing, so the calling method fails. -/
theorem callsGreet_leaves_result :
    (analyze overriddenTables (overriddenMethod 5)).1.toOption.bind (·.depth? 10) = some 0 ∧
    (callsGreetRun 6).running?.map (fun a => (a.pc, a.top)) = some (10, 1) ∧
    (callsGreetRun 7).outcome? = some (.error (.abort (.error (.invalidProgram 10 .returnWithOperands)))) := by
  decide +kernel

theorem callsGreetRun_step (n : Nat) : (callsGreetRun n).step = callsGreetRun (n + 1) := rfl

theorem callsGreetRun_addressable {i : Nat} (hi : i ≤ 5) : (callsGreetRun i).Addressable := by
  have hall : ∀ j < 6, (callsGreetRun j).machine.prepared.all
      (fun e => decide (e.2.declared.size ≤ 2 ^ 32)) = true := by decide +kernel
  exact Machine.addressable_of_all (hall i (by omega))

theorem callsGreetRun_reaches (i : Nat) : ∀ n, i + n ≤ 5 →
    (callsGreetRun i).Reaches Execution.Addressable (callsGreetRun (i + n))
  | 0, h => .refl (callsGreetRun_addressable h)
  | n + 1, h => .step (callsGreetRun_reaches i n (by omega)) (callsGreetRun_addressable (i := i + n + 1) h)

/-- After two steps the virtual call is to be executed. -/
theorem callsGreetRun_two : ∃ a p, (callsGreetRun 2).control = .running a ∧ a.pc = 5 ∧ (callsGreetRun 2).callers = [] ∧
    (callsGreetRun 2).machine.prepared? a.method = some p ∧
    p.HasSite (callsGreetRun 2).machine.metadata a.pc (.callvirt (overriddenMethod 3)) := by
  have hrun : (callsGreetRun 2).running?.bind (fun a => ((callsGreetRun 2).machine.prepared? a.method).map fun p =>
      (a.pc, p.analysis.isReachable a.pc, p.declared.opcodeAt a.pc, p.declared.token a.pc)) =
        some (5, true, .ok .callvirt, .ok (.make Token.methodDef 3)) ∧ (callsGreetRun 2).callers.isEmpty = true ∧
      (callsGreetRun 2).machine.metadata.resolveMethod (.make Token.methodDef 3) = .ok (overriddenMethod 3) := by
    decide +kernel
  obtain ⟨hrun, hcallers, hnamed⟩ := hrun
  obtain ⟨a, ha, hrun⟩ := Option.bind_eq_some_iff.1 hrun
  obtain ⟨p, hp, hrun⟩ := Option.map_eq_some_iff.1 hrun
  simp only [Prod.mk.injEq] at hrun
  obtain ⟨hpc, hreachable, hopcode, htoken⟩ := hrun
  exact ⟨a, p, Execution.running?_eq_some.1 ha, hpc, List.isEmpty_iff.1 hcallers, hp,
    .of_callvirt (hpc ▸ hreachable) hopcode htoken hnamed⟩

deriving instance DecidableEq for Activation, Caller

/-- After three steps the override runs, after five it has ended, and after six the calling method goes on. -/
theorem callsGreetRun_called : ∃ c b, (callsGreetRun 3).callers = [c] ∧
    c.continuation = .pushResult (overriddenMethod 4) ∧ (callsGreetRun 5).callers = [c] ∧
    (callsGreetRun 5).control = .ending (.ok (some (.int32 5))) ∧ (callsGreetRun 6).control = .running b ∧
    b.pc = 10 := by
  have hrun : (callsGreetRun 3).callers.map (·.continuation) = [.pushResult (overriddenMethod 4)] ∧
      (callsGreetRun 5).callers = (callsGreetRun 3).callers ∧
      (callsGreetRun 5).ending? = some (.ok (some (.int32 5))) ∧
      (callsGreetRun 6).running?.map (·.pc) = some 10 := by decide +kernel
  obtain ⟨hwaits, hcallers, hends, hback⟩ := hrun
  obtain ⟨c, hc, hcont⟩ := List.map_eq_singleton_iff.1 hwaits
  obtain ⟨b, hb, hpc⟩ := Option.map_eq_some_iff.1 hback
  exact ⟨c, b, hc, hcont, hcallers.trans hc, Execution.ending?_eq_some.1 hends, Execution.running?_eq_some.1 hb, hpc⟩

/-- The call takes the receiver from the stack and leaves the result, by the signature of the override. -/
theorem callsGreet_moves_top : ∃ a b, (callsGreetRun 2).control = .running a ∧ a.pc = 5 ∧
    (callsGreetRun 6).control = .running b ∧ b.pc = 10 ∧ b.top + 1 = a.top + 1 ∧ b.top + 1 ≠ a.top := by
  obtain ⟨a, p, ha, hpc, hcallers, hp, hsite⟩ := callsGreetRun_two
  obtain ⟨c, b, hcalled, hcont, hwaits, hends, hb, hbpc⟩ := callsGreetRun_called
  have hm : (Machine.make overriddenTables none {} {}).Reached := .fresh rfl
  have hstart : (Machine.make overriddenTables none {} {}).Begins (callsGreetRun 0) := by
    rw [callsGreetRun, Nat.repeat]
    exact .start (overriddenMethod 5) []
  have hx : (callsGreetRun 0).Reaches Execution.Addressable (callsGreetRun 2) := callsGreetRun_reaches 0 2 (by decide)
  have hy : (callsGreetRun 2).step.Reaches Execution.Addressable (callsGreetRun 5) := by
    rw [callsGreetRun_step]
    exact callsGreetRun_reaches 3 2 (by decide)
  have hc : (callsGreetRun 2).step.callers = c :: (callsGreetRun 2).callers := by
    rw [callsGreetRun_step, hcallers, hcalled]
  have hgo : (callsGreetRun 5).step.control = .running b := by
    rw [callsGreetRun_step]
    exact hb
  obtain ⟨_, target, _, -, -, htarget, -, -, htop, -⟩ := Execution.virtual_call_moves_top
    hm hstart hx ha hp hsite hc hy (by rw [hwaits, hcallers]) hends hgo
  cases hcont.symm.trans htarget
  have hsignatures : (overriddenMethod 3).signature.arity = 1 ∧ (overriddenMethod 4).signature.results = 1 := by
    decide +kernel
  rw [hsignatures.1, hsignatures.2] at htop
  exact ⟨a, b, ha, hpc, hb, hbpc, htop, by omega⟩

end ManagedCode
