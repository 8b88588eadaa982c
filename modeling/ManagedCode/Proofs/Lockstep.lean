import ManagedCode.Proofs.Steps

/-!
# Steps of machines that are alike

Whatever a step does apart from making methods ready and resolving call sites, it does the same on machines that are
alike: `instruction_pristine` and `blind_instruction` say this of an instruction, `settle_alike` of what follows it.
-/

namespace ManagedCode

namespace ExecM

variable {p : Prepared} {pc next : Nat} {op : Opcode}

/-! ## Computations that are blind -/

theorem blind_push (v : Value) : Blind (push v) := by
  refine .bind .activation fun a => ?_
  split
  · exact .bind (.throw _) fun _ => .bind (.put _ _) fun _ => .modifyActivation _
  · exact .bind (.put _ _) fun _ => .modifyActivation _

theorem blind_pop (p : Prepared) : Blind (pop p) :=
  .bind (calm_stackSlot p 0).blind fun _ => .bind .activation fun _ => .bind (.ofEngine _) fun _ =>
    .bind (.modifyActivation _) fun _ => .pure _

theorem blind_takeSlots : ∀ count slot : Nat, Blind (takeSlots slot count)
  | 0, _ => .pure _
  | count + 1, slot => .bind .activation fun _ => .bind (.ofEngine _) fun _ => .bind (.modifyActivation _) fun _ =>
      .bind (blind_takeSlots count (slot + 1)) fun _ => .pure _

theorem blind_popArguments (p : Prepared) : ∀ count, Blind (popArguments p count)
  | 0 => .pure _
  | n + 1 => .bind (calm_stackSlot p n).blind fun _ => .bind (blind_takeSlots _ _) fun _ =>
      .bind (.modifyActivation _) fun _ => .pure _

theorem blind_enterHandler (p : Prepared) (pc : Nat) (object : Option (Option Ref)) :
    Blind (enterHandler p pc object) := by
  refine .bind (.modifyActivation _) fun _ => ?_
  cases object with
  | some r => exact .bind (blind_push _) fun _ => .modifyMetrics fun _ => rfl
  | none =>
    dsimp only
    split
    · exact .modifyMetrics fun _ => rfl
    · exact .pure _

theorem blind_leave (p : Prepared) (pc : Nat) : Blind (leave p pc) := by
  refine .bind (.ofEngine _) fun target => .bind (.modifyActivation _) fun _ => .bind .activation fun a => ?_
  rcases a.unwinding.leave p.regions pc target with ⟨next, u⟩
  refine .bind (.modifyActivation _) fun _ => ?_
  dsimp only
  split
  · exact .bind (blind_enterHandler _ _ _) fun _ => .pure _
  · exact .pure _

theorem blind_endFinally (p : Prepared) (pc : Nat) : Blind (endFinally p pc) := by
  refine .bind .activation fun a => .bind .metadata fun md => .bind (.modifyActivation _) fun _ =>
    .bind (.ofAbort _) fun transfer => ?_
  cases transfer with
  | resume target object => exact .bind (blind_enterHandler _ _ _) fun _ => .pure _
  | propagate e => exact .pure _

theorem blind_ret (p : Prepared) : Blind (ret p) := by
  have last : ∀ value : Option Value, Blind (do
      let a ← activation
      if a.top ≠ p.layout.stackBase then fail (.invalidProgram a.pc .returnWithOperands)
      else return .ret value : ExecM Next) := by
    intro value
    refine .bind .activation fun a => ?_
    split
    · exact .throw _
    · exact .pure _
  unfold ret
  split
  · exact last none
  · exact .bind (blind_pop p) fun v => .bind .activation fun a => .bind (.onHeapTrap _) fun w => last (some w)

theorem blind_invoke (p : Prepared) (site : CallSite) : Blind (invoke p site) := by
  refine .bind (.modifyMetrics fun _ => rfl) fun _ => ?_
  cases site with
  | call m => exact .bind (blind_popArguments p _) fun _ => .pure _
  | callvirt m => exact .bind (blind_popArguments p _) fun _ => .bind (calm_virtualTarget m _).blind fun _ => .pure _
  | newobj m type =>
    exact .bind (blind_popArguments p _) fun _ => .bind .metadata fun _ => .bind (.onHeapTrap _) fun _ => .pure _
  | jmp m => exact .bind .activation fun a => .bind (calm_arguments _ _).blind fun _ => .pure _

theorem blind_applyEffect (p : Prepared) (op : Opcode) (before : Nat) : Blind (applyEffect p op before) := by
  unfold applyEffect
  split
  · exact .pure _
  · refine .bind .activation fun a => ?_
    split
    · exact .throw _
    · split
      · exact .throw _
      · dsimp only
        split
        · exact .throw _
        · exact .modifyActivation _

theorem blind_advance (p : Prepared) (op : Opcode) (before : Nat) : Blind (advance p op before) :=
  .bind (blind_applyEffect p op before) fun _ => .bind .activation fun _ => .bind (.ofEngine _) fun _ =>
    .modifyActivation _

theorem blind_countBackEdge (pc target : Nat) : Blind (countBackEdge pc target) := by
  refine .machine (fun m m' ha => by rw [ha.settings]) fun m => .bind .activation fun a =>
    .bind (.modifyMetrics fun _ => rfl) fun _ => .bind (.modifyActivation _) fun _ => ?_
  split
  · exact .tracing fun _ _ _ ht => ht.line _ _ _
  · exact .pure _

theorem blind_jumpTo (p : Prepared) (op : Opcode) (before target : Nat) : Blind (jumpTo p op before target) := by
  refine .bind (blind_applyEffect p op before) fun _ => .bind .activation fun a => ?_
  dsimp only
  split
  · exact .bind (blind_countBackEdge _ _) fun _ => .modifyActivation _
  · exact .modifyActivation _

theorem blind_dispatch (p : Prepared) (e : GuestException) : Blind (dispatch p e) := by
  refine .bind (.modifyMetrics fun _ => rfl) fun _ => .machine (fun m m' ha => ?_) fun m => ?_
  · rw [ha.metadata, show m'.names = m.names by rw [Machine.names, ha.heap, Machine.names], ha.heap]
  · refine .bind .activation fun a => .bind (.tracing fun _ _ _ ht => ht.line _ _ _) fun _ =>
      .bind (.modifyActivation _) fun _ => .bind (.ofAbort _) fun transfer => ?_
    cases transfer with
    | resume target object => exact .bind (blind_enterHandler _ _ _) fun _ => .bind (.modifyActivation _) fun _ => .pure _
    | propagate e' => exact .bind (.tracing fun _ _ _ ht => ht.line _ _ _) fun _ => .pure _

theorem blind_continueWith (c : Continuation) (value : Option Value) : Blind (continueWith c value) := by
  cases c with
  | returnResult => exact .pure _
  | pushObject r => exact .bind (blind_push _) fun _ => .pure _
  | pushResult m =>
    unfold continueWith
    dsimp only
    split
    · exact .pure _
    · exact .bind (blind_push _) fun _ => .pure _
    · exact .bind .activation fun _ => .throw _

end ExecM

/-! ## Methods that differ in their code -/

namespace Prepared

/-- The method as it was declared, with no call site resolved. -/
def pristine (p : Prepared) : Prepared := { p with code := p.declared, callSites := #[] }

theorem Evolves.pristine {p p' : Prepared} (h : p.Evolves p') : p'.pristine = p.pristine := by
  unfold Prepared.pristine
  rw [h.declared, h.same]

end Prepared

namespace ExecM

variable {p : Prepared} {pc next : Nat} {op : Opcode}

/-- **An instruction that reads as declared does what was declared.** A call site is left out: it changes the method. -/
theorem instruction_pristine (hd : p.Declares pc op next) (ha : p.declared.AgreeOn p.code pc next)
    (hcall : ∀ k, op.action ≠ .callSite k) (hcached : op.action ≠ .cachedCall) :
    instruction p pc op = instruction p.pristine pc op := by
  have index : ∀ i, placeIndex p pc i = placeIndex p.pristine pc i := by
    intro i
    cases i with
    | implied n => rfl
    | encoded => exact congrArg ofEngine (Code.slotIndex_agree hd.next ha hd.opcode)
  have target : p.code.branchTarget pc = p.pristine.code.branchTarget pc :=
    Code.branchTarget_agree hd.next ha hd.opcode
  have token : ∀ {a : Action}, op.action = a → a.width? = some 4 → p.code.token pc = p.pristine.code.token pc :=
    fun h hw => Code.token_agree hd.next ha hd.opcode (op.size?_of_width? (by rw [h]; exact hw))
  have type : ∀ {a : Action}, op.action = a → a.width? = some 4 → typeOperand p pc = typeOperand p.pristine pc := by
    intro a h hw
    rw [typeOperand, token h hw]
    rfl
  have field : ∀ {a : Action}, op.action = a → a.width? = some 4 → fieldOperand p pc = fieldOperand p.pristine pc := by
    intro a h hw
    rw [fieldOperand, token h hw]
    rfl
  have word : ∀ {width : Nat}, op.operand.size? = some (width / 8) →
      p.code.word width pc = p.pristine.code.word width pc := fun hs => Code.word_agree _ hd.next ha hd.opcode hs
  have jump : ∀ taken, jumpIf p pc op taken = jumpIf p.pristine pc op taken := by
    intro taken
    rw [jumpIf, target]
    rfl
  unfold instruction
  cases hact : op.action with
  | load place i => show load p pc place i = _; rw [load, index]; rfl
  | store place i => show store p pc place i = _; rw [store, index]; rfl
  | address place => show loadAddress p pc place = _; rw [loadAddress, index]; rfl
  | loadConstant c =>
    have hsize : ∀ n, c.width? = some n → op.operand.size? = some n := fun n hn =>
      op.size?_of_width? (by rw [hact]; exact hn)
    have hconstant : constant p pc c = constant p.pristine pc c := by
      cases c with
      | implied n => rfl
      | short => rw [constant, word (hsize 1 rfl)]; rfl
      | int => rw [constant, word (hsize 4 rfl)]; rfl
      | long => rw [constant, word (hsize 8 rfl)]; rfl
      | shortReal => rw [constant, word (hsize 4 rfl)]; rfl
      | real => rw [constant, word (hsize 8 rfl)]; rfl
    show loadConstant p pc c = _
    rw [loadConstant, hconstant]
    rfl
  | jump => exact jump true
  | jumpOn wanted => exact congrArg (truth p pc op >>= ·) (funext fun b => jump (b == wanted))
  | jumpCompare c => exact congrArg (compareTop p pc op c >>= ·) (funext fun b => jump b)
  | switch =>
    show switch p pc = _
    rw [switch, show p.code.switchTargets pc = p.pristine.code.switchTargets pc from
      Code.switchTargets_agree hd.next ha hd.opcode (op.size?_switch hact)]
    rfl
  | leave => show leave p pc = _; rw [leave, target]; rfl
  | loadObject => show loadObject p pc = _; rw [loadObject, type hact rfl]; rfl
  | storeObject => show storeObject p pc = _; rw [storeObject, type hact rfl]; rfl
  | copyObject => show copyObject p pc = _; rw [copyObject, type hact rfl]; rfl
  | initObject => show initObject p pc = _; rw [initObject, type hact rfl]; rfl
  | loadString => show loadString p pc = _; rw [loadString, token hact rfl]; rfl
  | loadToken => show loadToken p pc = _; rw [loadToken, symbolOperand, token hact rfl]; rfl
  | newArray => show newArray p pc = _; rw [newArray, type hact rfl]; rfl
  | loadElement kind =>
    have hkind : elementKind p pc kind = elementKind p.pristine pc kind := by
      cases kind with
      | some k => rfl
      | none => rw [elementKind, type hact rfl]; rfl
    show loadElement p pc kind = _
    rw [loadElement, hkind]
    rfl
  | storeElement kind =>
    have hkind : elementKind p pc kind = elementKind p.pristine pc kind := by
      cases kind with
      | some k => rfl
      | none => rw [elementKind, type hact rfl]; rfl
    show storeElement p pc kind = _
    rw [storeElement, hkind]
    rfl
  | loadField => show loadField p pc = _; rw [loadField, field hact rfl]; rfl
  | fieldAddress => show fieldAddress p pc = _; rw [fieldAddress, field hact rfl]; rfl
  | storeField => show storeField p pc = _; rw [storeField, field hact rfl]; rfl
  | loadStatic => show loadStatic p pc = _; rw [loadStatic, field hact rfl]; rfl
  | staticAddress => show staticAddress p pc = _; rw [staticAddress, field hact rfl]; rfl
  | storeStatic => show storeStatic p pc = _; rw [storeStatic, field hact rfl]; rfl
  | castClass => show cast p pc true = _; rw [cast, type hact rfl]; rfl
  | isInstance => show cast p pc false = _; rw [cast, type hact rfl]; rfl
  | box => show box p pc = _; rw [box, type hact rfl]; rfl
  | unbox => show unbox p pc = _; rw [unbox, type hact rfl]; rfl
  | unboxAny =>
    have hcast : cast p pc true = cast p.pristine pc true := by rw [cast, type hact rfl]; rfl
    show unboxAny p pc = _
    rw [unboxAny, type hact rfl, hcast]
    rfl
  | sizeOf => show sizeOf p pc = _; rw [sizeOf, type hact rfl]; rfl
  | functionPointer => show functionPointer p pc = _; rw [functionPointer, token hact rfl]; rfl
  | virtualPointer => show virtualPointer p pc = _; rw [virtualPointer, token hact rfl]; rfl
  | callSite kind => exact absurd hact (hcall kind)
  | cachedCall => exact absurd hact hcached
  | _ => rfl

/-- Every instruction but a call is blind. -/
theorem blind_instruction (h : Reads p pc op next)
    (ht : op.action.usesTypes = true → (p.analysis.operandTypes? pc).isSome = true)
    (hcall : ∀ k, op.action ≠ .callSite k) (hcached : op.action ≠ .cachedCall) : Blind (instruction p pc op) := by
  cases hplain : op.action.isTransfer with
  | false => exact (quiet_instruction h ht hplain).blind
  | true =>
    unfold instruction
    cases hact : op.action with
    | ret => exact blind_ret p
    | leave => exact blind_leave p pc
    | endFinally => exact blind_endFinally p pc
    | callSite k => exact absurd hact (hcall k)
    | cachedCall => exact absurd hact hcached
    | _ => rw [hact] at hplain; cases hplain

/-- Goes on at an offset that may not exist. -/
def advanceTo (p : Prepared) (op : Opcode) (before : Nat) (next : Except EngineError Nat) : ExecM Unit := do
  applyEffect p op before
  let next ← ofEngine next
  modifyActivation fun a => { a with pc := next }

theorem advance_run (p : Prepared) (op : Opcode) (before : Nat) (w : Workspace) : (advance p op before).run w =
    (advanceTo p op before (p.code.nextOffset w.activation.pc)).run w := by
  unfold advance advanceTo
  rw [Meets.run_bind, Meets.run_bind]
  rcases hr : (applyEffect p op before).run w with ⟨t | _, w'⟩
  · rfl
  · have hpc : w'.activation.pc = w.activation.pc := (applyEffect_meets.of_ok hr).shifted.pc
    show (ofEngine (p.code.nextOffset w'.activation.pc) >>= _).run w' = _
    rw [hpc]

theorem blind_advanceTo (p : Prepared) (op : Opcode) (before : Nat) (next : Except EngineError Nat) :
    Blind (advanceTo p op before next) :=
  .bind (blind_applyEffect p op before) fun _ => .bind (.ofEngine _) fun _ => .modifyActivation _

end ExecM

/-! ## What follows an instruction -/

/-- The runs are at the same place, on machines that are alike. -/
structure Execution.Alike (x y : Execution) : Prop where
  machine : x.machine.Alike y.machine
  control : y.control = x.control
  callers : y.callers = x.callers

theorem Machine.Alike.names {m m' : Machine} (h : m.Alike m') : m'.names = m.names := by
  rw [Machine.names, h.heap, Machine.names]

theorem Machine.Alike.withDepth {m m' : Machine} (h : m.Alike m') (depth : Nat) :
    Machine.Alike { m with depth } { m' with depth } := { h with depth := rfl }

theorem Machine.Alike.faultException {m m' : Machine} (h : m.Alike m') (k : FaultKind) (message : String) :
    (m'.faultException k message).1 = (m.faultException k message).1 ∧
      (m.faultException k message).2.Alike (m'.faultException k message).2 := by
  unfold Machine.faultException Machine.onHeap
  rw [h.heap, h.metadata]
  exact ⟨rfl, { h with heap := rfl, metadata := rfl }⟩

theorem Machine.Alike.raise {m m' : Machine} (h : m.Alike m') (t : Trap) :
    (m'.raise t).1 = (m.raise t).1 ∧ (m.raise t).2.Alike (m'.raise t).2 := by
  cases t with
  | abort a => exact ⟨rfl, h⟩
  | thrown e => exact ⟨rfl, h⟩
  | fault k message =>
    obtain ⟨he, hm⟩ := h.faultException k message
    exact ⟨congrArg Failure.guest he, hm⟩

theorem Machine.raise_untouched (m : Machine) (t : Trap) : m.Untouched (m.raise t).2 := by
  cases t <;> exact ⟨rfl, rfl, rfl⟩

namespace Execution

variable {p p' : Prepared} {op op' : Opcode} {before : Nat} {callers : List Caller} {w v : Workspace}

theorem finish_alike (h : w.Alike v) (callers : List Caller) (o : Outcome) :
    (finish w callers o).Alike (finish v callers o) :=
  ⟨by rw [finish, finish, h.activation]; exact h.machine.withDepth _, rfl, rfl⟩

theorem traced_alike (h : w.Alike v) {f g : Trace → Nat → Trace}
    (hf : ∀ t t' n, t.Alike t' → (f t n).Alike (g t' n)) : (traced w f).Alike (traced v g) := by
  refine ⟨{ h.machine with trace := ?_ }, h.activation⟩
  show (f w.machine.trace (w.activation.depth - 1)).Alike (g v.machine.trace (v.activation.depth - 1))
  rw [h.activation]
  exact hf _ _ _ h.machine.trace

theorem announced_alike (h : w.Alike v) (op op' : Opcode) : (announced w op).Alike (announced v op') := by
  unfold announced
  rw [h.machine.settings, h.activation]
  split
  · exact traced_alike h fun _ _ _ ht => ht.instruction _ _ op op'
  · exact h

theorem proceed_alike {x : ExecM Unit} (hx : ExecM.Blind x) (h : w.Alike v) (callers : List Caller) :
    (proceed x w callers).Alike (proceed x v callers) := by
  obtain ⟨hr, hs⟩ := hx.alike w v h
  unfold proceed
  rcases hw : x.run w with ⟨r, w'⟩
  rcases hv : x.run v with ⟨r', v'⟩
  rw [hw, hv] at hr hs
  subst hr
  cases r' with
  | ok _ => exact ⟨hs.machine, congrArg Control.running hs.activation, rfl⟩
  | error t =>
    obtain ⟨hf, hm⟩ := hs.machine.raise t
    dsimp only
    rw [hf]
    exact finish_alike (w := { w' with machine := (w'.machine.raise t).2 })
      (v := { v' with machine := (v'.machine.raise t).2 }) ⟨hm, hs.activation⟩ callers _

theorem throwIn_alike (p : Prepared) (e : GuestException) (h : w.Alike v) (callers : List Caller) :
    (throwIn p e w callers).Alike (throwIn p e v callers) := by
  obtain ⟨hr, hs⟩ := (ExecM.blind_dispatch p e).alike w v h
  unfold throwIn
  rcases hw : (ExecM.dispatch p e).run w with ⟨r, w'⟩
  rcases hv : (ExecM.dispatch p e).run v with ⟨r', v'⟩
  rw [hw, hv] at hr hs
  subst hr
  cases r' with
  | ok r =>
    cases r with
    | none => exact ⟨hs.machine, congrArg Control.running hs.activation, rfl⟩
    | some e' => exact finish_alike hs callers _
  | error t =>
    obtain ⟨hf, hm⟩ := hs.machine.raise t
    dsimp only
    rw [hf]
    exact finish_alike (w := { w' with machine := (w'.machine.raise t).2 })
      (v := { v' with machine := (v'.machine.raise t).2 }) ⟨hm, hs.activation⟩ callers _

/-- The two are the same instruction, or both leave the stack to others and are no branches: what follows them is the
same. -/
def SameEffect (op op' : Opcode) : Prop :=
  op' = op ∨ (op.effect = .varying ∧ op'.effect = .varying ∧ ExecM.countsJumps op = false ∧
    ExecM.countsJumps op' = false)

theorem SameEffect.applyEffect (hp : p'.pristine = p.pristine) (ho : SameEffect op op') (before : Nat) :
    ExecM.applyEffect p' op' before = ExecM.applyEffect p op before := by
  rcases ho with rfl | ⟨ho, ho', -, -⟩
  · show ExecM.applyEffect p'.pristine op' before = ExecM.applyEffect p.pristine op' before
    rw [hp]
  · unfold ExecM.applyEffect
    rw [ho, ho']

theorem SameEffect.jumpTo (hp : p'.pristine = p.pristine) (ho : SameEffect op op') (before target : Nat) :
    ExecM.jumpTo p' op' before target = ExecM.jumpTo p op before target := by
  have hcounts : ExecM.countsJumps op' = ExecM.countsJumps op := by
    rcases ho with rfl | ⟨-, -, ho, ho'⟩
    · rfl
    · rw [ho, ho']
  unfold ExecM.jumpTo
  rw [ho.applyEffect hp, hcounts]

theorem SameEffect.advanceTo (hp : p'.pristine = p.pristine) (ho : SameEffect op op') (before : Nat)
    (next : Except EngineError Nat) : ExecM.advanceTo p' op' before next = ExecM.advanceTo p op before next := by
  unfold ExecM.advanceTo
  rw [ho.applyEffect hp]

/-- **What follows an instruction that is no call is the same.** -/
theorem settle_alike {r : Except Trap Next} (hp : p'.pristine = p.pristine) (ho : SameEffect op op')
    (hnext : p'.code.nextOffset w.activation.pc = p.code.nextOffset w.activation.pc) (h : w.Alike v)
    (hr : ∀ target arguments c, r ≠ .ok (.invoke target arguments c)) :
    (settle p op before callers (r, w)).Alike (settle p' op' before callers (r, v)) := by
  have hname : p'.symbol.name = p.symbol.name := by
    show p'.pristine.symbol.name = p.pristine.symbol.name
    rw [hp]
  have hthrow : ∀ (e : GuestException) (w v : Workspace), w.Alike v →
      (throwIn p e w callers).Alike (throwIn p' e v callers) := by
    intro e w v h
    have := throwIn_alike p.pristine e h callers
    conv at this => right; rw [← hp]
    exact this
  cases r with
  | ok n =>
    cases n with
    | advance =>
      have hrun : ∀ (q : Prepared) (o : Opcode) (u : Workspace), proceed (ExecM.advance q o before) u callers =
          proceed (ExecM.advanceTo q o before (q.code.nextOffset u.activation.pc)) u callers := by
        intro q o u
        unfold proceed
        rw [ExecM.advance_run]
      simp only [settle, hrun]
      rw [ho.advanceTo hp, h.activation, hnext]
      exact proceed_alike (ExecM.blind_advanceTo ..) h callers
    | jump target =>
      simp only [settle]
      rw [ho.jumpTo hp]
      exact proceed_alike (ExecM.blind_jumpTo ..) h callers
    | ret value =>
      simp only [settle, hname]
      refine finish_alike (traced_alike h fun _ _ _ ht => ?_) callers _
      exact ht.line _ _ _
    | propagate e =>
      simp only [settle, hname, h.machine.names]
      refine finish_alike (traced_alike h fun _ _ _ ht => ?_) callers _
      exact ht.line _ _ _
    | invoke target arguments c => exact absurd rfl (hr target arguments c)
  | error t =>
    cases t with
    | abort a =>
      cases a with
      | error e =>
        simp only [settle, hname, h.machine.names, h.activation]
        refine finish_alike (traced_alike h fun _ _ _ ht => ?_) callers _
        exact ht.line _ _ _
      | endless | crash => exact finish_alike h callers _
    | thrown e => exact hthrow e w v h
    | fault k message =>
      obtain ⟨he, hm⟩ := h.machine.faultException k message
      simp only [settle, he]
      exact hthrow _ { w with machine := _ } { v with machine := _ } ⟨hm, h.activation⟩

/-! ## What leaves methods and call sites alone -/

theorem finish_untouched (w : Workspace) (callers : List Caller) (o : Outcome) :
    w.machine.Untouched (finish w callers o).machine := ⟨rfl, rfl, rfl⟩

theorem proceed_untouched {x : ExecM Unit} (hx : ExecM.Blind x) (w : Workspace) (callers : List Caller) :
    w.machine.Untouched (proceed x w callers).machine := by
  have hw := hx.untouched w
  unfold proceed
  rcases hr : x.run w with ⟨t | _, w'⟩
  · rw [hr] at hw
    exact (hw.trans (w'.machine.raise_untouched t)).trans (finish_untouched { w' with machine := _ } callers _)
  · rw [hr] at hw
    exact hw

theorem throwIn_untouched (p : Prepared) (e : GuestException) (w : Workspace) (callers : List Caller) :
    w.machine.Untouched (throwIn p e w callers).machine := by
  have hw := (ExecM.blind_dispatch p e).untouched w
  unfold throwIn
  rcases hr : (ExecM.dispatch p e).run w with ⟨t | r, w'⟩
  · rw [hr] at hw
    exact (hw.trans (w'.machine.raise_untouched t)).trans (finish_untouched { w' with machine := _ } callers _)
  · rw [hr] at hw
    cases r with
    | none => exact hw
    | some e' => exact hw.trans (finish_untouched w' callers _)

/-- **Only a call makes a method ready.** -/
theorem settle_untouched : ∀ r : Except Trap Next × Workspace,
    (∀ target arguments c, r.1 ≠ .ok (.invoke target arguments c)) →
    r.2.machine.Untouched (settle p op before callers r).machine
  | (.ok .advance, w), _ => proceed_untouched (ExecM.blind_advance p op before) w callers
  | (.ok (.jump target), w), _ => proceed_untouched (ExecM.blind_jumpTo p op before target) w callers
  | (.ok (.ret _), _), _ => ⟨rfl, rfl, rfl⟩
  | (.ok (.propagate _), _), _ => ⟨rfl, rfl, rfl⟩
  | (.ok (.invoke target arguments c), _), hr => absurd rfl (hr target arguments c)
  | (.error (.abort (.error _)), _), _ => ⟨rfl, rfl, rfl⟩
  | (.error (.abort .endless), _), _ => ⟨rfl, rfl, rfl⟩
  | (.error (.abort .crash), _), _ => ⟨rfl, rfl, rfl⟩
  | (.error (.thrown e), w), _ => throwIn_untouched p e w callers
  | (.error (.fault k message), w), _ => by
    have hraised : w.machine.Untouched (w.machine.faultException k message).2 := ⟨rfl, rfl, rfl⟩
    exact hraised.trans (throwIn_untouched p _ { w with machine := _ } callers)

end Execution

end ManagedCode
