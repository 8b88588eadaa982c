import ManagedCode.Proofs.Narrowed
import ManagedCode.Proofs.Stacks

/-!
# What an instruction writes

An instruction that is no transfer writes at most one slot of its frame, as its last act: an argument or a local, with a
value that was narrowed to the kind of that slot, or a slot of the stack that its entry in the table of effects accounts
for. `Activation.Wrote` says this of two activations. The parts of an instruction that only look (`ExecM.Looks`) leave
the whole activation alone, so an instruction that traps has written nothing (`ExecM.Puts`).
-/

namespace ManagedCode

namespace Prepared

variable {p p' : Prepared}

/-- The kinds of the arguments and locals, by their slots. -/
def kinds (p : Prepared) : List Kind := p.argumentKinds ++ p.localKinds

theorem Evolves.kinds (h : p.Evolves p') : p'.kinds = p.kinds := by
  rw [Prepared.kinds, h.same]
  rfl

theorem Evolves.framed (h : p.Evolves p') (hp : p.Framed) : p'.Framed := by
  rw [h.same]
  exact ⟨hp.arguments, hp.locals⟩

namespace Framed

variable (h : p.Framed)
include h

theorem length_kinds : p.kinds.length = p.layout.stackBase := by
  rw [kinds, List.length_append, h.arguments, h.locals, Layout.stackBase]

theorem lt_stackBase {slot : Nat} {k : Kind} (hk : p.kinds[slot]? = some k) : slot < p.layout.stackBase := by
  rw [← h.length_kinds]
  exact (List.getElem?_eq_some_iff.1 hk).1

theorem kinds_argument (i : Nat) (hi : i < p.layout.arguments) : p.kinds[i]? = p.argumentKinds[i]? :=
  List.getElem?_append_left (by rw [h.arguments]; exact hi)

theorem kinds_local (i : Nat) : p.kinds[p.layout.localBase + i]? = p.localKinds[i]? := by
  rw [kinds, Layout.localBase, ← h.arguments, List.getElem?_append_right (Nat.le_add_right _ _),
    Nat.add_sub_cancel_left]

end Framed

end Prepared

/-! ## The table of effects -/

/-- How many operands lie above the slot of the result, for the actions that write one result. -/
def Action.resultPops? : Action → Option Nat
  | .load _ _ | .address _ | .loadNull | .loadConstant _ | .loadString | .loadToken | .loadStatic | .staticAddress
  | .sizeOf | .functionPointer => some 0
  | .unary _ | .checkFinite | .convert _ | .loadIndirect _ | .loadObject | .newArray | .arrayLength | .loadField
  | .fieldAddress | .castClass | .isInstance | .box | .unbox | .unboxAny | .virtualPointer => some 1
  | .compare _ | .binary _ | .shift _ | .elementAddress | .loadElement _ => some 2
  | _ => none

namespace Opcode

/-- **The table accounts for every result**: it pops what lies above the result's slot, and pushes one value. -/
theorem effect_of_resultPops? (op : Opcode) {n : Nat} (h : op.action.resultPops? = some n) :
    op.effect = .fixed n 1 := by
  cases op <;> cases h <;> rfl

theorem effect_dup (op : Opcode) (h : op.action = .dup) : op.effect = .fixed 1 2 := by
  cases op <;> first | rfl | cases h

theorem effect_transfer (op : Opcode) (h : op.action.isTransfer = true) : op.effect = .varying := by
  cases op <;> first | rfl | cases h

/-- How far up an instruction may write when the stack ends at `top`: to where the table moves the top. One whose effect
varies writes nothing before it has moved the top itself. -/
def limit (op : Opcode) (top : Nat) : Nat :=
  match op.effect with
  | .varying => 0
  | .fixed pops pushes => top - pops + pushes

theorem limit_fixed {op : Opcode} {pops pushes : Nat} (h : op.effect = .fixed pops pushes) (top : Nat) :
    op.limit top = top - pops + pushes := by rw [limit, h]

end Opcode

/-! ## One write -/

namespace Activation

variable {p : Prepared} {limit slot : Nat} {a a' : Activation} {k : Kind} {v : Value}

/-- **What an instruction may have written**: arguments and locals, each narrowed to its kind, and slots of the stack
below `limit`. All else is as before. -/
structure Wrote (p : Prepared) (limit : Nat) (a a' : Activation) : Prop where
  same : a' = { a with frame := a'.frame }
  frame : Workspace.SameFrame a.frame a'.frame
  typed : ∀ (i : Nat) k v, p.kinds[i]? = some k → a'.frame.slots[i]? = some v →
    a.frame.slots[i]? = some v ∨ k.Made v
  above : ∀ i, p.layout.stackBase ≤ i → limit ≤ i → a'.frame.slots[i]? = a.frame.slots[i]?

theorem Wrote.refl (a : Activation) : a.Wrote p limit a := ⟨rfl, .refl _, fun _ _ _ _ hv => .inl hv, fun _ _ _ => rfl⟩

theorem Wrote.variable (hp : p.Framed) (hk : p.kinds[slot]? = some k) (hv : k.Made v) :
    a.Wrote p limit { a with frame := a.frame.set slot v } where
  same := rfl
  frame := Frame.sameFrame_set ..
  typed := by
    intro i k' v' hk' hv'
    by_cases hi : i = slot
    · subst hi
      cases hk.symm.trans hk'
      exact .inr (Frame.eq_of_set_self hv' ▸ hv)
    · exact .inl ((Array.getElem?_setIfInBounds_ne (Ne.symm hi)).symm.trans hv')
  above := by
    intro i hi _
    have hslot := hp.lt_stackBase hk
    exact Array.getElem?_setIfInBounds_ne (by omega)

theorem Wrote.result (hp : p.Framed) (hlow : p.layout.stackBase ≤ slot) (hhigh : slot < limit) (v : Value) :
    a.Wrote p limit { a with frame := a.frame.set slot v } where
  same := rfl
  frame := Frame.sameFrame_set ..
  typed := by
    intro i k' v' hk' hv'
    have hi := hp.lt_stackBase hk'
    exact .inl ((Array.getElem?_setIfInBounds_ne (by omega)).symm.trans hv')
  above := fun i _ hi => Array.getElem?_setIfInBounds_ne (by omega)

end Activation

/-! ## Narrowing -/

namespace HeapTrapM

/-- **What a location takes was made by its kind.** -/
theorem normalize_made (slot : Nat) (k : Kind) (v : Value) :
    Maintains (fun _ : Heap => True) (normalize slot k v) k.Made := by
  have hlast : ∀ u, Maintains (fun _ : Heap => True) (coerced slot k u) k.Made := by
    intro u
    unfold coerced
    cases hu : k.coerce u with
    | some w => exact .pure ⟨u, hu⟩
    | none => exact .throw
  have hcopy : Maintains (fun _ : Heap => True) (ofHeap (Heap.copyValue v)) fun _ => True :=
    fun h _ => (ExecM.ofHeap_meets _ h).mono (fun _ _ _ => ⟨trivial, trivial⟩) fun _ _ _ => trivial
  rw [normalize_eq]
  split
  · exact hcopy.bind fun u _ => hlast u
  · exact hlast v

end HeapTrapM

/-! ## Looking and writing -/

/-- Control stays in the activation. -/
def Next.Stays : Next → Prop
  | .advance | .jump _ => True
  | _ => False

/-- The workspace has this activation, and the tables and methods of `m`. -/
structure Workspace.At (m : Machine) (a : Activation) (w : Workspace) : Prop where
  activation : w.activation = a
  programs : m.SamePrograms w.machine

namespace ExecM

variable {α β : Type} {m : Machine} {a : Activation} {p : Prepared} {pc limit : Nat} {op : Opcode}

/-- **A computation that looks**: the activation and the methods that are ready stay as they are, also when it traps. -/
abbrev Looks (m : Machine) (a : Activation) (x : ExecM α) (P : α → Prop) : Prop := Maintains (Workspace.At m a) x P

/-- **A computation that writes** what the method and the limit allow, and nothing when it traps. -/
def Puts (p : Prepared) (limit : Nat) (m : Machine) (a : Activation) (x : ExecM α) (P : α → Prop) : Prop :=
  ∀ w : Workspace, w.At m a → Meets x w (fun b w' => P b ∧ ∃ a', a.Wrote p limit a' ∧ w'.At m a') fun _ w' => w'.At m a

namespace Puts

variable {x : ExecM α} {f : α → ExecM β} {P : α → Prop} {R : β → Prop}

theorem of_looks (hx : Looks m a x P) : Puts p limit m a x P :=
  fun w hw => (hx w hw).mono (fun _ _ ⟨hb, hw'⟩ => ⟨hb, a, .refl a, hw'⟩) fun _ _ h => h

theorem after (hx : Looks m a x P) (hf : ∀ b, P b → Puts p limit m a (f b) R) : Puts p limit m a (x >>= f) R :=
  fun w hw => Meets.bind (hx w hw) fun b w' ⟨hb, hw'⟩ => hf b hb w' hw'

theorem finish {b : β} (hx : Puts p limit m a x fun _ => True) (hb : R b) :
    Puts p limit m a (x >>= fun _ => Pure.pure b) R :=
  fun w hw => Meets.bind (hx w hw) fun _ _ ⟨_, h⟩ => ⟨hb, h⟩

theorem pure {b : α} (hb : P b) : Puts p limit m a (Pure.pure b) P := of_looks (.pure hb)

theorem throw (t : Trap) : Puts p limit m a (MonadExcept.throw t : ExecM α) P := of_looks .throw

end Puts

/-! ## The parts of an instruction that look -/

theorem looks_ofEngine (r : Except EngineError α) : Looks m a (ofEngine r) fun b => r = .ok b := by
  cases r with
  | ok b => exact .pure rfl
  | error e => exact .throw

theorem looks_ofResolution (r : Except ResolutionError α) : Looks m a (ofResolution r) fun b => r = .ok b := by
  cases r with
  | ok b => exact .pure rfl
  | error e => exact .throw

theorem looks_ofFault (r : Except FaultKind α) : Looks m a (ofFault r) fun b => r = .ok b := by
  cases r with
  | ok b => exact .pure rfl
  | error k => exact .throw

theorem looks_ofAbort (r : Except Abort α) : Looks m a (ofAbort r) fun b => r = .ok b := by
  cases r with
  | ok b => exact .pure rfl
  | error b => exact .throw

theorem looks_activation : Looks m a activation (· = a) := fun _ hw => ⟨hw.activation, hw⟩

theorem looks_machine : Looks m a machine fun _ => True := fun _ hw => ⟨trivial, hw⟩

theorem looks_metadata : Looks m a metadata (· = m.metadata) := fun _ hw => ⟨hw.programs.metadata, hw⟩

theorem looks_modifyMetrics (f : Metrics → Metrics) : Looks m a (modifyMetrics f) fun _ => True :=
  .modify fun _ hw => ⟨hw.activation, hw.programs.metadata, hw.programs.prepared⟩

theorem looks_tracing (f : Trace → Nat → Trace) : Looks m a (tracing f) fun _ => True :=
  .modify fun _ hw => ⟨hw.activation, hw.programs.metadata, hw.programs.prepared⟩

theorem looks_onHeapTrap (x : HeapTrapM α) :
    Looks m a (onHeapTrap x) fun b => ∃ h h', x.run h = (.ok b, h') := by
  intro w hw
  have hw' : ∀ h, Workspace.At m a ⟨{ w.machine with heap := h }, w.activation⟩ := fun h =>
    ⟨hw.activation, hw.programs.metadata, hw.programs.prepared⟩
  unfold Meets
  rw [onHeapTrap_run]
  rcases hr : x.run w.machine.heap with ⟨t | b, h⟩
  · exact hw' h
  · exact ⟨⟨_, h, hr⟩, hw' h⟩

theorem looks_onHeap (x : HeapM α) : Looks m a (onHeap x) fun _ => True :=
  (looks_onHeapTrap _).mono fun _ _ => trivial

theorem looks_resolveMethod (t : Token) : Looks m a (resolveMethod t) fun _ => True := by
  have hlookup : Looks m a (modifyGet fun s => ((s.machine.resolveMethod t).1,
      { s with machine := (s.machine.resolveMethod t).2 }) : ExecM _) fun _ => True := fun _ hw =>
    ⟨trivial, hw.activation, hw.programs.metadata, hw.programs.prepared⟩
  exact hlookup.bind fun r _ => (looks_ofResolution r).mono fun _ _ => trivial

theorem looks_normalize (slot : Nat) (k : Kind) (v : Value) : Looks m a (normalize slot k v) k.Made :=
  (looks_onHeapTrap _).mono fun _ ⟨h, _, hr⟩ => ((HeapTrapM.normalize_made slot k v h trivial).of_ok hr).1

theorem looks_underflow : Looks m a (underflow : ExecM α) fun _ => True := looks_activation.bind fun _ _ => .throw

theorem looks_stackSlot (n : Nat) : Looks m a (stackSlot p n) fun _ => True := by
  refine looks_activation.bind fun b _ => ?_
  dsimp only
  split
  · exact .pure trivial
  · exact looks_underflow

theorem looks_resultSlot (pops : Nat) :
    Looks m a (resultSlot p pops) fun slot => p.layout.stackBase ≤ slot ∧ pops ≤ a.top ∧ slot = a.top - pops := by
  refine looks_activation.bind ?_
  rintro _ rfl
  dsimp only
  split
  · exact .pure ⟨by omega, by omega, rfl⟩
  · exact looks_activation.bind fun _ _ => .throw

/-- A value is read from the stack, by its tag or not. -/
theorem looks_operand (n : Nat) (read : Frame → Nat → Except EngineError α) : Looks m a (do
    let slot ← stackSlot p n
    ofEngine (read (← activation).frame slot)) fun _ => True :=
  (looks_stackSlot n).bind fun _ _ => looks_activation.bind fun _ _ => (looks_ofEngine _).mono fun _ _ => trivial

theorem looks_peek (n : Nat) : Looks m a (peek p n) fun _ => True := looks_operand n Frame.get

theorem looks_int32At (n : Nat) : Looks m a (int32At p n) fun _ => True := looks_operand n Frame.getInt32

theorem looks_int64At (n : Nat) : Looks m a (int64At p n) fun _ => True := looks_operand n Frame.getInt64

theorem looks_nativeAt (n : Nat) : Looks m a (nativeAt p n) fun _ => True :=
  looks_operand n fun f slot => f.getAs slot "int32 or native int" _

theorem looks_floatAt (n : Nat) : Looks m a (floatAt p n) fun _ => True := looks_operand n Frame.getFloat

theorem looks_objectAt (n : Nat) : Looks m a (objectAt p n) fun _ => True := looks_operand n Frame.getObject

theorem looks_pointerAt (n : Nat) : Looks m a (pointerAt p n) fun _ => True := looks_operand n Frame.getPointer

theorem looks_nonNullAt (n : Nat) : Looks m a (nonNullAt p n) fun _ => True := by
  refine (looks_objectAt n).bind fun r _ => ?_
  cases r with
  | some r => exact .pure trivial
  | none => exact .throw

theorem looks_addressAt (n : Nat) : Looks m a (addressAt p n) fun _ => True := by
  refine (looks_stackSlot n).bind fun slot _ => looks_activation.bind fun b _ => (looks_ofEngine _).bind fun v _ => ?_
  split
  · exact .pure trivial
  · exact .throw
  · exact .throw
  · exact .throw

theorem looks_indexAt (n : Nat) : Looks m a (indexAt p n) fun _ => True := by
  refine (looks_nativeAt n).bind fun i _ => ?_
  split
  · exact .throw
  · exact .pure trivial

theorem looks_operandTypes : Looks m a (operandTypes p pc) fun _ => True := by
  unfold operandTypes
  split
  · exact .pure trivial
  · exact .throw

theorem looks_typeOperand : Looks m a (typeOperand p pc) fun _ => True :=
  (looks_ofEngine _).bind fun _ _ => looks_metadata.bind fun _ _ => (looks_ofResolution _).mono fun _ _ => trivial

theorem looks_fieldOperand : Looks m a (fieldOperand p pc) fun _ => True :=
  (looks_ofEngine _).bind fun _ _ => looks_metadata.bind fun _ _ => (looks_ofResolution _).mono fun _ _ => trivial

theorem looks_symbolOperand : Looks m a (symbolOperand p pc) fun _ => True := by
  refine (looks_ofEngine _).bind fun t _ => ?_
  split
  · exact (looks_resolveMethod t).bind fun _ _ => .pure trivial
  · exact looks_metadata.bind fun _ _ => (looks_ofResolution _).mono fun _ _ => trivial

theorem looks_elementKind (kind : Option Kind) : Looks m a (elementKind p pc kind) fun _ => True := by
  cases kind with
  | some k => exact .pure trivial
  | none => exact looks_typeOperand.bind fun _ _ => .pure trivial

/-- The slot of an argument or a local has the kind of that argument or local. -/
theorem looks_placeSlot (hp : p.Framed) (place : Place) (i : Nat) :
    Looks m a (placeSlot p place i) fun slot => p.kinds[slot]? = some (placeKind p place i) := by
  unfold placeSlot
  cases place with
  | argument =>
    dsimp only
    split
    · rename_i hi
      refine .pure ?_
      rw [Nat.zero_add, hp.kinds_argument i hi, placeKind, List.getD_eq_getElem?_getD,
        List.getElem?_eq_getElem (hp.arguments ▸ hi)]
      rfl
    · exact looks_activation.bind fun _ _ => .throw
  | «local» =>
    dsimp only
    split
    · rename_i hi
      refine .pure ?_
      rw [hp.kinds_local i, placeKind, List.getD_eq_getElem?_getD, List.getElem?_eq_getElem (hp.locals ▸ hi)]
      rfl
    · exact looks_activation.bind fun _ _ => .throw

theorem looks_placeIndex (index : SlotIndex) : Looks m a (placeIndex p pc index) fun _ => True := by
  cases index with
  | implied n => exact .pure trivial
  | encoded => exact (looks_ofEngine _).mono fun _ _ => trivial

theorem looks_slotKind (hp : p.Framed) (slot : Nat) : Looks m a (slotKind p slot) fun k => p.kinds[slot]? = some k := by
  have hkind : (if slot < p.layout.arguments then p.argumentKinds[slot]? else
      p.localKinds[slot - p.layout.localBase]?) = p.kinds[slot]? := by
    rw [Prepared.kinds, List.getElem?_append, hp.arguments]
    rfl
  unfold slotKind
  rw [hkind]
  dsimp only
  split
  · rename_i k hk
    exact .pure hk
  · exact looks_activation.bind fun _ _ => .throw

theorem looks_ownSlot (frame : FrameId) (slot : Nat) : Looks m a (ownSlot frame slot) (· = slot) := by
  refine looks_activation.bind fun b _ => ?_
  split
  · exact .pure rfl
  · exact .throw

theorem looks_constant (c : Constant) : Looks m a (constant p pc c) fun _ => True := by
  cases c with
  | implied n => exact .pure trivial
  | _ => exact (looks_ofEngine _).bind fun _ _ => .pure trivial

theorem looks_offsetPointer (q : Pointer) (bytes : Int) : Looks m a (offsetPointer q bytes) fun _ => True := by
  unfold offsetPointer
  split
  · refine looks_metadata.bind fun md _ => (looks_onHeap _).bind fun size _ => ?_
    split
    · exact .throw
    · dsimp only
      split
      · exact .pure trivial
      · exact .throw
  · exact .throw

theorem looks_checkedWord (n : Int) : Looks m a (checkedWord n) fun _ => True := by
  unfold checkedWord
  split
  · exact .pure trivial
  · exact .throw

theorem looks_pointerDifference (q r : Pointer) : Looks m a (pointerDifference q r) fun _ => True := by
  have hotherwise : Looks m a (if q.same r then pure 0 else unsupported (.unrelatedPointers q r) : ExecM (BitVec 64))
      fun _ => True := by
    split
    · exact .pure trivial
    · exact .throw
  unfold pointerDifference
  dsimp only
  split
  · split
    · exact looks_metadata.bind fun _ _ => (looks_onHeap _).bind fun _ _ => (looks_checkedWord _).bind fun _ _ =>
        looks_checkedWord _
    · exact hotherwise
  · exact hotherwise

theorem looks_pointerOffset (b : BinaryOp) (types : OperandTypes) (bytes : BitVec 64) :
    Looks m a (pointerOffset op b types bytes) fun _ => True := by
  unfold pointerOffset
  split
  · exact .pure trivial
  · exact .pure trivial
  · split
    · exact .throw
    · exact .pure trivial
  · split
    · exact .throw
    · exact .pure trivial
  · exact .throw

theorem looks_binaryResult (b : BinaryOp) : Looks m a (binaryResult p pc op b) fun _ => True := by
  refine looks_operandTypes.bind fun types _ => ?_
  have hmoved : ∀ (q : Pointer) (bytes : Int),
      Looks m a (do return .pointer (← offsetPointer q bytes) : ExecM Value) fun _ => True := fun q bytes =>
    (looks_offsetPointer q bytes).bind fun _ _ => .pure trivial
  split
  · exact (looks_int32At 1).bind fun _ _ => (looks_int32At 0).bind fun _ _ => (looks_ofFault _).bind fun _ _ =>
      .pure trivial
  · exact (looks_int64At 1).bind fun _ _ => (looks_int64At 0).bind fun _ _ => (looks_ofFault _).bind fun _ _ =>
      .pure trivial
  · exact (looks_nativeAt 1).bind fun _ _ => (looks_nativeAt 0).bind fun _ _ => (looks_ofFault _).bind fun _ _ =>
      .pure trivial
  · exact (looks_nativeAt 1).bind fun _ _ => (looks_nativeAt 0).bind fun _ _ => (looks_ofFault _).bind fun _ _ =>
      .pure trivial
  · exact (looks_nativeAt 1).bind fun _ _ => (looks_nativeAt 0).bind fun _ _ => (looks_ofFault _).bind fun _ _ =>
      .pure trivial
  · refine (looks_floatAt 1).bind fun x _ => (looks_floatAt 0).bind fun y _ => ?_
    split
    · exact .pure trivial
    · exact .throw
  · exact (looks_nativeAt 0).bind fun _ _ => (looks_pointerOffset _ _ _).bind fun _ _ =>
      (looks_pointerAt 1).bind fun _ _ => hmoved _ _
  · exact (looks_nativeAt 0).bind fun _ _ => (looks_pointerOffset _ _ _).bind fun _ _ =>
      (looks_pointerAt 1).bind fun _ _ => hmoved _ _
  · exact (looks_pointerAt 0).bind fun _ _ => (looks_nativeAt 1).bind fun _ _ => hmoved _ _
  · exact (looks_pointerAt 0).bind fun _ _ => (looks_nativeAt 1).bind fun _ _ => hmoved _ _
  · exact (looks_pointerAt 1).bind fun _ _ => (looks_pointerAt 0).bind fun _ _ =>
      (looks_pointerDifference _ _).bind fun _ _ => .pure trivial
  · exact .throw

theorem looks_compareTop (c : Comparison) : Looks m a (compareTop p pc op c) fun _ => True := by
  refine looks_operandTypes.bind fun types _ => ?_
  have hanswered : ∀ answer : Option Bool, Looks m a (pure answer >>= answered op types) fun _ => True := by
    intro answer
    cases answer with
    | some b => exact .pure trivial
    | none => exact .throw
  split
  · exact (looks_int32At 1).bind fun _ _ => (looks_int32At 0).bind fun _ _ => hanswered _
  · exact (looks_int64At 1).bind fun _ _ => (looks_int64At 0).bind fun _ _ => hanswered _
  · exact (looks_nativeAt 1).bind fun _ _ => (looks_nativeAt 0).bind fun _ _ => hanswered _
  · exact (looks_nativeAt 1).bind fun _ _ => (looks_nativeAt 0).bind fun _ _ => hanswered _
  · exact (looks_nativeAt 1).bind fun _ _ => (looks_nativeAt 0).bind fun _ _ => hanswered _
  · exact (looks_floatAt 1).bind fun _ _ => (looks_floatAt 0).bind fun _ _ => hanswered _
  · exact (looks_objectAt 1).bind fun _ _ => (looks_objectAt 0).bind fun _ _ => hanswered _
  · exact (looks_peek 1).bind fun _ _ => (looks_peek 0).bind fun _ _ => hanswered _
  · exact hanswered _
  · exact hanswered _
  · exact hanswered _

theorem looks_truth : Looks m a (truth p pc op) fun _ => True := by
  refine looks_operandTypes.bind fun types _ => ?_
  split
  · exact (looks_int32At 0).bind fun _ _ => .pure trivial
  · exact (looks_int64At 0).bind fun _ _ => .pure trivial
  · exact (looks_nativeAt 0).bind fun _ _ => .pure trivial
  · exact (looks_objectAt 0).bind fun _ _ => .pure trivial
  · refine (looks_peek 0).bind fun v _ => ?_
    split
    · exact .pure trivial
    · exact .pure trivial
  · exact .throw

theorem looks_deref (q : Pointer) (k : Kind) : Looks m a (deref q k) fun _ => True := by
  cases q with
  | slot frame slot =>
    exact (looks_ownSlot frame slot).bind fun _ _ => looks_activation.bind fun _ _ =>
      (looks_ofEngine _).mono fun _ _ => trivial
  | field object f => exact looks_metadata.bind fun _ _ => looks_onHeap _
  | static f => exact looks_metadata.bind fun _ _ => looks_onHeap _
  | element array index => exact looks_onHeap _
  | boxed object => exact looks_onHeap _
  | method h => exact .throw

theorem looks_loadThrough (q : Pointer) (k : Kind) : Looks m a (loadThrough q k) fun _ => True :=
  (looks_deref q k).bind fun _ _ => looks_activation.bind fun _ _ => (looks_normalize _ k _).mono fun _ _ => trivial

theorem looks_ownerOf (v : Value) : Looks m a (ownerOf v) fun _ => True := by
  have howned : ∀ object : Option Ref, Looks m a (pure object >>= owned) fun _ => True := by
    intro object
    cases object with
    | some r => exact .pure trivial
    | none => exact .throw
  unfold ownerOf
  cases v with
  | object r => exact howned r
  | pointer q =>
    refine (looks_deref q .struct).bind fun u _ => ?_
    cases u with
    | object r => exact howned r
    | _ => exact .throw
  | nativeInt n => exact .throw
  | _ => exact looks_activation.bind fun _ _ => .throw

theorem looks_fieldOwner (n : Nat) : Looks m a (fieldOwner p n) fun _ => True := by
  rw [fieldOwner_eq]
  exact (looks_peek n).bind fun v _ => looks_ownerOf v

/-! ## Instructions without a result -/

theorem looks_storeElement (kind : Option Kind) : Looks m a (storeElement p pc kind) Next.Stays :=
  (looks_elementKind kind).bind fun _ _ => (looks_nonNullAt 2).bind fun _ _ => (looks_indexAt 1).bind fun _ _ =>
    looks_activation.bind fun _ _ => (looks_peek 0).bind fun _ _ => (looks_normalize _ _ _).bind fun _ _ =>
      looks_metadata.bind fun _ _ => (looks_onHeap _).bind fun _ _ => .pure trivial

theorem looks_storeField : Looks m a (storeField p pc) Next.Stays := by
  refine looks_fieldOperand.bind fun f _ => looks_activation.bind fun _ _ => (looks_peek 0).bind fun v _ => ?_
  refine (looks_normalize _ _ v).bind fun u _ => ?_
  split
  · exact (looks_onHeap _).bind fun _ _ => .pure trivial
  · exact (looks_fieldOwner 1).bind fun _ _ => (looks_onHeap _).bind fun _ _ => .pure trivial

theorem looks_storeStatic : Looks m a (storeStatic p pc) Next.Stays :=
  looks_fieldOperand.bind fun _ _ => looks_activation.bind fun _ _ => (looks_peek 0).bind fun v _ =>
    (looks_normalize _ _ v).bind fun _ _ => (looks_onHeap _).bind fun _ _ => .pure trivial

theorem looks_jumpIf (taken : Bool) : Looks m a (jumpIf p pc op taken) Next.Stays := by
  refine (looks_ofEngine _).bind fun target _ => (looks_tracing _).bind fun _ _ => .pure ?_
  cases taken <;> trivial

theorem looks_switch : Looks m a (switch p pc) Next.Stays := by
  have hlast : ∀ index : Nat, Looks m a (pure index >>= jumpInto p pc) Next.Stays := by
    intro index
    refine Maintains.bind (P := fun _ => True) (.pure trivial) fun index _ => ?_
    refine (looks_ofEngine _).bind fun targets _ => ?_
    split
    · exact .pure trivial
    · exact .pure trivial
  refine (looks_peek 0).bind fun v _ => ?_
  split
  · exact hlast _
  · exact (looks_nativeAt 0).bind fun _ _ => hlast _

theorem looks_throwTop : Looks m a (throwTop p) Next.Stays := by
  refine (looks_objectAt 0).bind fun r _ => looks_machine.bind fun m' _ => ?_
  split
  · exact .throw
  · exact looks_metadata.bind fun _ _ => (looks_ofResolution _).bind fun _ _ => .throw

theorem looks_rethrow : Looks m a (rethrow p pc) Next.Stays :=
  looks_activation.bind fun _ _ => (looks_ofEngine _).bind fun _ _ => .throw

/-! ## Instructions that write -/

theorem puts_put {slot : Nat} {v : Value} (h : a.Wrote p limit { a with frame := a.frame.set slot v }) :
    Puts p limit m a (put slot v) fun _ => True := by
  intro w hw
  refine (put_meets slot v).mono ?_ fun _ _ ⟨_, _, _, hw'⟩ => hw'.symm ▸ hw
  rintro _ _ ⟨-, rfl⟩
  obtain ⟨rfl, hm⟩ := hw
  exact ⟨trivial, _, h, rfl, hm⟩

section

variable (hp : p.Framed)
include hp

theorem puts_variable {slot : Nat} {k : Kind} {v : Value} (hk : p.kinds[slot]? = some k) (hv : k.Made v) :
    Puts p limit m a (put slot v) fun _ => True := puts_put (.variable hp hk hv)

theorem puts_copySlot {source slot : Nat} (hlow : p.layout.stackBase ≤ slot) (hhigh : slot < limit) :
    Puts p limit m a (copySlot source slot) fun _ => True := by
  intro w hw
  refine (copySlot_meets source slot).mono ?_ fun _ _ hw' => hw'.symm ▸ hw
  rintro _ _ ⟨v, -, -, rfl⟩
  obtain ⟨rfl, hm⟩ := hw
  exact ⟨trivial, _, .result hp hlow hhigh v, rfl, hm⟩

/-- **A result is written where the table says.** -/
theorem puts_result {n : Nat} (hl : limit = a.top - n + 1) (v : Value) :
    Puts p limit m a (do result p n v; return Next.advance) Next.Stays := by
  refine .finish (.after (looks_resultSlot n) fun slot ⟨hlow, hpops, hslot⟩ => ?_) trivial
  exact puts_put (.result hp hlow (by omega) v)

theorem puts_storeThrough (q : Pointer) (k : Kind) (v : Value) :
    Puts p limit m a (storeThrough p q k v) fun _ => True := by
  refine .after looks_activation fun b _ => ?_
  cases q with
  | slot frame slot =>
    refine .after (looks_ownSlot frame slot) fun slot' _ => .after (looks_slotKind hp slot') fun k hk => ?_
    exact .after (looks_normalize slot' k v) fun u hu => puts_variable hp hk hu
  | field object f => exact .after (looks_normalize _ _ v) fun _ _ => .of_looks (looks_onHeap _)
  | static f => exact .after (looks_normalize _ _ v) fun _ _ => .of_looks (looks_onHeap _)
  | element array index =>
    exact .after (looks_normalize _ _ v) fun _ _ => .after looks_metadata fun _ _ => .of_looks (looks_onHeap _)
  | boxed object =>
    exact .after (looks_normalize _ _ v) fun _ _ => .after looks_metadata fun _ _ => .of_looks (looks_onHeap _)
  | method h => exact .throw _

theorem puts_storeIndirect (k : Kind) : Puts p limit m a (storeIndirect p k) Next.Stays :=
  .after (looks_addressAt 1) fun q _ => .after (looks_peek 0) fun v _ => .finish (puts_storeThrough hp q k v) trivial

theorem puts_store (place : Place) (index : SlotIndex) : Puts p limit m a (store p pc place index) Next.Stays := by
  refine .after (looks_placeIndex index) fun i _ => .after (looks_placeSlot hp place i) fun slot hk => ?_
  exact .after (looks_peek 0) fun v _ => .after (looks_normalize slot _ v) fun u hu =>
    .finish (puts_variable hp hk hu) trivial

theorem puts_dup (hl : limit = a.top - 1 + 2) : Puts p limit m a (dup p) Next.Stays :=
  .after (looks_resultSlot 1) fun _ ⟨hlow, _, hslot⟩ => .finish (puts_copySlot hp (by omega) (by omega)) trivial

theorem puts_load (hl : limit = a.top - 0 + 1) (place : Place) (index : SlotIndex) :
    Puts p limit m a (load p pc place index) Next.Stays := by
  refine .after (looks_placeIndex index) fun i _ => .after (looks_placeSlot hp place i) fun source _ => ?_
  exact .after (looks_resultSlot 0) fun _ ⟨hlow, _, hslot⟩ => .finish (puts_copySlot hp hlow (by omega)) trivial

theorem puts_loadAddress (hl : limit = a.top - 0 + 1) (place : Place) :
    Puts p limit m a (loadAddress p pc place) Next.Stays := by
  refine .after (looks_placeIndex .encoded) fun i _ => .after (looks_placeSlot hp place i) fun slot _ => ?_
  refine .after looks_activation fun b _ => .after (looks_resultSlot 0) fun target ⟨hlow, _, htarget⟩ => ?_
  exact .finish (puts_put (.result hp hlow (by omega) _)) trivial

section

variable (hl : limit = a.top - 1 + 1)
include hl

theorem puts_unary (u : UnaryOp) : Puts p limit m a (unary p pc op u) Next.Stays := by
  refine .after looks_operandTypes fun types _ => ?_
  split
  · exact .after (looks_int32At 0) fun _ _ => puts_result hp hl _
  · exact .after (looks_int64At 0) fun _ _ => puts_result hp hl _
  · exact .after (looks_nativeAt 0) fun _ _ => puts_result hp hl _
  · exact .after (looks_floatAt 0) fun _ _ => puts_result hp hl _
  · exact .throw _

theorem puts_checkFinite : Puts p limit m a (checkFinite p) Next.Stays := by
  refine .after (looks_floatAt 0) fun x _ => ?_
  split
  · exact puts_result hp hl _
  · exact .throw _

theorem puts_convert (c : Conversion) : Puts p limit m a (convert p c) Next.Stays := by
  refine .after (looks_peek 0) fun v _ => ?_
  split
  · exact puts_result hp hl _
  · exact .throw _

theorem puts_loadIndirect (k : Kind) : Puts p limit m a (loadIndirect p k) Next.Stays :=
  .after (looks_addressAt 0) fun q _ => .after (looks_loadThrough q k) fun _ _ => puts_result hp hl _

theorem puts_newArray : Puts p limit m a (newArray p pc) Next.Stays := by
  refine .after looks_typeOperand fun element _ => .after (looks_nativeAt 0) fun length _ => ?_
  split
  · exact .throw _
  · exact .after looks_metadata fun _ _ => .after (looks_onHeap _) fun _ _ => puts_result hp hl _

theorem puts_arrayLength : Puts p limit m a (arrayLength p) Next.Stays :=
  .after (looks_nonNullAt 0) fun _ _ => .after (looks_onHeap _) fun _ _ => puts_result hp hl _

theorem puts_loadField : Puts p limit m a (loadField p pc) Next.Stays := by
  refine .after looks_fieldOperand fun f _ => ?_
  split
  · exact .after looks_metadata fun _ _ => .after (looks_onHeap _) fun _ _ => puts_result hp hl _
  · exact .after (looks_fieldOwner 0) fun _ _ => .after looks_metadata fun _ _ => .after (looks_onHeap _) fun _ _ =>
      puts_result hp hl _

theorem puts_fieldAddress : Puts p limit m a (fieldAddress p pc) Next.Stays := by
  refine .after looks_fieldOperand fun f _ => ?_
  split
  · exact puts_result hp hl _
  · exact .after (looks_fieldOwner 0) fun _ _ => puts_result hp hl _

theorem puts_cast (faults : Bool) : Puts p limit m a (cast p pc faults) Next.Stays := by
  refine .after looks_typeOperand fun target _ => .after (looks_objectAt 0) fun r _ => ?_
  refine .after looks_machine fun m' _ => ?_
  split
  · exact .pure trivial
  · refine .after looks_metadata fun md _ => ?_
    split
    · exact .throw _
    · exact .pure trivial
    · split
      · exact .after looks_metadata fun _ _ => .after (looks_ofResolution _) fun _ _ => .throw _
      · exact puts_result hp hl _

theorem puts_box : Puts p limit m a (box p pc) Next.Stays := by
  refine .after looks_typeOperand fun type _ => ?_
  split
  · exact .after looks_activation fun _ _ => .after (looks_peek 0) fun _ _ => .after (looks_normalize _ _ _) fun _ _ =>
      .after (looks_onHeap _) fun _ _ => puts_result hp hl _
  · exact .pure trivial

theorem puts_unbox : Puts p limit m a (unbox p pc) Next.Stays :=
  .after looks_typeOperand fun _ _ => .after (looks_nonNullAt 0) fun _ _ => .after (looks_onHeap _) fun _ _ =>
    puts_result hp hl _

theorem puts_unboxAny : Puts p limit m a (unboxAny p pc) Next.Stays := by
  refine .after looks_typeOperand fun type _ => ?_
  split
  · exact .after (looks_nonNullAt 0) fun _ _ => .after (looks_onHeap _) fun _ _ => puts_result hp hl _
  · exact puts_cast hp hl true

theorem puts_virtualPointer : Puts p limit m a (virtualPointer p pc) Next.Stays := by
  refine .after (looks_ofEngine _) fun t _ => .after (looks_resolveMethod t) fun m' _ => ?_
  refine .after (looks_nonNullAt 0) fun r _ => .after looks_machine fun _ _ => ?_
  split
  · exact .after looks_metadata fun _ _ => .after (looks_ofAbort _) fun _ _ => puts_result hp hl _
  · exact puts_result hp hl _

end

section

variable (hl : limit = a.top - 2 + 1)
include hl

theorem puts_shift (s : ShiftOp) : Puts p limit m a (shift p pc op s) Next.Stays := by
  refine .after looks_operandTypes fun types _ => .after (looks_nativeAt 0) fun amount _ => ?_
  dsimp only
  split
  · exact .after (looks_int32At 1) fun _ _ => puts_result hp hl _
  · exact .after (looks_int64At 1) fun _ _ => puts_result hp hl _
  · exact .after (looks_nativeAt 1) fun _ _ => puts_result hp hl _
  · exact .throw _

theorem puts_elementAddress : Puts p limit m a (elementAddress p) Next.Stays := by
  refine .after (looks_nonNullAt 1) fun r _ => .after (looks_indexAt 0) fun i _ => .after (looks_onHeap _) fun n _ => ?_
  split
  · exact .throw _
  · exact puts_result hp hl _

theorem puts_loadElement (kind : Option Kind) : Puts p limit m a (loadElement p pc kind) Next.Stays :=
  .after (looks_elementKind kind) fun _ _ => .after (looks_nonNullAt 1) fun _ _ => .after (looks_indexAt 0) fun _ _ =>
    .after (looks_onHeap _) fun _ _ => puts_result hp hl _

end

/-! ## All of them -/

/-- **An instruction that is no transfer writes what its entry in the table accounts for**, and nothing when it
traps. -/
theorem puts_instruction (hplain : op.action.isTransfer = false) :
    Puts p (op.limit a.top) m a (instruction p pc op) Next.Stays := by
  have result : ∀ {b : Action} {n : Nat}, op.action = b → b.resultPops? = some n →
      op.limit a.top = a.top - n + 1 :=
    fun hact hn => Opcode.limit_fixed (op.effect_of_resultPops? (by rw [hact]; exact hn)) _
  unfold instruction
  cases hact : op.action with
  | skip => exact .pure trivial
  | pop => exact .pure trivial
  | load place index => exact puts_load hp (result hact rfl) place index
  | address place => exact puts_loadAddress hp (result hact rfl) place
  | store place index => exact puts_store hp place index
  | loadNull => exact puts_result hp (result hact rfl) _
  | loadConstant c => exact .after (looks_constant c) fun _ _ => puts_result hp (result hact rfl) _
  | dup => exact puts_dup hp (Opcode.limit_fixed (op.effect_dup hact) _)
  | jump => exact .of_looks (looks_jumpIf true)
  | jumpOn wanted => exact .after looks_truth fun _ _ => .of_looks (looks_jumpIf _)
  | jumpCompare c => exact .after (looks_compareTop c) fun _ _ => .of_looks (looks_jumpIf _)
  | switch => exact .of_looks looks_switch
  | throw => exact .of_looks looks_throwTop
  | rethrow => exact .of_looks looks_rethrow
  | compare c => exact .after (looks_compareTop c) fun _ _ => puts_result hp (result hact rfl) _
  | binary b => exact .after (looks_binaryResult b) fun _ _ => puts_result hp (result hact rfl) _
  | shift s => exact puts_shift hp (result hact rfl) s
  | unary u => exact puts_unary hp (result hact rfl) u
  | checkFinite => exact puts_checkFinite hp (result hact rfl)
  | convert c => exact puts_convert hp (result hact rfl) c
  | loadIndirect k => exact puts_loadIndirect hp (result hact rfl) k
  | storeIndirect k => exact puts_storeIndirect hp k
  | loadObject => exact .after looks_typeOperand fun type _ => puts_loadIndirect hp (result hact rfl) type.kind
  | storeObject => exact .after looks_typeOperand fun type _ => puts_storeIndirect hp type.kind
  | copyObject =>
    exact .after looks_typeOperand fun _ _ => .after (looks_addressAt 1) fun _ _ =>
      .after (looks_addressAt 0) fun _ _ => .after (looks_loadThrough _ _) fun _ _ => .finish (puts_storeThrough hp _ _ _) trivial
  | initObject =>
    exact .after looks_typeOperand fun _ _ => .after (looks_addressAt 0) fun _ _ => .after looks_metadata fun _ _ =>
      .after (looks_onHeap _) fun _ _ => .finish (puts_storeThrough hp _ _ _) trivial
  | loadString =>
    exact .after (looks_ofEngine _) fun _ _ => .after looks_metadata fun _ _ => .after (looks_ofResolution _) fun _ _ =>
      .after (looks_onHeap _) fun _ _ => puts_result hp (result hact rfl) _
  | loadToken =>
    exact .after looks_symbolOperand fun _ _ => .after (looks_onHeap _) fun _ _ => puts_result hp (result hact rfl) _
  | newArray => exact puts_newArray hp (result hact rfl)
  | arrayLength => exact puts_arrayLength hp (result hact rfl)
  | elementAddress => exact puts_elementAddress hp (result hact rfl)
  | loadElement kind => exact puts_loadElement hp (result hact rfl) kind
  | storeElement kind => exact .of_looks (looks_storeElement kind)
  | loadField => exact puts_loadField hp (result hact rfl)
  | fieldAddress => exact puts_fieldAddress hp (result hact rfl)
  | storeField => exact .of_looks looks_storeField
  | loadStatic =>
    exact .after looks_fieldOperand fun _ _ => .after looks_metadata fun _ _ => .after (looks_onHeap _) fun _ _ =>
      puts_result hp (result hact rfl) _
  | staticAddress => exact .after looks_fieldOperand fun _ _ => puts_result hp (result hact rfl) _
  | storeStatic => exact .of_looks looks_storeStatic
  | castClass => exact puts_cast hp (result hact rfl) true
  | isInstance => exact puts_cast hp (result hact rfl) false
  | box => exact puts_box hp (result hact rfl)
  | unbox => exact puts_unbox hp (result hact rfl)
  | unboxAny => exact puts_unboxAny hp (result hact rfl)
  | sizeOf =>
    exact .after looks_typeOperand fun _ _ => .after looks_metadata fun _ _ => .after (looks_onHeap _) fun _ _ =>
      puts_result hp (result hact rfl) _
  | functionPointer =>
    exact .after (looks_ofEngine _) fun t _ => .after (looks_resolveMethod t) fun _ _ =>
      puts_result hp (result hact rfl) _
  | virtualPointer => exact puts_virtualPointer hp (result hact rfl)
  | ret | leave | endFinally | callSite | cachedCall => rw [hact] at hplain; cases hplain
  | _ => exact .throw _

/-- The same of one run of the instruction. -/
theorem instruction_wrote (pc : Nat) (w : Workspace) (hplain : op.action.isTransfer = false) :
    Meets (instruction p pc op) w
      (fun n w' => n.Stays ∧ w.activation.Wrote p (op.limit w.activation.top) w'.activation ∧
        w.machine.SamePrograms w'.machine)
      fun _ w' => w'.At w.machine w.activation := by
  refine (puts_instruction hp hplain w ⟨rfl, rfl, rfl⟩).mono ?_ fun _ _ h => h
  rintro n w' ⟨hn, a', hwrote, rfl, hsame⟩
  exact ⟨hn, hwrote, hsame⟩

end

end ExecM

end ManagedCode
