import ManagedCode.Machine.Instruction
import ManagedCode.Proofs.Alike
import ManagedCode.Proofs.Effects
import ManagedCode.Proofs.Endings

/-!
# What an instruction leaves alone

Most instructions read operands and write results in place. They touch the slots of their own frame, the heap, the
counts and the trace, and nothing else: the tables, the methods that are ready, the offset, the height of the stack and
the state of exception handling are as before (`Workspace.Kept`). When they fail, they do not fail for want of an
analysis. Nor are they influenced by what they leave alone (`Blind`). `Quiet x P` says all this of a computation, and
that its results satisfy `P`; the lemmas below say it of one function after the other.
-/

namespace ManagedCode

/-- Whether a trap is anything but the report of an offset that was not analyzed. -/
def Trap.isOrdinary : Trap → Bool
  | .abort (.error e) => !e.isUnanalyzed
  | _ => true

namespace Workspace

/-- The frame has the same name, layout and number of slots. -/
structure SameFrame (f f' : Frame) : Prop where
  id : f'.id = f.id
  layout : f'.layout = f.layout
  size : f'.size = f.size

/-- **Nothing has changed but slots, the heap, counts and the trace.** -/
structure Kept (w w' : Workspace) : Prop where
  machine : w'.machine = { w.machine with
    heap := w'.machine.heap, metrics := w'.machine.metrics, trace := w'.machine.trace, lookups := w'.machine.lookups }
  activation : w'.activation = { w.activation with frame := w'.activation.frame }
  frame : SameFrame w.activation.frame w'.activation.frame

theorem SameFrame.refl (f : Frame) : SameFrame f f := ⟨rfl, rfl, rfl⟩

theorem SameFrame.trans {f f' f'' : Frame} (h : SameFrame f f') (h' : SameFrame f' f'') : SameFrame f f'' :=
  ⟨h'.id.trans h.id, h'.layout.trans h.layout, h'.size.trans h.size⟩

namespace Kept

variable {w w' w'' : Workspace}

theorem refl (w : Workspace) : w.Kept w := ⟨rfl, rfl, .refl _⟩

theorem trans (h : w.Kept w') (h' : w'.Kept w'') : w.Kept w'' where
  machine := by rw [h'.machine, h.machine]
  activation := by rw [h'.activation, h.activation]
  frame := h.frame.trans h'.frame

theorem metadata (h : w.Kept w') : w'.machine.metadata = w.machine.metadata := by rw [h.machine]

theorem prepared (h : w.Kept w') : w'.machine.prepared = w.machine.prepared := by rw [h.machine]

theorem pc (h : w.Kept w') : w'.activation.pc = w.activation.pc := by rw [h.activation]

theorem top (h : w.Kept w') : w'.activation.top = w.activation.top := by rw [h.activation]

theorem method (h : w.Kept w') : w'.activation.method = w.activation.method := by rw [h.activation]

theorem unwinding (h : w.Kept w') : w'.activation.unwinding = w.activation.unwinding := by rw [h.activation]

end Kept

end Workspace

/-! ## Frames -/

namespace Frame

variable {f f' : Frame} {slot source target : Nat} {v : Value}

theorem put_ok (h : f.put slot v = .ok f') : slot < f.size ∧ f' = { f with slots := f.slots.setIfInBounds slot v } := by
  unfold put at h
  split at h
  · rename_i hlt
    cases h
    exact ⟨hlt, rfl⟩
  · cases h

theorem sameFrame_put (h : f.put slot v = .ok f') : Workspace.SameFrame f f' := by
  obtain ⟨-, rfl⟩ := put_ok h
  exact ⟨rfl, rfl, Array.size_setIfInBounds⟩

theorem copy_ok (h : f.copy source target = .ok f') : ∃ v, f.get source = .ok v ∧ f.put target v = .ok f' := by
  unfold copy at h
  cases hg : f.get source with
  | error e => rw [hg] at h; cases h
  | ok v => rw [hg] at h; exact ⟨v, rfl, h⟩

theorem get_error {e : EngineError} (h : f.get slot = .error e) : ∃ n, e = .slotType slot (.outside n) := by
  unfold get at h
  split at h
  · cases h
  · cases h; exact ⟨_, rfl⟩

theorem put_error {e : EngineError} (h : f.put slot v = .error e) : ∃ n, e = .slotType slot (.outside n) := by
  unfold put at h
  split at h
  · cases h
  · cases h; exact ⟨_, rfl⟩

/-- What is wrong with a slot is never that an offset was not analyzed. -/
theorem getAs_error {α : Type} {expected : String} {select : Value → Option α} {e : EngineError}
    (h : f.getAs slot expected select = .error e) : ∃ w, e = .slotType slot w := by
  unfold getAs at h
  cases hg : f.get slot with
  | error e' =>
    rw [hg] at h
    cases h
    obtain ⟨n, rfl⟩ := get_error hg
    exact ⟨_, rfl⟩
  | ok v =>
    rw [hg] at h
    simp only [bind, Except.bind] at h
    split at h
    · cases h
    · cases h; exact ⟨_, rfl⟩

end Frame

/-! ## Instructions -/

/-- The bytes of the operand that a constant takes from the code. -/
def Constant.width? : Constant → Option Nat
  | .implied _ => none
  | .short => some 1
  | .int | .shortReal => some 4
  | .long | .real => some 8

/-- The bytes of the operand that an action reads: of a constant, or of a token. -/
def Action.width? : Action → Option Nat
  | .loadConstant c => c.width?
  | .loadObject | .storeObject | .copyObject | .initObject | .loadString | .loadToken | .newArray | .loadElement none
  | .storeElement none | .loadField | .fieldAddress | .storeField | .loadStatic | .staticAddress | .storeStatic
  | .castClass | .isInstance | .box | .unbox | .unboxAny | .sizeOf | .functionPointer | .virtualPointer
  | .callSite _ => some 4
  | _ => none

/-- The actions that move the height of the stack themselves, or hand over to another method. -/
def Action.isTransfer : Action → Bool
  | .ret | .leave | .endFinally | .callSite _ | .cachedCall => true
  | _ => false

/-- The actions after which control never goes on to the next instruction. -/
def Action.endsBlock : Action → Bool
  | .jump | .leave | .ret | .callSite .jmp | .throw | .rethrow | .endFinally | .endFilter => true
  | _ => false

namespace Opcode

/-- An instruction has the operand that its action reads. -/
theorem size?_of_width? (op : Opcode) {n : Nat} (h : op.action.width? = some n) : op.operand.size? = some n := by
  cases op <;> cases h <;> rfl

theorem size?_switch (op : Opcode) (h : op.action = .switch) : op.operand.size? = none := by
  cases op <;> first | rfl | cases h

theorem endsBlock_eq (op : Opcode) : op.endsBlock = op.action.endsBlock := by
  cases op <;> rfl

end Opcode

namespace ExecM

variable {α β : Type} {p : Prepared} {pc : Nat} {op : Opcode}

/-- **A computation that leaves all but slots and heap alone**, and is not influenced by it, with results as `P`
says. -/
structure Quiet (x : ExecM α) (P : α → Prop) : Prop where
  meets : ∀ w, Meets x w (fun a w' => P a ∧ w.Kept w') fun t w' => t.isOrdinary = true ∧ w.Kept w'
  blind : Blind x

/-- A quiet computation about whose results nothing is said. -/
abbrev Calm (x : ExecM α) : Prop := Quiet x fun _ => True

namespace Quiet

variable {x : ExecM α} {f : α → ExecM β} {P P' : α → Prop} {R : β → Prop}

theorem pure {a : α} (h : P a) : Quiet (pure a) P := ⟨fun w => ⟨h, .refl w⟩, .pure a⟩

theorem throw {t : Trap} (h : t.isOrdinary = true) : Quiet (throw t : ExecM α) P := ⟨fun w => ⟨h, .refl w⟩, .throw t⟩

theorem mono (hx : Quiet x P) (h : ∀ a, P a → P' a) : Quiet x P' :=
  ⟨fun w => (hx.meets w).mono (fun a _ ⟨ha, hk⟩ => ⟨h a ha, hk⟩) fun _ _ he => he, hx.blind⟩

theorem calm (hx : Quiet x P) : Calm x := hx.mono fun _ _ => trivial

theorem bind (hx : Quiet x P) (hf : ∀ a, P a → Quiet (f a) R) : Quiet (x >>= f) R where
  meets := by
    intro w
    refine Meets.bind (hx.meets w) fun a w' ⟨ha, hk⟩ => ?_
    exact ((hf a ha).meets w').mono (fun b w'' ⟨hb, hk'⟩ => ⟨hb, hk.trans hk'⟩) fun t w'' ⟨ht, hk'⟩ =>
      ⟨ht, hk.trans hk'⟩
  blind := hx.blind.bind_of fun w a _ hr => (hf a ((hx.meets w).of_ok hr).1).blind

/-- The first result does not matter. -/
theorem next (hx : Calm x) (hf : ∀ a, Quiet (f a) R) : Quiet (x >>= f) R := hx.bind fun a _ => hf a

/-- A look at the machine, of which nothing is used that may differ between machines that are alike. -/
theorem machine {f : Machine → ExecM β} (ha : ∀ m m' : Machine, m.Alike m' → f m' = f m) (hf : ∀ m, Quiet (f m) R) :
    Quiet (machine >>= f) R :=
  ⟨fun w => (hf w.machine).meets w, .machine ha fun m => (hf m).blind⟩

end Quiet

/-! ## Traps and parts of the workspace -/

theorem quiet_fault (k : FaultKind) (P : α → Prop) : Quiet (fault k) P := .throw rfl

theorem quiet_unsupported (u : Unsupported) (P : α → Prop) : Quiet (unsupported u) P := .throw rfl

theorem quiet_ofEngine {r : Except EngineError α} (h : ∀ e, r = .error e → e.isUnanalyzed = false) :
    Quiet (ofEngine r) fun a => r = .ok a := by
  cases r with
  | ok a => exact .pure rfl
  | error e => exact .throw (by rw [Trap.ofError, Trap.isOrdinary, h e rfl]; rfl)

theorem quiet_ofResolution (r : Except ResolutionError α) : Quiet (ofResolution r) fun a => r = .ok a := by
  cases r with
  | ok a => exact .pure rfl
  | error e => exact .throw rfl

theorem calm_ofFault (r : Except FaultKind α) : Calm (ofFault r) := by
  cases r with
  | ok a => exact .pure trivial
  | error k => exact .throw rfl

theorem calm_activation : Calm activation := ⟨fun w => ⟨trivial, .refl w⟩, .activation⟩

theorem calm_metadata : Calm metadata := ⟨fun w => ⟨trivial, .refl w⟩, .metadata⟩

theorem calm_tracing {f : Trace → Nat → Trace} (hf : ∀ t t' n, t.Alike t' → (f t n).Alike (f t' n)) :
    Calm (tracing f) := ⟨fun _ => ⟨trivial, rfl, rfl, .refl _⟩, .tracing hf⟩

theorem quiet_resolveMethod (t : Token) : Calm (resolveMethod t) where
  meets := by
    intro w
    unfold resolveMethod
    refine Meets.bind (Q := fun _ w' => w.Kept w') ⟨rfl, rfl, .refl _⟩ fun r w' hk => ?_
    refine ((quiet_ofResolution r).calm.meets w').mono (fun _ _ ⟨h, hk'⟩ => ⟨h, hk.trans hk'⟩) fun _ _ ⟨h, hk'⟩ =>
      ⟨h, hk.trans hk'⟩
  blind := .resolveMethod t

theorem onHeapTrap_run (x : HeapTrapM α) (w : Workspace) : (onHeapTrap x).run w =
    ((x.run w.machine.heap).1, ⟨{ w.machine with heap := (x.run w.machine.heap).2 }, w.activation⟩) := rfl

theorem calm_onHeapTrap {x : HeapTrapM α}
    (h : ∀ heap, Meets x heap (fun _ _ => True) fun t _ => t.isOrdinary = true) : Calm (onHeapTrap x) := by
  refine ⟨fun w => ?_, .onHeapTrap x⟩
  have h := h w.machine.heap
  unfold Meets at h ⊢
  rw [onHeapTrap_run]
  rcases hr : x.run w.machine.heap with ⟨t | a, heap⟩
  · rw [hr] at h
    exact ⟨h, rfl, rfl, .refl _⟩
  · exact ⟨trivial, rfl, rfl, .refl _⟩

theorem ofHeap_meets (x : HeapM α) (heap : Heap) :
    Meets (HeapTrapM.ofHeap x) heap (fun _ _ => True) fun t _ => t.isOrdinary = true := by
  have hr : (HeapTrapM.ofHeap x).run heap = (Except.mapError HeapFailure.trap (x.run heap).1, (x.run heap).2) := rfl
  unfold Meets
  rw [hr]
  rcases x.run heap with ⟨f | a, heap'⟩
  · cases f <;> rfl
  · trivial

theorem calm_onHeap (x : HeapM α) : Calm (onHeap x) := calm_onHeapTrap (ofHeap_meets x)

theorem calm_normalize (slot : Nat) (k : Kind) (v : Value) : Calm (normalize slot k v) := by
  refine calm_onHeapTrap fun heap => ?_
  have hlast : ∀ u heap', Meets (HeapTrapM.coerced slot k u) heap' (fun _ _ => True)
      fun t _ => t.isOrdinary = true := by
    intro u heap'
    unfold HeapTrapM.coerced
    cases k.coerce u with
    | some w => exact trivial
    | none => exact rfl
  rw [HeapTrapM.normalize_eq]
  split
  · exact Meets.bind (ofHeap_meets _ heap) fun u heap' _ => hlast u heap'
  · exact hlast v heap

/-! ## Slots and operands -/

theorem calm_put (slot : Nat) (v : Value) : Calm (put slot v) := by
  refine ⟨fun w => ?_, .put slot v⟩
  unfold put
  show Meets (ofEngine (w.activation.frame.put slot v) >>= _) w _ _
  cases h : w.activation.frame.put slot v with
  | error e =>
    obtain ⟨n, rfl⟩ := Frame.put_error h
    exact ⟨rfl, .refl w⟩
  | ok f => exact ⟨trivial, rfl, rfl, Frame.sameFrame_put h⟩

theorem calm_copySlot (source target : Nat) : Calm (copySlot source target) := by
  refine ⟨fun w => ?_, .copySlot source target⟩
  unfold copySlot
  show Meets (ofEngine (w.activation.frame.copy source target) >>= _) w _ _
  cases h : w.activation.frame.copy source target with
  | error e =>
    have hord : e.isUnanalyzed = false := by
      unfold Frame.copy at h
      cases hg : w.activation.frame.get source with
      | error e' =>
        rw [hg] at h
        cases h
        obtain ⟨n, rfl⟩ := Frame.get_error hg
        rfl
      | ok v =>
        rw [hg] at h
        obtain ⟨n, rfl⟩ := Frame.put_error h
        rfl
    exact ⟨by rw [Trap.ofError, Trap.isOrdinary, hord]; rfl, .refl w⟩
  | ok f =>
    obtain ⟨v, -, hput⟩ := Frame.copy_ok h
    exact ⟨trivial, rfl, rfl, Frame.sameFrame_put hput⟩

theorem calm_underflow : Calm (underflow : ExecM α) := calm_activation.next fun _ => .throw rfl

theorem calm_stackSlot (p : Prepared) (n : Nat) : Calm (stackSlot p n) := by
  refine calm_activation.next fun a => ?_
  dsimp only
  split
  · exact .pure trivial
  · exact calm_underflow

theorem calm_resultSlot (p : Prepared) (pops : Nat) : Calm (resultSlot p pops) := by
  refine calm_activation.next fun a => ?_
  dsimp only
  split
  · exact .pure trivial
  · exact calm_underflow

theorem calm_get (f : Frame) (slot : Nat) : Calm (ofEngine (f.get slot)) :=
  (quiet_ofEngine fun e h => by obtain ⟨n, rfl⟩ := Frame.get_error h; rfl).calm

theorem calm_getAs (f : Frame) (slot : Nat) (expected : String) (select : Value → Option α) :
    Calm (ofEngine (f.getAs slot expected select)) :=
  (quiet_ofEngine fun e h => by obtain ⟨n, rfl⟩ := Frame.getAs_error h; rfl).calm

theorem calm_peek (p : Prepared) (n : Nat) : Calm (peek p n) :=
  (calm_stackSlot p n).next fun _ => calm_activation.next fun _ => calm_get _ _

theorem calm_result (p : Prepared) (pops : Nat) (v : Value) : Calm (result p pops v) :=
  (calm_resultSlot p pops).next fun _ => calm_put _ _

theorem calm_operandTypes (h : (p.analysis.operandTypes? pc).isSome = true) : Calm (operandTypes p pc) := by
  unfold operandTypes
  cases ht : p.analysis.operandTypes? pc with
  | some ts => exact .pure trivial
  | none => rw [ht] at h; cases h

theorem calm_int32At (p : Prepared) (n : Nat) : Calm (int32At p n) :=
  (calm_stackSlot p n).next fun _ => calm_activation.next fun _ => calm_getAs _ _ _ _

theorem calm_int64At (p : Prepared) (n : Nat) : Calm (int64At p n) :=
  (calm_stackSlot p n).next fun _ => calm_activation.next fun _ => calm_getAs _ _ _ _

theorem calm_nativeAt (p : Prepared) (n : Nat) : Calm (nativeAt p n) :=
  (calm_stackSlot p n).next fun _ => calm_activation.next fun _ => calm_getAs _ _ _ _

theorem calm_floatAt (p : Prepared) (n : Nat) : Calm (floatAt p n) :=
  (calm_stackSlot p n).next fun _ => calm_activation.next fun _ => calm_getAs _ _ _ _

theorem calm_objectAt (p : Prepared) (n : Nat) : Calm (objectAt p n) :=
  (calm_stackSlot p n).next fun _ => calm_activation.next fun _ => calm_getAs _ _ _ _

theorem calm_pointerAt (p : Prepared) (n : Nat) : Calm (pointerAt p n) :=
  (calm_stackSlot p n).next fun _ => calm_activation.next fun _ => calm_getAs _ _ _ _

theorem calm_nonNullAt (p : Prepared) (n : Nat) : Calm (nonNullAt p n) := by
  refine (calm_objectAt p n).next fun r => ?_
  cases r with
  | some r => exact .pure trivial
  | none => exact quiet_fault _ _

theorem calm_addressAt (p : Prepared) (n : Nat) : Calm (addressAt p n) := by
  refine (calm_stackSlot p n).next fun slot => calm_activation.next fun a => (calm_get _ _).next fun v => ?_
  split
  · exact .pure trivial
  · exact quiet_fault _ _
  · exact quiet_unsupported _ _
  · exact .throw rfl

theorem calm_indexAt (p : Prepared) (n : Nat) : Calm (indexAt p n) := by
  refine (calm_nativeAt p n).next fun i => ?_
  split
  · exact quiet_fault _ _
  · exact .pure trivial

/-! ## Operands in the code -/

/-- **The instruction at `pc` can be read**: it is `op`, and so is the offset of the next one. -/
structure Reads (p : Prepared) (pc : Nat) (op : Opcode) (next : Nat) : Prop where
  opcode : p.code.opcodeAt pc = .ok op
  next : p.code.nextOffset pc = .ok next

variable {next : Nat}

theorem quiet_token (h : Reads p pc op next) (hs : op.operand.size? = some 4) :
    Quiet (ofEngine (p.code.token pc)) fun t => p.code.token pc = .ok t := by
  obtain ⟨t, ht⟩ := Code.token_ok h.next h.opcode hs
  rw [ht]
  exact quiet_ofEngine fun e he => by cases he

theorem calm_word (h : Reads p pc op next) (width : Nat) (hs : op.operand.size? = some (width / 8)) :
    Calm (ofEngine (p.code.word width pc)) := by
  obtain ⟨v, hv⟩ := Code.word_ok width h.next h.opcode hs
  rw [hv]
  exact .pure trivial

theorem calm_typeOperand (h : Reads p pc op next) (hs : op.operand.size? = some 4) : Calm (typeOperand p pc) :=
  (quiet_token h hs).bind fun _ _ => calm_metadata.next fun _ => (quiet_ofResolution _).calm

theorem calm_fieldOperand (h : Reads p pc op next) (hs : op.operand.size? = some 4) : Calm (fieldOperand p pc) :=
  (quiet_token h hs).bind fun _ _ => calm_metadata.next fun _ => (quiet_ofResolution _).calm

/-! ## Slots and constants -/

theorem calm_placeSlot (p : Prepared) (place : Place) (index : Nat) : Calm (placeSlot p place index) := by
  unfold placeSlot
  cases place with
  | argument =>
    dsimp only
    split
    · exact .pure trivial
    · exact calm_activation.next fun _ => .throw rfl
  | «local» =>
    dsimp only
    split
    · exact .pure trivial
    · exact calm_activation.next fun _ => .throw rfl

theorem calm_placeIndex (h : Reads p pc op next) (index : SlotIndex) : Calm (placeIndex p pc index) := by
  cases index with
  | implied n => exact .pure trivial
  | encoded => exact (quiet_ofEngine fun e he => Code.slotIndex_error h.next h.opcode he).calm

theorem quiet_load (h : Reads p pc op next) (place : Place) (index : SlotIndex) :
    Quiet (load p pc place index) (· = .advance) :=
  (calm_placeIndex h index).next fun _ => (calm_placeSlot p place _).next fun _ => (calm_resultSlot p 0).next fun _ =>
    (calm_copySlot _ _).next fun _ => .pure rfl

theorem quiet_store (h : Reads p pc op next) (place : Place) (index : SlotIndex) :
    Quiet (store p pc place index) (· = .advance) :=
  (calm_placeIndex h index).next fun _ => (calm_placeSlot p place _).next fun _ => (calm_peek p 0).next fun _ =>
    (calm_normalize _ _ _).next fun _ => (calm_put _ _).next fun _ => .pure rfl

theorem quiet_loadAddress (h : Reads p pc op next) (place : Place) : Quiet (loadAddress p pc place) (· = .advance) :=
  (calm_placeIndex h .encoded).next fun _ => (calm_placeSlot p place _).next fun _ => calm_activation.next fun _ =>
    (calm_resultSlot p 0).next fun _ => (calm_put _ _).next fun _ => .pure rfl

theorem calm_constant (h : Reads p pc op next) {c : Constant} (hs : ∀ n, c.width? = some n → op.operand.size? = some n) :
    Calm (constant p pc c) := by
  cases c with
  | implied n => exact .pure trivial
  | short => exact (calm_word h 8 (hs 1 rfl)).next fun _ => .pure trivial
  | int => exact (calm_word h 32 (hs 4 rfl)).next fun _ => .pure trivial
  | long => exact (calm_word h 64 (hs 8 rfl)).next fun _ => .pure trivial
  | shortReal => exact (calm_word h 32 (hs 4 rfl)).next fun _ => .pure trivial
  | real => exact (calm_word h 64 (hs 8 rfl)).next fun _ => .pure trivial

theorem quiet_loadConstant (h : Reads p pc op next) {c : Constant}
    (hs : ∀ n, c.width? = some n → op.operand.size? = some n) : Quiet (loadConstant p pc c) (· = .advance) :=
  (calm_constant h hs).next fun _ => (calm_result p 0 _).next fun _ => .pure rfl

theorem quiet_dup (p : Prepared) : Quiet (dup p) (· = .advance) :=
  (calm_resultSlot p 1).next fun _ => (calm_copySlot _ _).next fun _ => .pure rfl

/-! ## Arithmetic -/

theorem calm_offsetPointer (q : Pointer) (bytes : Int) : Calm (offsetPointer q bytes) := by
  unfold offsetPointer
  split
  · refine calm_metadata.next fun _ => (calm_onHeap _).next fun size => ?_
    split
    · exact quiet_unsupported _ _
    · dsimp only
      split
      · exact .pure trivial
      · exact quiet_unsupported _ _
  · exact quiet_unsupported _ _

theorem calm_checkedWord (n : Int) : Calm (checkedWord n) := by
  unfold checkedWord
  split
  · exact .pure trivial
  · exact .throw rfl

theorem calm_pointerDifference (q r : Pointer) : Calm (pointerDifference q r) := by
  have otherwise : Calm (if q.same r then pure 0 else unsupported (.unrelatedPointers q r) : ExecM (BitVec 64)) := by
    split
    · exact .pure trivial
    · exact quiet_unsupported _ _
  unfold pointerDifference
  dsimp only
  split
  · split
    · exact calm_metadata.next fun _ => (calm_onHeap _).next fun _ => (calm_checkedWord _).next fun _ =>
        calm_checkedWord _
    · exact otherwise
  · exact otherwise

theorem calm_pointerOffset (op : Opcode) (b : BinaryOp) (types : OperandTypes) (bytes : BitVec 64) :
    Calm (pointerOffset op b types bytes) := by
  unfold pointerOffset
  split
  · exact .pure trivial
  · exact .pure trivial
  · split
    · exact quiet_unsupported _ _
    · exact .pure trivial
  · split
    · exact quiet_unsupported _ _
    · exact .pure trivial
  · exact quiet_unsupported _ _

theorem calm_binaryResult (h : (p.analysis.operandTypes? pc).isSome = true) (op : Opcode) (b : BinaryOp) :
    Calm (binaryResult p pc op b) := by
  refine (calm_operandTypes h).next fun types => ?_
  split
  · exact (calm_int32At p 1).next fun _ => (calm_int32At p 0).next fun _ => (calm_ofFault _).next fun _ => .pure trivial
  · exact (calm_int64At p 1).next fun _ => (calm_int64At p 0).next fun _ => (calm_ofFault _).next fun _ => .pure trivial
  · exact (calm_nativeAt p 1).next fun _ => (calm_nativeAt p 0).next fun _ => (calm_ofFault _).next fun _ => .pure trivial
  · exact (calm_nativeAt p 1).next fun _ => (calm_nativeAt p 0).next fun _ => (calm_ofFault _).next fun _ => .pure trivial
  · exact (calm_nativeAt p 1).next fun _ => (calm_nativeAt p 0).next fun _ => (calm_ofFault _).next fun _ => .pure trivial
  · refine (calm_floatAt p 1).next fun x => (calm_floatAt p 0).next fun y => ?_
    split
    · exact .pure trivial
    · exact quiet_unsupported _ _
  · exact (calm_nativeAt p 0).next fun _ => (calm_pointerOffset _ _ _ _).next fun _ => (calm_pointerAt p 1).next fun _ =>
      (calm_offsetPointer _ _).next fun _ => .pure trivial
  · exact (calm_nativeAt p 0).next fun _ => (calm_pointerOffset _ _ _ _).next fun _ => (calm_pointerAt p 1).next fun _ =>
      (calm_offsetPointer _ _).next fun _ => .pure trivial
  · exact (calm_pointerAt p 0).next fun _ => (calm_nativeAt p 1).next fun _ =>
      (calm_offsetPointer _ _).next fun _ => .pure trivial
  · exact (calm_pointerAt p 0).next fun _ => (calm_nativeAt p 1).next fun _ =>
      (calm_offsetPointer _ _).next fun _ => .pure trivial
  · exact (calm_pointerAt p 1).next fun _ => (calm_pointerAt p 0).next fun _ =>
      (calm_pointerDifference _ _).next fun _ => .pure trivial
  · exact quiet_unsupported _ _

theorem quiet_binary (h : (p.analysis.operandTypes? pc).isSome = true) (op : Opcode) (b : BinaryOp) :
    Quiet (binary p pc op b) (· = .advance) :=
  (calm_binaryResult h op b).next fun _ => (calm_result p 2 _).next fun _ => .pure rfl

theorem quiet_shift (h : (p.analysis.operandTypes? pc).isSome = true) (op : Opcode) (s : ShiftOp) :
    Quiet (shift p pc op s) (· = .advance) := by
  refine (calm_operandTypes h).next fun types => (calm_nativeAt p 0).next fun amount => ?_
  split
  · exact (calm_int32At p 1).next fun _ => (calm_result p 2 _).next fun _ => .pure rfl
  · exact (calm_int64At p 1).next fun _ => (calm_result p 2 _).next fun _ => .pure rfl
  · exact (calm_nativeAt p 1).next fun _ => (calm_result p 2 _).next fun _ => .pure rfl
  · exact (quiet_unsupported _ _).next fun _ => .pure rfl

theorem quiet_unary (h : (p.analysis.operandTypes? pc).isSome = true) (op : Opcode) (u : UnaryOp) :
    Quiet (unary p pc op u) (· = .advance) := by
  refine (calm_operandTypes h).next fun types => ?_
  split
  · exact (calm_int32At p 0).next fun _ => (calm_result p 1 _).next fun _ => .pure rfl
  · exact (calm_int64At p 0).next fun _ => (calm_result p 1 _).next fun _ => .pure rfl
  · exact (calm_nativeAt p 0).next fun _ => (calm_result p 1 _).next fun _ => .pure rfl
  · exact (calm_floatAt p 0).next fun _ => (calm_result p 1 _).next fun _ => .pure rfl
  · exact (quiet_unsupported _ _).next fun _ => .pure rfl

theorem quiet_checkFinite (p : Prepared) : Quiet (checkFinite p) (· = .advance) := by
  refine (calm_floatAt p 0).next fun x => ?_
  split
  · exact (calm_result p 1 _).next fun _ => .pure rfl
  · exact quiet_fault _ _

/-- A conversion fails by a fault, or because it is not supported. -/
theorem apply_error {c : Conversion} {v : Value} {t : Trap} (h : c.apply v = .error t) : t.isOrdinary = true := by
  have hlift : ∀ r, Conversion.apply.lift r = .error t → t.isOrdinary = true := by
    intro r hr
    cases r with
    | ok u => cases hr
    | error k => cases hr; rfl
  cases v with
  | int32 n => exact hlift _ h
  | int64 n => exact hlift _ h
  | nativeInt n => exact hlift _ h
  | float x => exact hlift _ h
  | object r => cases h; rfl
  | pointer q => cases h; rfl

theorem quiet_convert (p : Prepared) (c : Conversion) : Quiet (convert p c) (· = .advance) := by
  refine (calm_peek p 0).next fun v => ?_
  split
  · exact (calm_result p 1 _).next fun _ => .pure rfl
  · rename_i t ht
    exact .throw (apply_error ht)

theorem calm_compareTop (h : (p.analysis.operandTypes? pc).isSome = true) (op : Opcode) (c : Comparison) :
    Calm (compareTop p pc op c) := by
  refine (calm_operandTypes h).next fun types => ?_
  have answered : ∀ answer : Option Bool, Calm (pure answer >>= answered op types) := by
    intro answer
    cases answer with
    | some b => exact .pure trivial
    | none => exact quiet_unsupported _ _
  split
  · exact (calm_int32At p 1).next fun _ => (calm_int32At p 0).next fun _ => answered _
  · exact (calm_int64At p 1).next fun _ => (calm_int64At p 0).next fun _ => answered _
  · exact (calm_nativeAt p 1).next fun _ => (calm_nativeAt p 0).next fun _ => answered _
  · exact (calm_nativeAt p 1).next fun _ => (calm_nativeAt p 0).next fun _ => answered _
  · exact (calm_nativeAt p 1).next fun _ => (calm_nativeAt p 0).next fun _ => answered _
  · exact (calm_floatAt p 1).next fun _ => (calm_floatAt p 0).next fun _ => answered _
  · exact (calm_objectAt p 1).next fun _ => (calm_objectAt p 0).next fun _ => answered _
  · exact (calm_peek p 1).next fun _ => (calm_peek p 0).next fun _ => answered _
  · exact answered _
  · exact answered _
  · exact answered _

theorem quiet_compare (h : (p.analysis.operandTypes? pc).isSome = true) (op : Opcode) (c : Comparison) :
    Quiet (compare p pc op c) (· = .advance) :=
  (calm_compareTop h op c).next fun _ => (calm_result p 2 _).next fun _ => .pure rfl

/-! ## Loads and stores -/

theorem calm_slotKind (p : Prepared) (slot : Nat) : Calm (slotKind p slot) := by
  unfold slotKind
  dsimp only
  split
  · exact .pure trivial
  · exact calm_activation.next fun _ => .throw rfl

theorem calm_ownSlot (frame : FrameId) (slot : Nat) : Calm (ownSlot frame slot) := by
  refine calm_activation.next fun a => ?_
  split
  · exact .pure trivial
  · exact quiet_unsupported _ _

theorem calm_deref (q : Pointer) (k : Kind) : Calm (deref q k) := by
  cases q with
  | slot frame slot => exact (calm_ownSlot frame slot).next fun _ => calm_activation.next fun _ => calm_get _ _
  | field object f => exact calm_metadata.next fun _ => calm_onHeap _
  | static f => exact calm_metadata.next fun _ => calm_onHeap _
  | element array index => exact calm_onHeap _
  | boxed object => exact calm_onHeap _
  | method h => exact quiet_unsupported _ _

theorem calm_loadThrough (q : Pointer) (k : Kind) : Calm (loadThrough q k) :=
  (calm_deref q k).next fun _ => calm_activation.next fun _ => calm_normalize _ _ _

theorem calm_storeThrough (p : Prepared) (q : Pointer) (k : Kind) (v : Value) : Calm (storeThrough p q k v) := by
  refine calm_activation.next fun a => ?_
  cases q with
  | slot frame slot =>
    exact (calm_ownSlot frame slot).next fun _ => (calm_slotKind p _).next fun _ => (calm_normalize _ _ _).next fun _ =>
      calm_put _ _
  | field object f => exact (calm_normalize _ _ _).next fun _ => calm_onHeap _
  | static f => exact (calm_normalize _ _ _).next fun _ => calm_onHeap _
  | element array index => exact (calm_normalize _ _ _).next fun _ => calm_metadata.next fun _ => calm_onHeap _
  | boxed object => exact (calm_normalize _ _ _).next fun _ => calm_metadata.next fun _ => calm_onHeap _
  | method h => exact quiet_unsupported _ _

theorem quiet_loadIndirect (p : Prepared) (k : Kind) : Quiet (loadIndirect p k) (· = .advance) :=
  (calm_addressAt p 0).next fun _ => (calm_loadThrough _ _).next fun _ => (calm_result p 1 _).next fun _ => .pure rfl

theorem quiet_storeIndirect (p : Prepared) (k : Kind) : Quiet (storeIndirect p k) (· = .advance) :=
  (calm_addressAt p 1).next fun _ => (calm_peek p 0).next fun _ => (calm_storeThrough p _ _ _).next fun _ => .pure rfl

theorem quiet_loadObject (h : Reads p pc op next) (hs : op.operand.size? = some 4) :
    Quiet (loadObject p pc) (· = .advance) :=
  (calm_typeOperand h hs).next fun _ => quiet_loadIndirect p _

theorem quiet_storeObject (h : Reads p pc op next) (hs : op.operand.size? = some 4) :
    Quiet (storeObject p pc) (· = .advance) :=
  (calm_typeOperand h hs).next fun _ => quiet_storeIndirect p _

theorem quiet_copyObject (h : Reads p pc op next) (hs : op.operand.size? = some 4) :
    Quiet (copyObject p pc) (· = .advance) :=
  (calm_typeOperand h hs).next fun _ => (calm_addressAt p 1).next fun _ => (calm_addressAt p 0).next fun _ =>
    (calm_loadThrough _ _).next fun _ => (calm_storeThrough p _ _ _).next fun _ => .pure rfl

theorem quiet_initObject (h : Reads p pc op next) (hs : op.operand.size? = some 4) :
    Quiet (initObject p pc) (· = .advance) :=
  (calm_typeOperand h hs).next fun _ => (calm_addressAt p 0).next fun _ => calm_metadata.next fun _ =>
    (calm_onHeap _).next fun _ => (calm_storeThrough p _ _ _).next fun _ => .pure rfl

/-! ## Objects -/

theorem calm_fieldOwner (p : Prepared) (n : Nat) : Calm (fieldOwner p n) := by
  have owned : ∀ object : Option Ref, Calm (pure object >>= owned) := by
    intro object
    cases object with
    | some r => exact .pure trivial
    | none => exact quiet_fault _ _
  rw [fieldOwner_eq]
  refine (calm_peek p n).next fun v => ?_
  unfold ownerOf
  split
  · exact owned _
  · refine (calm_deref _ _).next fun u => ?_
    split
    · exact owned _
    · exact (quiet_unsupported _ _).next fun _ => owned _
  · exact (quiet_unsupported _ _).next fun _ => owned _
  · exact calm_activation.next fun _ => Quiet.next (.throw rfl) fun _ => owned _

theorem quiet_loadString (h : Reads p pc op next) (hs : op.operand.size? = some 4) :
    Quiet (loadString p pc) (· = .advance) :=
  (quiet_token h hs).bind fun _ _ => calm_metadata.next fun _ => (quiet_ofResolution _).bind fun _ _ =>
    (calm_onHeap _).next fun _ => (calm_result p 0 _).next fun _ => .pure rfl

theorem calm_symbolOperand (h : Reads p pc op next) (hs : op.operand.size? = some 4) : Calm (symbolOperand p pc) := by
  refine (quiet_token h hs).bind fun t _ => ?_
  split
  · exact (quiet_resolveMethod t).next fun _ => .pure trivial
  · exact calm_metadata.next fun _ => (quiet_ofResolution _).calm

theorem quiet_loadToken (h : Reads p pc op next) (hs : op.operand.size? = some 4) :
    Quiet (loadToken p pc) (· = .advance) :=
  (calm_symbolOperand h hs).next fun _ => (calm_onHeap _).next fun _ => (calm_result p 0 _).next fun _ => .pure rfl

theorem quiet_newArray (h : Reads p pc op next) (hs : op.operand.size? = some 4) :
    Quiet (newArray p pc) (· = .advance) := by
  refine (calm_typeOperand h hs).next fun element => (calm_nativeAt p 0).next fun length => ?_
  split
  · exact quiet_fault _ _
  · exact calm_metadata.next fun _ => (calm_onHeap _).next fun _ => (calm_result p 1 _).next fun _ => .pure rfl

theorem quiet_arrayLength (p : Prepared) : Quiet (arrayLength p) (· = .advance) :=
  (calm_nonNullAt p 0).next fun _ => (calm_onHeap _).next fun _ => (calm_result p 1 _).next fun _ => .pure rfl

theorem quiet_elementAddress (p : Prepared) : Quiet (elementAddress p) (· = .advance) := by
  refine (calm_nonNullAt p 1).next fun r => (calm_indexAt p 0).next fun i => (calm_onHeap _).next fun n => ?_
  split
  · exact quiet_fault _ _
  · exact (calm_result p 2 _).next fun _ => .pure rfl

theorem calm_elementKind (h : Reads p pc op next) {kind : Option Kind}
    (hs : kind = none → op.operand.size? = some 4) : Calm (elementKind p pc kind) := by
  cases kind with
  | some k => exact .pure trivial
  | none => exact (calm_typeOperand h (hs rfl)).next fun _ => .pure trivial

theorem quiet_loadElement (h : Reads p pc op next) {kind : Option Kind}
    (hs : kind = none → op.operand.size? = some 4) : Quiet (loadElement p pc kind) (· = .advance) :=
  (calm_elementKind h hs).next fun _ => (calm_nonNullAt p 1).next fun _ => (calm_indexAt p 0).next fun _ =>
    (calm_onHeap _).next fun _ => (calm_result p 2 _).next fun _ => .pure rfl

theorem quiet_storeElement (h : Reads p pc op next) {kind : Option Kind}
    (hs : kind = none → op.operand.size? = some 4) : Quiet (storeElement p pc kind) (· = .advance) :=
  (calm_elementKind h hs).next fun _ => (calm_nonNullAt p 2).next fun _ => (calm_indexAt p 1).next fun _ =>
    calm_activation.next fun _ => (calm_peek p 0).next fun _ => (calm_normalize _ _ _).next fun _ =>
    calm_metadata.next fun _ => (calm_onHeap _).next fun _ => .pure rfl

theorem quiet_loadField (h : Reads p pc op next) (hs : op.operand.size? = some 4) :
    Quiet (loadField p pc) (· = .advance) := by
  refine (calm_fieldOperand h hs).next fun f => ?_
  split
  · exact calm_metadata.next fun _ => (calm_onHeap _).next fun _ => (calm_result p 1 _).next fun _ => .pure rfl
  · exact (calm_fieldOwner p 0).next fun _ => calm_metadata.next fun _ => (calm_onHeap _).next fun _ =>
      (calm_result p 1 _).next fun _ => .pure rfl

theorem quiet_fieldAddress (h : Reads p pc op next) (hs : op.operand.size? = some 4) :
    Quiet (fieldAddress p pc) (· = .advance) := by
  refine (calm_fieldOperand h hs).next fun f => ?_
  split
  · exact Quiet.next (.pure trivial) fun _ => (calm_result p 1 _).next fun _ => .pure rfl
  · exact (calm_fieldOwner p 0).next fun _ => Quiet.next (.pure trivial) fun _ =>
      (calm_result p 1 _).next fun _ => .pure rfl

theorem quiet_storeField (h : Reads p pc op next) (hs : op.operand.size? = some 4) :
    Quiet (storeField p pc) (· = .advance) := by
  refine (calm_fieldOperand h hs).next fun f => calm_activation.next fun _ => (calm_peek p 0).next fun _ =>
    (calm_normalize _ _ _).next fun v => ?_
  split
  · exact (calm_onHeap _).next fun _ => .pure rfl
  · exact (calm_fieldOwner p 1).next fun _ => (calm_onHeap _).next fun _ => .pure rfl

theorem quiet_loadStatic (h : Reads p pc op next) (hs : op.operand.size? = some 4) :
    Quiet (loadStatic p pc) (· = .advance) :=
  (calm_fieldOperand h hs).next fun _ => calm_metadata.next fun _ => (calm_onHeap _).next fun _ =>
    (calm_result p 0 _).next fun _ => .pure rfl

theorem quiet_staticAddress (h : Reads p pc op next) (hs : op.operand.size? = some 4) :
    Quiet (staticAddress p pc) (· = .advance) :=
  (calm_fieldOperand h hs).next fun _ => (calm_result p 0 _).next fun _ => .pure rfl

theorem quiet_storeStatic (h : Reads p pc op next) (hs : op.operand.size? = some 4) :
    Quiet (storeStatic p pc) (· = .advance) :=
  (calm_fieldOperand h hs).next fun _ => calm_activation.next fun _ => (calm_peek p 0).next fun _ =>
    (calm_normalize _ _ _).next fun _ => (calm_onHeap _).next fun _ => .pure rfl

theorem quiet_cast (h : Reads p pc op next) (hs : op.operand.size? = some 4) (faults : Bool) :
    Quiet (cast p pc faults) (· = .advance) := by
  refine (calm_typeOperand h hs).next fun target => (calm_objectAt p 0).next fun r =>
    .machine (fun m m' ha => by rw [ha.heap]) fun m => ?_
  split
  · exact .pure rfl
  · refine calm_metadata.next fun md => ?_
    split
    · exact .throw rfl
    · exact .pure rfl
    · split
      · exact calm_metadata.next fun _ => (quiet_ofResolution _).bind fun _ _ => .throw rfl
      · exact (calm_result p 1 _).next fun _ => .pure rfl

theorem quiet_box (h : Reads p pc op next) (hs : op.operand.size? = some 4) : Quiet (box p pc) (· = .advance) := by
  refine (calm_typeOperand h hs).next fun type => ?_
  split
  · exact calm_activation.next fun _ => (calm_peek p 0).next fun _ => (calm_normalize _ _ _).next fun _ =>
      (calm_onHeap _).next fun _ => (calm_result p 1 _).next fun _ => .pure rfl
  · exact .pure rfl

theorem quiet_unbox (h : Reads p pc op next) (hs : op.operand.size? = some 4) : Quiet (unbox p pc) (· = .advance) :=
  (calm_typeOperand h hs).next fun _ => (calm_nonNullAt p 0).next fun _ => (calm_onHeap _).next fun _ =>
    (calm_result p 1 _).next fun _ => .pure rfl

theorem quiet_unboxAny (h : Reads p pc op next) (hs : op.operand.size? = some 4) :
    Quiet (unboxAny p pc) (· = .advance) := by
  refine (calm_typeOperand h hs).next fun type => ?_
  split
  · exact (calm_nonNullAt p 0).next fun _ => (calm_onHeap _).next fun _ => (calm_result p 1 _).next fun _ => .pure rfl
  · exact quiet_cast h hs true

theorem quiet_sizeOf (h : Reads p pc op next) (hs : op.operand.size? = some 4) : Quiet (sizeOf p pc) (· = .advance) :=
  (calm_typeOperand h hs).next fun _ => calm_metadata.next fun _ => (calm_onHeap _).next fun _ =>
    (calm_result p 0 _).next fun _ => .pure rfl

theorem resolveVirtual_error {md : Metadata} {m : MethodSymbol} {type : TypeHandle} {a : Abort}
    (h : md.resolveVirtual m type = .error a) : (Trap.abort a).isOrdinary = true := by
  have hmethod : ∀ handle, md.methodOf handle = .error a → (Trap.abort a).isOrdinary = true := by
    intro handle hm
    unfold Metadata.methodOf at hm
    split at hm
    · cases hm
    · cases hm; rfl
  unfold Metadata.resolveVirtual at h
  split at h
  · cases h; rfl
  · split at h
    · cases h; rfl
    · exact hmethod _ h
    · exact hmethod _ h

theorem calm_resolveVirtual (md : Metadata) (m : MethodSymbol) (type : TypeHandle) :
    Calm (ofAbort (md.resolveVirtual m type)) := by
  cases hr : md.resolveVirtual m type with
  | ok k => exact .pure trivial
  | error a => exact .throw (resolveVirtual_error hr)

theorem quiet_functionPointer (h : Reads p pc op next) (hs : op.operand.size? = some 4) :
    Quiet (functionPointer p pc) (· = .advance) :=
  (quiet_token h hs).bind fun _ _ => (quiet_resolveMethod _).next fun _ => (calm_result p 0 _).next fun _ => .pure rfl

theorem quiet_virtualPointer (h : Reads p pc op next) (hs : op.operand.size? = some 4) :
    Quiet (virtualPointer p pc) (· = .advance) := by
  refine (quiet_token h hs).bind fun _ _ => (quiet_resolveMethod _).next fun m => (calm_nonNullAt p 0).next fun r =>
    .machine (fun m m' ha => by rw [ha.heap]) fun _ => ?_
  split
  · exact calm_metadata.next fun _ => (calm_resolveVirtual _ _ _).next fun _ => (calm_result p 1 _).next fun _ =>
      .pure rfl
  · exact Quiet.next (.pure trivial) fun _ => (calm_result p 1 _).next fun _ => .pure rfl

/-! ## Branches -/

/-- A branch goes on with the next instruction, if it is not taken, or goes to its target. -/
def Branches (p : Prepared) (pc : Nat) (taken : Bool) (n : Next) : Prop :=
  (taken = false ∧ n = .advance) ∨ ∃ target, p.code.branchTarget pc = .ok target ∧ n = .jump target

theorem quiet_jumpIf (h : Reads p pc op next) (taken : Bool) :
    Quiet (jumpIf p pc op taken) (Branches p pc taken) := by
  refine Quiet.bind (quiet_ofEngine fun e he => Code.branchTarget_error h.next h.opcode he) fun target ht => ?_
  refine Quiet.next (calm_tracing fun _ _ _ ha => ha.line _ _ _) fun _ => .pure ?_
  cases taken with
  | true => exact .inr ⟨target, ht, rfl⟩
  | false => exact .inl ⟨rfl, rfl⟩

theorem calm_truth (h : (p.analysis.operandTypes? pc).isSome = true) (op : Opcode) : Calm (truth p pc op) := by
  refine (calm_operandTypes h).next fun types => ?_
  split
  · exact (calm_int32At p 0).next fun _ => .pure trivial
  · exact (calm_int64At p 0).next fun _ => .pure trivial
  · exact (calm_nativeAt p 0).next fun _ => .pure trivial
  · exact (calm_objectAt p 0).next fun _ => .pure trivial
  · refine (calm_peek p 0).next fun v => ?_
    split
    · exact .pure trivial
    · exact .pure trivial
  · exact .throw rfl

theorem quiet_jumpOn (h : Reads p pc op next) (ht : (p.analysis.operandTypes? pc).isSome = true) (wanted : Bool) :
    Quiet (jumpOn p pc op wanted) fun n => ∃ taken, Branches p pc taken n :=
  (calm_truth ht op).next fun _ => (quiet_jumpIf h _).mono fun _ hn => ⟨_, hn⟩

theorem quiet_jumpCompare (h : Reads p pc op next) (ht : (p.analysis.operandTypes? pc).isSome = true)
    (c : Comparison) : Quiet (jumpCompare p pc op c) fun n => ∃ taken, Branches p pc taken n :=
  (calm_compareTop ht op c).next fun _ => (quiet_jumpIf h _).mono fun _ hn => ⟨_, hn⟩

theorem quiet_switch (h : Reads p pc op next) (hs : op.operand.size? = none) : Quiet (switch p pc) fun n =>
    n = .advance ∨ ∃ targets target, p.code.switchTargets pc = .ok targets ∧ target ∈ targets ∧ n = .jump target := by
  have last : ∀ index : Nat, Quiet (pure index >>= jumpInto p pc) fun n =>
      n = .advance ∨ ∃ targets target, p.code.switchTargets pc = .ok targets ∧ target ∈ targets ∧ n = .jump target := by
    intro index
    refine Quiet.next (.pure trivial) fun index => ?_
    refine Quiet.bind (quiet_ofEngine fun e he => Code.switchTargets_error h.next h.opcode hs he) fun targets ht => ?_
    split
    · rename_i target htarget
      exact .pure (.inr ⟨targets, target, ht, List.mem_of_getElem? htarget, rfl⟩)
    · exact .pure (.inl rfl)
  refine (calm_peek p 0).next fun v => ?_
  split
  · exact last _
  · exact (calm_nativeAt p 0).next fun _ => last _

theorem quiet_throwTop (p : Prepared) : Quiet (throwTop p) fun _ => False := by
  refine (calm_objectAt p 0).next fun r => .machine (fun m m' ha => by rw [ha.heap]) fun m => ?_
  split
  · exact quiet_fault _ _
  · exact calm_metadata.next fun _ => (quiet_ofResolution _).bind fun _ _ => .throw rfl

theorem quiet_rethrow (p : Prepared) (pc : Nat) : Quiet (rethrow p pc) fun _ => False := by
  refine calm_activation.next fun a => Quiet.bind (quiet_ofEngine fun e he => ?_) fun _ _ => .throw rfl
  unfold Unwinding.rethrow at he
  split at he
  · cases he
  · cases he; rfl

/-! ## Every instruction that stays in its activation -/

/-- Where control goes after an instruction: to the next one, unless it ends its block, or to a target that it has. -/
def Follows (p : Prepared) (pc : Nat) (op : Opcode) (n : Next) : Prop :=
  (op.endsBlock = false ∧ n = .advance) ∨
  ((op.action = .jump ∨ (∃ b, op.action = .jumpOn b) ∨ ∃ c, op.action = .jumpCompare c) ∧
    ∃ target, p.code.branchTarget pc = .ok target ∧ n = .jump target) ∨
  (op.action = .switch ∧ ∃ targets target, p.code.switchTargets pc = .ok targets ∧ target ∈ targets ∧ n = .jump target)

/-- **An instruction that is no call, return or end of a handler touches slots and heap only**, and goes on where its
code says. -/
theorem quiet_instruction (h : Reads p pc op next)
    (ht : op.action.usesTypes = true → (p.analysis.operandTypes? pc).isSome = true)
    (hplain : op.action.isTransfer = false) : Quiet (instruction p pc op) (Follows p pc op) := by
  have advances : ∀ {a : Action} {x : ExecM Next}, op.action = a → a.endsBlock = false → Quiet x (· = .advance) →
      Quiet x (Follows p pc op) :=
    fun ha he hx => hx.mono fun _ hn => .inl ⟨by rw [Opcode.endsBlock_eq, ha]; exact he, hn⟩
  have token : ∀ {a : Action}, op.action = a → a.width? = some 4 → op.operand.size? = some 4 :=
    fun ha hw => op.size?_of_width? (by rw [ha]; exact hw)
  have typed : ∀ {a : Action}, op.action = a → a.usesTypes = true → (p.analysis.operandTypes? pc).isSome = true :=
    fun ha hu => ht (by rw [ha]; exact hu)
  have stops : ∀ {x : ExecM Next}, (Quiet x fun _ => False) → Quiet x (Follows p pc op) :=
    fun hx => hx.mono fun _ hn => hn.elim
  unfold instruction
  cases ha : op.action with
  | skip => exact advances ha rfl (.pure rfl)
  | pop => exact advances ha rfl (.pure rfl)
  | load place index => exact advances ha rfl (quiet_load h place index)
  | address place => exact advances ha rfl (quiet_loadAddress h place)
  | store place index => exact advances ha rfl (quiet_store h place index)
  | loadNull => exact advances ha rfl ((calm_result p 0 _).next fun _ => .pure rfl)
  | loadConstant c =>
    exact advances ha rfl (quiet_loadConstant h fun n hn => op.size?_of_width? (by rw [ha]; exact hn))
  | dup => exact advances ha rfl (quiet_dup p)
  | jump =>
    refine (quiet_jumpIf h true).mono fun n hn => ?_
    rcases hn with ⟨hf, -⟩ | hn
    · cases hf
    · exact .inr (.inl ⟨.inl ha, hn⟩)
  | jumpOn b =>
    refine (quiet_jumpOn h (typed ha rfl) b).mono fun n ⟨taken, hn⟩ => ?_
    rcases hn with ⟨-, hn⟩ | hn
    · exact .inl ⟨by rw [Opcode.endsBlock_eq, ha]; rfl, hn⟩
    · exact .inr (.inl ⟨.inr (.inl ⟨b, ha⟩), hn⟩)
  | jumpCompare c =>
    refine (quiet_jumpCompare h (typed ha rfl) c).mono fun n ⟨taken, hn⟩ => ?_
    rcases hn with ⟨-, hn⟩ | hn
    · exact .inl ⟨by rw [Opcode.endsBlock_eq, ha]; rfl, hn⟩
    · exact .inr (.inl ⟨.inr (.inr ⟨c, ha⟩), hn⟩)
  | switch =>
    refine (quiet_switch h (op.size?_switch ha)).mono fun n hn => ?_
    rcases hn with hn | hn
    · exact .inl ⟨by rw [Opcode.endsBlock_eq, ha]; rfl, hn⟩
    · exact .inr (.inr ⟨ha, hn⟩)
  | throw => exact stops (quiet_throwTop p)
  | rethrow => exact stops (quiet_rethrow p pc)
  | compare c => exact advances ha rfl (quiet_compare (typed ha rfl) op c)
  | binary b => exact advances ha rfl (quiet_binary (typed ha rfl) op b)
  | shift s => exact advances ha rfl (quiet_shift (typed ha rfl) op s)
  | unary u => exact advances ha rfl (quiet_unary (typed ha rfl) op u)
  | checkFinite => exact advances ha rfl (quiet_checkFinite p)
  | convert c => exact advances ha rfl (quiet_convert p c)
  | loadIndirect k => exact advances ha rfl (quiet_loadIndirect p k)
  | storeIndirect k => exact advances ha rfl (quiet_storeIndirect p k)
  | loadObject => exact advances ha rfl (quiet_loadObject h (token ha rfl))
  | storeObject => exact advances ha rfl (quiet_storeObject h (token ha rfl))
  | copyObject => exact advances ha rfl (quiet_copyObject h (token ha rfl))
  | initObject => exact advances ha rfl (quiet_initObject h (token ha rfl))
  | loadString => exact advances ha rfl (quiet_loadString h (token ha rfl))
  | loadToken => exact advances ha rfl (quiet_loadToken h (token ha rfl))
  | newArray => exact advances ha rfl (quiet_newArray h (token ha rfl))
  | arrayLength => exact advances ha rfl (quiet_arrayLength p)
  | elementAddress => exact advances ha rfl (quiet_elementAddress p)
  | loadElement kind => exact advances ha rfl (quiet_loadElement h fun hk => by subst hk; exact token ha rfl)
  | storeElement kind => exact advances ha rfl (quiet_storeElement h fun hk => by subst hk; exact token ha rfl)
  | loadField => exact advances ha rfl (quiet_loadField h (token ha rfl))
  | fieldAddress => exact advances ha rfl (quiet_fieldAddress h (token ha rfl))
  | storeField => exact advances ha rfl (quiet_storeField h (token ha rfl))
  | loadStatic => exact advances ha rfl (quiet_loadStatic h (token ha rfl))
  | staticAddress => exact advances ha rfl (quiet_staticAddress h (token ha rfl))
  | storeStatic => exact advances ha rfl (quiet_storeStatic h (token ha rfl))
  | castClass => exact advances ha rfl (quiet_cast h (token ha rfl) true)
  | isInstance => exact advances ha rfl (quiet_cast h (token ha rfl) false)
  | box => exact advances ha rfl (quiet_box h (token ha rfl))
  | unbox => exact advances ha rfl (quiet_unbox h (token ha rfl))
  | unboxAny => exact advances ha rfl (quiet_unboxAny h (token ha rfl))
  | sizeOf => exact advances ha rfl (quiet_sizeOf h (token ha rfl))
  | functionPointer => exact advances ha rfl (quiet_functionPointer h (token ha rfl))
  | virtualPointer => exact advances ha rfl (quiet_virtualPointer h (token ha rfl))
  | ret => rw [ha] at hplain; cases hplain
  | leave => rw [ha] at hplain; cases hplain
  | endFinally => rw [ha] at hplain; cases hplain
  | callSite kind => rw [ha] at hplain; cases hplain
  | cachedCall => rw [ha] at hplain; cases hplain
  | callIndirect => exact quiet_unsupported _ _
  | localAlloc => exact quiet_unsupported _ _
  | copyBlock => exact quiet_unsupported _ _
  | initBlock => exact quiet_unsupported _ _
  | argumentList => exact quiet_unsupported _ _
  | makeTyped => exact quiet_unsupported _ _
  | typedAddress => exact quiet_unsupported _ _
  | typedType => exact quiet_unsupported _ _
  | endFilter => exact quiet_unsupported _ _

end ExecM

end ManagedCode
