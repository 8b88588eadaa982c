import ManagedCode.Machine.Step
import ManagedCode.Proofs.Endings

/-!
# What instructions are composed of

Every instruction, and everything a step does around it, is put together from a few ways to touch a workspace
(`ExecM.Composed`). None of them reads the settings, the trace or the counts, apart from the count of backward jumps
(`countBackEdge`), and none nests a call. A property of workspaces that these few keep is kept by every step; it is
proved by induction over `Composed`, and no instruction is opened again. Only a few instructions count something, patch
a method or change the state of unwinding; all else is composed without (`Composed false`).
-/

namespace ManagedCode

/-- The actions that count something, patch a method or change the state of unwinding. -/
def Action.isCounted : Action → Bool
  | .leave | .endFinally | .callSite _ | .cachedCall => true
  | _ => false

namespace ExecM

variable {α β : Type} {p : Prepared} {pc : Nat} {counts : Bool}

/-- The change does not read the count of backward jumps and keeps it, with the method and its depth; unless `counts`,
it keeps the state of unwinding too. -/
structure Local (counts : Bool) (g : Activation → Activation) : Prop where
  count : ∀ a n, g { a with backEdges := n } = { g a with backEdges := n }
  same : ∀ a, g a = { a with frame := (g a).frame, top := (g a).top, pc := (g a).pc, unwinding := (g a).unwinding }
  unwinding : counts = false → ∀ a, (g a).unwinding = a.unwinding

/-- **A computation made of the ways to touch a workspace.** Those that count, patch a method or change the state of
unwinding are among them if `counts` says so. -/
inductive Composed (counts : Bool) : {α : Type} → ExecM α → Prop where
  | pure {α : Type} (a : α) : Composed counts (pure a)
  | throw {α : Type} (t : Trap) : Composed counts (throw t : ExecM α)
  | bind {α β : Type} {x : ExecM α} {f : α → ExecM β} : Composed counts x → (∀ a, Composed counts (f a)) →
      Composed counts (x >>= f)
  /-- Looks at the activation, but not at its count of backward jumps. -/
  | activation {β : Type} {f : Activation → ExecM β} : (∀ a n, f { a with backEdges := n } = f a) →
      (∀ a, Composed counts (f a)) → Composed counts (activation >>= f)
  /-- Looks at the tables and the heap. -/
  | machine {β : Type} {f : Machine → ExecM β} :
      (∀ m m' : Machine, m'.metadata = m.metadata → m'.heap = m.heap → f m' = f m) → (∀ m, Composed counts (f m)) →
      Composed counts (machine >>= f)
  | metadata : Composed counts metadata
  | modifyActivation {g : Activation → Activation} : Local counts g → Composed counts (modifyActivation g)
  /-- Counts anything but triggers. -/
  | modifyMetrics {g : Metrics → Metrics} : counts = true →
      (∀ m n, g { m with osrTriggers := n } = { g m with osrTriggers := n }) → Composed counts (modifyMetrics g)
  | setPrepared : counts = true → ∀ (h : MethodHandle) (p : Prepared),
      Composed counts (modifyMachine fun m => m.setPrepared h p)
  | tracing (f : Trace → Nat → Trace) : Composed counts (tracing f)
  | onHeapTrap {α : Type} (x : HeapTrapM α) : Composed counts (onHeapTrap x)
  | resolveMethod (t : Token) : Composed counts (resolveMethod t)
  | countBackEdge : counts = true → ∀ pc target : Nat, Composed counts (countBackEdge pc target)

namespace Composed

/-! ## Traps and slots -/

theorem ofEngine (r : Except EngineError α) : Composed counts (ofEngine r) := by
  cases r with
  | ok a => exact .pure a
  | error e => exact .throw _

theorem ofResolution (r : Except ResolutionError α) : Composed counts (ofResolution r) := by
  cases r with
  | ok a => exact .pure a
  | error e => exact .throw _

theorem ofAbort (r : Except Abort α) : Composed counts (ofAbort r) := by
  cases r with
  | ok a => exact .pure a
  | error a => exact .throw _

theorem ofFault (r : Except FaultKind α) : Composed counts (ofFault r) := by
  cases r with
  | ok a => exact .pure a
  | error k => exact .throw _

theorem put (slot : Nat) (v : Value) : Composed counts (put slot v) :=
  .activation (fun _ _ => rfl) fun _ => .bind (.ofEngine _) fun _ =>
    .modifyActivation ⟨fun _ _ => rfl, fun _ => rfl, fun _ _ => rfl⟩

theorem copySlot (source target : Nat) : Composed counts (copySlot source target) :=
  .activation (fun _ _ => rfl) fun _ => .bind (.ofEngine _) fun _ =>
    .modifyActivation ⟨fun _ _ => rfl, fun _ => rfl, fun _ _ => rfl⟩

theorem underflow : Composed counts (underflow : ExecM α) := .activation (fun _ _ => rfl) fun _ => .throw _

theorem stackSlot (p : Prepared) (n : Nat) : Composed counts (stackSlot p n) := by
  refine .activation (fun _ _ => rfl) fun a => ?_
  dsimp only
  split
  · exact .pure _
  · exact .underflow

theorem resultSlot (p : Prepared) (pops : Nat) : Composed counts (resultSlot p pops) := by
  refine .activation (fun _ _ => rfl) fun a => ?_
  dsimp only
  split
  · exact .pure _
  · exact .underflow

/-- What is read from the slot that lies `n` below the top. -/
theorem operand (p : Prepared) (n : Nat) (read : Frame → Nat → Except EngineError α) : Composed counts (do
    let slot ← ExecM.stackSlot p n
    ExecM.ofEngine (read (← ExecM.activation).frame slot) : ExecM α) :=
  .bind (.stackSlot p n) fun _ => .activation (fun _ _ => rfl) fun _ => .ofEngine _

theorem peek (p : Prepared) (n : Nat) : Composed counts (peek p n) := .operand p n _

theorem result (p : Prepared) (pops : Nat) (v : Value) : Composed counts (result p pops v) :=
  .bind (.resultSlot p pops) fun _ => .put _ _

/-- The end of an instruction that writes one result. -/
theorem results (p : Prepared) (pops : Nat) (v : Value) (n : Next) : Composed counts (do
    ExecM.result p pops v
    Pure.pure n : ExecM Next) := .bind (.result p pops v) fun _ => .pure _

theorem push (v : Value) : Composed counts (push v) := by
  have last (a : Activation) : Composed counts (do
      ExecM.put a.top v
      ExecM.modifyActivation fun a => { a with top := a.top + 1 } : ExecM Unit) :=
    .bind (.put _ _) fun _ => .modifyActivation ⟨fun _ _ => rfl, fun _ => rfl, fun _ _ => rfl⟩
  refine .activation (fun _ _ => rfl) fun a => ?_
  split
  · exact .bind (.throw _) fun _ => last a
  · exact last a

theorem pop (p : Prepared) : Composed counts (pop p) :=
  .bind (.stackSlot p 0) fun _ => .activation (fun _ _ => rfl) fun _ => .bind (.ofEngine _) fun _ =>
    .bind (.modifyActivation ⟨fun _ _ => rfl, fun _ => rfl, fun _ _ => rfl⟩) fun _ => .pure _

theorem takeSlots : ∀ count slot : Nat, Composed counts (takeSlots slot count)
  | 0, _ => .pure _
  | count + 1, slot => .activation (fun _ _ => rfl) fun _ => .bind (.ofEngine _) fun _ =>
      .bind (.modifyActivation ⟨fun _ _ => rfl, fun _ => rfl, fun _ _ => rfl⟩) fun _ =>
        .bind (takeSlots count (slot + 1)) fun _ => .pure _

theorem popArguments (p : Prepared) : ∀ count, Composed counts (popArguments p count)
  | 0 => .pure _
  | n + 1 => .bind (.stackSlot p n) fun _ => .bind (.takeSlots _ _) fun _ =>
      .bind (.modifyActivation ⟨fun _ _ => rfl, fun _ => rfl, fun _ _ => rfl⟩) fun _ => .pure _

theorem resetStack (p : Prepared) : Composed counts (resetStack p) :=
  .modifyActivation ⟨fun _ _ => rfl, fun _ => rfl, fun _ _ => rfl⟩

theorem operandTypes (p : Prepared) (pc : Nat) : Composed counts (operandTypes p pc) := by
  unfold ExecM.operandTypes
  split
  · exact .pure _
  · exact .throw _

/-! ## Typed operands -/

theorem int32At (p : Prepared) (n : Nat) : Composed counts (int32At p n) := .operand p n _

theorem int64At (p : Prepared) (n : Nat) : Composed counts (int64At p n) := .operand p n _

theorem nativeAt (p : Prepared) (n : Nat) : Composed counts (nativeAt p n) :=
  .bind (.stackSlot p n) fun _ => .activation (fun _ _ => rfl) fun _ => .ofEngine _

theorem floatAt (p : Prepared) (n : Nat) : Composed counts (floatAt p n) := .operand p n _

theorem objectAt (p : Prepared) (n : Nat) : Composed counts (objectAt p n) := .operand p n _

theorem pointerAt (p : Prepared) (n : Nat) : Composed counts (pointerAt p n) := .operand p n _

theorem nonNullAt (p : Prepared) (n : Nat) : Composed counts (nonNullAt p n) := by
  refine .bind (.objectAt p n) fun r => ?_
  cases r with
  | some r => exact .pure _
  | none => exact .throw _

theorem addressAt (p : Prepared) (n : Nat) : Composed counts (addressAt p n) := by
  refine .bind (.stackSlot p n) fun slot => .activation (fun _ _ => rfl) fun a => .bind (.ofEngine _) fun v => ?_
  split
  · exact .pure _
  · exact .throw _
  · exact .throw _
  · exact .throw _

theorem indexAt (p : Prepared) (n : Nat) : Composed counts (indexAt p n) := by
  refine .bind (.nativeAt p n) fun i => ?_
  split
  · exact .throw _
  · exact .pure _

theorem typeOperand (p : Prepared) (pc : Nat) : Composed counts (typeOperand p pc) :=
  .bind (.ofEngine _) fun _ => .bind .metadata fun _ => .ofResolution _

theorem fieldOperand (p : Prepared) (pc : Nat) : Composed counts (fieldOperand p pc) :=
  .bind (.ofEngine _) fun _ => .bind .metadata fun _ => .ofResolution _

/-! ## Arguments, locals and constants -/

theorem placeSlot (p : Prepared) (place : Place) (index : Nat) : Composed counts (placeSlot p place index) := by
  unfold ExecM.placeSlot
  cases place with
  | argument =>
    dsimp only
    split
    · exact .pure _
    · exact .activation (fun _ _ => rfl) fun _ => .throw _
  | «local» =>
    dsimp only
    split
    · exact .pure _
    · exact .activation (fun _ _ => rfl) fun _ => .throw _

theorem placeIndex (p : Prepared) (pc : Nat) (index : SlotIndex) : Composed counts (placeIndex p pc index) := by
  cases index with
  | implied n => exact .pure _
  | encoded => exact .ofEngine _

theorem load (p : Prepared) (pc : Nat) (place : Place) (index : SlotIndex) : Composed counts (load p pc place index) :=
  .bind (.placeIndex p pc index) fun _ => .bind (.placeSlot p place _) fun _ => .bind (.resultSlot p 0) fun _ =>
    .bind (.copySlot _ _) fun _ => .pure _

theorem store (p : Prepared) (pc : Nat) (place : Place) (index : SlotIndex) :
    Composed counts (store p pc place index) :=
  .bind (.placeIndex p pc index) fun _ => .bind (.placeSlot p place _) fun _ => .bind (.peek p 0) fun _ =>
    .bind (.onHeapTrap _) fun _ => .bind (.put _ _) fun _ => .pure _

theorem loadAddress (p : Prepared) (pc : Nat) (place : Place) : Composed counts (loadAddress p pc place) :=
  .bind (.placeIndex p pc .encoded) fun _ => .bind (.placeSlot p place _) fun _ => .activation (fun _ _ => rfl) fun _ =>
    .bind (.resultSlot p 0) fun _ => .bind (.put _ _) fun _ => .pure _

theorem constant (p : Prepared) (pc : Nat) (c : Constant) : Composed counts (constant p pc c) := by
  cases c with
  | implied n => exact .pure _
  | short => exact .bind (.ofEngine _) fun _ => .pure _
  | int => exact .bind (.ofEngine _) fun _ => .pure _
  | long => exact .bind (.ofEngine _) fun _ => .pure _
  | shortReal => exact .bind (.ofEngine _) fun _ => .pure _
  | real => exact .bind (.ofEngine _) fun _ => .pure _

theorem loadConstant (p : Prepared) (pc : Nat) (c : Constant) : Composed counts (loadConstant p pc c) :=
  .bind (.constant p pc c) fun _ => .results p 0 _ _

theorem dup (p : Prepared) : Composed counts (dup p) :=
  .bind (.resultSlot p 1) fun _ => .bind (.copySlot _ _) fun _ => .pure _

/-! ## Arithmetic -/

theorem offsetPointer (q : Pointer) (bytes : Int) : Composed counts (offsetPointer q bytes) := by
  unfold ExecM.offsetPointer
  split
  · refine .bind .metadata fun _ => .bind (.onHeapTrap _) fun size => ?_
    split
    · exact .throw _
    · dsimp only
      split
      · exact .pure _
      · exact .throw _
  · exact .throw _

theorem checkedWord (n : Int) : Composed counts (checkedWord n) := by
  unfold ExecM.checkedWord
  split
  · exact .pure _
  · exact .throw _

theorem pointerDifference (q r : Pointer) : Composed counts (pointerDifference q r) := by
  have otherwise : Composed counts (if q.same r then Pure.pure 0 else unsupported (.unrelatedPointers q r) :
      ExecM (BitVec 64)) := by
    split
    · exact .pure _
    · exact .throw _
  unfold ExecM.pointerDifference
  dsimp only
  split
  · split
    · exact .bind .metadata fun _ => .bind (.onHeapTrap _) fun _ => .bind (.checkedWord _) fun _ => .checkedWord _
    · exact otherwise
  · exact otherwise

theorem pointerOffset (op : Opcode) (b : BinaryOp) (types : OperandTypes) (bytes : BitVec 64) :
    Composed counts (pointerOffset op b types bytes) := by
  have subtracted : Composed counts (if bytes = BitVec.intMin 64 then unsupported (.operands op types)
      else Pure.pure (-bytes.toInt) : ExecM Int) := by
    split
    · exact .throw _
    · exact .pure _
  cases b with
  | add => exact .pure _
  | addOvfUn => exact .pure _
  | sub => exact subtracted
  | subOvfUn => exact subtracted
  | _ => exact .throw _

theorem binaryResult (p : Prepared) (pc : Nat) (op : Opcode) (b : BinaryOp) :
    Composed counts (binaryResult p pc op b) := by
  have native (f : BitVec 64 → BitVec 64 → ExecM Value) (hf : ∀ m n, Composed counts (f m n)) : Composed counts (do
      let m ← ExecM.nativeAt p 1
      let n ← ExecM.nativeAt p 0
      f m n : ExecM Value) := .bind (.nativeAt p 1) fun _ => .bind (.nativeAt p 0) fun _ => hf _ _
  refine .bind (.operandTypes p pc) fun types => ?_
  split
  · exact .bind (.int32At p 1) fun _ => .bind (.int32At p 0) fun _ => .bind (.ofFault _) fun _ => .pure _
  · exact .bind (.int64At p 1) fun _ => .bind (.int64At p 0) fun _ => .bind (.ofFault _) fun _ => .pure _
  · exact native _ fun _ _ => .bind (.ofFault _) fun _ => .pure _
  · exact native _ fun _ _ => .bind (.ofFault _) fun _ => .pure _
  · exact native _ fun _ _ => .bind (.ofFault _) fun _ => .pure _
  · refine .bind (.floatAt p 1) fun x => .bind (.floatAt p 0) fun y => ?_
    split
    · exact .pure _
    · exact .throw _
  · exact .bind (.nativeAt p 0) fun _ => .bind (.pointerOffset _ _ _ _) fun _ => .bind (.pointerAt p 1) fun _ =>
      .bind (.offsetPointer _ _) fun _ => .pure _
  · exact .bind (.nativeAt p 0) fun _ => .bind (.pointerOffset _ _ _ _) fun _ => .bind (.pointerAt p 1) fun _ =>
      .bind (.offsetPointer _ _) fun _ => .pure _
  · exact .bind (.pointerAt p 0) fun _ => .bind (.nativeAt p 1) fun _ => .bind (.offsetPointer _ _) fun _ => .pure _
  · exact .bind (.pointerAt p 0) fun _ => .bind (.nativeAt p 1) fun _ => .bind (.offsetPointer _ _) fun _ => .pure _
  · exact .bind (.pointerAt p 1) fun _ => .bind (.pointerAt p 0) fun _ => .bind (.pointerDifference _ _) fun _ =>
      .pure _
  · exact .throw _

theorem binary (p : Prepared) (pc : Nat) (op : Opcode) (b : BinaryOp) : Composed counts (binary p pc op b) :=
  .bind (.binaryResult p pc op b) fun _ => .results p 2 _ _

theorem shift (p : Prepared) (pc : Nat) (op : Opcode) (s : ShiftOp) : Composed counts (shift p pc op s) := by
  refine .bind (.operandTypes p pc) fun types => .bind (.nativeAt p 0) fun amount => ?_
  split
  · exact .bind (.int32At p 1) fun _ => .results p 2 _ _
  · exact .bind (.int64At p 1) fun _ => .results p 2 _ _
  · exact .bind (.nativeAt p 1) fun _ => .results p 2 _ _
  · exact .bind (.throw _) fun _ => .pure _

theorem unary (p : Prepared) (pc : Nat) (op : Opcode) (u : UnaryOp) : Composed counts (unary p pc op u) := by
  refine .bind (.operandTypes p pc) fun types => ?_
  split
  · exact .bind (.int32At p 0) fun _ => .results p 1 _ _
  · exact .bind (.int64At p 0) fun _ => .results p 1 _ _
  · exact .bind (.nativeAt p 0) fun _ => .results p 1 _ _
  · exact .bind (.floatAt p 0) fun _ => .results p 1 _ _
  · exact .bind (.throw _) fun _ => .pure _

theorem checkFinite (p : Prepared) : Composed counts (checkFinite p) := by
  refine .bind (.floatAt p 0) fun x => ?_
  split
  · exact .results p 1 _ _
  · exact .throw _

theorem convert (p : Prepared) (c : Conversion) : Composed counts (convert p c) := by
  refine .bind (.peek p 0) fun v => ?_
  split
  · exact .results p 1 _ _
  · exact .throw _

theorem compareTop (p : Prepared) (pc : Nat) (op : Opcode) (c : Comparison) :
    Composed counts (compareTop p pc op c) := by
  refine .bind (.operandTypes p pc) fun types => ?_
  have answered (answer : Option Bool) : Composed counts (Pure.pure answer >>= ExecM.answered op types) := by
    cases answer with
    | some b => exact .pure _
    | none => exact .throw _
  split
  · exact .bind (.int32At p 1) fun _ => .bind (.int32At p 0) fun _ => answered _
  · exact .bind (.int64At p 1) fun _ => .bind (.int64At p 0) fun _ => answered _
  · exact .bind (.nativeAt p 1) fun _ => .bind (.nativeAt p 0) fun _ => answered _
  · exact .bind (.nativeAt p 1) fun _ => .bind (.nativeAt p 0) fun _ => answered _
  · exact .bind (.nativeAt p 1) fun _ => .bind (.nativeAt p 0) fun _ => answered _
  · exact .bind (.floatAt p 1) fun _ => .bind (.floatAt p 0) fun _ => answered _
  · exact .bind (.objectAt p 1) fun _ => .bind (.objectAt p 0) fun _ => answered _
  · exact .bind (.peek p 1) fun _ => .bind (.peek p 0) fun _ => answered _
  · exact answered _
  · exact answered _
  · exact answered _

theorem compare (p : Prepared) (pc : Nat) (op : Opcode) (c : Comparison) : Composed counts (compare p pc op c) :=
  .bind (.compareTop p pc op c) fun _ => .results p 2 _ _

/-! ## Loads and stores -/

theorem slotKind (p : Prepared) (slot : Nat) : Composed counts (slotKind p slot) := by
  unfold ExecM.slotKind
  dsimp only
  split
  · exact .pure _
  · exact .activation (fun _ _ => rfl) fun _ => .throw _

theorem ownSlot (frame : FrameId) (slot : Nat) : Composed counts (ownSlot frame slot) := by
  refine .activation (fun _ _ => rfl) fun a => ?_
  split
  · exact .pure _
  · exact .throw _

theorem deref (q : Pointer) (k : Kind) : Composed counts (deref q k) := by
  cases q with
  | slot frame slot => exact .bind (.ownSlot frame slot) fun _ => .activation (fun _ _ => rfl) fun _ => .ofEngine _
  | field object f => exact .bind .metadata fun _ => .onHeapTrap _
  | static f => exact .bind .metadata fun _ => .onHeapTrap _
  | element array index => exact .onHeapTrap (.ofHeap (Heap.loadElement array index k))
  | boxed object => exact .onHeapTrap (.ofHeap (Heap.loadBoxed object))
  | method h => exact .throw _

theorem loadThrough (q : Pointer) (k : Kind) : Composed counts (loadThrough q k) :=
  .bind (.deref q k) fun _ => .activation (fun _ _ => rfl) fun _ => .onHeapTrap _

theorem storeThrough (p : Prepared) (q : Pointer) (k : Kind) (v : Value) : Composed counts (storeThrough p q k v) := by
  refine .activation (fun _ _ => rfl) fun a => ?_
  cases q with
  | slot frame slot =>
    exact .bind (.ownSlot frame slot) fun _ => .bind (.slotKind p _) fun _ => .bind (.onHeapTrap _) fun _ => .put _ _
  | field object f => exact .bind (.onHeapTrap _) fun _ => .onHeapTrap _
  | static f => exact .bind (.onHeapTrap _) fun _ => .onHeapTrap _
  | element array index => exact .bind (.onHeapTrap _) fun _ => .bind .metadata fun _ => .onHeapTrap _
  | boxed object => exact .bind (.onHeapTrap _) fun _ => .bind .metadata fun _ => .onHeapTrap _
  | method h => exact .throw _

theorem loadIndirect (p : Prepared) (k : Kind) : Composed counts (loadIndirect p k) :=
  .bind (.addressAt p 0) fun _ => .bind (.loadThrough _ k) fun _ => .results p 1 _ _

theorem storeIndirect (p : Prepared) (k : Kind) : Composed counts (storeIndirect p k) :=
  .bind (.addressAt p 1) fun _ => .bind (.peek p 0) fun _ => .bind (.storeThrough p _ k _) fun _ => .pure _

theorem copyObject (p : Prepared) (pc : Nat) : Composed counts (copyObject p pc) :=
  .bind (.typeOperand p pc) fun _ => .bind (.addressAt p 1) fun _ => .bind (.addressAt p 0) fun _ =>
    .bind (.loadThrough _ _) fun _ => .bind (.storeThrough p _ _ _) fun _ => .pure _

theorem initObject (p : Prepared) (pc : Nat) : Composed counts (initObject p pc) :=
  .bind (.typeOperand p pc) fun _ => .bind (.addressAt p 0) fun _ => .bind .metadata fun _ =>
    .bind (.onHeapTrap _) fun _ => .bind (.storeThrough p _ _ _) fun _ => .pure _

/-! ## Objects -/

theorem fieldOwner (p : Prepared) (n : Nat) : Composed counts (fieldOwner p n) := by
  have owned (object : Option Ref) : Composed counts (Pure.pure object >>= ExecM.owned) := by
    cases object with
    | some r => exact .pure _
    | none => exact .throw _
  rw [fieldOwner_eq]
  refine .bind (.peek p n) fun v => ?_
  unfold ownerOf
  split
  · exact owned _
  · refine .bind (.deref _ _) fun v => ?_
    split
    · exact owned _
    · exact .bind (.throw _) fun _ => owned _
  · exact .bind (.throw _) fun _ => owned _
  · exact .activation (fun _ _ => rfl) fun _ => .bind (.throw _) fun _ => owned _

theorem loadString (p : Prepared) (pc : Nat) : Composed counts (loadString p pc) :=
  .bind (.ofEngine _) fun _ => .bind .metadata fun _ => .bind (.ofResolution _) fun _ => .bind (.onHeapTrap _) fun _ =>
    .results p 0 _ _

theorem symbolOperand (p : Prepared) (pc : Nat) : Composed counts (symbolOperand p pc) := by
  refine .bind (.ofEngine _) fun token => ?_
  split
  · exact .bind (.resolveMethod _) fun _ => .pure _
  · exact .bind .metadata fun _ => .ofResolution _

theorem loadToken (p : Prepared) (pc : Nat) : Composed counts (loadToken p pc) :=
  .bind (.symbolOperand p pc) fun _ => .bind (.onHeapTrap _) fun _ => .results p 0 _ _

theorem newArray (p : Prepared) (pc : Nat) : Composed counts (newArray p pc) := by
  refine .bind (.typeOperand p pc) fun element => .bind (.nativeAt p 0) fun length => ?_
  split
  · exact .throw _
  · exact .bind .metadata fun _ => .bind (.onHeapTrap _) fun _ => .results p 1 _ _

theorem arrayLength (p : Prepared) : Composed counts (arrayLength p) :=
  .bind (.nonNullAt p 0) fun _ => .bind (.onHeapTrap _) fun _ => .results p 1 _ _

theorem elementAddress (p : Prepared) : Composed counts (elementAddress p) := by
  refine .bind (.nonNullAt p 1) fun r => .bind (.indexAt p 0) fun i => .bind (.onHeapTrap _) fun n => ?_
  split
  · exact .throw _
  · exact .results p 2 _ _

theorem elementKind (p : Prepared) (pc : Nat) (kind : Option Kind) : Composed counts (elementKind p pc kind) := by
  cases kind with
  | some k => exact .pure _
  | none => exact .bind (.typeOperand p pc) fun _ => .pure _

theorem loadElement (p : Prepared) (pc : Nat) (kind : Option Kind) : Composed counts (loadElement p pc kind) :=
  .bind (.elementKind p pc kind) fun _ => .bind (.nonNullAt p 1) fun _ => .bind (.indexAt p 0) fun _ =>
    .bind (.onHeapTrap _) fun _ => .results p 2 _ _

theorem storeElement (p : Prepared) (pc : Nat) (kind : Option Kind) : Composed counts (storeElement p pc kind) :=
  .bind (.elementKind p pc kind) fun _ => .bind (.nonNullAt p 2) fun _ => .bind (.indexAt p 1) fun _ =>
    .activation (fun _ _ => rfl) fun _ => .bind (.peek p 0) fun _ => .bind (.onHeapTrap _) fun _ =>
      .bind .metadata fun _ => .bind (.onHeapTrap _) fun _ => .pure _

theorem loadField (p : Prepared) (pc : Nat) : Composed counts (loadField p pc) := by
  refine .bind (.fieldOperand p pc) fun f => ?_
  split
  · exact .bind .metadata fun _ => .bind (.onHeapTrap _) fun _ => .results p 1 _ _
  · exact .bind (.fieldOwner p 0) fun _ => .bind .metadata fun _ => .bind (.onHeapTrap _) fun _ => .results p 1 _ _

theorem fieldAddress (p : Prepared) (pc : Nat) : Composed counts (fieldAddress p pc) := by
  refine .bind (.fieldOperand p pc) fun f => ?_
  split
  · exact .bind (.pure _) fun _ => .results p 1 _ _
  · exact .bind (.fieldOwner p 0) fun _ => .bind (.pure _) fun _ => .results p 1 _ _

theorem storeField (p : Prepared) (pc : Nat) : Composed counts (storeField p pc) := by
  refine .bind (.fieldOperand p pc) fun f => .activation (fun _ _ => rfl) fun _ => .bind (.peek p 0) fun _ =>
    .bind (.onHeapTrap _) fun v => ?_
  split
  · exact .bind (.onHeapTrap _) fun _ => .pure _
  · exact .bind (.fieldOwner p 1) fun _ => .bind (.onHeapTrap _) fun _ => .pure _

theorem loadStatic (p : Prepared) (pc : Nat) : Composed counts (loadStatic p pc) :=
  .bind (.fieldOperand p pc) fun _ => .bind .metadata fun _ => .bind (.onHeapTrap _) fun _ => .results p 0 _ _

theorem staticAddress (p : Prepared) (pc : Nat) : Composed counts (staticAddress p pc) :=
  .bind (.fieldOperand p pc) fun _ => .results p 0 _ _

theorem storeStatic (p : Prepared) (pc : Nat) : Composed counts (storeStatic p pc) :=
  .bind (.fieldOperand p pc) fun _ => .activation (fun _ _ => rfl) fun _ => .bind (.peek p 0) fun _ =>
    .bind (.onHeapTrap _) fun _ => .bind (.onHeapTrap _) fun _ => .pure _

theorem cast (p : Prepared) (pc : Nat) (faults : Bool) : Composed counts (cast p pc faults) := by
  refine .bind (.typeOperand p pc) fun target => .bind (.objectAt p 0) fun r =>
    .machine (fun m m' _ hh => by rw [hh]) fun m => ?_
  split
  · exact .pure _
  · refine .bind .metadata fun md => ?_
    split
    · exact .throw _
    · exact .pure _
    · split
      · exact .bind .metadata fun _ => .bind (.ofResolution _) fun _ => .throw _
      · exact .results p 1 _ _

theorem box (p : Prepared) (pc : Nat) : Composed counts (box p pc) := by
  refine .bind (.typeOperand p pc) fun type => ?_
  split
  · exact .activation (fun _ _ => rfl) fun _ => .bind (.peek p 0) fun _ => .bind (.onHeapTrap _) fun _ =>
      .bind (.onHeapTrap _) fun _ => .results p 1 _ _
  · exact .pure _

theorem unbox (p : Prepared) (pc : Nat) : Composed counts (unbox p pc) :=
  .bind (.typeOperand p pc) fun _ => .bind (.nonNullAt p 0) fun _ => .bind (.onHeapTrap _) fun _ => .results p 1 _ _

theorem unboxAny (p : Prepared) (pc : Nat) : Composed counts (unboxAny p pc) := by
  refine .bind (.typeOperand p pc) fun type => ?_
  split
  · exact .bind (.nonNullAt p 0) fun _ => .bind (.onHeapTrap _) fun _ => .results p 1 _ _
  · exact .cast p pc true

theorem sizeOf (p : Prepared) (pc : Nat) : Composed counts (sizeOf p pc) :=
  .bind (.typeOperand p pc) fun _ => .bind .metadata fun _ => .bind (.onHeapTrap _) fun _ => .results p 0 _ _

theorem functionPointer (p : Prepared) (pc : Nat) : Composed counts (functionPointer p pc) :=
  .bind (.ofEngine _) fun _ => .bind (.resolveMethod _) fun _ => .results p 0 _ _

theorem virtualPointer (p : Prepared) (pc : Nat) : Composed counts (virtualPointer p pc) := by
  refine .bind (.ofEngine _) fun _ => .bind (.resolveMethod _) fun m => .bind (.nonNullAt p 0) fun r =>
    .machine (fun m m' _ hh => by rw [hh]) fun _ => ?_
  split
  · exact .bind .metadata fun _ => .bind (.ofAbort _) fun _ => .results p 1 _ _
  · exact .bind (.pure _) fun _ => .results p 1 _ _

/-! ## Branches, returns and handlers -/

theorem jumpIf (p : Prepared) (pc : Nat) (op : Opcode) (taken : Bool) : Composed counts (jumpIf p pc op taken) :=
  .bind (.ofEngine _) fun _ => .bind (.tracing _) fun _ => .pure _

theorem truth (p : Prepared) (pc : Nat) (op : Opcode) : Composed counts (truth p pc op) := by
  refine .bind (.operandTypes p pc) fun types => ?_
  split
  · exact .bind (.int32At p 0) fun _ => .pure _
  · exact .bind (.int64At p 0) fun _ => .pure _
  · exact .bind (.nativeAt p 0) fun _ => .pure _
  · exact .bind (.objectAt p 0) fun _ => .pure _
  · refine .bind (.peek p 0) fun v => ?_
    split
    · exact .pure _
    · exact .pure _
  · exact .throw _

theorem switch (p : Prepared) (pc : Nat) : Composed counts (switch p pc) := by
  have last (index : Nat) : Composed counts (Pure.pure index >>= jumpInto p pc) := by
    refine .bind (.pure _) fun index => .bind (.ofEngine _) fun targets => ?_
    split
    · exact .pure _
    · exact .pure _
  refine .bind (.peek p 0) fun v => ?_
  split
  · exact last _
  · exact .bind (.nativeAt p 0) fun _ => last _

theorem ret (p : Prepared) : Composed counts (ret p) := by
  have last (value : Option Value) : Composed counts (do
      let value ← Pure.pure value
      let a ← ExecM.activation
      if a.top ≠ p.layout.stackBase then fail (.invalidProgram a.pc .returnWithOperands)
      else return .ret value : ExecM Next) := by
    refine .bind (.pure _) fun value => .activation (fun _ _ => rfl) fun a => ?_
    split
    · exact .throw _
    · exact .pure _
  unfold ExecM.ret
  split
  · exact last none
  · exact .bind (.pop p) fun _ => .activation (fun _ _ => rfl) fun _ => .bind (.onHeapTrap _) fun w => last (some w)

theorem enterHandler (p : Prepared) (pc : Nat) (object : Option (Option Ref)) :
    Composed true (enterHandler p pc object) := by
  refine .bind (.resetStack p) fun _ => ?_
  cases object with
  | some r => exact .bind (.push _) fun _ => .modifyMetrics rfl fun _ _ => rfl
  | none =>
    dsimp only
    split
    · exact .modifyMetrics rfl fun _ _ => rfl
    · exact .pure _

theorem leave (p : Prepared) (pc : Nat) : Composed true (leave p pc) := by
  refine .bind (.ofEngine _) fun target => .bind (.resetStack p) fun _ => .activation (fun _ _ => rfl) fun a => ?_
  rcases a.unwinding.leave p.regions pc target with ⟨next, u⟩
  refine .bind (.modifyActivation ⟨fun _ _ => rfl, fun _ => rfl, nofun⟩) fun _ => ?_
  dsimp only
  split
  · exact .bind (.enterHandler _ _ _) fun _ => .pure _
  · exact .pure _

theorem endFinally (p : Prepared) (pc : Nat) : Composed true (endFinally p pc) := by
  refine .activation (fun _ _ => rfl) fun a => .bind .metadata fun md =>
    .bind (.modifyActivation ⟨fun _ _ => rfl, fun _ => rfl, nofun⟩) fun _ => .bind (.ofAbort _) fun transfer => ?_
  cases transfer with
  | resume target object => exact .bind (.enterHandler _ _ _) fun _ => .pure _
  | propagate e => exact .pure _

theorem throwTop (p : Prepared) : Composed counts (throwTop p) := by
  refine .bind (.objectAt p 0) fun r => .machine (fun m m' _ hh => by rw [hh]) fun m => ?_
  split
  · exact .throw _
  · exact .bind .metadata fun _ => .bind (.ofResolution _) fun _ => .throw _

theorem rethrow (p : Prepared) (pc : Nat) : Composed counts (rethrow p pc) :=
  .activation (fun _ _ => rfl) fun _ => .bind (.ofEngine _) fun _ => .throw _

/-! ## Calls -/

theorem resolveSite (kind : CallKind) (token : Token) : Composed counts (resolveSite kind token) := by
  refine .bind (.resolveMethod token) fun m => ?_
  cases kind with
  | call => exact .pure _
  | callvirt => exact .pure _
  | newobj => exact .bind .metadata fun _ => .bind (.ofResolution _) fun _ => .pure _
  | jmp => exact .pure _

theorem installSite (p : Prepared) (pc : Nat) (site : CallSite) : Composed true (installSite p pc site) :=
  .bind (.ofEngine _) fun _ => .bind (.ofEngine _) fun _ => .bind (.ofEngine _) fun _ =>
    .activation (fun _ _ => rfl) fun _ => .bind (.setPrepared rfl _ _) fun _ => .modifyMetrics rfl fun _ _ => rfl

theorem virtualTarget (m : MethodSymbol) (arguments : List Value) : Composed counts (virtualTarget m arguments) := by
  unfold ExecM.virtualTarget
  split
  · exact .throw _
  · refine .machine (fun m m' _ hh => by rw [hh]) fun _ => ?_
    split
    · exact .bind .metadata fun _ => .ofAbort _
    · exact .pure _
  · exact .pure _

theorem gathered (f : Frame) : ∀ slots : List Nat, Composed counts (slots.mapM fun slot => ExecM.ofEngine (f.get slot))
  | [] => .pure _
  | slot :: slots => by
    rw [List.mapM_cons]
    exact .bind (.ofEngine _) fun _ => .bind (gathered f slots) fun _ => .pure _

theorem invoke (p : Prepared) (site : CallSite) : Composed true (invoke p site) := by
  refine .bind (.modifyMetrics rfl fun _ _ => rfl) fun _ => ?_
  cases site with
  | call m => exact .bind (.popArguments p _) fun _ => .pure _
  | callvirt m => exact .bind (.popArguments p _) fun _ => .bind (.virtualTarget m _) fun _ => .pure _
  | newobj m type =>
    exact .bind (.popArguments p _) fun _ => .bind .metadata fun _ => .bind (.onHeapTrap _) fun _ => .pure _
  | jmp m => exact .activation (fun _ _ => rfl) fun a => .bind (.gathered a.frame _) fun _ => .pure _

theorem callSite (p : Prepared) (pc : Nat) (kind : CallKind) : Composed true (callSite p pc kind) :=
  .bind (.ofEngine _) fun _ => .bind (.resolveSite kind _) fun _ => .bind (.installSite p pc _) fun _ => .invoke p _

theorem cachedCall (p : Prepared) (pc : Nat) : Composed true (cachedCall p pc) := by
  refine .bind (.ofEngine _) fun index => ?_
  split
  · exact .invoke p _
  · exact .throw _

/-! ## Every instruction, and what follows it -/

/-- **Every instruction is composed of the ways to touch a workspace**, and most of them without counting. -/
theorem instruction (p : Prepared) (pc : Nat) (op : Opcode) (h : op.action.isCounted = true → counts = true) :
    Composed counts (instruction p pc op) := by
  unfold ExecM.instruction
  cases ha : op.action with
  | skip => exact .pure _
  | pop => exact .pure _
  | load place index => exact .load p pc place index
  | address place => exact .loadAddress p pc place
  | store place index => exact .store p pc place index
  | loadNull => exact .results p 0 _ _
  | loadConstant c => exact .loadConstant p pc c
  | dup => exact .dup p
  | jump => exact .jumpIf p pc op true
  | jumpOn wanted => exact .bind (.truth p pc op) fun _ => .jumpIf p pc op _
  | jumpCompare c => exact .bind (.compareTop p pc op c) fun _ => .jumpIf p pc op _
  | switch => exact .switch p pc
  | ret => exact .ret p
  | leave =>
    obtain rfl := h (by rw [ha]; rfl)
    exact .leave p pc
  | endFinally =>
    obtain rfl := h (by rw [ha]; rfl)
    exact .endFinally p pc
  | throw => exact .throwTop p
  | rethrow => exact .rethrow p pc
  | compare c => exact .compare p pc op c
  | binary b => exact .binary p pc op b
  | shift s => exact .shift p pc op s
  | unary u => exact .unary p pc op u
  | checkFinite => exact .checkFinite p
  | convert c => exact .convert p c
  | loadIndirect k => exact .loadIndirect p k
  | storeIndirect k => exact .storeIndirect p k
  | loadObject => exact .bind (.typeOperand p pc) fun _ => .loadIndirect p _
  | storeObject => exact .bind (.typeOperand p pc) fun _ => .storeIndirect p _
  | copyObject => exact .copyObject p pc
  | initObject => exact .initObject p pc
  | loadString => exact .loadString p pc
  | loadToken => exact .loadToken p pc
  | newArray => exact .newArray p pc
  | arrayLength => exact .arrayLength p
  | elementAddress => exact .elementAddress p
  | loadElement kind => exact .loadElement p pc kind
  | storeElement kind => exact .storeElement p pc kind
  | loadField => exact .loadField p pc
  | fieldAddress => exact .fieldAddress p pc
  | storeField => exact .storeField p pc
  | loadStatic => exact .loadStatic p pc
  | staticAddress => exact .staticAddress p pc
  | storeStatic => exact .storeStatic p pc
  | castClass => exact .cast p pc true
  | isInstance => exact .cast p pc false
  | box => exact .box p pc
  | unbox => exact .unbox p pc
  | unboxAny => exact .unboxAny p pc
  | sizeOf => exact .sizeOf p pc
  | functionPointer => exact .functionPointer p pc
  | virtualPointer => exact .virtualPointer p pc
  | callSite kind =>
    obtain rfl := h (by rw [ha]; rfl)
    exact .callSite p pc kind
  | cachedCall =>
    obtain rfl := h (by rw [ha]; rfl)
    exact .cachedCall p pc
  | _ => exact .throw _

theorem applyEffect (p : Prepared) (op : Opcode) (before : Nat) : Composed counts (applyEffect p op before) := by
  unfold ExecM.applyEffect
  split
  · exact .pure _
  · refine .activation (fun _ _ => rfl) fun a => ?_
    split
    · exact .throw _
    · split
      · exact .throw _
      · dsimp only
        split
        · exact .throw _
        · exact .modifyActivation ⟨fun _ _ => rfl, fun _ => rfl, fun _ _ => rfl⟩

theorem advance (p : Prepared) (op : Opcode) (before : Nat) : Composed counts (advance p op before) :=
  .bind (.applyEffect p op before) fun _ => .activation (fun _ _ => rfl) fun _ => .bind (.ofEngine _) fun _ =>
    .modifyActivation ⟨fun _ _ => rfl, fun _ => rfl, fun _ _ => rfl⟩

theorem jumpTo (p : Prepared) (op : Opcode) (before target : Nat) : Composed true (jumpTo p op before target) := by
  refine .bind (.applyEffect p op before) fun _ => .activation (fun _ _ => rfl) fun a => ?_
  dsimp only
  split
  · exact .bind (.countBackEdge rfl _ _) fun _ => .modifyActivation ⟨fun _ _ => rfl, fun _ => rfl, fun _ _ => rfl⟩
  · exact .modifyActivation ⟨fun _ _ => rfl, fun _ => rfl, fun _ _ => rfl⟩

theorem dispatch (p : Prepared) (e : GuestException) : Composed true (dispatch p e) := by
  refine .bind (.modifyMetrics rfl fun _ _ => rfl) fun _ => .machine (fun m m' hm hh => ?_) fun m => ?_
  · rw [hm, hh, Machine.names, hh, Machine.names]
  · refine .activation (fun _ _ => rfl) fun a => .bind (.tracing _) fun _ =>
      .bind (.modifyActivation ⟨fun _ _ => rfl, fun _ => rfl, nofun⟩) fun _ => .bind (.ofAbort _) fun transfer => ?_
    cases transfer with
    | resume target object =>
      exact .bind (.enterHandler _ _ _) fun _ =>
        .bind (.modifyActivation ⟨fun _ _ => rfl, fun _ => rfl, fun _ _ => rfl⟩) fun _ => .pure _
    | propagate e' => exact .bind (.tracing _) fun _ => .pure _

theorem continueWith (c : Continuation) (value : Option Value) : Composed counts (continueWith c value) := by
  cases c with
  | returnResult => exact .pure _
  | pushObject r => exact .bind (.push _) fun _ => .pure _
  | pushResult m =>
    unfold ExecM.continueWith
    dsimp only
    split
    · exact .pure _
    · exact .bind (.push _) fun _ => .pure _
    · exact .activation (fun _ _ => rfl) fun _ => .throw _

end Composed

end ExecM

end ManagedCode
