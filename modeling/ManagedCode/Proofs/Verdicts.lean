import ManagedCode.Proofs.Quiet
import ManagedCode.Proofs.Tables

/-!
# How an analysis refuses a method

An analysis ends with a result or with a verdict on the program (`EngineError.isVerdict`): a defect, a number that
encodes no instruction, or a token that names nothing. Every other error that its parts can raise is out of reach. The
scan reads every instruction once and turns bytes that end too early into a defect; after it each visited offset is an
instruction inside the code whose operand can be read, the operand has the form that the action of the instruction
reads, and the height of the stack changes as the row of the instruction says.
-/

namespace ManagedCode

/-- The errors that are verdicts on the analyzed program. -/
def EngineError.isVerdict : EngineError → Bool
  | .invalidProgram .. | .unsupportedOpcode .. | .resolution _ => true
  | _ => false

/-! ## What actions read -/

/-- The actions that take the index of an argument or a local from the code. -/
def Action.readsIndex : Action → Bool
  | .load _ .encoded | .store _ .encoded | .address _ => true
  | _ => false

/-- The actions that take one distance from the code. -/
def Action.readsDistance : Action → Bool
  | .jump | .jumpOn _ | .jumpCompare _ | .leave => true
  | _ => false

namespace Opcode

theorem operand_of_readsIndex (op : Opcode) (h : op.action.readsIndex = true) :
    op.operand = .shortVariable ∨ op.operand = .variable := by
  cases op <;> first | exact .inl rfl | exact .inr rfl | cases h

theorem operand_of_readsDistance (op : Opcode) (h : op.action.readsDistance = true) :
    op.operand = .shortBranch ∨ op.operand = .branch := by
  cases op <;> first | exact .inl rfl | exact .inr rfl | cases h

theorem size?_callIndirect (op : Opcode) (h : op.action = .callIndirect) : op.operand.size? = some 4 := by
  cases op <;> first | rfl | cases h

end Opcode

namespace Analysis

variable {cx : Context} {pc next next' : Nat} {op : Opcode} {e : EngineError}

/-- An instruction that cannot be read is a verdict on the program. -/
theorem isVerdict_decodeError {c : Code} (h : c.nextOffset pc = .error e) :
    (Context.decodeError e).isVerdict = true := by
  rcases Code.nextOffset_error h with ⟨o, rfl⟩ | ⟨value, rfl⟩
  · rfl
  · rfl

theorem isVerdict_of_scanFrom {c : Code} : ∀ (fuel pc : Nat) (starts : Array Bool),
    scanFrom c fuel pc starts = .error e → e.isVerdict = true
  | 0, _, _, h => by cases h
  | fuel + 1, pc, starts, h => by
    rw [scanFrom] at h
    split at h
    · cases h
    · cases hn : c.nextOffset pc with
      | error e' =>
        rw [hn] at h
        cases h
        exact isVerdict_decodeError hn
      | ok next =>
        rw [hn] at h
        exact isVerdict_of_scanFrom fuel next _ h

/-! ## Computations on types -/

namespace TypeM

variable {α β : Type}

/-- The computation fails on no stack but with a verdict. -/
def Judges (x : TypeM α) : Prop := ∀ st e, x.run st = .error e → e.isVerdict = true

namespace Judges

variable {x : TypeM α} {f : α → TypeM β}

theorem pure {a : α} : Judges (Pure.pure a : TypeM α) := fun st e h => by cases h

theorem throw (he : e.isVerdict = true) : Judges (MonadExcept.throw e : TypeM α) := fun st e' h => by
  cases h
  exact he

theorem fail {d : Defect} : Judges (TypeM.fail pc d : TypeM α) := .throw rfl

theorem fail_bind {d : Defect} : Judges (TypeM.fail pc d >>= f) := fun st e h => by
  cases h
  rfl

theorem get : Judges (MonadState.get : TypeM (List StackType)) := fun st e h => by cases h

theorem set {st' : List StackType} : Judges (MonadStateOf.set st' : TypeM PUnit) := fun st e h => by cases h

theorem bind (hx : Judges x) (hf : ∀ a, Judges (f a)) : Judges (x >>= f) := by
  intro st e h
  rw [StateT.run_bind] at h
  cases hr : x.run st with
  | error e' =>
    rw [hr] at h
    cases h
    exact hx st e hr
  | ok q =>
    rw [hr] at h
    exact hf q.1 q.2 e h

theorem ite {c : Prop} [Decidable c] {x y : TypeM α} (hx : Judges x) (hy : Judges y) :
    Judges (if c then x else y) := by
  by_cases hc : c
  · rw [if_pos hc]; exact hx
  · rw [if_neg hc]; exact hy

theorem liftCode {r : Except EngineError α} (hr : ∀ e, r = .error e → e.isVerdict = true) :
    Judges (TypeM.liftCode r) := by
  intro st e h
  cases r with
  | ok a => cases h
  | error e' => cases h; exact hr e rfl

theorem liftResolution {r : Except ResolutionError α} : Judges (TypeM.liftResolution r) := by
  cases r with
  | ok a => exact .pure
  | error e => exact .throw rfl

theorem pop : Judges (TypeM.pop pc) := by
  refine .bind .get fun stack => ?_
  cases stack with
  | nil => exact .fail
  | cons t rest => exact .bind .set fun _ => .pure

theorem push {max : Nat} {t : StackType} : Judges (TypeM.push max pc t) :=
  .bind .get fun _ => .ite .fail_bind .set

theorem popMany : ∀ count, Judges (TypeM.popMany pc count)
  | 0 => .pure
  | count + 1 => .bind .pop fun _ => popMany count

theorem popPair : Judges (TypeM.popPair pc) := .bind .pop fun _ => .bind .pop fun _ => .pure

theorem popOneOf {what : String} {allowed : List StackType} : Judges (TypeM.popOneOf pc what allowed) :=
  .bind .pop fun _ => .ite .pure .fail

theorem popObject : Judges (TypeM.popObject pc) := .bind .popOneOf fun _ => .pure

theorem pairAs {l r : StackType} {allowed : OperandTypes → Bool} : Judges (Analysis.pairAs pc op l r allowed) := by
  unfold Analysis.pairAs
  cases OperandTypes.pair? l r with
  | some ts => exact .ite .pure .fail
  | none => exact .fail

theorem slotType {place : Place} {i : Nat} : Judges (cx.slotType pc place i) := by
  unfold Context.slotType
  dsimp only
  split
  · exact .pure
  · exact .fail

end Judges

end TypeM

open TypeM

/-! ## Instructions -/

namespace Context

theorem judges_token (hn : cx.code.nextOffset pc = .ok next) (ho : cx.code.opcodeAt pc = .ok op)
    (hs : op.operand.size? = some 4) : Judges (liftCode (cx.code.token pc)) := by
  obtain ⟨t, ht⟩ := Code.token_ok hn ho hs
  rw [ht]
  exact .pure

theorem judges_slotIndex (hn : cx.code.nextOffset pc = .ok next) (ho : cx.code.opcodeAt pc = .ok op) {index : SlotIndex}
    (hindex : index = .encoded → op.action.readsIndex = true) : Judges (cx.slotIndex pc index) := by
  cases index with
  | implied n => exact .pure
  | encoded =>
    refine .liftCode fun e he => ?_
    obtain ⟨hshort, hlong, -⟩ := Code.slotIndex_refuses hn ho he
    rcases op.operand_of_readsIndex (hindex rfl) with hk | hk
    · exact absurd hk hshort
    · exact absurd hk hlong

theorem judges_branchTarget (hn : cx.code.nextOffset pc = .ok next) (ho : cx.code.opcodeAt pc = .ok op)
    (haction : op.action.readsDistance = true) : Judges (liftCode (cx.code.branchTarget pc)) := by
  refine .liftCode fun e he => ?_
  rcases Code.branchTarget_refuses hn ho he with rfl | ⟨hshort, hlong, -⟩
  · rfl
  · rcases op.operand_of_readsDistance haction with hk | hk
    · exact absurd hk hshort
    · exact absurd hk hlong

theorem judges_switchTargets (hn : cx.code.nextOffset pc = .ok next) (ho : cx.code.opcodeAt pc = .ok op)
    (hs : op.operand.size? = none) : Judges (liftCode (cx.code.switchTargets pc)) :=
  .liftCode fun e he => by rw [Code.switchTargets_refuses hn ho hs he]; rfl

theorem judges_call {t : StackType → TypeM Unit} {s : Signature} (ht : ∀ k, Judges (t k)) :
    Judges (act.call pc t s) :=
  .bind (.popMany _) fun _ => by
    cases s.result with
    | none => exact .pure
    | some k => exact .bind (ht _) fun _ => .pure

/-- **An instruction whose bytes were read is refused with a verdict only**, on every stack. -/
theorem judges_act (hn : cx.code.nextOffset pc = .ok next) (ho : cx.code.opcodeAt pc = .ok op) :
    Judges (cx.act pc op next') := by
  have token : ∀ {a : Action}, op.action = a → a.width? = some 4 → Judges (liftCode (cx.code.token pc)) :=
    fun ha hw => judges_token hn ho (op.size?_of_width? (by rw [ha]; exact hw))
  have type : ∀ {a : Action}, op.action = a → a.width? = some 4 → Judges (cx.operandType pc) :=
    fun ha hw => .bind (token ha hw) fun _ => .bind .liftResolution fun _ => .pure
  have method : ∀ {a : Action}, op.action = a → a.width? = some 4 → Judges (cx.operandMethod pc) :=
    fun ha hw => .bind (token ha hw) fun _ => .liftResolution
  have field : ∀ {a : Action}, op.action = a → a.width? = some 4 → Judges (cx.operandField pc) :=
    fun ha hw => .bind (token ha hw) fun _ => .liftResolution
  have branch : ∀ {a : Action} {operands : Option OperandTypes} {empties : Bool}, op.action = a →
      a.readsDistance = true → Judges (do
        let target ← liftCode (cx.code.branchTarget pc)
        return ({ operands, jumps := [⟨target, empties⟩] } : Effect)) :=
    fun ha hd => .bind (judges_branchTarget hn ho (by rw [ha]; exact hd)) fun _ => .pure
  have stop : ∀ {d : Defect}, Judges (do
      if !(← MonadState.get).isEmpty then TypeM.fail pc d
      return ({} : Effect)) := .bind .get fun _ => .ite .fail_bind .pure
  unfold act
  cases ha : op.action with
  | skip => exact .pure
  | load place index =>
    exact .bind (judges_slotIndex hn ho fun hi => by rw [ha, hi]; rfl) fun i =>
      .bind .slotType fun _ => .bind .push fun _ => .pure
  | address place =>
    exact .bind (judges_slotIndex hn ho fun _ => by rw [ha]; rfl) fun i =>
      .bind .slotType fun _ => .bind .push fun _ => .pure
  | store place index =>
    exact .bind (judges_slotIndex hn ho fun hi => by rw [ha, hi]; rfl) fun i =>
      .bind .slotType fun _ => .bind .pop fun _ => .pure
  | loadNull => exact .bind .push fun _ => .pure
  | loadString => exact .bind .push fun _ => .pure
  | loadToken => exact .bind .push fun _ => .pure
  | loadConstant c => exact .bind .push fun _ => .pure
  | sizeOf => exact .bind .push fun _ => .pure
  | argumentList => exact .bind .push fun _ => .pure
  | staticAddress => exact .bind .push fun _ => .pure
  | functionPointer => exact .bind .push fun _ => .pure
  | dup => exact .bind .pop fun t => .bind .push fun _ => .bind .push fun _ => .pure
  | pop => exact .bind .pop fun _ => .pure
  | endFilter => exact .bind .pop fun _ => .pure
  | storeStatic => exact .bind .pop fun _ => .pure
  | callSite kind =>
    cases kind with
    | jmp => exact stop
    | newobj => exact .bind (method ha rfl) fun m => .bind (.popMany _) fun _ => .bind .push fun _ => .pure
    | call => exact .bind (method ha rfl) fun m => judges_call fun _ => .push
    | callvirt => exact .bind (method ha rfl) fun m => judges_call fun _ => .push
  | callIndirect =>
    exact .bind (judges_token hn ho (op.size?_callIndirect ha)) fun t => .bind .liftResolution fun s =>
      .bind .pop fun _ => judges_call fun _ => .push
  | cachedCall => exact .throw rfl
  | ret => exact .ite (.bind .pop fun _ => stop) stop
  | jump => exact branch ha rfl
  | jumpOn wanted => exact .bind .pop fun t => .ite .fail_bind (branch ha rfl)
  | jumpCompare c => exact .bind .popPair fun _ => .bind .pairAs fun ts => branch ha rfl
  | switch =>
    exact .bind .popOneOf fun t => .bind (judges_switchTargets hn ho (op.size?_switch ha)) fun targets => .pure
  | leave => exact .bind .set fun _ => branch ha rfl
  | endFinally => exact .bind .set fun _ => .pure
  | throw => exact .bind .popObject fun _ => .pure
  | rethrow => exact .pure
  | compare c => exact .bind .popPair fun _ => .bind .pairAs fun ts => .bind .push fun _ => .pure
  | binary b => exact .bind .popPair fun _ => .bind .pairAs fun ts => .bind .push fun _ => .pure
  | shift s => exact .bind .popPair fun _ => .bind .pairAs fun ts => .bind .push fun _ => .pure
  | unary u => exact .bind .popOneOf fun _ => .bind .push fun _ => .pure
  | checkFinite => exact .bind .popOneOf fun _ => .bind .push fun _ => .pure
  | convert c => exact .bind .pop fun t => .ite .fail_bind (.bind .push fun _ => .pure)
  | loadIndirect k => exact .bind .popOneOf fun _ => .bind .push fun _ => .pure
  | storeIndirect k => exact .bind .pop fun _ => .bind .popOneOf fun t => .pure
  | storeObject => exact .bind .pop fun _ => .bind .popOneOf fun t => .pure
  | loadObject => exact .bind .popOneOf fun t => .bind (type ha rfl) fun _ => .bind .push fun _ => .pure
  | copyObject => exact .bind .popOneOf fun s => .bind .popOneOf fun t => .bind .pairAs fun ts => .pure
  | initObject => exact .bind .popOneOf fun t => .pure
  | copyBlock => exact .bind (.popMany 3) fun _ => .pure
  | initBlock => exact .bind (.popMany 3) fun _ => .pure
  | localAlloc => exact .bind .popOneOf fun _ => .bind .push fun _ => .pure
  | loadField => exact .bind .popOneOf fun t => .bind (field ha rfl) fun _ => .bind .push fun _ => .pure
  | fieldAddress => exact .bind .popOneOf fun t => .bind (field ha rfl) fun _ => .bind .push fun _ => .pure
  | storeField => exact .bind .pop fun _ => .bind .popOneOf fun t => .pure
  | loadStatic => exact .bind (field ha rfl) fun _ => .bind .push fun _ => .pure
  | castClass => exact .bind .popObject fun _ => .bind .push fun _ => .pure
  | isInstance => exact .bind .popObject fun _ => .bind .push fun _ => .pure
  | box => exact .bind .pop fun _ => .bind .push fun _ => .pure
  | typedType => exact .bind .pop fun _ => .bind .push fun _ => .pure
  | unbox => exact .bind .popObject fun _ => .bind .push fun _ => .pure
  | virtualPointer => exact .bind .popObject fun _ => .bind .push fun _ => .pure
  | unboxAny => exact .bind .popObject fun _ => .bind (type ha rfl) fun _ => .bind .push fun _ => .pure
  | newArray => exact .bind .popOneOf fun _ => .bind .push fun _ => .pure
  | arrayLength => exact .bind .popObject fun _ => .bind .push fun _ => .pure
  | elementAddress => exact .bind .popOneOf fun t => .bind .popObject fun _ => .bind .push fun _ => .pure
  | loadElement kind =>
    cases kind with
    | some k => exact .bind .popOneOf fun t => .bind .popObject fun _ => .bind .push fun _ => .pure
    | none =>
      exact .bind .popOneOf fun t => .bind .popObject fun _ => .bind (type ha rfl) fun _ => .bind .push fun _ => .pure
  | storeElement kind => exact .bind .pop fun _ => .bind .popOneOf fun t => .bind .popObject fun _ => .pure
  | makeTyped => exact .bind .popOneOf fun _ => .bind .push fun _ => .pure
  | typedAddress => exact .bind .pop fun _ => .bind .push fun _ => .pure

theorem judges_transfer (hn : cx.code.nextOffset pc = .ok next) (ho : cx.code.opcodeAt pc = .ok op) :
    Judges (cx.transfer pc op) := by
  unfold transfer
  rw [hn]
  exact .bind .pure fun next' => .bind (judges_act hn ho) fun effect => .ite .pure (.ite .fail .pure)

end Context

/-! ## The pass -/

/-- From `s` the pass fails with a verdict only. -/
def JudgesFrom {α : Type} (s : State) (x : PassM α) : Prop := Meets x s (fun _ _ => True) fun e _ => e.isVerdict = true

theorem judgesFrom_enqueue {s : State} {source target : Nat} {stack : List StackType} :
    JudgesFrom s (enqueue source target stack) := by
  unfold enqueue
  refine Meets.get_bind ?_
  by_cases hstart : s.result.isStart target = true
  case neg =>
    simp only [hstart, Bool.not_false, if_pos]
    exact Meets.throw_bind rfl
  simp only [hstart, Bool.not_true, Bool.false_eq_true, if_false]
  split
  · exact Meets.set trivial
  · exact Meets.pure trivial

theorem judgesFrom_forM {β : Type} {xs : List β} {f : β → PassM PUnit} {s : State} (hf : ∀ b t, JudgesFrom t (f b)) :
    JudgesFrom s (xs.forM f) :=
  (Meets.forM (I := fun _ => True) (P := fun _ _ => True)
    (fun b _ t _ => (hf b t).mono (fun _ _ _ => ⟨trivial, trivial, fun _ _ => trivial⟩) fun _ _ h => h) trivial).mono
    (fun _ _ _ => trivial) fun _ _ h => h

/-- A visit fails with a verdict only where the instruction could be read: the check of heights never fails. -/
theorem judgesFrom_visit {stack : List StackType} {s : State} (hn : cx.code.nextOffset pc = .ok next) :
    JudgesFrom s (visit cx pc stack) := by
  refine meets_visit (fun e he => ?_) (fun op e n hop he => Context.judges_transfer hn hop stack e he)
    fun op types successors left n hop htransfer => ?_
  · obtain ⟨op, hop, -⟩ := Code.nextOffset_ok hn
    cases hop.symm.trans he
  · exact Meets.ofExcept_bind (Context.checkEffect_of_transfer htransfer)
      (judgesFrom_forM fun _ _ => judgesFrom_enqueue)

/-- **All visits fail with a verdict only**: what waits is an instruction start, so its instruction can be read. -/
theorem judgesFrom_visitAll {starts : Array Bool} (hscan : Scanned cx.code starts) : ∀ (fuel : Nat) (s : State),
    Covering cx starts (fun _ => False) s → JudgesFrom s (visitAll cx fuel)
  | 0, s, h => Meets.pure trivial
  | fuel + 1, s, h => by
    unfold visitAll
    refine Meets.get_bind ?_
    cases hw : s.worklist with
    | nil => exact Meets.pure trivial
    | cons e rest =>
      obtain ⟨pc, stack⟩ := e
      obtain ⟨-, hstart, -⟩ := h.waiting pc stack (by rw [hw]; exact List.mem_cons_self)
      obtain ⟨next, hn, -⟩ := hscan.next pc (h.starts_eq ▸ hstart)
      refine Meets.modify_bind (Meets.bind ((visit_meets hscan.size h hw).combine (judgesFrom_visit hn)) ?_)
      rintro _ t ⟨ht, -⟩
      exact judgesFrom_visitAll hscan fuel t ht

theorem judgesFrom_seed {s : State} : JudgesFrom s (seed cx) := by
  unfold seed
  refine Meets.bind (Q := fun _ _ => True)
    (Meets.ofExcept (fun _ _ => trivial) fun e he => isVerdict_of_scanFrom _ _ _ he) fun starts t _ => ?_
  refine Meets.modify_bind ?_
  split
  · exact Meets.throw_bind rfl
  · exact judgesFrom_forM fun _ _ => judgesFrom_enqueue

theorem judgesFrom_pass : JudgesFrom (start cx.code.size) (pass cx) := by
  rw [pass_eq]
  refine Meets.bind ((seed_meets cx _ rfl).combine judgesFrom_seed) ?_
  rintro _ t ⟨starts, hscan, ht, -⟩
  exact judgesFrom_visitAll (scan_ok hscan) _ t ht

end Analysis

open Analysis in
/-- **An analysis that fails is a verdict on the method.** -/
theorem isVerdict_of_analyze {md : Metadata} {m : MethodSymbol} {body : Body} {e : EngineError}
    (hb : m.body = some body) (h : (analyze md m).1 = .error e) : e.isVerdict = true := by
  have hp : JudgesFrom (start body.code.size) (pass (contextOf md m body)) := judgesFrom_pass
  unfold analyze at h
  rw [hb] at h
  simp only at h
  rcases hr : ((pass (contextOf md m body)).run).run (start body.code.size) with ⟨r, s⟩
  rw [hr] at h
  cases r with
  | ok u => cases h
  | error e' =>
    cases h
    exact hp.of_error hr

open Analysis in
/-- **The analysis agrees with the table, and refuses a method with a verdict only.** Whatever the operand and the
stack, an accepted instruction with a fixed effect pushes and pops as its row says. So the analysis of a method with a
body ends with a result, or it says that the program has a defect, that an instruction does not exist, or that a
token names nothing. -/
theorem analysis_verdicts :
    (∀ (cx : Context) (pc : Nat) (op : Opcode) (st st' : List StackType) (types : Option OperandTypes)
      (successors : List Successor) (pops pushes : Nat), op.effect = .fixed pops pushes →
      (cx.transfer pc op).run st = .ok ((types, successors), st') →
      (st'.length : Int) = st.length + (pushes - pops)) ∧
    ∀ (md : Metadata) (m : MethodSymbol) (body : Body), m.body = some body →
      (∃ a, (analyze md m).1 = .ok a) ∨ (∃ offset defect, (analyze md m).1 = .error (.invalidProgram offset defect)) ∨
      (∃ opcode offset, (analyze md m).1 = .error (.unsupportedOpcode opcode offset)) ∨
      ∃ e, (analyze md m).1 = .error (.resolution e) := by
  refine ⟨fun cx pc op st st' types successors pops pushes heffect h => ?_, fun md m body hb => ?_⟩
  · exact Context.height_of_transfer (by rw [heffect]; rfl) h
  · cases hr : (analyze md m).1 with
    | ok a => exact .inl ⟨a, rfl⟩
    | error e =>
      have he := isVerdict_of_analyze hb hr
      cases e with
      | invalidProgram offset defect => exact .inr (.inl ⟨offset, defect, rfl⟩)
      | unsupportedOpcode opcode offset => exact .inr (.inr (.inl ⟨opcode, offset, rfl⟩))
      | resolution e => exact .inr (.inr (.inr ⟨e, rfl⟩))
      | _ => cases he

/-- The sum of two numbers, and an instruction that breaks off. -/
def cutShortBody : Body where
  code := #[0x17, 0x18, 0x58, 0x20, 1]
  maxStack := 2

/-- A method whose code breaks off inside its last instruction. -/
def cutShort : MethodSymbol where
  handle := ⟨3⟩
  name := "cutShort"
  declaring := Core.object
  signature := {}
  isVirtual := false
  body := some cutShortBody

open Analysis in
/-- The addition in `cutShort` pops two numbers and pushes one. The bytes behind it are refused, with a verdict. -/
theorem cutShort_refused :
    (Opcode.add.effect = .fixed 2 1 ∧
      ((contextOf .core cutShort cutShortBody).transfer 2 .add).run [.int32, .int32] =
        .ok ((some .int32, [⟨3, false⟩]), [.int32]) ∧
      ([StackType.int32].length : Int) = [StackType.int32, .int32].length + ((1 : Nat) - (2 : Nat))) ∧
    cutShort.body = some cutShortBody ∧ (analyze .core cutShort).1.toOption = none ∧
    ((∃ a, (analyze .core cutShort).1 = .ok a) ∨
      (∃ offset defect, (analyze .core cutShort).1 = .error (.invalidProgram offset defect)) ∨
      (∃ opcode offset, (analyze .core cutShort).1 = .error (.unsupportedOpcode opcode offset)) ∨
      ∃ e, (analyze .core cutShort).1 = .error (.resolution e)) := by
  have hadd : ((contextOf .core cutShort cutShortBody).transfer 2 .add).run [.int32, .int32] =
      .ok ((some .int32, [⟨3, false⟩]), [.int32]) := by
    have hr : (((contextOf .core cutShort cutShortBody).transfer 2 .add).run [.int32, .int32]).toOption =
        some ((some .int32, [⟨3, false⟩]), [.int32]) := by decide +kernel
    cases hx : ((contextOf .core cutShort cutShortBody).transfer 2 .add).run [.int32, .int32] with
    | error e => rw [hx] at hr; cases hr
    | ok r => rw [hx] at hr; cases hr; rfl
  exact ⟨⟨rfl, hadd, analysis_verdicts.1 _ 2 .add _ _ _ _ 2 1 rfl hadd⟩, rfl, by decide +kernel,
    analysis_verdicts.2 .core cutShort _ rfl⟩

end ManagedCode
