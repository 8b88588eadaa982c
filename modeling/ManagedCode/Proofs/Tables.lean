import ManagedCode.Proofs.Effects

/-!
# What the tables say of every accepted instruction

`TypeM.Performs` collects the three things that an accepted instruction does besides naming types: how it changes the
height of the stack, whether it has an annotation, and where it jumps. The action of the instruction decides the first
two (`Action.change?`, `Action.annotates`), the action and the code the third (`Context.jumps`). So the height changes
as the row of the instruction says, and the check of heights never fails.
-/

namespace ManagedCode

/-- How an action changes the height of the stack, where no signature is needed to say that and the stack is not
emptied. -/
def Action.change? : Action → Option Int
  | .callSite _ | .callIndirect | .cachedCall | .ret | .leave | .endFinally => none
  | .load .. | .address _ | .loadNull | .loadString | .loadToken | .loadConstant _ | .sizeOf | .argumentList | .dup
  | .loadStatic | .staticAddress | .functionPointer => some 1
  | .skip | .jump | .rethrow | .unary _ | .checkFinite | .convert _ | .loadIndirect _ | .loadObject | .localAlloc
  | .loadField | .fieldAddress | .castClass | .isInstance | .box | .typedType | .unbox | .virtualPointer | .unboxAny
  | .newArray | .arrayLength | .makeTyped | .typedAddress => some 0
  | .store .. | .pop | .jumpOn _ | .switch | .endFilter | .throw | .compare _ | .binary _ | .shift _ | .initObject
  | .storeStatic | .elementAddress | .loadElement _ => some (-1)
  | .jumpCompare _ | .storeIndirect _ | .storeObject | .copyObject | .storeField => some (-2)
  | .storeElement _ | .copyBlock | .initBlock => some (-3)

/-- The actions that the analysis annotates with the types of their operands. -/
def Action.annotates : Action → Bool
  | .dup | .jumpOn _ | .jumpCompare _ | .switch | .compare _ | .binary _ | .shift _ | .unary _ | .checkFinite
  | .convert _ | .loadIndirect _ | .storeIndirect _ | .loadObject | .storeObject | .copyObject | .initObject
  | .localAlloc | .loadField | .fieldAddress | .storeField | .newArray | .elementAddress | .loadElement _
  | .storeElement _ => true
  | _ => false

theorem Opcode.change?_action {op : Opcode} {d : Int} (h : op.effect.delta? = some d) : op.action.change? = some d := by
  cases op <;> exact h

namespace Analysis

/-- **Where the instruction at `pc` jumps**: a branch and a leave to their target, a jump table to each of its targets,
and a throw behind the handlers around it or else to the next instruction, if that is inside the code. -/
def Context.jumps (cx : Context) (pc : Nat) (action : Action) (next : Nat) : List Nat :=
  match action with
  | .jump | .jumpOn _ | .jumpCompare _ | .leave => (cx.code.branchTarget pc).toOption.toList
  | .switch => (cx.code.switchTargets pc).toOption.getD []
  | .throw | .rethrow => [(offsetAfterThrow cx.regions pc).getD next].filter (· < cx.code.size)
  | _ => []

variable {cx : Context} {pc next : Nat} {op : Opcode} {st st' : List StackType}

namespace TypeM

variable {α β : Type} {x : TypeM α} {f : α → TypeM β} {d d' : Int}

/-- Where `x` succeeds, it changes the height of the stack by `d`. -/
def Changes (d : Int) (x : TypeM α) : Prop :=
  ∀ st a st', x.run st = .ok (a, st') → (st'.length : Int) = st.length + d

/-- **What an accepted instruction does**: it changes the height by `d`, if that is given, it has an annotation or not,
and it jumps to `jumps`. -/
def Performs (d : Option Int) (annotated : Bool) (jumps : List Nat) (x : TypeM Effect) : Prop :=
  ∀ st e st', x.run st = .ok (e, st') → (∀ n, d = some n → (st'.length : Int) = st.length + n) ∧
    e.operands.isSome = annotated ∧ e.jumps.map (·.offset) = jumps

theorem changes_pop : Changes (-1) (pop pc) := by
  intro st t st' h
  have := pop_ok h
  simp only [this, List.length_cons]
  omega

theorem changes_push {max : Nat} {t : StackType} : Changes 1 (push max pc t) := by
  intro st u st' h
  have := (push_ok h).2
  simp [this]

theorem changes_popMany (count : Nat) : Changes (-count) (popMany pc count) := by
  intro st u st' h
  obtain ⟨ts, hlen, rfl⟩ := popMany_ok h
  simp only [List.length_append, hlen]
  omega

theorem changes_popPair : Changes (-2) (popPair pc) := by
  intro st lr st' h
  have := popPair_ok h
  simp only [this, List.length_cons]
  omega

theorem changes_popOneOf {what : String} {allowed : List StackType} : Changes (-1) (popOneOf pc what allowed) := by
  intro st t st' h
  have := (popOneOf_ok h).1
  simp only [this, List.length_cons]
  omega

theorem changes_popObject : Changes (-1) (popObject pc) := by
  intro st u st' h
  have := popObject_ok h
  simp only [this, List.length_cons]
  omega

theorem changes_pairAs {l r : StackType} {allowed : OperandTypes → Bool} : Changes 0 (pairAs pc op l r allowed) := by
  intro st ts st' h
  have := (pairAs_ok h).2.2
  simp [this]

theorem changes_operandType : Changes 0 (cx.operandType pc) := by
  intro st t st' h
  obtain ⟨-, -, -, -, -, hst⟩ := Context.operandType_ok h
  simp [hst]

theorem changes_operandField : Changes 0 (cx.operandField pc) := by
  intro st f st' h
  obtain ⟨-, -, -, hst⟩ := Context.operandField_ok h
  simp [hst]

theorem changes_slotIndex {index : SlotIndex} : Changes 0 (cx.slotIndex pc index) := by
  intro st i st' h
  cases index with
  | implied n => cases h; simp
  | encoded => simp [(liftCode_ok h).2]

theorem changes_slotType {place : Place} {i : Nat} : Changes 0 (cx.slotType pc place i) := by
  intro st t st' h
  unfold Context.slotType at h
  dsimp only at h
  split at h
  · cases h; simp
  · cases h

namespace Performs

variable {what : Option Int} {annotated : Bool} {jumps : List Nat} {x y : TypeM Effect}

theorem done {e : Effect} (ho : e.operands.isSome = annotated) (hj : e.jumps.map (·.offset) = jumps) :
    Performs (some 0) annotated jumps (pure e) := by
  intro st e' st' h
  cases h
  exact ⟨fun n hn => by cases hn; simp, ho, hj⟩

theorem fail {defect : Defect} {f : α → TypeM Effect} :
    Performs what annotated jumps (TypeM.fail pc defect >>= f) := by
  intro st e st' h
  cases h

theorem bind {x : TypeM α} {f : α → TypeM Effect} (hx : Changes d x)
    (hf : ∀ a, Performs (some d') annotated jumps (f a)) (hd : what = some (d + d') := by rfl) :
    Performs what annotated jumps (x >>= f) := by
  intro st e st' h
  obtain ⟨a, st₁, h₁, h₂⟩ := bind_ok h
  have hheight := hx st a st₁ h₁
  obtain ⟨hchange, hrest⟩ := hf a st₁ e st' h₂
  refine ⟨fun n hn => ?_, hrest⟩
  cases hd.symm.trans hn
  have := hchange d' rfl
  omega

/-- A part whose change of the height does not matter. -/
theorem behind {x : TypeM α} {f : α → TypeM Effect} (hf : ∀ a, Performs none annotated jumps (f a)) :
    Performs none annotated jumps (x >>= f) := by
  intro st e st' h
  obtain ⟨a, st₁, -, h₂⟩ := bind_ok h
  exact ⟨nofun, (hf a st₁ e st' h₂).2⟩

theorem forget (h : Performs what annotated jumps x) : Performs none annotated jumps x :=
  fun st e st' hrun => ⟨nofun, (h st e st' hrun).2⟩

theorem ite {c : Prop} [Decidable c] (hx : Performs what annotated jumps x)
    (hy : Performs what annotated jumps y) : Performs what annotated jumps (if c then x else y) := by
  by_cases hc : c
  · rw [if_pos hc]; exact hx
  · rw [if_neg hc]; exact hy

/-- What is read from the code is known in what follows. -/
theorem read {r : Except EngineError α} {f : α → TypeM Effect}
    (hf : ∀ a, r = .ok a → Performs what annotated jumps (f a)) :
    Performs what annotated jumps (liftCode r >>= f) := by
  intro st e st' h
  obtain ⟨a, st₁, h₁, h₂⟩ := bind_ok h
  obtain ⟨hr, rfl⟩ := liftCode_ok h₁
  exact hf a hr st e st' h₂

end Performs

end TypeM

open TypeM

namespace Context

/-- A branch jumps to its target. -/
theorem performs_branch {operands : Option OperandTypes} {empties : Bool} :
    Performs (some 0) operands.isSome (cx.code.branchTarget pc).toOption.toList (do
      let target ← liftCode (cx.code.branchTarget pc)
      return { operands, jumps := [⟨target, empties⟩] }) :=
  .read fun target ht => .done rfl (by rw [ht]; rfl)

/-- A call pops and pushes as its signature says, and has nothing else to say. -/
theorem performs_call {push : StackType → TypeM Unit} {s : Signature} :
    Performs none false [] (act.call pc push s) :=
  .behind fun _ => by
    cases s.result with
    | none => exact .forget (.done rfl rfl)
    | some k => exact .behind fun _ => .forget (.done rfl rfl)

/-- Nothing may be left on the stack. -/
theorem performs_stop {defect : Defect} : Performs none false [] (do
    if !(← get).isEmpty then TypeM.fail pc defect
    return {}) :=
  .behind fun _ => .ite .fail (.forget (.done rfl rfl))

theorem performs_throw {annotated : Option OperandTypes} :
    Performs (some 0) annotated.isSome ([(offsetAfterThrow cx.regions pc).getD next].filter (· < cx.code.size))
      (return { operands := annotated, jumps := act.afterThrow cx pc next }) := by
  refine .done rfl ?_
  unfold act.afterThrow
  by_cases h : (offsetAfterThrow cx.regions pc).getD next < cx.code.size
  · simp [h]
  · simp [h]

/-- **What an accepted instruction does is what the tables say of its action.** -/
theorem act_performs : Performs op.action.change? op.action.annotates (cx.jumps pc op.action next)
    (cx.act pc op next) := by
  unfold act
  generalize op.action = action
  cases action with
  | skip => exact .done rfl rfl
  | load place index =>
    exact .bind changes_slotIndex fun i => .bind changes_slotType fun _ => .bind changes_push fun _ => .done rfl rfl
  | address place =>
    exact .bind changes_slotIndex fun i => .bind changes_slotType fun _ => .bind changes_push fun _ => .done rfl rfl
  | store place index =>
    exact .bind changes_slotIndex fun i => .bind changes_slotType fun _ => .bind changes_pop fun _ => .done rfl rfl
  | loadNull => exact .bind changes_push fun _ => .done rfl rfl
  | loadString => exact .bind changes_push fun _ => .done rfl rfl
  | loadToken => exact .bind changes_push fun _ => .done rfl rfl
  | loadConstant c => exact .bind changes_push fun _ => .done rfl rfl
  | sizeOf => exact .bind changes_push fun _ => .done rfl rfl
  | argumentList => exact .bind changes_push fun _ => .done rfl rfl
  | staticAddress => exact .bind changes_push fun _ => .done rfl rfl
  | functionPointer => exact .bind changes_push fun _ => .done rfl rfl
  | dup =>
    exact .bind changes_pop fun t => .bind changes_push fun _ => .bind changes_push fun _ => .done rfl rfl
  | pop => exact .bind changes_pop fun _ => .done rfl rfl
  | endFilter => exact .bind changes_pop fun _ => .done rfl rfl
  | storeStatic => exact .bind changes_pop fun _ => .done rfl rfl
  | callSite kind =>
    cases kind with
    | jmp => exact performs_stop
    | newobj => exact .behind fun m => .behind fun _ => .behind fun _ => .forget (.done rfl rfl)
    | call => exact .behind fun m => performs_call
    | callvirt => exact .behind fun m => performs_call
  | callIndirect => exact .behind fun t => .behind fun s => .behind fun _ => performs_call
  | cachedCall => exact fun st e st' h => by cases h
  | ret => exact .ite (.behind fun _ => performs_stop) performs_stop
  | jump => exact performs_branch
  | jumpOn wanted => exact .bind changes_pop fun t => .ite .fail performs_branch
  | jumpCompare c => exact .bind changes_popPair fun _ => .bind changes_pairAs fun ts => performs_branch
  | switch =>
    refine .bind changes_popOneOf fun t => .read fun targets ht => .done rfl ?_
    simp [jumps, ht, Except.toOption, Function.comp_def]
  | leave => exact .behind fun _ => .forget performs_branch
  | endFinally => exact .behind fun _ => .forget (.done rfl rfl)
  | throw => exact .bind changes_popObject fun _ => performs_throw
  | rethrow => exact performs_throw
  | compare c =>
    exact .bind changes_popPair fun _ => .bind changes_pairAs fun ts => .bind changes_push fun _ => .done rfl rfl
  | binary b =>
    exact .bind changes_popPair fun _ => .bind changes_pairAs fun ts => .bind changes_push fun _ => .done rfl rfl
  | shift s =>
    exact .bind changes_popPair fun _ => .bind changes_pairAs fun ts => .bind changes_push fun _ => .done rfl rfl
  | unary u => exact .bind changes_popOneOf fun _ => .bind changes_push fun _ => .done rfl rfl
  | checkFinite => exact .bind changes_popOneOf fun _ => .bind changes_push fun _ => .done rfl rfl
  | convert c =>
    exact .bind changes_pop fun t => .ite .fail (.bind changes_push fun _ => .done rfl rfl)
  | loadIndirect k => exact .bind changes_popOneOf fun _ => .bind changes_push fun _ => .done rfl rfl
  | storeIndirect k => exact .bind changes_pop fun _ => .bind changes_popOneOf fun t => .done rfl rfl
  | storeObject => exact .bind changes_pop fun _ => .bind changes_popOneOf fun t => .done rfl rfl
  | loadObject =>
    exact .bind changes_popOneOf fun t => .bind changes_operandType fun _ => .bind changes_push fun _ => .done rfl rfl
  | copyObject =>
    exact .bind changes_popOneOf fun s => .bind changes_popOneOf fun t => .bind changes_pairAs fun ts => .done rfl rfl
  | initObject => exact .bind changes_popOneOf fun t => .done rfl rfl
  | copyBlock => exact .bind (changes_popMany 3) fun _ => .done rfl rfl
  | initBlock => exact .bind (changes_popMany 3) fun _ => .done rfl rfl
  | localAlloc => exact .bind changes_popOneOf fun _ => .bind changes_push fun _ => .done rfl rfl
  | loadField =>
    exact .bind changes_popOneOf fun t => .bind changes_operandField fun _ => .bind changes_push fun _ => .done rfl rfl
  | fieldAddress =>
    exact .bind changes_popOneOf fun t => .bind changes_operandField fun _ => .bind changes_push fun _ => .done rfl rfl
  | storeField => exact .bind changes_pop fun _ => .bind changes_popOneOf fun t => .done rfl rfl
  | loadStatic => exact .bind changes_operandField fun _ => .bind changes_push fun _ => .done rfl rfl
  | castClass => exact .bind changes_popObject fun _ => .bind changes_push fun _ => .done rfl rfl
  | isInstance => exact .bind changes_popObject fun _ => .bind changes_push fun _ => .done rfl rfl
  | box => exact .bind changes_pop fun _ => .bind changes_push fun _ => .done rfl rfl
  | typedType => exact .bind changes_pop fun _ => .bind changes_push fun _ => .done rfl rfl
  | unbox => exact .bind changes_popObject fun _ => .bind changes_push fun _ => .done rfl rfl
  | virtualPointer => exact .bind changes_popObject fun _ => .bind changes_push fun _ => .done rfl rfl
  | unboxAny =>
    exact .bind changes_popObject fun _ => .bind changes_operandType fun _ => .bind changes_push fun _ => .done rfl rfl
  | newArray => exact .bind changes_popOneOf fun _ => .bind changes_push fun _ => .done rfl rfl
  | arrayLength => exact .bind changes_popObject fun _ => .bind changes_push fun _ => .done rfl rfl
  | elementAddress =>
    exact .bind changes_popOneOf fun t => .bind changes_popObject fun _ => .bind changes_push fun _ => .done rfl rfl
  | loadElement kind =>
    cases kind with
    | some k =>
      exact .bind changes_popOneOf fun t => .bind changes_popObject fun _ => .bind changes_push fun _ => .done rfl rfl
    | none =>
      exact .bind changes_popOneOf fun t => .bind changes_popObject fun _ =>
        .bind changes_operandType fun _ => .bind changes_push fun _ => .done rfl rfl
  | storeElement kind =>
    exact .bind changes_pop fun _ => .bind changes_popOneOf fun t => .bind changes_popObject fun _ => .done rfl rfl
  | makeTyped => exact .bind changes_popOneOf fun _ => .bind changes_push fun _ => .done rfl rfl
  | typedAddress => exact .bind changes_pop fun _ => .bind changes_push fun _ => .done rfl rfl

variable {types : Option OperandTypes} {successors : List Successor}

/-- **Where control goes after an accepted instruction** does not depend on the stack. -/
theorem offsets_of_transfer (h : (cx.transfer pc op).run st = .ok ((types, successors), st')) :
    ∃ next, cx.code.nextOffset pc = .ok next ∧
      successors.map (·.offset) = cx.jumps pc op.action next ++ if op.endsBlock then [] else [next] := by
  obtain ⟨next, effect, hnext, hact, -, hends, hgoes⟩ := transfer_ok h
  obtain ⟨-, -, hjumps⟩ := act_performs st effect st' hact
  refine ⟨next, hnext, ?_⟩
  cases hb : op.endsBlock with
  | true => simp [hends hb, hjumps]
  | false => simp [hgoes hb, hjumps]

/-- Whether an accepted instruction is annotated does not depend on the stack either. -/
theorem isSome_of_transfer (h : (cx.transfer pc op).run st = .ok ((types, successors), st')) :
    types.isSome = op.action.annotates := by
  obtain ⟨next, effect, -, hact, rfl, -⟩ := transfer_ok h
  exact (act_performs st effect st' hact).2.1

/-- **An accepted instruction changes the height as its row says**: every row of the table is right. -/
theorem height_of_transfer {d : Int} (hd : op.effect.delta? = some d)
    (h : (cx.transfer pc op).run st = .ok ((types, successors), st')) : (st'.length : Int) = st.length + d := by
  obtain ⟨next, effect, -, hact, -⟩ := transfer_ok h
  exact (act_performs st effect st' hact).1 d (Opcode.change?_action hd)

/-- **The check of heights never fails.** -/
theorem checkEffect_of_transfer (h : (cx.transfer pc op).run st = .ok ((types, successors), st')) :
    checkEffect pc op st.length st'.length = .ok () := by
  unfold checkEffect
  cases hd : op.effect.delta? with
  | none => rfl
  | some d => simp [height_of_transfer hd h]

end Context

end Analysis

end ManagedCode
