import ManagedCode.Proofs.Effects

/-!
# What instructions do to a stack of types

Most instructions pop a number of types and push one that their action names, or push none; the two tables below say
which. The rest push what their operand, their annotation or their operand's type decides, and each has a lemma of its
own.
-/

namespace ManagedCode

open Analysis

/-- How many types an action pops and which one it pushes, where the action alone decides that. -/
def Action.replaces? : Action → Option (Nat × StackType)
  | .loadNull | .loadString | .loadToken => some (0, .object)
  | .loadConstant c => some (0, c.stackType)
  | .sizeOf => some (0, .int32)
  | .address _ | .staticAddress | .functionPointer => some (0, .pointer)
  | .compare _ => some (2, .int32)
  | .checkFinite => some (1, .float)
  | .convert c => some (1, conversionResult c.target)
  | .loadIndirect k => some (1, k.stackType)
  | .newArray | .box => some (1, .object)
  | .arrayLength => some (1, .nativeInt)
  | .elementAddress => some (2, .pointer)
  | .loadElement (some k) => some (2, k.stackType)
  | .unbox | .virtualPointer => some (1, .pointer)
  | _ => none

/-- The actions that push nothing. -/
def Action.drops : Action → Bool
  | .skip | .store .. | .pop | .jump | .jumpOn _ | .jumpCompare _ | .switch | .storeIndirect _ | .storeObject
  | .copyObject | .initObject | .storeElement _ | .storeField | .storeStatic => true
  | _ => false

/-- The index that an action on an argument or a local has in the code. -/
def SlotIndex.value (c : Code) (pc : Nat) : SlotIndex → Except EngineError Nat
  | implied n => .ok n
  | encoded => c.slotIndex pc

namespace Analysis

variable {cx : Context} {pc next : Nat} {op : Opcode} {st st' : List StackType} {e : Effect}

/-- `pops` types are replaced by one. -/
def Replaces (pops : Nat) (t : StackType) (st st' : List StackType) : Prop :=
  ∃ ins rest, ins.length = pops ∧ st = ins ++ rest ∧ st' = t :: rest

open TypeM

namespace TypeM

theorem push_return_ok {max : Nat} {t : StackType} {e' : Effect}
    (h : (do push max pc t; return e : TypeM Effect).run st = .ok (e', st')) : e' = e ∧ st' = t :: st := by
  obtain ⟨_, st₁, hp, hr⟩ := bind_ok h
  obtain ⟨-, rfl⟩ := push_ok hp
  cases hr
  exact ⟨rfl, rfl⟩

end TypeM

namespace Context

theorem slotIndex_ok {index : SlotIndex} {i : Nat} (h : (cx.slotIndex pc index).run st = .ok (i, st')) :
    index.value cx.code pc = .ok i ∧ st = st' := by
  cases index with
  | implied n => cases h; exact ⟨rfl, rfl⟩
  | encoded => exact liftCode_ok h

/-- The types of the arguments, or of the locals. -/
def variableTypes (cx : Context) : Place → List StackType
  | .argument => cx.arguments
  | .local => cx.locals

theorem slotType_ok {place : Place} {i : Nat} {t : StackType} (h : (cx.slotType pc place i).run st = .ok (t, st')) :
    (cx.variableTypes place)[i]? = some t ∧ st = st' := by
  cases place
  all_goals
    simp only [slotType] at h
    split at h
    · rename_i u hu
      cases h
      exact ⟨hu, rfl⟩
    · cases h

/-- **An action of the first table** replaces types as the table says. -/
theorem act_replaces (h : (cx.act pc op next).run st = .ok (e, st')) {pops : Nat} {t : StackType}
    (ha : op.action.replaces? = some (pops, t)) : Replaces pops t st st' := by
  have pushed : ∀ (ins : List StackType) {e' : Effect} {t : StackType} {rest : List StackType}, st = ins ++ rest →
      (do push cx.maxStack pc t; return e' : TypeM Effect).run rest = .ok (e, st') → Replaces ins.length t st st' := by
    intro ins e' t rest hst hp
    obtain ⟨-, rfl⟩ := push_return_ok hp
    exact ⟨ins, rest, rfl, hst, rfl⟩
  unfold act at h
  generalize op.action = action at h ha
  cases action with
  | loadNull => cases ha; exact pushed [] rfl h
  | loadString => cases ha; exact pushed [] rfl h
  | loadToken => cases ha; exact pushed [] rfl h
  | loadConstant c => cases ha; exact pushed [] rfl h
  | sizeOf => cases ha; exact pushed [] rfl h
  | staticAddress => cases ha; exact pushed [] rfl h
  | functionPointer => cases ha; exact pushed [] rfl h
  | address place =>
    cases ha
    obtain ⟨i, st₁, hi, h⟩ := bind_ok h
    obtain ⟨-, rfl⟩ := slotIndex_ok hi
    obtain ⟨u, st₂, hu, h⟩ := bind_ok h
    obtain ⟨-, rfl⟩ := slotType_ok hu
    exact pushed [] rfl h
  | compare c =>
    cases ha
    obtain ⟨⟨l, r⟩, st₁, hp, h⟩ := bind_ok h
    obtain ⟨ts, st₂, hts, h⟩ := bind_ok h
    obtain ⟨-, -, rfl⟩ := pairAs_ok hts
    exact pushed [r, l] (popPair_ok hp) h
  | checkFinite =>
    cases ha
    obtain ⟨u, st₁, hp, h⟩ := bind_ok h
    obtain ⟨hst, hu⟩ := popOneOf_ok hp
    rw [List.mem_singleton.1 hu] at hst h
    exact pushed [.float] hst h
  | convert c =>
    cases ha
    obtain ⟨u, st₁, hp, h⟩ := bind_ok h
    split at h
    · cases h
    · exact pushed [u] (pop_ok hp) h
  | loadIndirect k =>
    cases ha
    obtain ⟨u, st₁, hp, h⟩ := bind_ok h
    exact pushed [u] (popOneOf_ok hp).1 h
  | newArray =>
    cases ha
    obtain ⟨u, st₁, hp, h⟩ := bind_ok h
    exact pushed [u] (popOneOf_ok hp).1 h
  | box =>
    cases ha
    obtain ⟨u, st₁, hp, h⟩ := bind_ok h
    exact pushed [u] (pop_ok hp) h
  | arrayLength =>
    cases ha
    obtain ⟨_, st₁, hp, h⟩ := bind_ok h
    exact pushed [.object] (popObject_ok hp) h
  | unbox =>
    cases ha
    obtain ⟨_, st₁, hp, h⟩ := bind_ok h
    exact pushed [.object] (popObject_ok hp) h
  | virtualPointer =>
    cases ha
    obtain ⟨_, st₁, hp, h⟩ := bind_ok h
    exact pushed [.object] (popObject_ok hp) h
  | elementAddress =>
    cases ha
    obtain ⟨u, st₁, hp, h⟩ := bind_ok h
    obtain ⟨_, st₂, ho, h⟩ := bind_ok h
    have hst := (popOneOf_ok hp).1
    rw [popObject_ok ho] at hst
    exact pushed [u, .object] hst h
  | loadElement kind =>
    cases kind with
    | none => cases ha
    | some k =>
      cases ha
      obtain ⟨u, st₁, hp, h⟩ := bind_ok h
      obtain ⟨_, st₂, ho, h⟩ := bind_ok h
      have hst := (popOneOf_ok hp).1
      rw [popObject_ok ho] at hst
      exact pushed [u, .object] hst h
  | _ => cases ha

/-- **An action of the second table** leaves what lies below its operands. -/
theorem act_drops (h : (cx.act pc op next).run st = .ok (e, st')) (ha : op.action.drops = true) : st' <:+ st := by
  have branched : ∀ {operands : Option OperandTypes} {st₁ : List StackType}, st₁ <:+ st → (do
      let target ← TypeM.liftCode (cx.code.branchTarget pc)
      return { operands, jumps := [⟨target, false⟩] } : TypeM Effect).run st₁ = .ok (e, st') → st' <:+ st := by
    intro operands st₁ hs h
    obtain ⟨target, st₂, ht, h⟩ := bind_ok h
    obtain ⟨-, rfl⟩ := liftCode_ok ht
    cases h
    exact hs
  have popped : ∀ {what : String} {allowed : List StackType} {st₁ st₂ : List StackType} {t : StackType}, st₁ <:+ st →
      (popOneOf pc what allowed).run st₁ = .ok (t, st₂) → st₂ <:+ st := by
    intro what allowed st₁ st₂ t hs hp
    have hst := (popOneOf_ok hp).1
    exact .trans (hst ▸ List.suffix_cons t st₂) hs
  have dropped : ∀ {st₁ : List StackType} {t : StackType}, (TypeM.pop pc).run st = .ok (t, st₁) → st₁ <:+ st := by
    intro st₁ t hp
    rw [pop_ok hp]
    exact List.suffix_cons t st₁
  unfold act at h
  generalize op.action = action at h ha
  cases action with
  | skip => cases h; exact List.suffix_refl _
  | store place index =>
    obtain ⟨i, st₁, hi, h⟩ := bind_ok h
    obtain ⟨-, rfl⟩ := slotIndex_ok hi
    obtain ⟨u, st₂, hu, h⟩ := bind_ok h
    obtain ⟨-, rfl⟩ := slotType_ok hu
    obtain ⟨t, st₃, hp, h⟩ := bind_ok h
    cases h
    exact dropped hp
  | pop =>
    obtain ⟨t, st₁, hp, h⟩ := bind_ok h
    cases h
    exact dropped hp
  | storeStatic =>
    obtain ⟨t, st₁, hp, h⟩ := bind_ok h
    cases h
    exact dropped hp
  | jump => exact branched (List.suffix_refl _) h
  | jumpOn wanted =>
    obtain ⟨t, st₁, hp, h⟩ := bind_ok h
    split at h
    · cases h
    · exact branched (dropped hp) h
  | jumpCompare c =>
    obtain ⟨⟨l, r⟩, st₁, hp, h⟩ := bind_ok h
    obtain ⟨ts, st₂, hts, h⟩ := bind_ok h
    obtain ⟨-, -, rfl⟩ := pairAs_ok hts
    refine branched ?_ h
    rw [popPair_ok hp]
    exact (List.suffix_cons l st₁).trans (List.suffix_cons r _)
  | switch =>
    obtain ⟨t, st₁, hp, h⟩ := bind_ok h
    obtain ⟨targets, st₂, ht, h⟩ := bind_ok h
    obtain ⟨-, rfl⟩ := liftCode_ok ht
    cases h
    exact popped (List.suffix_refl _) hp
  | storeIndirect k =>
    obtain ⟨t, st₁, hp, h⟩ := bind_ok h
    obtain ⟨u, st₂, hq, h⟩ := bind_ok h
    cases h
    exact popped (dropped hp) hq
  | storeObject =>
    obtain ⟨t, st₁, hp, h⟩ := bind_ok h
    obtain ⟨u, st₂, hq, h⟩ := bind_ok h
    cases h
    exact popped (dropped hp) hq
  | storeField =>
    obtain ⟨t, st₁, hp, h⟩ := bind_ok h
    obtain ⟨u, st₂, hq, h⟩ := bind_ok h
    cases h
    exact popped (dropped hp) hq
  | copyObject =>
    obtain ⟨t, st₁, hp, h⟩ := bind_ok h
    obtain ⟨u, st₂, hq, h⟩ := bind_ok h
    obtain ⟨ts, st₃, hts, h⟩ := bind_ok h
    obtain ⟨-, -, rfl⟩ := pairAs_ok hts
    cases h
    exact popped (popped (List.suffix_refl _) hp) hq
  | initObject =>
    obtain ⟨t, st₁, hp, h⟩ := bind_ok h
    cases h
    exact popped (List.suffix_refl _) hp
  | storeElement kind =>
    obtain ⟨t, st₁, hp, h⟩ := bind_ok h
    obtain ⟨u, st₂, hq, h⟩ := bind_ok h
    obtain ⟨_, st₃, ho, h⟩ := bind_ok h
    cases h
    have hs := popped (dropped hp) hq
    rw [popObject_ok ho] at hs
    exact (List.suffix_cons _ _).trans hs
  | _ => cases ha

/-! ## The actions that are in neither table -/

theorem act_load (h : (cx.act pc op next).run st = .ok (e, st')) {place : Place} {index : SlotIndex}
    (ha : op.action = .load place index) :
    ∃ i t, index.value cx.code pc = .ok i ∧ (cx.variableTypes place)[i]? = some t ∧ st' = t :: st := by
  simp only [act, ha] at h
  obtain ⟨i, st₁, hi, h⟩ := bind_ok h
  obtain ⟨hvalue, rfl⟩ := slotIndex_ok hi
  obtain ⟨t, st₂, ht, h⟩ := bind_ok h
  obtain ⟨hslot, rfl⟩ := slotType_ok ht
  exact ⟨i, t, hvalue, hslot, (push_return_ok h).2⟩

theorem act_dup (h : (cx.act pc op next).run st = .ok (e, st')) (ha : op.action = .dup) :
    ∃ t rest, st = t :: rest ∧ st' = t :: t :: rest := by
  simp only [act, ha] at h
  obtain ⟨t, st₁, hp, h⟩ := bind_ok h
  obtain ⟨_, st₂, hq, h⟩ := bind_ok h
  obtain ⟨-, rfl⟩ := push_ok hq
  exact ⟨t, st₁, pop_ok hp, (push_return_ok h).2⟩

theorem act_binary (h : (cx.act pc op next).run st = .ok (e, st')) {b : BinaryOp} (ha : op.action = .binary b) :
    ∃ l r ts rest, OperandTypes.pair? l r = some ts ∧ e.operands = some ts ∧ st = r :: l :: rest ∧
      st' = ts.arithmeticResult :: rest := by
  simp only [act, ha] at h
  obtain ⟨⟨l, r⟩, st₁, hp, h⟩ := bind_ok h
  obtain ⟨ts, st₂, hts, h⟩ := bind_ok h
  obtain ⟨hpair, -, rfl⟩ := pairAs_ok hts
  obtain ⟨rfl, rfl⟩ := push_return_ok h
  exact ⟨l, r, ts, st₁, hpair, rfl, popPair_ok hp, rfl⟩

theorem act_shift (h : (cx.act pc op next).run st = .ok (e, st')) {s : ShiftOp} (ha : op.action = .shift s) :
    ∃ l r ts rest, OperandTypes.pair? l r = some ts ∧ e.operands = some ts ∧ st = r :: l :: rest ∧
      st' = l :: rest := by
  simp only [act, ha] at h
  obtain ⟨⟨l, r⟩, st₁, hp, h⟩ := bind_ok h
  obtain ⟨ts, st₂, hts, h⟩ := bind_ok h
  obtain ⟨hpair, -, rfl⟩ := pairAs_ok hts
  obtain ⟨rfl, rfl⟩ := push_return_ok h
  exact ⟨l, r, ts, st₁, hpair, rfl, popPair_ok hp, rfl⟩

theorem act_unary (h : (cx.act pc op next).run st = .ok (e, st')) {u : UnaryOp} (ha : op.action = .unary u) :
    ∃ t rest, e.operands = some (.single t) ∧ st = t :: rest ∧ st' = t :: rest := by
  simp only [act, ha] at h
  obtain ⟨t, st₁, hp, h⟩ := bind_ok h
  obtain ⟨rfl, rfl⟩ := push_return_ok h
  exact ⟨t, st₁, rfl, (popOneOf_ok hp).1, rfl⟩

/-- The operand names the type of what is pushed. -/
theorem operandType_push_ok {e' : Effect} (h : (do
      push cx.maxStack pc (← cx.operandType pc)
      return e' : TypeM Effect).run st = .ok (e, st')) :
    ∃ token type, cx.code.token pc = .ok token ∧ cx.metadata.resolveType token = .ok type ∧
      st' = type.kind.stackType :: st := by
  obtain ⟨u, st₁, hu, h⟩ := bind_ok h
  obtain ⟨token, type, ht, hr, rfl, rfl⟩ := operandType_ok hu
  exact ⟨token, type, ht, hr, (push_return_ok h).2⟩

theorem act_loadObject (h : (cx.act pc op next).run st = .ok (e, st')) (ha : op.action = .loadObject) :
    ∃ token type, cx.code.token pc = .ok token ∧ cx.metadata.resolveType token = .ok type ∧
      Replaces 1 type.kind.stackType st st' := by
  simp only [act, ha] at h
  obtain ⟨t, st₁, hp, h⟩ := bind_ok h
  obtain ⟨token, type, ht, hr, rfl⟩ := operandType_push_ok h
  exact ⟨token, type, ht, hr, [t], st₁, rfl, (popOneOf_ok hp).1, rfl⟩

theorem act_unboxAny (h : (cx.act pc op next).run st = .ok (e, st')) (ha : op.action = .unboxAny) :
    ∃ token type rest, cx.code.token pc = .ok token ∧ cx.metadata.resolveType token = .ok type ∧
      st = .object :: rest ∧ st' = type.kind.stackType :: rest := by
  simp only [act, ha] at h
  obtain ⟨_, st₁, hp, h⟩ := bind_ok h
  obtain ⟨token, type, ht, hr, rfl⟩ := operandType_push_ok h
  exact ⟨token, type, st₁, ht, hr, popObject_ok hp, rfl⟩

theorem act_loadElement (h : (cx.act pc op next).run st = .ok (e, st')) (ha : op.action = .loadElement none) :
    ∃ token type, cx.code.token pc = .ok token ∧ cx.metadata.resolveType token = .ok type ∧
      Replaces 2 type.kind.stackType st st' := by
  simp only [act, ha] at h
  obtain ⟨t, st₁, hp, h⟩ := bind_ok h
  obtain ⟨_, st₂, ho, h⟩ := bind_ok h
  obtain ⟨token, type, ht, hr, rfl⟩ := operandType_push_ok h
  have hst := (popOneOf_ok hp).1
  rw [popObject_ok ho] at hst
  exact ⟨token, type, ht, hr, [t, .object], st₂, rfl, hst, rfl⟩

theorem act_cast (h : (cx.act pc op next).run st = .ok (e, st'))
    (ha : op.action = .castClass ∨ op.action = .isInstance) : ∃ rest, st = .object :: rest ∧ st' = st := by
  have hrun : (do popObject pc; push cx.maxStack pc .object; return {} : TypeM Effect).run st = .ok (e, st') := by
    rcases ha with ha | ha
    · simpa only [act, ha] using h
    · simpa only [act, ha] using h
  obtain ⟨_, st₁, hp, h⟩ := bind_ok hrun
  exact ⟨st₁, popObject_ok hp, (push_return_ok h).2.trans (popObject_ok hp).symm⟩

theorem act_loadField (h : (cx.act pc op next).run st = .ok (e, st')) (ha : op.action = .loadField) :
    ∃ token f owner rest, cx.code.token pc = .ok token ∧ cx.metadata.resolveField token = .ok f ∧
      st = owner :: rest ∧ st' = f.kind.stackType :: rest := by
  simp only [act, ha] at h
  obtain ⟨t, st₁, hp, h⟩ := bind_ok h
  obtain ⟨f, st₂, hf, h⟩ := bind_ok h
  obtain ⟨token, ht, hr, rfl⟩ := operandField_ok hf
  exact ⟨token, f, t, st₁, ht, hr, (popOneOf_ok hp).1, (push_return_ok h).2⟩

theorem act_loadStatic (h : (cx.act pc op next).run st = .ok (e, st')) (ha : op.action = .loadStatic) :
    ∃ token f, cx.code.token pc = .ok token ∧ cx.metadata.resolveField token = .ok f ∧
      st' = f.kind.stackType :: st := by
  simp only [act, ha] at h
  obtain ⟨f, st₁, hf, h⟩ := bind_ok h
  obtain ⟨token, ht, hr, rfl⟩ := operandField_ok hf
  exact ⟨token, f, ht, hr, (push_return_ok h).2⟩

theorem act_fieldAddress (h : (cx.act pc op next).run st = .ok (e, st')) (ha : op.action = .fieldAddress) :
    ∃ owner rest, st = owner :: rest ∧ st' = (if owner = .nativeInt then .nativeInt else .pointer) :: rest := by
  simp only [act, ha] at h
  obtain ⟨t, st₁, hp, h⟩ := bind_ok h
  obtain ⟨f, st₂, hf, h⟩ := bind_ok h
  obtain ⟨token, -, -, rfl⟩ := operandField_ok hf
  exact ⟨t, st₁, (popOneOf_ok hp).1, (push_return_ok h).2⟩

end Context

end Analysis

end ManagedCode
