import ManagedCode.Proofs.Flow

/-!
# What the effect of an instruction says

Each computation on types, taken apart: which stack it needs, which stack it leaves and what it found. From these follow
the two things that hold of every instruction that was accepted: where control goes next, and that an instruction whose
meaning depends on its operands has been given their types.
-/

namespace ManagedCode

/-- Whether what an instruction does depends on the types of its operands. -/
def Action.usesTypes : Action → Bool
  | .jumpOn _ | .jumpCompare _ | .compare _ | .binary _ | .shift _ | .unary _ => true
  | _ => false

namespace Analysis

variable {cx : Context} {pc next : Nat} {op : Opcode} {st st' : List StackType}

namespace TypeM

variable {α β : Type}

theorem bind_ok {x : TypeM α} {f : α → TypeM β} {r : β × List StackType} (h : (x >>= f).run st = .ok r) :
    ∃ a st', x.run st = .ok (a, st') ∧ (f a).run st' = .ok r := by
  rw [StateT.run_bind] at h
  cases hx : x.run st with
  | error e => rw [hx] at h; cases h
  | ok q => rw [hx] at h; exact ⟨q.1, q.2, rfl, h⟩

theorem pop_ok {t : StackType} (h : (pop pc).run st = .ok (t, st')) : st = t :: st' := by
  cases st with
  | nil => cases h
  | cons s rest => cases h; rfl

theorem push_ok {max : Nat} {t : StackType} {u : Unit} (h : (push max pc t).run st = .ok (u, st')) :
    st.length < max ∧ st' = t :: st := by
  unfold push at h
  obtain ⟨s, st₁, hs, h⟩ := bind_ok h
  cases hs
  by_cases hm : max ≤ st.length
  · simp only [hm, if_true] at h
    cases h
  · simp only [hm, if_false] at h
    cases h
    exact ⟨by omega, rfl⟩

theorem popMany_ok : ∀ {count : Nat} {st st' : List StackType} {u : Unit}, (popMany pc count).run st = .ok (u, st') →
    ∃ ts, ts.length = count ∧ st = ts ++ st'
  | 0, st, st', u, h => by
    cases h
    exact ⟨[], rfl, rfl⟩
  | count + 1, st, st', u, h => by
    obtain ⟨t, st₁, hp, h⟩ := bind_ok h
    obtain ⟨ts, hlen, rfl⟩ := popMany_ok h
    exact ⟨t :: ts, by rw [List.length_cons, hlen], pop_ok hp⟩

theorem popPair_ok {l r : StackType} (h : (popPair pc).run st = .ok ((l, r), st')) : st = r :: l :: st' := by
  obtain ⟨r', st₁, hr, h⟩ := bind_ok h
  obtain ⟨l', st₂, hl, h⟩ := bind_ok h
  cases h
  rw [pop_ok hr, pop_ok hl]

theorem popOneOf_ok {what : String} {allowed : List StackType} {t : StackType}
    (h : (popOneOf pc what allowed).run st = .ok (t, st')) : st = t :: st' ∧ t ∈ allowed := by
  obtain ⟨t', st₁, hp, h⟩ := bind_ok h
  by_cases hc : allowed.contains t' = true
  · simp only [hc, if_true] at h
    cases h
    exact ⟨pop_ok hp, by simpa using hc⟩
  · simp only [hc] at h
    cases h

theorem popObject_ok {u : Unit} (h : (popObject pc).run st = .ok (u, st')) : st = .object :: st' := by
  obtain ⟨t, st₁, hp, h⟩ := bind_ok h
  cases h
  obtain ⟨rfl, ht⟩ := popOneOf_ok hp
  rw [List.mem_singleton.1 ht]

theorem liftCode_ok {r : Except EngineError α} {a : α} (h : (liftCode r).run st = .ok (a, st')) :
    r = .ok a ∧ st = st' := by
  cases r with
  | error e => cases h
  | ok b => cases h; exact ⟨rfl, rfl⟩

theorem liftResolution_ok {r : Except ResolutionError α} {a : α} (h : (liftResolution r).run st = .ok (a, st')) :
    r = .ok a ∧ st = st' := by
  cases r with
  | error e => cases h
  | ok b => cases h; exact ⟨rfl, rfl⟩

end TypeM

open TypeM

theorem pairAs_ok {l r : StackType} {allowed : OperandTypes → Bool} {ts : OperandTypes}
    (h : (pairAs pc op l r allowed).run st = .ok (ts, st')) :
    OperandTypes.pair? l r = some ts ∧ allowed ts = true ∧ st = st' := by
  unfold pairAs at h
  split at h
  · rename_i ts' hp
    split at h
    · rename_i ha
      cases h
      exact ⟨hp, ha, rfl⟩
    · cases h
  · cases h

namespace Context

theorem operandType_ok {t : StackType} (h : (cx.operandType pc).run st = .ok (t, st')) :
    ∃ token ty, cx.code.token pc = .ok token ∧ cx.metadata.resolveType token = .ok ty ∧ t = ty.kind.stackType ∧
      st = st' := by
  obtain ⟨token, st₁, ht, h⟩ := bind_ok h
  obtain ⟨htoken, rfl⟩ := liftCode_ok ht
  obtain ⟨ty, st₂, hr, h⟩ := bind_ok h
  obtain ⟨hty, rfl⟩ := liftResolution_ok hr
  cases h
  exact ⟨token, ty, htoken, hty, rfl, rfl⟩

theorem operandMethod_ok {m : MethodSymbol} (h : (cx.operandMethod pc).run st = .ok (m, st')) :
    ∃ token, cx.code.token pc = .ok token ∧ cx.metadata.resolveMethod token = .ok m ∧ st = st' := by
  obtain ⟨token, st₁, ht, h⟩ := bind_ok h
  obtain ⟨htoken, rfl⟩ := liftCode_ok ht
  obtain ⟨hr, rfl⟩ := liftResolution_ok h
  exact ⟨token, htoken, hr, rfl⟩

theorem operandField_ok {f : FieldSymbol} (h : (cx.operandField pc).run st = .ok (f, st')) :
    ∃ token, cx.code.token pc = .ok token ∧ cx.metadata.resolveField token = .ok f ∧ st = st' := by
  obtain ⟨token, st₁, ht, h⟩ := bind_ok h
  obtain ⟨htoken, rfl⟩ := liftCode_ok ht
  obtain ⟨hr, rfl⟩ := liftResolution_ok h
  exact ⟨token, htoken, hr, rfl⟩

/-! ## Successors -/

/-- **What an accepted instruction hands on**: its jumps and, unless it ends its block, the next instruction. -/
theorem transfer_ok {types : Option OperandTypes} {successors : List Successor}
    (h : (cx.transfer pc op).run st = .ok ((types, successors), st')) :
    ∃ next effect, cx.code.nextOffset pc = .ok next ∧ (cx.act pc op next).run st = .ok (effect, st') ∧
      types = effect.operands ∧ (op.endsBlock = true → successors = effect.jumps) ∧
      (op.endsBlock = false → successors = effect.jumps ++ [⟨next, false⟩]) := by
  obtain ⟨next, st₁, hn, h⟩ := bind_ok h
  obtain ⟨hmapped, rfl⟩ := liftCode_ok hn
  obtain ⟨effect, st₂, he, h⟩ := bind_ok h
  have hnext : cx.code.nextOffset pc = .ok next := by
    cases hc : cx.code.nextOffset pc with
    | error e => rw [hc] at hmapped; cases hmapped
    | ok n => rw [hc] at hmapped; exact hmapped
  cases hb : op.endsBlock with
  | true =>
    simp only [hb, if_true] at h
    cases h
    exact ⟨next, effect, hnext, he, rfl, fun _ => rfl, (nomatch ·)⟩
  | false =>
    simp only [hb, Bool.false_eq_true, if_false] at h
    split at h
    · cases h
    · cases h
      exact ⟨next, effect, hnext, he, rfl, (nomatch ·), fun _ => rfl⟩

/-- The target of a branch is among the successors. -/
theorem act_branch {effect : Effect} (h : (cx.act pc op next).run st = .ok (effect, st'))
    (ha : op.action = .jump ∨ (∃ b, op.action = .jumpOn b) ∨ ∃ c, op.action = .jumpCompare c) :
    ∃ target, cx.code.branchTarget pc = .ok target ∧ effect.jumps = [⟨target, false⟩] := by
  have last : ∀ {operands : Option OperandTypes} {st : List StackType},
      StateT.run (do
        let target ← liftCode (cx.code.branchTarget pc)
        return ({ operands, jumps := [⟨target, false⟩] } : Effect)) st = .ok (effect, st') →
      ∃ target, cx.code.branchTarget pc = .ok target ∧ effect.jumps = [⟨target, false⟩] := by
    intro operands st h
    obtain ⟨target, st₁, ht, h⟩ := bind_ok h
    obtain ⟨htarget, rfl⟩ := liftCode_ok ht
    cases h
    exact ⟨target, htarget, rfl⟩
  unfold act at h
  rcases ha with ha | ⟨b, ha⟩ | ⟨c, ha⟩
  · rw [ha] at h
    exact last h
  · rw [ha] at h
    obtain ⟨t, st₁, -, h⟩ := bind_ok h
    by_cases hf : (t == .float) = true
    · simp only [hf, if_true] at h
      cases h
    · simp only [hf] at h
      exact last h
  · rw [ha] at h
    obtain ⟨⟨l, r⟩, st₁, -, h⟩ := bind_ok h
    obtain ⟨ts, st₂, -, h⟩ := bind_ok h
    exact last h

/-- Every target of a jump table is among the successors. -/
theorem act_switch {effect : Effect} (h : (cx.act pc op next).run st = .ok (effect, st')) (ha : op.action = .switch) :
    ∃ targets, cx.code.switchTargets pc = .ok targets ∧ effect.jumps = targets.map (⟨·, false⟩) := by
  unfold act at h
  rw [ha] at h
  obtain ⟨t, st₁, -, h⟩ := bind_ok h
  obtain ⟨targets, st₂, ht, h⟩ := bind_ok h
  obtain ⟨htargets, rfl⟩ := liftCode_ok ht
  cases h
  exact ⟨targets, htargets, rfl⟩

/-- The target of a leave is among the successors, and is entered with an empty stack. -/
theorem act_leave {effect : Effect} (h : (cx.act pc op next).run st = .ok (effect, st')) (ha : op.action = .leave) :
    ∃ target, cx.code.branchTarget pc = .ok target ∧ effect.jumps = [⟨target, true⟩] := by
  unfold act at h
  rw [ha] at h
  obtain ⟨-, st₁, -, h⟩ := bind_ok h
  obtain ⟨target, st₂, ht, h⟩ := bind_ok h
  obtain ⟨htarget, rfl⟩ := liftCode_ok ht
  cases h
  exact ⟨target, htarget, rfl⟩

/-- **An instruction whose meaning depends on the types of its operands has been given them.** -/
theorem act_annotated {effect : Effect} (h : (cx.act pc op next).run st = .ok (effect, st'))
    (ha : op.action.usesTypes = true) : effect.operands.isSome = true := by
  have last : ∀ {t : OperandTypes} {st : List StackType}, StateT.run (do
        let target ← liftCode (cx.code.branchTarget pc)
        return ({ operands := some t, jumps := [⟨target, false⟩] } : Effect)) st = .ok (effect, st') →
      effect.operands.isSome = true := by
    intro t st h
    obtain ⟨target, st₁, -, h⟩ := bind_ok h
    cases h; rfl
  unfold act at h
  cases hact : op.action with
  | jumpOn b =>
    rw [hact] at h
    obtain ⟨t, st₁, -, h⟩ := bind_ok h
    by_cases hf : (t == .float) = true
    · simp only [hf, if_true] at h
      cases h
    · simp only [hf] at h
      exact last h
  | jumpCompare c =>
    rw [hact] at h
    obtain ⟨⟨l, r⟩, st₁, -, h⟩ := bind_ok h
    obtain ⟨ts, st₂, -, h⟩ := bind_ok h
    exact last h
  | compare c =>
    rw [hact] at h
    obtain ⟨⟨l, r⟩, st₁, -, h⟩ := bind_ok h
    obtain ⟨ts, st₂, -, h⟩ := bind_ok h
    obtain ⟨-, st₃, -, h⟩ := bind_ok h
    cases h; rfl
  | binary b =>
    rw [hact] at h
    obtain ⟨⟨l, r⟩, st₁, -, h⟩ := bind_ok h
    obtain ⟨ts, st₂, -, h⟩ := bind_ok h
    obtain ⟨-, st₃, -, h⟩ := bind_ok h
    cases h; rfl
  | shift s =>
    rw [hact] at h
    obtain ⟨⟨l, r⟩, st₁, -, h⟩ := bind_ok h
    obtain ⟨ts, st₂, -, h⟩ := bind_ok h
    obtain ⟨-, st₃, -, h⟩ := bind_ok h
    cases h; rfl
  | unary u =>
    rw [hact] at h
    obtain ⟨t, st₁, -, h⟩ := bind_ok h
    obtain ⟨-, st₂, -, h⟩ := bind_ok h
    cases h; rfl
  | _ => rw [hact] at ha; cases ha

end Context

end Analysis

end ManagedCode
