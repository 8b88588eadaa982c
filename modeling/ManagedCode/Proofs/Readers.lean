import ManagedCode.Code

/-!
# Reading instructions

An instruction takes the offsets from its own up to the next one, and reading it looks at no byte outside of them:
two codes of one size that agree on these bytes read alike (`Code.AgreeOn`). Where the next offset can be read at all,
so can every operand.
-/

namespace ManagedCode

/-- What the machine reports of an offset that was not analyzed: bytes that are no instruction, or an instruction
without operand types. -/
def EngineError.isUnanalyzed : EngineError → Bool
  | .truncated _ | .unsupportedOpcode .. | .invalidState _ .untypedInstruction => true
  | _ => false

namespace Opcode

theorem value_of_find? {l : List Opcode} {n : Nat} {op : Opcode} (h : l.find? (·.value == n) = some op) :
    op.value = n := by
  simpa using List.find?_some h

theorem ofValue?_oneByte {n : Nat} (h : n < 256) : ofValue? n = all.find? (·.value == n) := by
  unfold ofValue? oneByte
  generalize all = l
  rw [if_pos h, Array.getElem?_ofFn, dif_pos h, Option.join_some]

theorem ofValue?_twoByte {n : Nat} (h : n < 256) : ofValue? (0xFE00 + n) = all.find? (·.value == 0xFE00 + n) := by
  unfold ofValue? twoByte
  generalize all = l
  rw [if_neg (by omega), if_pos (by omega), Nat.add_sub_cancel_left, Array.getElem?_ofFn, dif_pos h, Option.join_some]

theorem size_pos (op : Opcode) : 1 ≤ op.size := by
  unfold size
  split <;> decide

end Opcode

namespace Code

variable {c c' : Code} {pc next : Nat} {op : Opcode}

/-! ## The bytes of an instruction -/

/-- Both codes have the same size, and the same bytes from `lo` up to `hi`. -/
structure AgreeOn (c c' : Code) (lo hi : Nat) : Prop where
  size : c'.size = c.size
  bytes : ∀ k, lo ≤ k → k < hi → c'.bytes[k]? = c.bytes[k]?

/-- The bytes that encode an instruction: one, or an escape and one more. -/
theorem opcodeAt_ok (h : c.opcodeAt pc = .ok op) :
    (∃ b, c.bytes[pc]? = some b ∧ b ≠ Opcode.escape ∧ Opcode.ofValue? b.toNat = some op ∧ op.size = 1) ∨
    (∃ b, c.bytes[pc]? = some Opcode.escape ∧ c.bytes[pc + 1]? = some b ∧ Opcode.ofValue? (0xFE00 + b.toNat) = some op ∧
      op.size = 2) := by
  unfold opcodeAt at h
  have found : ∀ v, opcodeAt.found pc v = .ok op → Opcode.ofValue? v = some op := by
    intro v hv
    unfold opcodeAt.found at hv
    split at hv
    · rename_i op' ho
      rw [ho, Except.ok.inj hv]
    · cases hv
  split at h
  · cases h
  · rename_i b hb
    split at h
    · rename_i he
      split at h
      · cases h
      · rename_i b' hb'
        have ho := found _ h
        rw [Opcode.ofValue?_twoByte b'.toNat_lt] at ho
        refine .inr ⟨b', he ▸ hb, hb', found _ h, ?_⟩
        rw [Opcode.size, Opcode.value_of_find? ho, if_pos (by omega)]
    · rename_i he
      have ho := found _ h
      rw [Opcode.ofValue?_oneByte b.toNat_lt] at ho
      refine .inl ⟨b, hb, he, found _ h, ?_⟩
      rw [Opcode.size, Opcode.value_of_find? ho, if_neg (by have := b.toNat_lt; omega)]

theorem opcodeAt_agree {hi : Nat} (h : c.opcodeAt pc = .ok op) (ha : c.AgreeOn c' pc hi) (hs : pc + op.size ≤ hi) :
    c'.opcodeAt pc = .ok op := by
  rcases opcodeAt_ok h with ⟨b, hb, he, ho, h1⟩ | ⟨b, hb, hb', ho, h2⟩
  · rw [opcodeAt, ha.bytes pc (Nat.le_refl _) (by omega), hb]
    simp only [if_neg he, opcodeAt.found, ho]
  · rw [opcodeAt, ha.bytes pc (Nat.le_refl _) (by omega), hb, ha.bytes (pc + 1) (by omega) (by omega), hb']
    simp only [↓reduceIte, opcodeAt.found, ho]

/-- The only errors of reading an instruction. -/
theorem opcodeAt_error {e : EngineError} (h : c.opcodeAt pc = .error e) :
    (∃ o, e = .truncated o) ∨ ∃ value, e = .unsupportedOpcode value pc := by
  have found : ∀ v, opcodeAt.found pc v = .error e → ∃ value, e = .unsupportedOpcode value pc := by
    intro v hv
    unfold opcodeAt.found at hv
    split at hv
    · cases hv
    · exact ⟨v, (Except.error.inj hv).symm⟩
  unfold opcodeAt at h
  split at h
  · exact .inl ⟨pc, (Except.error.inj h).symm⟩
  · split at h
    · split at h
      · exact .inl ⟨pc + 1, (Except.error.inj h).symm⟩
      · exact .inr (found _ h)
    · exact .inr (found _ h)

theorem readAt_agree {lo hi count offset : Nat} (ha : c.AgreeOn c' lo hi) (hl : lo ≤ offset)
    (hh : offset + count ≤ hi) : c'.readAt count offset pc = c.readAt count offset pc := by
  unfold readAt
  rw [ha.size]
  split
  · have he : c'.bytes.extract offset (offset + count) = c.bytes.extract offset (offset + count) := by
      apply Array.ext_getElem?
      intro i
      rw [Array.getElem?_extract, Array.getElem?_extract, show c'.bytes.size = c.bytes.size from ha.size]
      split
      · exact ha.bytes (offset + i) (by omega) (by omega)
      · rfl
    rw [he]
  · rfl

theorem readAt_ok {count offset : Nat} (h : offset + count ≤ c.size) : ∃ n, c.readAt count offset pc = .ok n := by
  unfold readAt
  rw [if_pos h]
  exact ⟨_, rfl⟩

theorem readAt_error {e : EngineError} {count offset : Nat} (h : c.readAt count offset pc = .error e) :
    e = .truncated pc := by
  unfold readAt at h
  split at h
  · cases h
  · exact (Except.error.inj h).symm

/-! ## The next instruction -/

/-- **Where an instruction ends**: behind its operand, whose size is fixed or counted by the operand itself. -/
theorem nextOffset_ok (h : c.nextOffset pc = .ok next) :
    ∃ op, c.opcodeAt pc = .ok op ∧ next ≤ c.size ∧
      ((∃ n, op.operand.size? = some n ∧ next = pc + op.size + n) ∨
       (∃ count, op.operand.size? = none ∧ c.readAt 4 (pc + op.size) pc = .ok count ∧
         next = pc + op.size + 4 + count * 4)) := by
  unfold nextOffset at h
  cases ho : c.opcodeAt pc with
  | error e => rw [ho] at h; cases h
  | ok op =>
    rw [ho] at h
    refine ⟨op, rfl, ?_⟩
    cases hs : op.operand.size? with
    | some n =>
      simp only [hs, bind, Except.bind, pure, Except.pure] at h
      split at h
      · rename_i hn
        cases h
        exact ⟨hn, .inl ⟨n, rfl, rfl⟩⟩
      · cases h
    | none =>
      simp only [hs, bind, Except.bind, pure, Except.pure] at h
      cases hr : c.readAt 4 (pc + op.size) pc with
      | error e => rw [hr] at h; cases h
      | ok count =>
        simp only [hr] at h
        split at h
        · rename_i hn
          cases h
          exact ⟨hn, .inr ⟨count, rfl, rfl, rfl⟩⟩
        · cases h

theorem nextOffset_error {e : EngineError} (h : c.nextOffset pc = .error e) :
    (∃ o, e = .truncated o) ∨ ∃ value, e = .unsupportedOpcode value pc := by
  unfold nextOffset at h
  cases ho : c.opcodeAt pc with
  | error e' =>
    rw [ho] at h
    cases h
    exact opcodeAt_error ho
  | ok op =>
    simp only [ho, bind, Except.bind, pure, Except.pure] at h
    cases hs : op.operand.size? with
    | some n =>
      simp only [hs] at h
      split at h
      · cases h
      · exact .inl ⟨pc, (Except.error.inj h).symm⟩
    | none =>
      simp only [hs] at h
      cases hr : c.readAt 4 (pc + op.size) pc with
      | error e' =>
        rw [hr] at h
        cases h
        exact .inl ⟨pc, readAt_error hr⟩
      | ok count =>
        simp only [hr] at h
        split at h
        · cases h
        · exact .inl ⟨pc, (Except.error.inj h).symm⟩

/-- An instruction lies inside the code, and has its own bytes. -/
theorem nextOffset_bounds (h : c.nextOffset pc = .ok next) (ho : c.opcodeAt pc = .ok op) :
    pc + op.size ≤ next ∧ next ≤ c.size := by
  obtain ⟨op', ho', hn, hnext⟩ := nextOffset_ok h
  cases ho.symm.trans ho'
  rcases hnext with ⟨n, _, rfl⟩ | ⟨count, _, _, rfl⟩
  · exact ⟨by omega, hn⟩
  · exact ⟨by omega, hn⟩

theorem lt_nextOffset (h : c.nextOffset pc = .ok next) : pc < next := by
  obtain ⟨op, ho, _⟩ := nextOffset_ok h
  have := (nextOffset_bounds h ho).1
  have := op.size_pos
  omega

/-- An instruction with an operand of fixed size ends behind it. -/
theorem nextOffset_fixed {n : Nat} (h : c.nextOffset pc = .ok next) (ho : c.opcodeAt pc = .ok op)
    (hs : op.operand.size? = some n) : next = pc + op.size + n := by
  obtain ⟨op', ho', _, hnext⟩ := nextOffset_ok h
  cases ho.symm.trans ho'
  rcases hnext with ⟨m, hm, rfl⟩ | ⟨count, hc, _⟩
  · rw [hs] at hm; cases hm; rfl
  · rw [hs] at hc; cases hc

/-- **Code that agrees on an instruction has the same instruction after it.** -/
theorem nextOffset_agree (h : c.nextOffset pc = .ok next) (ha : c.AgreeOn c' pc next) :
    c'.nextOffset pc = .ok next := by
  obtain ⟨op, ho, hn, hnext⟩ := nextOffset_ok h
  have hb := (nextOffset_bounds h ho).1
  have ho' := opcodeAt_agree ho ha hb
  rcases hnext with ⟨n, hs, rfl⟩ | ⟨count, hs, hr, rfl⟩
  · simp only [nextOffset, ho', hs, bind, Except.bind, pure, Except.pure, ha.size, if_pos hn]
  · have hr' : c'.readAt 4 (pc + op.size) pc = .ok count := (readAt_agree ha (by omega) (by omega)).trans hr
    simp only [nextOffset, ho', hs, hr', bind, Except.bind, pure, Except.pure, ha.size, if_pos hn]

/-! ## Operands -/

theorem operand_eq (ho : c.opcodeAt pc = .ok op) (count : Nat) :
    c.operand count pc = c.readAt count (pc + op.size) pc := by
  simp only [operand, operandAt, ho, bind, Except.bind, pure, Except.pure]

/-- An operand of fixed size can be read. -/
theorem operand_ok {n : Nat} (h : c.nextOffset pc = .ok next) (ho : c.opcodeAt pc = .ok op)
    (hs : op.operand.size? = some n) : ∃ v, c.operand n pc = .ok v := by
  rw [operand_eq ho]
  have := nextOffset_fixed h ho hs
  have := (nextOffset_bounds h ho).2
  exact readAt_ok (by omega)

theorem operand_agree {n : Nat} (h : c.nextOffset pc = .ok next) (ha : c.AgreeOn c' pc next)
    (ho : c.opcodeAt pc = .ok op) (hs : op.operand.size? = some n) : c'.operand n pc = c.operand n pc := by
  have hb := (nextOffset_bounds h ho).1
  rw [operand_eq ho, operand_eq (opcodeAt_agree ho ha hb), nextOffset_fixed h ho hs] at *
  exact readAt_agree ha (by omega) (by omega)

theorem word_ok (width : Nat) (h : c.nextOffset pc = .ok next) (ho : c.opcodeAt pc = .ok op)
    (hs : op.operand.size? = some (width / 8)) : ∃ v, c.word width pc = .ok v := by
  obtain ⟨v, hv⟩ := operand_ok h ho hs
  simp only [word, hv, bind, Except.bind, pure, Except.pure]
  exact ⟨_, rfl⟩

theorem word_agree (width : Nat) (h : c.nextOffset pc = .ok next) (ha : c.AgreeOn c' pc next)
    (ho : c.opcodeAt pc = .ok op) (hs : op.operand.size? = some (width / 8)) : c'.word width pc = c.word width pc := by
  rw [word, word, operand_agree h ha ho hs]

theorem token_ok (h : c.nextOffset pc = .ok next) (ho : c.opcodeAt pc = .ok op) (hs : op.operand.size? = some 4) :
    ∃ t, c.token pc = .ok t := by
  obtain ⟨v, hv⟩ := word_ok 32 h ho hs
  simp only [token, hv, bind, Except.bind, pure, Except.pure]
  exact ⟨_, rfl⟩

theorem token_agree (h : c.nextOffset pc = .ok next) (ha : c.AgreeOn c' pc next) (ho : c.opcodeAt pc = .ok op)
    (hs : op.operand.size? = some 4) : c'.token pc = c.token pc := by
  rw [token, token, word_agree 32 h ha ho hs]

/-- Reading the index of an argument or a local fails only where the instruction has none. -/
theorem slotIndex_refuses {e : EngineError} (h : c.nextOffset pc = .ok next) (ho : c.opcodeAt pc = .ok op)
    (he : c.slotIndex pc = .error e) :
    op.operand ≠ .shortVariable ∧ op.operand ≠ .variable ∧ e = .invalidState pc .noVariableOperand := by
  simp only [slotIndex, ho, bind, Except.bind] at he
  split at he
  · rename_i hk
    obtain ⟨v, hv⟩ := operand_ok h ho (n := 1) (by rw [hk]; rfl)
    rw [hv] at he; cases he
  · rename_i hk
    obtain ⟨v, hv⟩ := operand_ok h ho (n := 2) (by rw [hk]; rfl)
    rw [hv] at he; cases he
  · rename_i hshort hlong
    exact ⟨hshort, hlong, (Except.error.inj he).symm⟩

theorem slotIndex_error {e : EngineError} (h : c.nextOffset pc = .ok next) (ho : c.opcodeAt pc = .ok op)
    (he : c.slotIndex pc = .error e) : e.isUnanalyzed = false := by
  obtain ⟨-, -, rfl⟩ := slotIndex_refuses h ho he
  rfl

theorem slotIndex_agree (h : c.nextOffset pc = .ok next) (ha : c.AgreeOn c' pc next) (ho : c.opcodeAt pc = .ok op) :
    c'.slotIndex pc = c.slotIndex pc := by
  simp only [slotIndex, ho, opcodeAt_agree ho ha (nextOffset_bounds h ho).1, bind, Except.bind]
  split
  · rename_i hk; exact operand_agree h ha ho (by rw [hk]; rfl)
  · rename_i hk; exact operand_agree h ha ho (by rw [hk]; rfl)
  · rfl

/-! ## Targets -/

theorem target?_agree {delta : Int} (hs : c'.size = c.size) : c'.target? next delta = c.target? next delta := by
  rw [target?, target?, hs]

theorem branchTarget_agree (h : c.nextOffset pc = .ok next) (ha : c.AgreeOn c' pc next) (ho : c.opcodeAt pc = .ok op) :
    c'.branchTarget pc = c.branchTarget pc := by
  simp only [branchTarget, ho, opcodeAt_agree ho ha (nextOffset_bounds h ho).1, h, nextOffset_agree h ha, bind,
    Except.bind, target?_agree ha.size]
  cases hk : op.operand with
  | shortBranch => rw [word_agree 8 h ha ho (by rw [hk]; rfl)]
  | branch => rw [word_agree 32 h ha ho (by rw [hk]; rfl)]
  | _ => rfl

/-- A branch whose bytes were read is refused for where it goes, and another instruction for not being one. -/
theorem branchTarget_refuses {e : EngineError} (h : c.nextOffset pc = .ok next) (ho : c.opcodeAt pc = .ok op)
    (he : c.branchTarget pc = .error e) : e = .invalidProgram pc .branchOutside ∨
      op.operand ≠ .shortBranch ∧ op.operand ≠ .branch ∧ e = .invalidState pc .notBranch := by
  simp only [branchTarget, h, ho, bind, Except.bind] at he
  split at he
  · rename_i hk
    obtain ⟨v, hv⟩ := word_ok 8 h ho (by rw [hk]; rfl)
    simp only [hv, pure, Except.pure] at he
    split at he
    · cases he
    · exact .inl (Except.error.inj he).symm
  · rename_i hk
    obtain ⟨v, hv⟩ := word_ok 32 h ho (by rw [hk]; rfl)
    simp only [hv, pure, Except.pure] at he
    split at he
    · cases he
    · exact .inl (Except.error.inj he).symm
  · rename_i hshort hlong
    exact .inr ⟨hshort, hlong, (Except.error.inj he).symm⟩

theorem branchTarget_error {e : EngineError} (h : c.nextOffset pc = .ok next) (ho : c.opcodeAt pc = .ok op)
    (he : c.branchTarget pc = .error e) : e.isUnanalyzed = false := by
  rcases branchTarget_refuses h ho he with rfl | ⟨-, -, rfl⟩
  · rfl
  · rfl

theorem tableTargets_agree {lo hi : Nat} (ha : c.AgreeOn c' lo hi) : ∀ (count offset : Nat), lo ≤ offset →
    offset + count * 4 ≤ hi → c'.tableTargets pc next count offset = c.tableTargets pc next count offset
  | 0, _, _, _ => rfl
  | count + 1, offset, hl, hh => by
    rw [tableTargets, tableTargets, readAt_agree ha hl (by omega)]
    simp only [target?_agree ha.size, tableTargets_agree ha count (offset + 4) (by omega) (by omega)]

theorem tableTargets_refuses {e : EngineError} : ∀ (count offset : Nat), offset + count * 4 ≤ c.size →
    c.tableTargets pc next count offset = .error e → e = .invalidProgram pc .switchOutside
  | 0, _, _, he => by cases he
  | count + 1, offset, hb, he => by
    obtain ⟨v, hv⟩ : ∃ v, c.readAt 4 offset pc = .ok v := readAt_ok (by omega)
    simp only [tableTargets, hv, bind, Except.bind] at he
    split at he
    · cases hr : c.tableTargets pc next count (offset + 4) with
      | error e' =>
        rw [hr] at he; cases he
        exact tableTargets_refuses count (offset + 4) (by omega) hr
      | ok ts => rw [hr] at he; cases he
    · exact (Except.error.inj he).symm

/-- What a jump table reads: its count, then that many distances, all before the next instruction. -/
theorem switchTargets_eq (h : c.nextOffset pc = .ok next) (ho : c.opcodeAt pc = .ok op) (hs : op.operand.size? = none) :
    ∃ count, next = pc + op.size + 4 + count * 4 ∧ c.readAt 4 (pc + op.size) pc = .ok count ∧
      c.switchTargets pc = c.tableTargets pc next count (pc + op.size + 4) := by
  obtain ⟨op', ho', _, hnext⟩ := nextOffset_ok h
  cases ho.symm.trans ho'
  rcases hnext with ⟨n, hn, _⟩ | ⟨count, _, hr, hn⟩
  · rw [hs] at hn; cases hn
  · refine ⟨count, hn, hr, ?_⟩
    simp only [switchTargets, operandAt, ho, hr, h, bind, Except.bind, pure, Except.pure]

theorem switchTargets_agree (h : c.nextOffset pc = .ok next) (ha : c.AgreeOn c' pc next) (ho : c.opcodeAt pc = .ok op)
    (hs : op.operand.size? = none) : c'.switchTargets pc = c.switchTargets pc := by
  have hb := (nextOffset_bounds h ho).1
  obtain ⟨count, hn, hr, heq⟩ := switchTargets_eq h ho hs
  have hr' : c'.readAt 4 (pc + op.size) pc = .ok count := (readAt_agree ha (by omega) (by omega)).trans hr
  obtain ⟨count', _, hr'', heq'⟩ := switchTargets_eq (nextOffset_agree h ha) (opcodeAt_agree ho ha hb) hs
  cases hr'.symm.trans hr''
  rw [heq, heq']
  exact tableTargets_agree ha count _ (by omega) (by omega)

/-- A jump table whose bytes were read is refused for where it goes. -/
theorem switchTargets_refuses {e : EngineError} (h : c.nextOffset pc = .ok next) (ho : c.opcodeAt pc = .ok op)
    (hs : op.operand.size? = none) (he : c.switchTargets pc = .error e) : e = .invalidProgram pc .switchOutside := by
  obtain ⟨count, hn, _, heq⟩ := switchTargets_eq h ho hs
  have := (nextOffset_bounds h ho).2
  rw [heq] at he
  exact tableTargets_refuses count _ (by omega) he

theorem switchTargets_error {e : EngineError} (h : c.nextOffset pc = .ok next) (ho : c.opcodeAt pc = .ok op)
    (hs : op.operand.size? = none) (he : c.switchTargets pc = .error e) : e.isUnanalyzed = false := by
  rw [switchTargets_refuses h ho hs he]
  rfl

end Code

end ManagedCode
