import ManagedCode.Proofs.Building

/-!
# Calls that the builder refuses

A call that fails hands the builder back for further calls. Whether it fails depends on its operand alone, and nearly
every call looks at the operand before it appends anything, so that the builder is as before. The two calls whose number
may be too large for one byte look at it when the instruction itself has been emitted. Its bytes then stay in the code,
and whatever is emitted later stands behind them (`code_performEach`).
-/

namespace ManagedCode

namespace Builder

open Call

namespace Call

/-- The call has a number that the single byte behind its instruction cannot hold. -/
def Oversized : Call → Prop
  | .emitInt op value => op.operand = .shortInt ∧ ¬ (-128 ≤ value.toInt ∧ value.toInt ≤ 127)
  | .emitSlot op index => op.operand = .shortVariable ∧ ¬ index.toNat < 256
  | _ => False

instance (c : Call) : Decidable c.Oversized := by
  cases c <;> unfold Oversized <;> infer_instance

/-- The instruction that an oversized call has emitted when its number is found out. -/
def stray : Call → List UInt8
  | c@(.emitInt op _) | c@(.emitSlot op _) => if c.Oversized then op.encode else []
  | _ => []

theorem encode_ne_nil (op : Opcode) : op.encode ≠ [] := by
  unfold Opcode.encode
  split <;> simp

theorem stray_eq_nil_iff (c : Call) : c.stray = [] ↔ ¬ c.Oversized := by
  cases c with
  | emitInt op value => by_cases h : (Call.emitInt op value).Oversized <;> simp [stray, h, encode_ne_nil]
  | emitSlot op index => by_cases h : (Call.emitSlot op index).Oversized <;> simp [stray, h, encode_ne_nil]
  | _ => simp [stray, Oversized]

end Call

def trailing (b : Builder) (bytes : List UInt8) : Builder := { b with code := b.code ++ bytes.toArray }

theorem trailing_nil (b : Builder) : b.trailing [] = b := by simp [trailing]

theorem trailing_eq_iff {b : Builder} {bytes : List UInt8} : b.trailing bytes = b ↔ bytes = [] := by
  constructor
  · intro h
    simpa [trailing] using congrArg Builder.code h
  · rintro rfl
    exact b.trailing_nil

/-! ## One call -/

/-- **What a refused call of an instruction leaves**: its operand does not suit, and the code has its stray bytes. -/
def Refuses (c : Call) (i : Instruction Label) (b b' : Builder) : Prop := ¬ i.Suits ∧ b' = b.trailing c.stray

variable {b : Builder}

theorem refuses_unchanged {c : Call} {i : Instruction Label} (hc : c.stray = []) (hi : ¬ i.Suits) :
    Refuses c i b b := ⟨hi, by rw [hc, trailing_nil]⟩

/-- An instruction that takes none of the expected operands is refused before anything is emitted. -/
theorem expect_refuses {op : Opcode} {kinds : List OperandKind} {f : Unit → BuilderM Unit}
    {E : BuildError → Builder → Prop} (hE : op.operand ∉ kinds → ∀ e, E e b)
    (hf : op.operand ∈ kinds → Meets (f ()) b (fun _ _ => True) E) :
    Meets (expect op kinds >>= f) b (fun _ _ => True) E := by
  unfold expect
  by_cases h : op.operand ∈ kinds
  · rw [if_pos (by simpa using h)]
    exact hf h
  · rw [if_neg (by simpa using h)]
    exact Meets.throw_bind (hE h _)

theorem emit_refuses {op : Opcode} {c : Call} (hc : c.stray = []) :
    Meets (emit op) b (fun _ _ => True) fun _ b' => Refuses c ⟨op, .none⟩ b b' := by
  refine expect_refuses (fun h _ => refuses_unchanged hc fun hs => h ?_) fun _ => Meets.modify trivial
  exact List.mem_singleton.2 hs

/-- Where an operand of one byte is looked at behind the instruction, the instruction of a refused call is in the code
already. -/
theorem narrow_refuses {op : Opcode} {c : Call} {i : Instruction Label} {short wide : OperandKind} {fits : Prop}
    [Decidable fits] {e : BuildError} {one more : List UInt8} (hc : c.Oversized ↔ op.operand = short ∧ ¬ fits)
    (hstray : c.Oversized → c.stray = op.encode) (hne : short ≠ wide)
    (hi : i.Suits → (op.operand = short ∧ fits) ∨ op.operand = wide) :
    Meets (do
      expect op [short, wide]
      append op.encode
      if op.operand = short then
        if fits then append one else throw e
      else append more) b (fun _ _ => True) fun _ b' => Refuses c i b b' := by
  refine expect_refuses (fun h _ => ?_) fun _ => Meets.modify_bind ?_
  · have h : op.operand ≠ short ∧ op.operand ≠ wide := by simpa using h
    refine refuses_unchanged ((stray_eq_nil_iff c).2 fun hover => h.1 (hc.1 hover).1) fun hs => ?_
    rcases hi hs with hs | hs
    · exact h.1 hs.1
    · exact h.2 hs
  · by_cases hshort : op.operand = short
    · rw [if_pos hshort]
      by_cases hfits : fits
      · rw [if_pos hfits]
        exact Meets.modify trivial
      · rw [if_neg hfits]
        refine ⟨fun hs => ?_, ?_⟩
        · rcases hi hs with hs | hs
          · exact hfits hs.2
          · exact hne (hshort.symm.trans hs)
        · rw [hstray (hc.2 ⟨hshort, hfits⟩)]
          rfl
    · rw [if_neg hshort]
      exact Meets.modify trivial

theorem emitInt_refuses {op : Opcode} {value : BitVec 32} :
    Meets (emitInt op value) b (fun _ _ => True) fun _ b' => Refuses (.emitInt op value) ⟨op, .int value⟩ b b' :=
  narrow_refuses Iff.rfl (fun h => if_pos h) (by decide) id

theorem emitConstant_refuses {value : BitVec 32} :
    Meets (emitConstant value) b (fun _ _ => True) fun _ b' => Refuses (.emitConstant value) (constant value) b b' := by
  have hlarge {op : Opcode} (h : ¬ (Call.emitInt op value).Oversized) {b' : Builder} :
      Refuses (.emitInt op value) ⟨op, .int value⟩ b b' → Refuses (.emitConstant value) ⟨op, .int value⟩ b b' := by
    rintro ⟨hi, rfl⟩
    exact ⟨hi, by rw [(stray_eq_nil_iff _).2 h]; rfl⟩
  unfold emitConstant constant
  cases impliedConstant? value.toInt with
  | some op => exact emit_refuses rfl
  | none =>
    by_cases hfits : -128 ≤ value.toInt ∧ value.toInt ≤ 127
    · simp only [if_pos hfits]
      exact emitInt_refuses.mono (fun _ _ h => h) fun _ _ => hlarge fun h => h.2 hfits
    · simp only [if_neg hfits]
      exact emitInt_refuses.mono (fun _ _ h => h) fun _ _ => hlarge fun h => absurd h.1 (by decide)

theorem emitLong_refuses {op : Opcode} {value : BitVec 64} :
    Meets (emitLong op value) b (fun _ _ => True) fun _ b' => Refuses (.emitLong op value) ⟨op, .long value⟩ b b' := by
  refine expect_refuses (fun h _ => refuses_unchanged rfl fun hs => h ?_) fun _ => Meets.modify trivial
  exact List.mem_singleton.2 hs

theorem emitReal_refuses {op : Opcode} {value : Double} :
    Meets (emitReal op value) b (fun _ _ => True) fun _ b' => Refuses (.emitReal op value)
      ⟨op, if op.operand = .shortReal then .single value.toSingle else .double value.bits⟩ b b' := by
  refine expect_refuses (fun h _ => refuses_unchanged rfl fun hs => h ?_) fun _ => Meets.modify_bind ?_
  · unfold Instruction.Suits at hs
    split at hs
    · exact List.mem_cons.2 (.inl hs)
    · exact List.mem_cons.2 (.inr (List.mem_singleton.2 hs))
  · split <;> exact Meets.modify trivial

theorem emitSlot_refuses {op : Opcode} {index : BitVec 16} :
    Meets (emitSlot op index) b (fun _ _ => True) fun _ b' =>
      Refuses (.emitSlot op index) ⟨op, .slot index.toNat⟩ b b' :=
  narrow_refuses Iff.rfl (fun h => if_pos h) (by decide) fun hs => Or.imp_right And.left hs

theorem emitToken_refuses {op : Opcode} {t : Token} :
    Meets (emitToken op t) b (fun _ _ => True) fun _ b' => Refuses (.emitToken op t) ⟨op, .token t⟩ b b' := by
  unfold emitToken
  by_cases htoken : op.operand.isToken = true
  · rw [if_pos htoken]
    exact Meets.modify trivial
  · rw [if_neg htoken]
    exact refuses_unchanged rfl htoken

theorem emitBranch_refuses {op : Opcode} {target : Label} :
    Meets (emitBranch op target) b (fun _ _ => True) fun _ b' =>
      Refuses (.emitBranch op target) ⟨op, .target target⟩ b b' := by
  refine expect_refuses (fun h _ => refuses_unchanged rfl fun hs => h ?_) fun _ => ?_
  · have hs : op.operand = .shortBranch ∨ op.operand = .branch := hs
    simpa using hs
  · exact Meets.modify_bind (Meets.get_bind (Meets.modify_bind (Meets.modify trivial)))

/-- **A call of an instruction fails only if its operand does not suit**, and leaves its stray bytes alone. -/
theorem perform_refuses {c : Call} {i : Instruction Label} (hi : c.instruction? = some i) :
    Meets c.perform b (fun _ _ => True) fun _ b' => Refuses c i b b' := by
  cases c with
  | emit op => cases hi; exact emit_refuses rfl
  | emitInt op value => cases hi; exact emitInt_refuses
  | emitConstant value => cases hi; exact emitConstant_refuses
  | emitLong op value => cases hi; exact emitLong_refuses
  | emitReal op value => cases hi; exact emitReal_refuses
  | emitSlot op index => cases hi; exact emitSlot_refuses
  | emitToken op t => cases hi; exact emitToken_refuses
  | emitBranch op target => cases hi; exact emitBranch_refuses
  | emitSwitch targets =>
    exact Meets.modify_bind (Meets.get_bind (Meets.modify_bind (Meets.modify trivial)))
  | _ => cases hi

/-- A label that has a mark keeps it. -/
theorem mark_refuses {l : Label} : Meets (mark l) b (fun _ _ => True) fun _ b' => b' = b := by
  refine Meets.get_bind ?_
  cases (b.labels[l.index]?).join with
  | some t => exact rfl
  | none => trivial

theorem refused_eq_trailing {c : Call} {b' : Builder} {e : BuildError} (h : c.perform.run b = (.error e, b')) :
    b' = b.trailing c.stray := by
  cases hi : c.instruction? with
  | some i => exact ((perform_refuses hi).of_error h).2
  | none =>
    cases c with
    | mark l => rw [mark_refuses.of_error h]; exact b.trailing_nil.symm
    | define | tryCatch | tryFinally | tryFault => cases h
    | _ => cases hi

/-- **An oversized call is always refused.** -/
theorem oversized_refused {c : Call} (hc : c.Oversized) (b : Builder) :
    ∃ e, c.perform.run b = (.error e, b.trailing c.stray) := by
  have hi : ∃ i, c.instruction? = some i ∧ ¬ i.Suits := by
    cases c with
    | emitInt op value =>
      refine ⟨_, rfl, ?_⟩
      rintro (hs | hs)
      · exact hc.2 hs.2
      · cases hc.1.symm.trans hs
    | emitSlot op index =>
      refine ⟨_, rfl, ?_⟩
      rintro (hs | hs)
      · exact hc.2 hs.2
      · cases hc.1.symm.trans hs.1
    | _ => cases hc
  obtain ⟨i, hi, hs⟩ := hi
  rcases hrun : c.perform.run b with ⟨e | u, b'⟩
  · exact ⟨e, by rw [refused_eq_trailing hrun]⟩
  · exact absurd ((perform_emits hi).of_ok hrun).suits hs

/-! ## Calls after a refused one -/

def Call.after (c : Call) (b : Builder) : Builder := (c.perform.run b).2

/-- The builder after calls, some of which may be refused. -/
def performEach (calls : List Call) (b : Builder) : Builder := calls.foldl (fun b c => c.after b) b

/-- What a call of an instruction does to the code depends on the operand, and not on the builder. -/
theorem code_after_instruction {c : Call} {i : Instruction Label} (hi : c.instruction? = some i) (b : Builder) :
    (i.Suits ∧ (c.after b).code = b.code ++ (blank i).toArray) ∨
    (¬ i.Suits ∧ (c.after b).code = b.code ++ c.stray.toArray) := by
  unfold Call.after
  rcases hrun : c.perform.run b with ⟨e | u, b'⟩
  · obtain ⟨hs, rfl⟩ := (perform_refuses hi).of_error hrun
    exact .inr ⟨hs, rfl⟩
  · have hemits := (perform_emits hi).of_ok hrun
    exact .inl ⟨hemits.suits, Array.toList_inj.1 (by simp [hemits.code])⟩

/-- **A call appends the same bytes to any code.** -/
theorem code_after (c : Call) (b : Builder) : (c.after b).code = b.code ++ (c.after {}).code := by
  cases hi : c.instruction? with
  | some i =>
    rcases code_after_instruction hi b with ⟨hs, hb⟩ | ⟨hs, hb⟩
    · rcases code_after_instruction hi {} with ⟨-, h⟩ | ⟨hs', -⟩
      · rw [hb, h, Array.empty_append]
      · exact absurd hs hs'
    · rcases code_after_instruction hi {} with ⟨hs', -⟩ | ⟨-, h⟩
      · exact absurd hs' hs
      · rw [hb, h, Array.empty_append]
  | none =>
    have hcode : ∀ b : Builder, (c.after b).code = b.code := by
      intro b
      cases c with
      | mark l =>
        have hmeets : Meets (mark l) b (fun _ b' => b'.code = b.code) fun _ b' => b'.code = b.code := by
          refine Meets.get_bind ?_
          cases (b.labels[l.index]?).join with
          | some t => exact rfl
          | none => exact Meets.set rfl
        exact hmeets.state
      | define | tryCatch | tryFinally | tryFault => rfl
      | _ => cases hi
    rw [hcode, hcode]
    exact Array.append_empty.symm

theorem code_performEach (calls : List Call) (b : Builder) :
    (performEach calls b).code = b.code ++ (performEach calls {}).code := by
  induction calls generalizing b with
  | nil => exact Array.append_empty.symm
  | cons c calls ih =>
    show (performEach calls (c.after b)).code = b.code ++ (performEach calls (c.after {})).code
    rw [ih (c.after b), ih (c.after {}), code_after c b, Array.append_assoc]

/-- **Which refused calls change the builder.** A call is refused with a changed builder exactly if its number is too
large for the single byte behind its instruction. Any other refused call leaves the builder as it was, so that later
calls do what they would have done without it. After an oversized one, labels, branches and regions are as before, but
the instruction stands in the code, in front of the bytes of all later calls. -/
theorem refused_changes_iff (c : Call) (b : Builder) :
    ((∃ e b', c.perform.run b = (.error e, b') ∧ b' ≠ b) ↔ c.Oversized) ∧
    ∀ e b', c.perform.run b = (.error e, b') → b' = b.trailing c.stray ∧
      (c.stray = [] ↔ ¬ c.Oversized) ∧
      (¬ c.Oversized → ∀ later, performEach (c :: later) b = performEach later b) ∧
      ∀ later, (performEach later b).code = b.code ++ (performEach later {}).code ∧
        (performEach (c :: later) b).code = b.code ++ c.stray.toArray ++ (performEach later {}).code := by
  refine ⟨⟨?_, fun hc => ?_⟩, fun e b' h => ⟨refused_eq_trailing h, c.stray_eq_nil_iff, fun hc later => ?_, ?_⟩⟩
  · rintro ⟨e, b', h, hne⟩
    refine Decidable.byContradiction fun hc => ?_
    rw [refused_eq_trailing h, c.stray_eq_nil_iff.2 hc, trailing_nil] at hne
    exact hne rfl
  · obtain ⟨e, h⟩ := oversized_refused hc b
    exact ⟨e, _, h, fun heq => (c.stray_eq_nil_iff.1 (trailing_eq_iff.1 heq)) hc⟩
  · have hafter : c.after b = b := by
      rw [Call.after, h, refused_eq_trailing h, c.stray_eq_nil_iff.2 hc, trailing_nil]
    show performEach later (c.after b) = _
    rw [hafter]
  · intro later
    have hafter : c.after b = b.trailing c.stray := by rw [Call.after, h, refused_eq_trailing h]
    refine ⟨code_performEach later b, ?_⟩
    show (performEach later (c.after b)).code = _
    rw [hafter, code_performEach]
    rfl

/-- The small constant that is too large for its byte leaves its instruction, and `ret` is at offset 1. -/
theorem oversized_constant_leaves_instruction :
    (Call.emitInt .ldcI4S 1000).perform.run {} = (.error (.operandMismatch .ldcI4S .shortInt), { code := #[0x1F] }) ∧
    (performEach [.emitInt .ldcI4S 1000, .emit .ret] {}).code = #[0x1F, 0x2A] ∧
    (performEach [.emit .ret] {}).code = #[0x2A] := by
  have h : (Call.emitInt .ldcI4S 1000).perform.run {} =
      (.error (.operandMismatch .ldcI4S .shortInt), { code := #[0x1F] }) := rfl
  have hlater := ((refused_changes_iff (.emitInt .ldcI4S 1000) {}).2 _ _ h).2.2.2 [.emit .ret]
  have hret : (performEach [.emit .ret] {}).code = #[0x2A] := by decide +kernel
  refine ⟨h, ?_, hret⟩
  rw [hlater.2, hret]
  decide +kernel

/-- A failed call that changes the code of the builder. -/
theorem refused_not_unchanged : ¬ ∀ (c : Call) (b b' : Builder) (e : BuildError),
    c.perform.run b = (.error e, b') → b'.code = b.code := by
  intro h
  have hcode := h (.emitInt .ldcI4S 1000) {} { code := #[0x1F] } (.operandMismatch .ldcI4S .shortInt) rfl
  exact absurd hcode (by decide)

end Builder

end ManagedCode
