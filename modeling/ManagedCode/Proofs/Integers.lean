import ManagedCode.Machine.Instruction
import ManagedCode.Proofs.Annotations

/-!
# Integer arithmetic is exact

What the integer instructions answer is said here in numbers: sums and products of the numbers that the operands stand
for, quotients truncated toward zero, shifts as multiplications and floors. `Word` computes on bits; that it gives these
answers is shown for words of any width, and then of the instructions, on whatever lies at the top of the stack.
-/

namespace ManagedCode

/-! ## Answers in numbers -/

section Answers

variable {w : Nat}

/-- There is always a result, which is the number taken modulo `2 ^ w`, as a signed one. -/
def Wraps (n : Int) (r : Except FaultKind (BitVec w)) : Prop := ∃ c, r = .ok c ∧ c.toInt = n.bmod (2 ^ w)

/-- A number of the range is the result, exactly, and any other number overflows. -/
def FitsRange {α : Type} (low high n : Int) (value : α → Int) (r : Except FaultKind α) : Prop :=
  if low ≤ n ∧ n ≤ high then ∃ c, r = .ok c ∧ value c = n else r = .error .overflow

/-- A division by zero faults, a quotient that no word stands for overflows, and any other division is exact. -/
def Divides (zero overflows : Prop) (exact : BitVec w → Prop) (r : Except FaultKind (BitVec w)) : Prop :=
  (r = .error .divideByZero ↔ zero) ∧ (r = .error .overflow ↔ overflows) ∧
    (¬ zero → ¬ overflows → ∃ c, r = .ok c ∧ exact c)

/-- There is always a result, which is made bit by bit. -/
def Bitwise (bit : Nat → Bool) (r : Except FaultKind (BitVec w)) : Prop :=
  ∃ c, r = .ok c ∧ ∀ i < w, c.getLsbD i = bit i

/-- What an instruction on two integers answers. -/
def BinaryOp.Exact (op : BinaryOp) (a b : BitVec w) : Except FaultKind (BitVec w) → Prop :=
  match op with
  | .add => Wraps (a.toInt + b.toInt)
  | .sub => Wraps (a.toInt - b.toInt)
  | .mul => Wraps (a.toInt * b.toInt)
  | .and => Bitwise fun i => a.getLsbD i && b.getLsbD i
  | .or => Bitwise fun i => a.getLsbD i || b.getLsbD i
  | .xor => Bitwise fun i => a.getLsbD i ^^ b.getLsbD i
  | .div => Divides (b.toInt = 0) (a.toInt = -2 ^ (w - 1) ∧ b.toInt = -1) fun q => q.toInt = a.toInt.tdiv b.toInt
  | .rem => Divides (b.toInt = 0) (a.toInt = -2 ^ (w - 1) ∧ b.toInt = -1) fun r =>
    a.toInt = b.toInt * a.toInt.tdiv b.toInt + r.toInt
  | .divUn => Divides (b.toNat = 0) False fun q => q.toNat = a.toNat / b.toNat
  | .remUn => Divides (b.toNat = 0) False fun r => r.toNat = a.toNat % b.toNat
  | .addOvf => FitsRange (-2 ^ (w - 1)) (2 ^ (w - 1) - 1) (a.toInt + b.toInt) BitVec.toInt
  | .subOvf => FitsRange (-2 ^ (w - 1)) (2 ^ (w - 1) - 1) (a.toInt - b.toInt) BitVec.toInt
  | .mulOvf => FitsRange (-2 ^ (w - 1)) (2 ^ (w - 1) - 1) (a.toInt * b.toInt) BitVec.toInt
  | .addOvfUn => FitsRange 0 (2 ^ w - 1) (a.toNat + b.toNat) fun c => c.toNat
  | .subOvfUn => FitsRange 0 (2 ^ w - 1) (a.toNat - b.toNat) fun c => c.toNat
  | .mulOvfUn => FitsRange 0 (2 ^ w - 1) (a.toNat * b.toNat) fun c => c.toNat

/-- What an instruction on one integer answers. -/
def UnaryOp.Exact (op : UnaryOp) (a c : BitVec w) : Prop :=
  match op with
  | .neg => c.toInt = (-a.toInt).bmod (2 ^ w)
  | .not => ∀ i < w, c.getLsbD i = !a.getLsbD i

/-- What a shift by `k` places answers: `k` counts modulo the width, so that a negative amount counts from the width
down. -/
def ShiftOp.Exact (op : ShiftOp) (a : BitVec w) (k : Int) (c : BitVec w) : Prop :=
  match op with
  | .shl => c.toInt = (a.toInt * 2 ^ (k % w).toNat).bmod (2 ^ w)
  | .shr => c.toInt = a.toInt / 2 ^ (k % w).toNat
  | .shrUn => c.toNat = a.toNat / 2 ^ (k % w).toNat

/-- The relation of numbers that a comparison tests. -/
def Comparison.Relates (c : Comparison) (a b : BitVec w) : Prop :=
  match c with
  | .eq => a.toInt = b.toInt
  | .gt => a.toInt > b.toInt
  | .ge => a.toInt ≥ b.toInt
  | .lt => a.toInt < b.toInt
  | .le => a.toInt ≤ b.toInt
  | .neUn => a.toNat ≠ b.toNat
  | .gtUn => a.toNat > b.toNat
  | .geUn => a.toNat ≥ b.toNat
  | .ltUn => a.toNat < b.toNat
  | .leUn => a.toNat ≤ b.toNat

instance (c : Comparison) (a b : BitVec w) : Decidable (c.Relates a b) := by
  cases c <;> unfold Comparison.Relates <;> infer_instance

end Answers

/-! ## Arithmetic on words -/

namespace Word

variable {w : Nat} {a b : BitVec w}

/-- A result with a flag that is set exactly for the numbers outside of a range. -/
theorem fitting_exact {low high n : Int} {value : BitVec w → Int} {overflows : Bool} {c : BitVec w}
    (hover : overflows = true ↔ ¬ (low ≤ n ∧ n ≤ high)) (hc : ¬ overflows = true → value c = n) :
    FitsRange low high n value (binary.fitting overflows c) := by
  unfold FitsRange binary.fitting
  by_cases h : overflows = true
  · rw [if_pos h, if_neg (hover.1 h)]
  · rw [if_neg h, if_pos (not_not.1 (mt hover.2 h))]
    exact ⟨c, rfl, hc h⟩

theorem signed_overflow {n : Int} : (decide (n ≥ 2 ^ (w - 1)) || decide (n < -2 ^ (w - 1))) = true ↔
    ¬ (-2 ^ (w - 1) ≤ n ∧ n ≤ 2 ^ (w - 1) - 1) := by
  rw [Bool.or_eq_true, decide_eq_true_iff, decide_eq_true_iff]
  generalize (2 : Int) ^ (w - 1) = m
  omega

theorem unsigned_overflow {n : Nat} : decide (n ≥ 2 ^ w) = true ↔ ¬ ((0 : Int) ≤ n ∧ (n : Int) ≤ 2 ^ w - 1) := by
  rw [decide_eq_true_iff, show (2 : Int) ^ w = ((2 ^ w : Nat) : Int) by push_cast; rfl]
  omega

theorem toInt_eq_zero_iff : b.toInt = 0 ↔ b = 0 := by
  rw [← BitVec.toInt_inj]
  simp

theorem toInt_eq_neg_one_iff (hw : 0 < w) : b.toInt = -1 ↔ b = BitVec.allOnes w := by
  rw [← BitVec.toInt_inj, BitVec.toInt_allOnes, if_pos hw]

theorem toInt_eq_min_iff (hw : 0 < w) : a.toInt = -2 ^ (w - 1) ↔ a = BitVec.intMin w := by
  rw [← BitVec.toInt_inj, BitVec.toInt_intMin_of_pos hw]

/-- Signed division, by whatever function is exact where there is a result. -/
theorem signed_exact (hw : 0 < w) {f : BitVec w → BitVec w → BitVec w} {exact : BitVec w → Prop}
    (h : ¬ (a = BitVec.intMin w ∧ b = BitVec.allOnes w) → exact (f a b)) :
    Divides (b.toInt = 0) (a.toInt = -2 ^ (w - 1) ∧ b.toInt = -1) exact (binary.signed a b f) := by
  rw [toInt_eq_zero_iff, toInt_eq_min_iff hw, toInt_eq_neg_one_iff hw]
  have hones : BitVec.allOnes w ≠ 0 := fun h => by
    have hi := congrArg BitVec.toInt h
    rw [BitVec.toInt_allOnes, if_pos hw] at hi
    simp at hi
  unfold Divides binary.signed
  split
  · rename_i hb
    exact ⟨by simp [hb], ⟨nofun, fun ⟨_, hb'⟩ => absurd (hb'.symm.trans hb) hones⟩, fun hne => absurd hb hne⟩
  · rename_i hb
    split
    · rename_i hover
      exact ⟨⟨nofun, fun hz => absurd hz hb⟩, ⟨fun _ => hover, fun _ => rfl⟩, fun _ hne => absurd hover hne⟩
    · rename_i hover
      exact ⟨⟨nofun, fun hz => absurd hz hb⟩, ⟨nofun, fun ho => absurd ho hover⟩, fun _ _ => ⟨_, rfl, h hover⟩⟩

theorem unsigned_exact {c : BitVec w} {exact : BitVec w → Prop} (h : exact c) :
    Divides (b.toNat = 0) False exact (if b = 0 then .error .divideByZero else .ok c) := by
  have hzero : b.toNat = 0 ↔ b = 0 := by rw [← BitVec.toNat_inj]; simp
  rw [hzero]
  unfold Divides
  split
  · rename_i hb
    exact ⟨⟨fun _ => hb, fun _ => rfl⟩, ⟨nofun, False.elim⟩, fun hne => absurd hb hne⟩
  · rename_i hb
    exact ⟨⟨nofun, fun hz => absurd hz hb⟩, ⟨nofun, False.elim⟩, fun _ _ => ⟨_, rfl, h⟩⟩

/-- **Arithmetic on words is exact.** -/
theorem binary_exact (hw : 0 < w) (op : BinaryOp) (a b : BitVec w) : op.Exact a b (binary op a b) := by
  cases op with
  | add => exact ⟨_, rfl, BitVec.toInt_add a b⟩
  | sub => exact ⟨_, rfl, BitVec.toInt_sub⟩
  | mul => exact ⟨_, rfl, BitVec.toInt_mul a b⟩
  | and => exact ⟨_, rfl, fun i _ => BitVec.getLsbD_and⟩
  | or => exact ⟨_, rfl, fun i _ => BitVec.getLsbD_or⟩
  | xor => exact ⟨_, rfl, fun i _ => BitVec.getLsbD_xor⟩
  | div =>
    refine signed_exact hw fun hne => BitVec.toInt_sdiv_of_ne_or_ne a b ?_
    rw [BitVec.neg_one_eq_allOnes]
    exact not_and_or.1 hne
  | rem =>
    refine signed_exact hw fun _ => ?_
    rw [BitVec.toInt_srem]
    exact (Int.mul_tdiv_add_tmod a.toInt b.toInt).symm
  | divUn => exact unsigned_exact BitVec.toNat_udiv
  | remUn => exact unsigned_exact BitVec.toNat_umod
  | addOvf => exact fitting_exact signed_overflow BitVec.toInt_add_of_not_saddOverflow
  | subOvf => exact fitting_exact signed_overflow BitVec.toInt_sub_of_not_ssubOverflow
  | mulOvf => exact fitting_exact signed_overflow BitVec.toInt_mul_of_not_smulOverflow
  | addOvfUn =>
    refine fitting_exact ?_ fun h => ?_
    · rw [← Int.natCast_add]
      exact unsigned_overflow
    · rw [BitVec.toNat_add_of_not_uaddOverflow h, Int.natCast_add]
  | subOvfUn =>
    refine fitting_exact ?_ fun h => ?_
    · have ha := a.isLt
      rw [BitVec.usubOverflow, decide_eq_true_iff, show (2 : Int) ^ w = ((2 ^ w : Nat) : Int) by push_cast; rfl]
      omega
    · have hle : b.toNat ≤ a.toNat := by simpa [BitVec.usubOverflow] using h
      rw [BitVec.toNat_sub_of_not_usubOverflow h, Int.natCast_sub hle]
  | mulOvfUn =>
    refine fitting_exact ?_ fun h => ?_
    · rw [← Int.natCast_mul]
      exact unsigned_overflow
    · rw [BitVec.toNat_mul_of_not_umulOverflow h, Int.natCast_mul]

theorem unary_exact (op : UnaryOp) (a : BitVec w) : op.Exact a (unary op a) := by
  cases op with
  | neg => exact BitVec.toInt_neg
  | not =>
    intro i hi
    simp [unary, hi]

/-- **Shifts are exact**, for an amount that is given up to a multiple of the width. -/
theorem shift_exact (op : ShiftOp) (a : BitVec w) {k : Int} {n : Nat} (hn : n % w = (k % w).toNat) :
    op.Exact a k (shift op a n) := by
  unfold ShiftOp.Exact shift
  rw [hn]
  generalize (k % w).toNat = s
  cases op with
  | shl =>
    show (a <<< s).toInt = _
    rw [BitVec.toInt_shiftLeft, Nat.shiftLeft_eq, BitVec.toInt_eq_toNat_bmod, Int.bmod_mul_bmod]
    push_cast
    rfl
  | shr =>
    show (a.sshiftRight s).toInt = _
    rw [BitVec.toInt_sshiftRight, Int.shiftRight_eq_div_pow]
    push_cast
    rfl
  | shrUn => exact (BitVec.toNat_ushiftRight a s).trans (Nat.shiftRight_eq_div_pow _ _)

/-- **Comparisons decide relations of numbers.** -/
theorem compare_iff (c : Comparison) (a b : BitVec w) : compare c a b = true ↔ c.Relates a b := by
  cases c with
  | eq => exact beq_iff_eq.trans BitVec.toInt_inj.symm
  | neUn => exact bne_iff_ne.trans (not_congr BitVec.toNat_inj.symm)
  | gt => exact BitVec.slt_iff_toInt_lt
  | gtUn => exact BitVec.ult_iff_toNat_lt
  | ge => exact BitVec.sle_iff_toInt_le
  | geUn => exact BitVec.ule_iff_toNat_le
  | lt => exact BitVec.slt_iff_toInt_lt
  | ltUn => exact BitVec.ult_iff_toNat_lt
  | le => exact BitVec.sle_iff_toInt_le
  | leUn => exact BitVec.ule_iff_toNat_le

/-- The low half of an amount is the amount modulo every width that divides `2 ^ 32`. -/
theorem truncate_mod {k : BitVec 64} (hw : w ∣ 2 ^ 32) : (k.truncate 32).toNat % w = (k.toInt % w).toNat := by
  have hlow : (k.truncate 32).toNat % w = k.toNat % w := by
    rw [BitVec.truncate, BitVec.toNat_setWidth, Nat.mod_mod_of_dvd _ hw]
  have hsigned : k.toInt % w = (k.toNat : Int) % w := by
    have hdvd : (w : Int) ∣ ((2 ^ 64 : Nat) : Int) :=
      Int.natCast_dvd_natCast.2 (Nat.dvd_trans hw (Nat.pow_dvd_pow 2 (by decide)))
    rw [BitVec.toInt_eq_toNat_bmod, ← Int.emod_emod_of_dvd _ hdvd, Int.bmod_emod, Int.emod_emod_of_dvd _ hdvd]
  rw [hlow, hsigned, ← Int.natCast_emod, Int.toNat_natCast]

end Word

/-! ## Instructions on integers -/

/-- The instruction for each operation. -/
def BinaryOp.opcode : BinaryOp → Opcode
  | .add => .add
  | .sub => .sub
  | .mul => .mul
  | .div => .div
  | .divUn => .divUn
  | .rem => .rem
  | .remUn => .remUn
  | .and => .and
  | .or => .or
  | .xor => .xor
  | .addOvf => .addOvf
  | .addOvfUn => .addOvfUn
  | .subOvf => .subOvf
  | .subOvfUn => .subOvfUn
  | .mulOvf => .mulOvf
  | .mulOvfUn => .mulOvfUn

def ShiftOp.opcode : ShiftOp → Opcode
  | .shl => .shl
  | .shr => .shr
  | .shrUn => .shrUn

def UnaryOp.opcode : UnaryOp → Opcode
  | .neg => .neg
  | .not => .not

/-- The instructions that put the answer of a comparison on the stack. Only some relations have one. -/
def Comparison.tests : Comparison → List Opcode
  | .eq => [.ceq]
  | .gt => [.cgt]
  | .gtUn => [.cgtUn]
  | .lt => [.clt]
  | .ltUn => [.cltUn]
  | .neUn | .ge | .geUn | .le | .leUn => []

/-- The instructions that jump if a comparison holds, each with a short and a long distance. -/
def Comparison.branches : Comparison → List Opcode
  | .eq => [.beqS, .beq]
  | .neUn => [.bneUnS, .bneUn]
  | .gt => [.bgtS, .bgt]
  | .gtUn => [.bgtUnS, .bgtUn]
  | .ge => [.bgeS, .bge]
  | .geUn => [.bgeUnS, .bgeUn]
  | .lt => [.bltS, .blt]
  | .ltUn => [.bltUnS, .bltUn]
  | .le => [.bleS, .ble]
  | .leUn => [.bleUnS, .bleUn]

/-- The types of integers, each with its width and the values that it has. -/
inductive IntegerType : {w : Nat} → (BitVec w → Value) → Prop where
  | int32 : IntegerType .int32
  | int64 : IntegerType .int64
  | nativeInt : IntegerType .nativeInt

/-- The words with which an instruction computes for two operands. An operand of 32 bits beside one of native size
counts as the word of native size that stands for the same number. -/
inductive IntegerPair : {w : Nat} → (BitVec w → Value) → (x y : Value) → (a b : BitVec w) → Prop where
  | alike {w : Nat} {type : BitVec w → Value} (h : IntegerType type) (a b : BitVec w) :
      IntegerPair type (type a) (type b) a b
  | left (x : BitVec 32) (a b : BitVec 64) (h : a.toInt = x.toInt) :
      IntegerPair .nativeInt (.int32 x) (.nativeInt b) a b
  | right (a : BitVec 64) (y : BitVec 32) (b : BitVec 64) (h : b.toInt = y.toInt) :
      IntegerPair .nativeInt (.nativeInt a) (.int32 y) a b

/-- The amount of a shift, as a signed number. -/
inductive ShiftAmount : Value → Int → Prop where
  | int32 (k : BitVec 32) : ShiftAmount (.int32 k) k.toInt
  | nativeInt (k : BitVec 64) : ShiftAmount (.nativeInt k) k.toInt

/-- The widths at which instructions compute. -/
theorem IntegerType.width {w : Nat} {type : BitVec w → Value} (h : IntegerType type) : 0 < w ∧ w ∣ 2 ^ 32 := by
  cases h <;> exact ⟨by decide, by decide⟩

theorem IntegerPair.width {w : Nat} {type : BitVec w → Value} {x y : Value} {a b : BitVec w}
    (h : IntegerPair type x y a b) : 0 < w := by
  cases h with
  | alike h => exact h.width.1
  | left => decide
  | right => decide

namespace Workspace

/-- The values lie at the top of the evaluation stack, the top one first. -/
def Tops (w : Workspace) (p : Prepared) (vs : List Value) : Prop :=
  p.layout.stackBase + vs.length ≤ w.activation.top ∧
    ∀ (n : Nat) v, vs[n]? = some v → w.activation.frame.slots[w.activation.top - (n + 1)]? = some v

/-- The workspace with a value in the place of the deepest of `pops` operands. -/
def written (w : Workspace) (pops : Nat) (v : Value) : Workspace :=
  let a := w.activation
  { w with activation.frame.slots := a.frame.slots.setIfInBounds (a.top - pops) v }

/-- **The instruction puts its result in the place of its operands, or it faults**; apart from that it leaves
everything as it was. -/
def Answers (w : Workspace) (pops : Nat) (x : ExecM Next) : Except FaultKind Value → Prop
  | .ok v => x.run w = (.ok .advance, w.written pops v)
  | .error k => x.run w = (.error (.ofKind k), w)

end Workspace

namespace ExecM

variable {p : Prepared} {pc : Nat} {s : Workspace} {op : Opcode} {vs : List Value}

/-- A first line that gave a result leaves the rest to run. -/
theorem run_bind_ok {α β : Type} {x : ExecM α} {f : α → ExecM β} {a : α} {t : Workspace} (h : x.run s = (.ok a, t)) :
    (x >>= f).run s = (f a).run t := by
  rw [Meets.run_bind, h]

/-- Where an operand lies. -/
theorem operandSlot_run {n : Nat} {v : Value} (h : s.Tops p vs) (hv : vs[n]? = some v) :
    (stackSlot p n).run s = (.ok (s.activation.top - (n + 1)), s) ∧
      s.activation.frame.get (s.activation.top - (n + 1)) = .ok v := by
  have hn := (List.getElem?_eq_some_iff.1 hv).1
  have hlow : p.layout.stackBase + n + 1 ≤ s.activation.top := by have := h.1; omega
  refine ⟨?_, by rw [Frame.get, h.2 n v hv]⟩
  show (if _ then _ else _ : ExecM Nat).run s = _
  rw [if_pos hlow]
  rfl

/-- An operand that is what the reader selects can be read. -/
theorem operand_run {α : Type} {n : Nat} {v : Value} {a : α} {expected : String} {select : Value → Option α}
    (h : s.Tops p vs) (hv : vs[n]? = some v) (ha : select v = some a) :
    (do let slot ← stackSlot p n
        ofEngine ((← activation).frame.getAs slot expected select) : ExecM α).run s = (.ok a, s) :=
  have hn := (List.getElem?_eq_some_iff.1 hv).1
  getAs_run (by have := h.1; omega) (h.2 n v hv) ha

theorem operandTypes_run {ts : OperandTypes} (h : p.analysis.operandTypes? pc = some ts) :
    (operandTypes p pc).run s = (.ok ts, s) := by
  unfold operandTypes
  rw [h]
  rfl

/-- There is room for the result of an instruction that has an operand. -/
theorem result_run (pops : Nat) (h : s.Tops p vs) (hvs : vs.length = pops) (hpops : 0 < pops) (v : Value) :
    (result p pops v).run s = (.ok (), s.written pops v) := by
  subst hvs
  have hdeepest := h.2 (vs.length - 1) _ (List.getElem?_eq_getElem (by omega))
  rw [Nat.sub_add_cancel hpops] at hdeepest
  have hsize : s.activation.top - vs.length < s.activation.frame.size := (Array.getElem?_eq_some_iff.1 hdeepest).1
  have hslot : (resultSlot p vs.length).run s = (.ok (s.activation.top - vs.length), s) := by
    show (if _ then _ else _ : ExecM Nat).run s = _
    rw [if_pos h.1]
    rfl
  have hput : s.activation.frame.put (s.activation.top - vs.length) v =
      .ok (s.written vs.length v).activation.frame := if_pos hsize
  unfold result
  rw [run_bind_ok hslot]
  show (ofEngine (s.activation.frame.put _ v) >>= _ : ExecM Unit).run s = _
  rw [hput]
  rfl

variable {w : Nat} {type : BitVec w → Value} {x y : Value} {a b : BitVec w}

theorem int32At_run {n : Nat} {a : BitVec 32} (h : s.Tops p vs) (hv : vs[n]? = some (.int32 a)) :
    (int32At p n).run s = (.ok a, s) := operand_run h hv rfl

theorem int64At_run {n : Nat} {a : BitVec 64} (h : s.Tops p vs) (hv : vs[n]? = some (.int64 a)) :
    (int64At p n).run s = (.ok a, s) := operand_run h hv rfl

theorem nativeAt_run {n : Nat} {a : BitVec 64} (h : s.Tops p vs) (hv : vs[n]? = some (.nativeInt a)) :
    (nativeAt p n).run s = (.ok a, s) := operand_run h hv rfl

/-- An operand of 32 bits, read at native size, stands for the same number. -/
theorem nativeAt_run_int32 {n : Nat} {a : BitVec 64} {i : BitVec 32} (h : s.Tops p vs) (hv : vs[n]? = some (.int32 i))
    (ha : a.toInt = i.toInt) : (nativeAt p n).run s = (.ok a, s) := by
  refine operand_run h hv ?_
  show some (i.signExtend 64) = some a
  rw [Option.some.injEq, ← BitVec.toInt_inj, ha, BitVec.toInt_signExtend_of_le (by decide)]

/-- Both operands are read before anything is done with them. -/
theorem pair_run {α : Type} (read : Nat → ExecM (BitVec w)) (ha : (read 1).run s = (.ok a, s))
    (hb : (read 0).run s = (.ok b, s)) (f : BitVec w → BitVec w → ExecM α) :
    (read 1 >>= fun a => read 0 >>= fun b => f a b).run s = (f a b).run s := by
  rw [run_bind_ok ha, run_bind_ok hb]

theorem binaryResult_run (hxy : IntegerPair type x y a b) (h : s.Tops p [y, x])
    (ht : p.analysis.operandTypes? pc = OperandTypes.pair? x.stackType y.stackType) (o : BinaryOp) :
    (binaryResult p pc op o).run s = (ofFault ((Word.binary o a b).map type)).run s := by
  have hlift : (ofFault (Word.binary o a b) >>= fun c => pure (type c) : ExecM Value).run s =
      (ofFault ((Word.binary o a b).map type)).run s := by
    cases Word.binary o a b <;> rfl
  unfold binaryResult
  rw [← hlift]
  cases hxy with
  | alike hi =>
    cases hi <;> rw [run_bind_ok (operandTypes_run ht)]
    case int32 => exact pair_run (int32At p) (int32At_run h rfl) (int32At_run h rfl) _
    case int64 => exact pair_run (int64At p) (int64At_run h rfl) (int64At_run h rfl) _
    case nativeInt => exact pair_run (nativeAt p) (nativeAt_run h rfl) (nativeAt_run h rfl) _
  | left i _ _ hi =>
    rw [run_bind_ok (operandTypes_run ht)]
    exact pair_run (nativeAt p) (nativeAt_run_int32 h rfl hi) (nativeAt_run h rfl) _
  | right _ i _ hi =>
    rw [run_bind_ok (operandTypes_run ht)]
    exact pair_run (nativeAt p) (nativeAt_run h rfl) (nativeAt_run_int32 h rfl hi) _

theorem compareTop_run (hxy : IntegerPair type x y a b) (h : s.Tops p [y, x])
    (ht : p.analysis.operandTypes? pc = OperandTypes.pair? x.stackType y.stackType) (c : Comparison) :
    (compareTop p pc op c).run s = (.ok (Word.compare c a b), s) := by
  unfold compareTop
  cases hxy with
  | alike hi =>
    cases hi <;> rw [run_bind_ok (operandTypes_run ht)]
    case int32 => exact (pair_run (int32At p) (int32At_run h rfl) (int32At_run h rfl) _).trans (by rfl)
    case int64 => exact (pair_run (int64At p) (int64At_run h rfl) (int64At_run h rfl) _).trans (by rfl)
    case nativeInt => exact (pair_run (nativeAt p) (nativeAt_run h rfl) (nativeAt_run h rfl) _).trans (by rfl)
  | left i _ _ hi =>
    rw [run_bind_ok (operandTypes_run ht)]
    exact (pair_run (nativeAt p) (nativeAt_run_int32 h rfl hi) (nativeAt_run h rfl) _).trans (by rfl)
  | right _ i _ hi =>
    rw [run_bind_ok (operandTypes_run ht)]
    exact (pair_run (nativeAt p) (nativeAt_run h rfl) (nativeAt_run_int32 h rfl hi) _).trans (by rfl)

/-- The low half of an amount, whatever its type. -/
theorem amount_run {k : Int} (hw : w ∣ 2 ^ 32) (hk : ShiftAmount y k) {n : Nat} (h : s.Tops p vs)
    (hv : vs[n]? = some y) : ∃ i : BitVec 64, (nativeAt p n).run s = (.ok i, s) ∧
      (i.truncate 32).toNat % w = (k % w).toNat := by
  cases hk with
  | int32 i =>
    have hi : (i.signExtend 64).toInt = i.toInt := BitVec.toInt_signExtend_of_le (by decide)
    exact ⟨_, nativeAt_run_int32 h hv hi, (Word.truncate_mod hw).trans (by rw [hi])⟩
  | nativeInt i => exact ⟨i, nativeAt_run h hv, Word.truncate_mod hw⟩

theorem binary_answers (hxy : IntegerPair type x y a b) (h : s.Tops p [y, x])
    (ht : p.analysis.operandTypes? pc = OperandTypes.pair? x.stackType y.stackType) (o : BinaryOp) :
    s.Answers 2 (binary p pc op o) ((Word.binary o a b).map type) := by
  have hrun : (binaryResult p pc op o).run s = _ := binaryResult_run hxy h ht o
  generalize (Word.binary o a b).map type = r at hrun ⊢
  unfold binary
  cases r with
  | ok v =>
    show (binaryResult p pc op o >>= _).run s = _
    rw [run_bind_ok hrun, run_bind_ok (result_run 2 h rfl Nat.two_pos v)]
    rfl
  | error k =>
    show (binaryResult p pc op o >>= _).run s = _
    rw [Meets.run_bind, hrun]
    rfl

theorem unary_answers (hi : IntegerType type) (h : s.Tops p [type a])
    (ht : p.analysis.operandTypes? pc = some (.single (type a).stackType)) (o : UnaryOp) :
    s.Answers 1 (unary p pc op o) (.ok (type (Word.unary o a))) := by
  have hwrite := result_run 1 h rfl Nat.one_pos (type (Word.unary o a))
  show (unary p pc op o).run s = _
  unfold unary
  rw [run_bind_ok (operandTypes_run ht)]
  cases hi with
  | int32 => cases o <;> exact (run_bind_ok (int32At_run h rfl)).trans (run_bind_ok hwrite)
  | int64 => cases o <;> exact (run_bind_ok (int64At_run h rfl)).trans (run_bind_ok hwrite)
  | nativeInt => cases o <;> exact (run_bind_ok (nativeAt_run h rfl)).trans (run_bind_ok hwrite)

theorem shift_answers (op : Opcode) {k : Int} (hi : IntegerType type) (hk : ShiftAmount y k) (h : s.Tops p [y, type a])
    (ht : p.analysis.operandTypes? pc = OperandTypes.pair? (type a).stackType y.stackType) (o : ShiftOp) :
    ∃ n, n % w = (k % w).toNat ∧ s.Answers 2 (shift p pc op o) (.ok (type (Word.shift o a n))) := by
  obtain ⟨i, hrun, hn⟩ := amount_run hi.width.2 hk h (n := 0) rfl
  have hwrite := result_run 2 h rfl Nat.two_pos (type (Word.shift o a (i.truncate 32).toNat))
  have hpair : ∃ ts, OperandTypes.pair? (type a).stackType y.stackType = some ts := by
    cases hi <;> cases hk <;> exact ⟨_, rfl⟩
  obtain ⟨ts, hts⟩ := hpair
  have hleft := (OperandTypes.left_right_of_pair? hts).1
  refine ⟨_, hn, ?_⟩
  show (shift p pc op o).run s = _
  unfold shift
  rw [run_bind_ok (operandTypes_run (ht.trans hts)), run_bind_ok hrun, hleft]
  cases hi with
  | int32 => exact (run_bind_ok (int32At_run h rfl)).trans (run_bind_ok hwrite)
  | int64 => exact (run_bind_ok (int64At_run h rfl)).trans (run_bind_ok hwrite)
  | nativeInt => exact (run_bind_ok (nativeAt_run h rfl)).trans (run_bind_ok hwrite)

theorem compare_answers (hxy : IntegerPair type x y a b) (h : s.Tops p [y, x])
    (ht : p.analysis.operandTypes? pc = OperandTypes.pair? x.stackType y.stackType) (c : Comparison) :
    s.Answers 2 (compare p pc op c) (.ok (.int32 (if Word.compare c a b then 1 else 0))) := by
  show (compare p pc op c).run s = _
  unfold compare
  rw [run_bind_ok (compareTop_run hxy h ht c), run_bind_ok (result_run 2 h rfl Nat.two_pos _)]
  rfl

theorem jumpCompare_run {target : Nat} (hxy : IntegerPair type x y a b) (h : s.Tops p [y, x])
    (ht : p.analysis.operandTypes? pc = OperandTypes.pair? x.stackType y.stackType)
    (hb : p.code.branchTarget pc = .ok target) (c : Comparison) : ∃ trace, (jumpCompare p pc op c).run s =
      (.ok (if Word.compare c a b then .jump target else .advance), { s with machine.trace := trace }) := by
  unfold jumpCompare jumpIf
  rw [run_bind_ok (compareTop_run hxy h ht c), hb]
  exact ⟨_, rfl⟩

end ExecM

/-- **Integer instructions are exact.** With two integers at the top of the stack, or one, and the annotation that the
analysis makes for them, an arithmetic or logic instruction, a shift by any amount and a comparison put in their place
the result that `Exact` and `Relates` describe, or raise the fault that they describe, and do nothing else; a branch
jumps if its relation holds. An operand of 32 bits beside one of native size counts by its number. -/
theorem ExecM.integer_instructions_exact {p : Prepared} {pc : Nat} {s : Workspace} :
    (∀ (o : BinaryOp) {w : Nat} {type : BitVec w → Value} {x y : Value} {a b : BitVec w}, IntegerPair type x y a b →
      s.Tops p [y, x] → p.analysis.operandTypes? pc = OperandTypes.pair? x.stackType y.stackType →
      ∃ r, o.Exact a b r ∧ s.Answers 2 (instruction p pc o.opcode) (r.map type)) ∧
    (∀ (o : UnaryOp) {w : Nat} {type : BitVec w → Value} {a : BitVec w}, IntegerType type → s.Tops p [type a] →
      p.analysis.operandTypes? pc = some (.single (type a).stackType) →
      ∃ c, o.Exact a c ∧ s.Answers 1 (instruction p pc o.opcode) (.ok (type c))) ∧
    (∀ (o : ShiftOp) {w : Nat} {type : BitVec w → Value} {a : BitVec w} {y : Value} {k : Int}, IntegerType type →
      ShiftAmount y k → s.Tops p [y, type a] →
      p.analysis.operandTypes? pc = OperandTypes.pair? (type a).stackType y.stackType →
      ∃ c, o.Exact a k c ∧ s.Answers 2 (instruction p pc o.opcode) (.ok (type c))) ∧
    ∀ (c : Comparison) {w : Nat} {type : BitVec w → Value} {x y : Value} {a b : BitVec w}, IntegerPair type x y a b →
      s.Tops p [y, x] → p.analysis.operandTypes? pc = OperandTypes.pair? x.stackType y.stackType →
      (∀ op ∈ c.tests, s.Answers 2 (instruction p pc op) (.ok (.int32 (if c.Relates a b then 1 else 0)))) ∧
      ∀ op ∈ c.branches, ∀ target, p.code.branchTarget pc = .ok target → ∃ trace, (instruction p pc op).run s =
        (.ok (if c.Relates a b then .jump target else .advance), { s with machine.trace := trace }) := by
  refine ⟨fun o w type x y a b hxy h ht => ?_, fun o w type a hi h ht => ?_, fun o w type a y k hi hk h ht => ?_, ?_⟩
  · refine ⟨Word.binary o a b, Word.binary_exact hxy.width o a b, ?_⟩
    have haction : o.opcode.action = .binary o := by cases o <;> rfl
    unfold instruction
    rw [haction]
    exact binary_answers hxy h ht o
  · refine ⟨Word.unary o a, Word.unary_exact o a, ?_⟩
    have haction : o.opcode.action = .unary o := by cases o <;> rfl
    unfold instruction
    rw [haction]
    exact unary_answers hi h ht o
  · obtain ⟨n, hn, hanswers⟩ := shift_answers o.opcode hi hk h ht o
    refine ⟨Word.shift o a n, Word.shift_exact o a hn, ?_⟩
    have haction : o.opcode.action = .shift o := by cases o <;> rfl
    unfold instruction
    rw [haction]
    exact hanswers
  · intro c w type x y a b hxy h ht
    simp only [← Word.compare_iff]
    refine ⟨fun op hop => ?_, fun op hop target hb => ?_⟩
    · have haction : op.action = .compare c := by
        cases c <;> revert hop <;> revert op <;> decide
      unfold instruction
      rw [haction]
      exact compare_answers hxy h ht c
    · have haction : op.action = .jumpCompare c := by
        cases c <;> revert hop <;> revert op <;> decide
      unfold instruction
      rw [haction]
      exact jumpCompare_run hxy h ht hb c

/-- The least number of native size with minus one of 32 bits above it, at the instruction that the annotation is of. -/
def leastOverMinusOne : Workspace where
  machine := {}
  activation :=
    { method := ⟨1⟩, frame := ⟨⟨1⟩, ⟨0, 0, 2⟩, #[.nativeInt (BitVec.intMin 64), .int32 (-1)]⟩, top := 2, pc := 0
      depth := 1 }

/-- A method whose first instruction has these operands. -/
def dividesMixed : Prepared :=
  { (default : Prepared) with
    layout := ⟨0, 0, 2⟩
    analysis := { starts := #[true], depths := #[some 2], types := #[some .nativeIntInt32] } }

/-- The divisor counts as minus one at native size too, so that the quotient overflows. -/
theorem ExecM.dividesMixed_overflows :
    IntegerPair .nativeInt (.nativeInt (BitVec.intMin 64)) (.int32 (-1)) (BitVec.intMin 64) (-1) ∧
    leastOverMinusOne.Tops dividesMixed [.int32 (-1), .nativeInt (BitVec.intMin 64)] ∧
    dividesMixed.analysis.operandTypes? 0 = OperandTypes.pair? .nativeInt .int32 ∧
    leastOverMinusOne.Answers 2 (instruction dividesMixed 0 .div) (.error .overflow) := by
  have hpair : IntegerPair .nativeInt (.nativeInt (BitVec.intMin 64)) (.int32 (-1)) (BitVec.intMin 64) (-1) :=
    .right _ _ _ (by decide)
  have htops : leastOverMinusOne.Tops dividesMixed [.int32 (-1), .nativeInt (BitVec.intMin 64)] := by
    refine ⟨by decide, fun n v hv => ?_⟩
    match n, hv with
    | 0, hv => exact hv
    | 1, hv => exact hv
  have hannotated : dividesMixed.analysis.operandTypes? 0 = OperandTypes.pair? .nativeInt .int32 := rfl
  obtain ⟨r, hexact, hanswers⟩ := integer_instructions_exact.1 .div hpair htops hannotated
  have hr : r = .error .overflow := hexact.2.1.2 ⟨by decide, by decide⟩
  subst hr
  exact ⟨hpair, htops, hannotated, hanswers⟩

end ManagedCode
