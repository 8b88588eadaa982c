import ManagedCode.Proofs.Encoding
import ManagedCode.Proofs.Integers

/-!
# Integer conversions are exact

A conversion to an integer reads a number from its source. With a check, the number itself is the result, or the
conversion overflows; without one, the result is the number of the target's range that is congruent to it. Which numbers
a target has, and how a source is read, is said here once for all thirty instructions; their mnemonics tell which
conversion each of them is.
-/

namespace ManagedCode

/-! ## What a conversion means -/

/-- `i` is the number between two bounds that is congruent to `n` modulo `2 ^ m`. -/
def IsResidue (low high : Int) (m : Nat) (n i : Int) : Prop := low ≤ i ∧ i ≤ high ∧ i % 2 ^ m = n % 2 ^ m

namespace ConversionTarget

/-- The name of a target in mnemonics. -/
def text : ConversionTarget → String
  | .i1 => "i1"
  | .u1 => "u1"
  | .i2 => "i2"
  | .u2 => "u2"
  | .i4 => "i4"
  | .u4 => "u4"
  | .i8 => "i8"
  | .u8 => "u8"
  | .i => "i"
  | .u => "u"
  | .r4 => "r4"
  | .r8 => "r8"
  | .real => "r"

def isSigned : ConversionTarget → Bool
  | .i1 | .i2 | .i4 | .i8 | .i => true
  | _ => false

/-- The width of an integer target. -/
def bits : ConversionTarget → Nat
  | .i1 | .u1 => 8
  | .i2 | .u2 => 16
  | .i4 | .u4 => 32
  | _ => 64

/-- The least number of an integer target. -/
def low (t : ConversionTarget) : Int := if t.isSigned then -2 ^ (t.bits - 1) else 0

/-- The greatest number of an integer target. -/
def high (t : ConversionTarget) : Int := if t.isSigned then 2 ^ (t.bits - 1) - 1 else 2 ^ t.bits - 1

/-- The number that a value stands for, all of it read with the sign rule of the target. -/
def number (t : ConversionTarget) : Value → Int
  | .int32 x => if t.isSigned then x.toInt else x.toNat
  | .int64 x | .nativeInt x => if t.isSigned then x.toInt else x.toNat
  | _ => 0

end ConversionTarget

namespace Conversion

/-- The mnemonic of a conversion. -/
def mnemonic (c : Conversion) : String :=
  "conv." ++ (if c.checked then "ovf." else "") ++ c.target.text ++ if c.unsignedSource then ".un" else ""

/-- The number that a conversion reads from an integer: unsigned in the forms that say so, and where an operand of 32
bits is widened to an unsigned number without a check. -/
inductive Source (c : Conversion) : Value → Int → Prop where
  | int32 (x : BitVec 32) : Source c (.int32 x)
      (if c.unsignedSource = true ∨ c.checked = false ∧ (c.target = .u8 ∨ c.target = .u) then x.toNat else x.toInt)
  | int64 (x : BitVec 64) : Source c (.int64 x) (if c.unsignedSource then x.toNat else x.toInt)
  | nativeInt (x : BitVec 64) : Source c (.nativeInt x) (if c.unsignedSource then x.toNat else x.toInt)

/-- **What a conversion of a number answers.** A result is of the type that the analysis gives it. With a check it is
the number, which has to be one of the target's; without one there is always a result, and it is the number of the
target that is congruent to the source. -/
def Exact (c : Conversion) (n : Int) (r : Except FaultKind Value) : Prop :=
  (∀ v, r = .ok v → v.stackType = Analysis.conversionResult c.target) ∧
    if c.checked then FitsRange c.target.low c.target.high n c.target.number r
    else ∃ v, r = .ok v ∧ IsResidue c.target.low c.target.high c.target.bits n (c.target.number v)

end Conversion

/-! ## Conversions of numbers -/

namespace ConversionTarget

variable {t : ConversionTarget}

theorem range_eq (ht : t.isReal = false) : t.range = (t.low, t.high) := by
  cases t <;> first | rfl | cases ht

/-- A word, read as signed, is the signed residue of the number that was written. -/
theorem signed_residue (m : Nat) (n : Int) :
    IsResidue (-2 ^ (m - 1)) (2 ^ (m - 1) - 1) m n (BitVec.ofInt m n).toInt := by
  refine ⟨BitVec.le_toInt _, Int.le_sub_one_of_lt BitVec.toInt_lt, ?_⟩
  rw [BitVec.toInt_ofInt, show (2 : Int) ^ m = ((2 ^ m : Nat) : Int) by push_cast; rfl, Int.bmod_emod]

/-- A word, read as unsigned, is the unsigned residue of the number that was written. -/
theorem unsigned_residue (m : Nat) (n : Int) : IsResidue 0 (2 ^ m - 1) m n (BitVec.ofInt m n).toNat := by
  have hpow : (2 : Int) ^ m = ((2 ^ m : Nat) : Int) := by push_cast; rfl
  have hpos : (0 : Int) < ((2 ^ m : Nat) : Int) := Int.natCast_pos.2 (Nat.two_pow_pos m)
  have hnonneg := Int.emod_nonneg n (Int.ne_of_gt hpos)
  rw [IsResidue, BitVec.toNat_ofInt, Int.toNat_of_nonneg hnonneg, hpow]
  exact ⟨hnonneg, Int.le_sub_one_of_lt (Int.emod_lt_of_pos _ hpos), Int.emod_emod _ _⟩

/-- Widening with the sign keeps the signed number. -/
theorem signed_widened {m w : Nat} (h : m ≤ w) (n : Int) :
    IsResidue (-2 ^ (m - 1)) (2 ^ (m - 1) - 1) m n ((BitVec.ofInt m n).signExtend w).toInt := by
  rw [BitVec.toInt_signExtend_of_le h]
  exact signed_residue m n

/-- Widening with zeros keeps the unsigned number. -/
theorem unsigned_widened {m w : Nat} (h : m ≤ w) (n : Int) :
    IsResidue 0 (2 ^ m - 1) m n ((BitVec.ofInt m n).zeroExtend w).toNat := by
  rw [BitVec.zeroExtend, BitVec.toNat_setWidth_of_le h]
  exact unsigned_residue m n

/-- **What is written for a number** is of the type that the analysis gives a conversion, and stands for the number of
the target that is congruent. -/
theorem write_exact (ht : t.isReal = false) (n : Int) : (t.write n).stackType = Analysis.conversionResult t ∧
    IsResidue t.low t.high t.bits n (t.number (t.write n)) := by
  cases t with
  | i1 => exact ⟨rfl, signed_widened (m := 8) (w := 32) (by decide) n⟩
  | u1 => exact ⟨rfl, unsigned_widened (m := 8) (w := 32) (by decide) n⟩
  | i2 => exact ⟨rfl, signed_widened (m := 16) (w := 32) (by decide) n⟩
  | u2 => exact ⟨rfl, unsigned_widened (m := 16) (w := 32) (by decide) n⟩
  | i4 => exact ⟨rfl, signed_residue 32 n⟩
  | u4 => exact ⟨rfl, unsigned_residue 32 n⟩
  | i8 => exact ⟨rfl, signed_residue 64 n⟩
  | u8 => exact ⟨rfl, unsigned_residue 64 n⟩
  | i => exact ⟨rfl, signed_residue 64 n⟩
  | u => exact ⟨rfl, unsigned_residue 64 n⟩
  | r4 => cases ht
  | r8 => cases ht
  | real => cases ht

/-- A number of the target is its own residue. -/
theorem eq_of_isResidue {i n : Int} (hi : IsResidue t.low t.high t.bits n i) (hn : t.low ≤ n ∧ n ≤ t.high) : i = n := by
  obtain ⟨hlow, hhigh, h⟩ := hi
  have hwidth : t.high - t.low < 2 ^ t.bits := by
    cases t <;> decide
  have hdvd : (2 : Int) ^ t.bits ∣ i - n := Int.dvd_of_emod_eq_zero (Int.emod_eq_emod_iff_emod_sub_eq_zero.1 h)
  refine Int.sub_eq_zero.1 (Int.eq_zero_of_dvd_of_natAbs_lt_natAbs hdvd ?_)
  omega

end ConversionTarget

namespace Conversion

variable {c : Conversion}

theorem ofNumber_exact (hc : c.target.isReal = false) (n : Int) : c.Exact n (c.ofNumber n) := by
  obtain ⟨htype, hresidue⟩ := ConversionTarget.write_exact hc n
  have hfails : (c.checked && !c.target.isReal && (n < c.target.range.1 || c.target.range.2 < n : Bool)) = true ↔
      c.checked = true ∧ ¬ (c.target.low ≤ n ∧ n ≤ c.target.high) := by
    rw [ConversionTarget.range_eq hc, hc]
    simp only [Bool.not_false, Bool.and_true, Bool.and_eq_true, Bool.or_eq_true, decide_eq_true_iff,
      Classical.not_and_iff_not_or_not, Int.not_le]
  unfold ofNumber Exact
  by_cases hf : c.checked = true ∧ ¬ (c.target.low ≤ n ∧ n ≤ c.target.high)
  · rw [if_pos (hfails.2 hf), if_pos hf.1]
    exact ⟨nofun, by rw [FitsRange, if_neg hf.2]⟩
  · rw [if_neg (mt hfails.1 hf)]
    refine ⟨fun v hv => by cases hv; exact htype, ?_⟩
    split
    · rename_i hchecked
      have hn : c.target.low ≤ n ∧ n ≤ c.target.high := not_not.1 fun hn => hf ⟨hchecked, hn⟩
      rw [FitsRange, if_pos hn]
      exact ⟨_, rfl, ConversionTarget.eq_of_isResidue hresidue hn⟩
    · exact ⟨_, rfl, hresidue⟩

/-- A conversion of an integer is one of the number that it reads. -/
theorem apply_eq {v : Value} {n : Int} (h : c.Source v n) : c.apply v = (c.ofNumber n).mapError Trap.ofKind := by
  cases h with
  | int32 x =>
    have hread : read c.zeroExtends x =
        if c.unsignedSource = true ∨ c.checked = false ∧ (c.target = .u8 ∨ c.target = .u) then (x.toNat : Int)
        else x.toInt := by
      simp [read, zeroExtends]
    rw [← hread]
    rfl
  | int64 => rfl
  | nativeInt => rfl

/-- All conversions to integers. -/
def integral : List Conversion :=
  [ConversionTarget.i1, .u1, .i2, .u2, .i4, .u4, .i8, .u8, .i, .u].flatMap fun t =>
    [⟨t, false, false⟩, ⟨t, true, false⟩, ⟨t, false, true⟩, ⟨t, true, true⟩]

theorem mem_integral (hc : c.target.isReal = false) : c ∈ integral := by
  obtain ⟨t, checked, unsignedSource⟩ := c
  cases t <;> cases checked <;> cases unsignedSource <;> first | decide | cases hc

/-- **An instruction with the mnemonic of a conversion to an integer does that conversion.** -/
theorem action_of_mnemonic {op : Opcode} (hc : c.target.isReal = false) (hop : op.mnemonic = c.mnemonic) :
    op.action = .convert c := by
  have htable : (Opcode.all.all fun op => integral.all fun c =>
      op.mnemonic != c.mnemonic || op.action == .convert c) = true := by decide +kernel
  have hrow := List.all_eq_true.1 (List.all_eq_true.1 htable op (Opcode.mem_all op)) c (mem_integral hc)
  simpa [hop] using hrow

end Conversion

/-- An operand is what lies at its place. -/
theorem ExecM.peek_run {p : Prepared} {s : Workspace} {vs : List Value} {n : Nat} {v : Value} (h : s.Tops p vs)
    (hv : vs[n]? = some v) : (peek p n).run s = (.ok v, s) := by
  obtain ⟨hslot, hget⟩ := operandSlot_run h hv
  unfold peek
  rw [run_bind_ok hslot]
  show (ofEngine (s.activation.frame.get _)).run s = _
  rw [hget]
  rfl

/-- **Conversions to integers are exact.** With an integer at the top of the stack, the instruction with the mnemonic of
a conversion puts in its place the result that `Conversion.Exact` describes of the number that the conversion reads, or
overflows as described, and does nothing else. -/
theorem ExecM.integer_conversions_exact {p : Prepared} {pc : Nat} {s : Workspace} {op : Opcode} {c : Conversion}
    {v : Value} {n : Int} (hop : op.mnemonic = c.mnemonic) (hc : c.target.isReal = false) (hv : c.Source v n)
    (h : s.Tops p [v]) : ∃ r, c.Exact n r ∧ s.Answers 1 (instruction p pc op) r := by
  refine ⟨c.ofNumber n, Conversion.ofNumber_exact hc n, ?_⟩
  have hinstruction : instruction p pc op = convert p c := by
    unfold instruction
    rw [Conversion.action_of_mnemonic hc hop]
  have hpeek : (peek p 0).run s = (.ok v, s) := peek_run h rfl
  rw [hinstruction]
  have hrun : (convert p c).run s = _ := run_bind_ok hpeek
  rw [Conversion.apply_eq hv] at hrun
  cases hr : c.ofNumber n with
  | error k =>
    rw [hr] at hrun
    exact hrun
  | ok u =>
    rw [hr] at hrun
    exact hrun.trans (run_bind_ok (result_run 1 h rfl Nat.one_pos u))

/-- Minus one of 32 bits at the top of the stack. -/
def minusOneOnTop : Workspace where
  machine := {}
  activation := { method := ⟨1⟩, frame := ⟨⟨1⟩, ⟨0, 0, 1⟩, #[.int32 (-1)]⟩, top := 1, pc := 0, depth := 1 }

/-- Widened without a sign, minus one of 32 bits becomes the greatest unsigned number of 32 bits. -/
theorem ExecM.minusOne_widens : Opcode.convU8.mnemonic = (Conversion.mk .u8 false false).mnemonic ∧
    (Conversion.mk .u8 false false).Source (.int32 (-1)) (2 ^ 32 - 1) ∧ minusOneOnTop.Tops default [.int32 (-1)] ∧
    ∃ x : BitVec 64, x.toNat = 2 ^ 32 - 1 ∧
      minusOneOnTop.Answers 1 (instruction default 0 .convU8) (.ok (.int64 x)) := by
  have hop : Opcode.convU8.mnemonic = (Conversion.mk .u8 false false).mnemonic := by decide
  have hsource : (Conversion.mk .u8 false false).Source (.int32 (-1)) (2 ^ 32 - 1) := .int32 (-1)
  have htops : minusOneOnTop.Tops default [.int32 (-1)] := by
    refine ⟨by decide, fun n v hv => ?_⟩
    match n, hv with
    | 0, hv => exact hv
  obtain ⟨r, ⟨htype, v, rfl, hresidue⟩, hanswers⟩ : ∃ r, (Conversion.mk .u8 false false).Exact (2 ^ 32 - 1) r ∧
      minusOneOnTop.Answers 1 (instruction default 0 .convU8) r := integer_conversions_exact hop rfl hsource htops
  refine ⟨hop, hsource, htops, ?_⟩
  have hnumber : ConversionTarget.u8.number v = 2 ^ 32 - 1 :=
    ConversionTarget.eq_of_isResidue hresidue (by decide)
  cases v <;> cases htype _ rfl
  exact ⟨_, Int.ofNat_inj.1 hnumber, hanswers⟩

end ManagedCode
