import ManagedCode.Proofs.Arguments
import ManagedCode.Proofs.Conversions
import ManagedCode.Proofs.Endings

/-!
# Storing and converting narrow alike

A conversion reads the number that its source stands for and writes it in the width of the target; a location widens
what it is given to 64 bits and keeps the low ones. For a number that is read with its sign the two are the same
(`Conversion.apply_eq_coerce`). What a location has narrowed it does not narrow further (`Kind.coerce_coerce`), so the
heap, which narrows once more what the machine has narrowed for it, stores it as it is
(`HeapTrapM.normalize_narrow`).
-/

namespace ManagedCode

namespace Word

/-- The low bits of the number that a word stands for are those of the word. -/
theorem ofInt_toInt_of_le {m w : Nat} (x : BitVec w) (h : m ≤ w) : BitVec.ofInt m x.toInt = x.setWidth m := by
  rw [← setWidth_ofInt x.toInt h, BitVec.ofInt_toInt]

end Word

namespace Kind

/-- The target of the conversion that narrows as a location of the kind does. The two widest unsigned kinds have none:
their conversions read 32 bits without a sign. -/
def target? : Kind → Option ConversionTarget
  | .i1 => some .i1
  | .u1 => some .u1
  | .i2 => some .i2
  | .u2 => some .u2
  | .i4 => some .i4
  | .u4 => some .u4
  | .i8 => some .i8
  | .i => some .i
  | _ => none

variable {k : Kind} {t : ConversionTarget} {v w : Value} {b : BitVec 64}

/-- A kind and its target have one name. -/
theorem text_of_target? {name : String} (hname : (name, k) ∈ names) (ht : k.target? = some t) : t.text = name := by
  have hall : ∀ p ∈ names, p.2.target?.all (·.text == p.1) = true := by decide
  simpa [ht] using hall _ hname

/-- **The number that 64 bits stand for is written as these bits are stored.** -/
theorem coerce_eq_write (ht : k.target? = some t) (hv : v.bits? = some b) : k.coerce v = some (t.write b.toInt) := by
  cases k
  all_goals try cases ht
  all_goals simp [coerce, hv, ConversionTarget.write, Word.ofInt_toInt_of_le]

/-- A location of an integer kind takes nothing but integers. -/
theorem bits_of_coerce (hk : k.isInteger = true) (h : k.coerce v = some w) : ∃ b, v.bits? = some b := by
  have hmap : ∀ {f : BitVec 64 → Value}, v.bits?.map f = some w → ∃ b, v.bits? = some b := by
    intro f hf
    obtain ⟨b, hb, -⟩ := Option.map_eq_some_iff.1 hf
    exact ⟨b, hb⟩
  cases k <;> first | exact hmap h | cases hk

/-- **Narrowing twice is narrowing once**, for every kind but the one that rounds. -/
theorem coerce_coerce (hk : k ≠ .r4) (h : k.coerce v = some w) : k.coerce w = some w := by
  by_cases hinteger : k.isInteger = true
  · obtain ⟨b, hb⟩ := bits_of_coerce hinteger h
    obtain ⟨w', _, hw', hagain, -⟩ := coerce_bits hinteger hb
    cases h.symm.trans hw'
    exact hagain
  · -- what is no integer is stored as it is
    cases k with
    | r8 | object | struct | byRef => cases v <;> cases h <;> rfl
    | r4 => exact absurd rfl hk
    | _ => exact absurd rfl hinteger

end Kind

/-- **A conversion without a check does to an integer what a location of its kind does.** -/
theorem Conversion.apply_eq_coerce {k : Kind} {t : ConversionTarget} {v : Value} {b : BitVec 64}
    (ht : k.target? = some t) (hv : v.bits? = some b) :
    ∃ w, (Conversion.mk t false false).apply v = .ok w ∧ k.coerce v = some w := by
  have hsource : (Conversion.mk t false false).Source v b.toInt := by
    have hsigned : ¬ (false = true ∨ false = false ∧ (t = .u8 ∨ t = .u)) := by
      cases k <;> cases ht <;> decide
    cases v with
    | int32 x =>
      cases hv
      have h := Source.int32 (c := Conversion.mk t false false) x
      rw [if_neg hsigned] at h
      rwa [BitVec.toInt_signExtend_of_le (by decide)]
    | int64 => cases hv; exact .int64 _
    | nativeInt => cases hv; exact .nativeInt _
    | _ => cases hv
  exact ⟨t.write b.toInt, apply_eq hsource, Kind.coerce_eq_write ht hv⟩

/-- **What the machine narrowed for a location is stored as it is**: the heap, which narrows it again, changes
nothing. -/
theorem HeapTrapM.normalize_narrow {k : Kind} (hk : k ≠ .r4) (slot : Nat) (v : Value) :
    (normalize slot k v >>= fun w => ofHeap (Heap.narrow k w)) = normalize slot k v := by
  have hcoerced : ∀ u, (coerced slot k u >>= fun w => ofHeap (Heap.narrow k w)) = coerced slot k u := by
    intro u
    unfold coerced
    cases hu : k.coerce u with
    | none => rfl
    | some w =>
      show ofHeap (Heap.narrow k w) = pure w
      rw [Heap.narrow, Kind.coerce_coerce hk hu]
      rfl
  rw [normalize_eq]
  split
  · rw [bind_assoc]
    exact congrArg _ (funext hcoerced)
  · exact hcoerced v

/-- The result of a conversion takes the place of its operand. -/
theorem ExecM.convert_answers {p : Prepared} {s : Workspace} {c : Conversion} {v w : Value} (h : s.Tops p [v])
    (hw : c.apply v = .ok w) : s.Answers 1 (convert p c) (.ok w) := by
  have hrun : (convert p c).run s = _ := run_bind_ok (peek_run h rfl)
  rw [hw] at hrun
  exact hrun.trans (run_bind_ok (result_run 1 h rfl Nat.one_pos w))

/-- **Storing and converting narrow alike.** With an integer at the top of the stack, the conversion that has the name
of a kind puts in its place what a location of the kind makes of it. Unless it rounds, a kind leaves alone what it
narrowed before; so what the machine narrows for a location and the heap once more is narrowed once. -/
theorem conversions_narrow_as_stores :
    (∀ (k : Kind) (name : String) (op : Opcode) (p : Prepared) (pc : Nat) (s : Workspace) (v : Value),
      k ∈ [Kind.i1, .u1, .i2, .u2, .i4, .u4, .i8, .i] → (name, k) ∈ Kind.names → op.mnemonic = "conv." ++ name →
      v.stackType ∈ [StackType.int32, .int64, .nativeInt] → s.Tops p [v] →
      ∃ w, k.coerce v = some w ∧ s.Answers 1 (ExecM.instruction p pc op) (.ok w)) ∧
    ∀ k : Kind, k ≠ .r4 → (∀ v w, k.coerce v = some w → k.coerce w = some w) ∧
      ∀ slot v, (HeapTrapM.normalize slot k v >>= fun w => HeapTrapM.ofHeap (Heap.narrow k w)) =
        HeapTrapM.normalize slot k v := by
  refine ⟨fun k name op p pc s v hk hname hop hv h => ?_, fun k hk => ⟨fun v w => Kind.coerce_coerce hk,
    HeapTrapM.normalize_narrow hk⟩⟩
  have htarget : ∀ k ∈ [Kind.i1, .u1, .i2, .u2, .i4, .u4, .i8, .i], k.target?.isSome = true := by decide
  obtain ⟨t, ht⟩ := Option.isSome_iff_exists.1 (htarget k hk)
  obtain ⟨b, hb⟩ : ∃ b, v.bits? = some b := by
    cases v <;> first | exact ⟨_, rfl⟩ | simp [Value.stackType] at hv
  obtain ⟨w, hw, hcoerce⟩ := Conversion.apply_eq_coerce ht hb
  have hreal : t.isReal = false := by
    cases k <;> cases ht <;> rfl
  have hmnemonic : op.mnemonic = (Conversion.mk t false false).mnemonic := by
    rw [hop, ← Kind.text_of_target? hname ht]
    simp [Conversion.mnemonic]
  refine ⟨w, hcoerce, ?_⟩
  rw [ExecM.instruction, Conversion.action_of_mnemonic hreal hmnemonic]
  exact ExecM.convert_answers h hw

/-- Minus one of 32 bits becomes 255 as an unsigned byte, by the conversion and in a location, where it stays so. -/
theorem minusOne_narrows : Opcode.convU1.mnemonic = "conv." ++ "u1" ∧ minusOneOnTop.Tops default [.int32 (-1)] ∧
    Kind.u1.coerce (.int32 (-1)) = some (.int32 255) ∧
    minusOneOnTop.Answers 1 (ExecM.instruction default 0 .convU1) (.ok (.int32 255)) ∧ Kind.u1 ≠ .r4 ∧
    Kind.u1.coerce (.int32 255) = some (.int32 255) ∧
    (HeapTrapM.normalize 0 .u1 (.int32 (-1)) >>= fun w => HeapTrapM.ofHeap (Heap.narrow .u1 w)) =
      HeapTrapM.normalize 0 .u1 (.int32 (-1)) := by
  have hop : Opcode.convU1.mnemonic = "conv." ++ "u1" := by decide
  have htops : minusOneOnTop.Tops default [.int32 (-1)] := by
    refine ⟨by decide, fun n v hv => ?_⟩
    cases n with
    | zero => exact hv
    | succ n => cases hv
  have hnarrowed : Kind.u1.coerce (.int32 (-1)) = some (.int32 255) := by decide
  obtain ⟨hconverts, hstores⟩ := conversions_narrow_as_stores
  obtain ⟨w, hw, hanswers⟩ := hconverts .u1 "u1" .convU1 default 0 minusOneOnTop (.int32 (-1)) (by decide) (by decide)
    hop (by decide) htops
  obtain ⟨hagain, hsingle⟩ := hstores .u1 (by decide)
  cases hnarrowed.symm.trans hw
  exact ⟨hop, htops, hnarrowed, hanswers, by decide, hagain _ _ hnarrowed, hsingle 0 _⟩

end ManagedCode
