import ManagedCode.Builder
import ManagedCode.Proofs.Encoding
import ManagedCode.Proofs.Meets

/-!
# Building is the inverse of reading

A sequence of calls of the builder names instructions, regions and the offsets of labels (`instructions`, `regions`,
`markedAt`). After calls that succeeded the builder holds these instructions with empty distances, and a fixup for each
jump (`Performed.holds`). Filling in the distances one after the other gives the encoding of the instructions with
offsets for labels (`fillIn_fixupsFrom`), so the body reads as what was emitted.
-/

namespace ManagedCode

namespace Code

/-- Writing over a part of known length. -/
theorem write_middle : ∀ (bytes mid pre post : List UInt8), bytes.length = mid.length →
    (Code.mk (pre ++ mid ++ post).toArray).write pre.length bytes = ⟨(pre ++ bytes ++ post).toArray⟩
  | [], [], pre, post, _ => rfl
  | b :: bytes, m :: mid, pre, post, h => by
    have hset : (pre ++ m :: mid ++ post).toArray.setIfInBounds pre.length b = (pre ++ [b] ++ mid ++ post).toArray := by
      simp
    have hrest := write_middle bytes mid (pre ++ [b]) post (Nat.succ.inj h)
    rw [write, hset, show pre.length + 1 = (pre ++ [b]).length by simp, hrest]
    simp

end Code

/-! ## What a sequence of calls says -/

namespace Builder

/-- A call of the builder. -/
inductive Call where
  | emit (op : Opcode)
  | emitInt (op : Opcode) (value : BitVec 32)
  | emitConstant (value : BitVec 32)
  | emitLong (op : Opcode) (value : BitVec 64)
  | emitReal (op : Opcode) (value : Double)
  | emitSlot (op : Opcode) (index : BitVec 16)
  | emitToken (op : Opcode) (t : Token)
  | emitBranch (op : Opcode) (target : Label)
  | emitSwitch (targets : List Label)
  | define
  | mark (l : Label)
  | tryCatch (tryBlock handler : Label × Label) (type : Token)
  | tryFinally (tryBlock handler : Label × Label)
  | tryFault (tryBlock handler : Label × Label)
  deriving DecidableEq

namespace Call

def perform : Call → BuilderM Unit
  | .emit op => Builder.emit op
  | .emitInt op value => Builder.emitInt op value
  | .emitConstant value => Builder.emitConstant value
  | .emitLong op value => Builder.emitLong op value
  | .emitReal op value => Builder.emitReal op value
  | .emitSlot op index => Builder.emitSlot op index
  | .emitToken op t => Builder.emitToken op t
  | .emitBranch op target => Builder.emitBranch op target
  | .emitSwitch targets => Builder.emitSwitch targets
  | .define => do let _ ← Builder.define
  | .mark l => Builder.mark l
  | .tryCatch tryBlock handler type => addRegion ⟨tryBlock, handler, .catchType type⟩
  | .tryFinally tryBlock handler => addRegion ⟨tryBlock, handler, .finallyBlock⟩
  | .tryFault tryBlock handler => addRegion ⟨tryBlock, handler, .faultBlock⟩

/-- The shortest instruction that loads a constant. -/
def constant (value : BitVec 32) : Instruction Label :=
  match impliedConstant? value.toInt with
  | some op => ⟨op, .none⟩
  | none => if -128 ≤ value.toInt ∧ value.toInt ≤ 127 then ⟨.ldcI4S, .int value⟩ else ⟨.ldcI4, .int value⟩

/-- The instruction that a call emits. -/
def instruction? : Call → Option (Instruction Label)
  | .emit op => some ⟨op, .none⟩
  | .emitInt op value => some ⟨op, .int value⟩
  | .emitConstant value => some (constant value)
  | .emitLong op value => some ⟨op, .long value⟩
  | .emitReal op value =>
    some ⟨op, if op.operand = .shortReal then .single value.toSingle else .double value.bits⟩
  | .emitSlot op index => some ⟨op, .slot index.toNat⟩
  | .emitToken op t => some ⟨op, .token t⟩
  | .emitBranch op target => some ⟨op, .target target⟩
  | .emitSwitch targets => some ⟨.switch, .table targets⟩
  | _ => none

/-- The label that a call marks. -/
def marks : Call → List Label
  | .mark l => [l]
  | _ => []

/-- The region that a call declares. -/
def region? : Call → Option LabelledRegion
  | .tryCatch tryBlock handler type => some ⟨tryBlock, handler, .catchType type⟩
  | .tryFinally tryBlock handler => some ⟨tryBlock, handler, .finallyBlock⟩
  | .tryFault tryBlock handler => some ⟨tryBlock, handler, .faultBlock⟩
  | _ => none

/-- The instructions that calls emit. -/
def instructions (calls : List Call) : List (Instruction Label) := calls.filterMap instruction?

/-- The jumps of these instructions. -/
def jumps (calls : List Call) : List (Jump Label) := Instruction.jumpsFrom 0 (instructions calls)

/-- The regions that calls declare. -/
def regions (calls : List Call) : List LabelledRegion := calls.filterMap region?

/-- The size of the code that calls emit. -/
def size (calls : List Call) : Nat := Instruction.total (instructions calls)

/-- Where a label is marked: behind everything that was emitted before. -/
def markedAt (l : Label) : List Call → Option Nat
  | [] => none
  | c :: rest => if c = .mark l then some 0 else (markedAt l rest).map (size [c] + ·)

/-- The offset of a label that was marked. -/
def position (calls : List Call) (l : Label) : Nat := (markedAt l calls).getD 0

end Call

open Call

/-- The builder after calls that all succeeded. A label is defined before it can be marked. -/
inductive Performed : List Call → Builder → Prop where
  | start : Performed [] {}
  | call {calls : List Call} {b b' : Builder} {c : Call} : Performed calls b →
      (∀ l ∈ c.marks, l.index < b.labels.size) → c.perform.run b = (.ok (), b') → Performed (calls ++ [c]) b'

/-! ## What the builder holds -/

/-- The bytes of an instruction before its distances are filled in. -/
def blank (i : Instruction Label) : List UInt8 := i.bytesWith fun width _ => List.replicate width 0

/-- The fixups of a jump table whose distances start at an offset. -/
def tableFixups (base : Nat) : Nat → List Label → List Fixup
  | _, [] => []
  | offset, l :: ls => ⟨l, offset, base, false⟩ :: tableFixups base (offset + 4) ls

/-- The fixups of an instruction at an offset. -/
def fixupsOf (pc : Nat) (i : Instruction Label) : List Fixup :=
  match i.operand with
  | .target l => [⟨l, pc + i.op.size, pc + i.size, i.op.operand == .shortBranch⟩]
  | .table ls => tableFixups (pc + i.size) (pc + i.op.size + 4) ls
  | _ => []

/-- The fixups of instructions that stand from an offset on. -/
def fixupsFrom : Nat → List (Instruction Label) → List Fixup
  | _, [] => []
  | pc, i :: is => fixupsOf pc i ++ fixupsFrom (pc + i.size) is

/-- **What a builder holds after calls**: their instructions with empty distances, a fixup for each jump, the marks and
the regions. -/
structure Holds (calls : List Call) (b : Builder) : Prop where
  suits : ∀ i ∈ instructions calls, i.Suits
  code : b.code.toList = (instructions calls).flatMap blank
  fixups : b.fixups.toList = fixupsFrom 0 (instructions calls)
  labels : ∀ l : Label, (b.labels[l.index]?).join = markedAt l calls
  regions : b.regions.toList = Call.regions calls

/-- What emitting one instruction does to a builder. -/
structure Emits (i : Instruction Label) (b b' : Builder) : Prop where
  suits : i.Suits
  code : b'.code.toList = b.code.toList ++ blank i
  fixups : b'.fixups.toList = b.fixups.toList ++ fixupsOf b.offset i
  labels : b'.labels = b.labels
  regions : b'.regions = b.regions

theorem expect_meets {op : Opcode} {kinds : List OperandKind} {b : Builder} :
    Meets (expect op kinds) b (fun _ b' => op.operand ∈ kinds ∧ b' = b) fun _ _ => True := by
  unfold expect
  by_cases h : kinds.contains op.operand = true
  · rw [if_pos h]
    exact Meets.pure ⟨by simpa using h, rfl⟩
  · rw [if_neg h]
    trivial

/-- An instruction without jumps is emitted by appending its bytes. -/
theorem emits_plain {op : Opcode} {operand : Operand Label} {b b' : Builder} {k : OperandKind} (bytes : List UInt8)
    (hk : op.operand = k) (hs : operand.Suits k)
    (hbytes : operand.bytesWith (fun width _ => List.replicate width 0) k = bytes)
    (hfixups : fixupsOf b.offset ⟨op, operand⟩ = [])
    (hb' : b' = { b with code := b.code ++ op.encode.toArray ++ bytes.toArray }) : Emits ⟨op, operand⟩ b b' := by
  subst hk hb' hbytes
  exact ⟨hs, by simp [blank, Instruction.bytesWith], by simp [hfixups], rfl, rfl⟩

theorem emit_meets {op : Opcode} {b : Builder} :
    Meets (emit op) b (fun _ b' => Emits ⟨op, .none⟩ b b') fun _ _ => True := by
  refine Meets.bind expect_meets ?_
  rintro _ _ ⟨hk, rfl⟩
  exact Meets.modify (emits_plain [] (List.mem_singleton.1 hk) rfl rfl rfl (by simp))

theorem emitInt_meets {op : Opcode} {value : BitVec 32} {b : Builder} :
    Meets (emitInt op value) b (fun _ b' => Emits ⟨op, .int value⟩ b b') fun _ _ => True := by
  refine Meets.bind expect_meets ?_
  rintro _ _ ⟨hk, rfl⟩
  refine Meets.modify_bind ?_
  by_cases hshort : op.operand = .shortInt
  · rw [if_pos hshort]
    by_cases hfits : -128 ≤ value.toInt ∧ value.toInt ≤ 127
    · rw [if_pos hfits]
      exact Meets.modify (emits_plain _ hshort (.inl ⟨rfl, hfits⟩) rfl rfl rfl)
    · rw [if_neg hfits]
      trivial
  · rw [if_neg hshort]
    exact Meets.modify (emits_plain (k := .int) _ (by simpa [hshort] using hk) (.inr rfl) rfl rfl rfl)

theorem emitConstant_meets {value : BitVec 32} {b : Builder} :
    Meets (emitConstant value) b (fun _ b' => Emits (constant value) b b') fun _ _ => True := by
  unfold emitConstant constant
  cases impliedConstant? value.toInt with
  | some op => exact emit_meets
  | none =>
    by_cases hfits : -128 ≤ value.toInt ∧ value.toInt ≤ 127
    · simp only [if_pos hfits]
      exact emitInt_meets
    · simp only [if_neg hfits]
      exact emitInt_meets

theorem emitLong_meets {op : Opcode} {value : BitVec 64} {b : Builder} :
    Meets (emitLong op value) b (fun _ b' => Emits ⟨op, .long value⟩ b b') fun _ _ => True := by
  refine Meets.bind expect_meets ?_
  rintro _ _ ⟨hk, rfl⟩
  exact Meets.modify (emits_plain (littleEndian 8 value.toNat) (List.mem_singleton.1 hk) rfl rfl rfl (by simp))

theorem emitReal_meets {op : Opcode} {value : Double} {b : Builder} :
    Meets (emitReal op value) b (fun _ b' =>
      Emits ⟨op, if op.operand = .shortReal then .single value.toSingle else .double value.bits⟩ b b')
      fun _ _ => True := by
  refine Meets.bind expect_meets ?_
  rintro _ _ ⟨hk, rfl⟩
  refine Meets.modify_bind ?_
  by_cases hshort : op.operand = .shortReal
  · simp only [if_pos hshort]
    exact Meets.modify (emits_plain _ hshort rfl rfl rfl rfl)
  · simp only [if_neg hshort]
    exact Meets.modify (emits_plain (k := .real) _ (by simpa [hshort] using hk) rfl rfl rfl rfl)

theorem emitSlot_meets {op : Opcode} {index : BitVec 16} {b : Builder} :
    Meets (emitSlot op index) b (fun _ b' => Emits ⟨op, .slot index.toNat⟩ b b') fun _ _ => True := by
  refine Meets.bind expect_meets ?_
  rintro _ _ ⟨hk, rfl⟩
  refine Meets.modify_bind ?_
  by_cases hshort : op.operand = .shortVariable
  · rw [if_pos hshort]
    by_cases hfits : index.toNat < 256
    · rw [if_pos hfits]
      exact Meets.modify (emits_plain _ hshort (.inl ⟨rfl, hfits⟩) rfl rfl rfl)
    · rw [if_neg hfits]
      trivial
  · rw [if_neg hshort]
    exact Meets.modify (emits_plain (k := .variable) _ (by simpa [hshort] using hk) (.inr ⟨rfl, index.isLt⟩) rfl rfl
      rfl)

theorem emitToken_meets {op : Opcode} {t : Token} {b : Builder} :
    Meets (emitToken op t) b (fun _ b' => Emits ⟨op, .token t⟩ b b') fun _ _ => True := by
  unfold emitToken
  by_cases htoken : op.operand.isToken = true
  · rw [if_pos htoken]
    have hwidth : op.operand.width = 4 := by
      cases hk : op.operand <;> rw [hk] at htoken <;> first | rfl | cases htoken
    have hbytes : Operand.bytesWith (fun width _ => List.replicate width 0) op.operand (.token t : Operand Label) =
        littleEndian 4 t.raw.toNat := by
      rw [Operand.bytesWith, hwidth]
      · rfl
      all_goals simp
    exact Meets.modify (emits_plain _ rfl htoken hbytes rfl (by simp))
  · rw [if_neg htoken]
    trivial

theorem emitBranch_meets {op : Opcode} {target : Label} {b : Builder} :
    Meets (emitBranch op target) b (fun _ b' => Emits ⟨op, .target target⟩ b b') fun _ _ => True := by
  refine Meets.bind expect_meets ?_
  rintro _ _ ⟨hk, rfl⟩
  have hk : op.operand = .shortBranch ∨ op.operand = .branch := by simpa using hk
  have hwidth : (if op.operand = .shortBranch then 1 else 4) = op.operand.width := by
    rcases hk with hk | hk <;> rw [hk] <;> rfl
  refine Meets.modify_bind (Meets.get_bind (Meets.modify_bind (Meets.modify ?_)))
  refine ⟨hk, ?_, ?_, rfl, rfl⟩
  · simp [hwidth, blank, Instruction.bytesWith, Operand.bytesWith]
  · simp [hwidth, fixupsOf, offset, Instruction.size, Operand.size, Instruction.length_encode_op, Nat.add_assoc]

theorem mapIdx_fixups (base : Nat) : ∀ (ls : List Label) (first : Nat),
    (ls.mapIdx fun i l => (⟨l, first + i * 4, base, false⟩ : Fixup)) = tableFixups base first ls
  | [], _ => rfl
  | l :: ls, first => by
    have ih := mapIdx_fixups base ls (first + 4)
    rw [List.mapIdx_cons, tableFixups, ← ih]
    simp [Nat.add_mul, Nat.add_assoc, Nat.add_comm]

theorem emitSwitch_meets {targets : List Label} {b : Builder} :
    Meets (emitSwitch targets) b (fun _ b' => Emits ⟨.switch, .table targets⟩ b b') fun _ _ => True := by
  refine Meets.modify_bind (Meets.get_bind (Meets.modify_bind (Meets.modify ?_)))
  have hzeros : List.replicate (targets.length * 4) (0 : UInt8) = targets.flatMap fun _ => List.replicate 4 0 := by
    induction targets with
    | nil => rfl
    | cons l ls ih =>
      rw [List.flatMap_cons, ← ih, List.length_cons, List.replicate_append_replicate]
      congr 1
      omega
  refine ⟨rfl, ?_, ?_, rfl, rfl⟩
  · simp [blank, Instruction.bytesWith, Operand.bytesWith, hzeros]
  · simp only [mapIdx_fixups, fixupsOf, offset, Instruction.size, Operand.size]
    simp [Instruction.length_encode_op, length_littleEndian, Nat.add_assoc]

/-- **A call that emits an instruction emits the one that it names.** -/
theorem perform_emits {c : Call} {i : Instruction Label} {b : Builder} (hi : c.instruction? = some i) :
    Meets c.perform b (fun _ b' => Emits i b b') fun _ _ => True := by
  cases c with
  | emit op => cases hi; exact emit_meets
  | emitInt op value => cases hi; exact emitInt_meets
  | emitConstant value => cases hi; exact emitConstant_meets
  | emitLong op value => cases hi; exact emitLong_meets
  | emitReal op value => cases hi; exact emitReal_meets
  | emitSlot op index => cases hi; exact emitSlot_meets
  | emitToken op t => cases hi; exact emitToken_meets
  | emitBranch op target => cases hi; exact emitBranch_meets
  | emitSwitch targets => cases hi; exact emitSwitch_meets
  | _ => cases hi

/-! ## One call after the other -/

theorem instructions_snoc (calls : List Call) (c : Call) :
    instructions (calls ++ [c]) = instructions calls ++ c.instruction?.toList := by
  cases h : c.instruction? <;> simp [instructions, h]

theorem regions_snoc (calls : List Call) (c : Call) :
    Call.regions (calls ++ [c]) = Call.regions calls ++ c.region?.toList := by
  cases h : c.region? <;> simp [Call.regions, h]

theorem size_cons (c : Call) (calls : List Call) : Call.size (c :: calls) = Call.size [c] + Call.size calls := by
  cases h : c.instruction? <;> simp [Call.size, instructions, Instruction.total, h]

/-- A mark stays where it is, and a new one is at the end. -/
theorem markedAt_snoc (l : Label) (c : Call) : ∀ calls : List Call, markedAt l (calls ++ [c]) =
    (markedAt l calls).or (if c = .mark l then some (Call.size calls) else none)
  | [] => by simp [markedAt, Call.size, instructions, Instruction.total]
  | d :: calls => by
    rw [List.cons_append, markedAt, markedAt, markedAt_snoc l c calls]
    by_cases hd : d = .mark l
    · simp [hd]
    · by_cases hc : c = .mark l
      · cases h : markedAt l calls <;> simp [hd, hc, size_cons d calls]
      · simp [hd, hc]

theorem fixupsFrom_append (pc : Nat) (is ks : List (Instruction Label)) :
    fixupsFrom pc (is ++ ks) = fixupsFrom pc is ++ fixupsFrom (pc + Instruction.total is) ks := by
  induction is generalizing pc with
  | nil => simp [fixupsFrom, Instruction.total]
  | cons i is ih => simp [fixupsFrom, ih, Instruction.total_cons, Nat.add_assoc]

theorem length_blank (i : Instruction Label) : (blank i).length = i.size :=
  Instruction.length_bytesWith (fun _ _ => List.length_replicate) i

theorem Holds.offset_eq {calls : List Call} {b : Builder} (h : Holds calls b) : b.offset = Call.size calls := by
  have hlen : ∀ is : List (Instruction Label), (is.flatMap blank).length = Instruction.total is := by
    intro is
    induction is with
    | nil => rfl
    | cons i is ih => rw [List.flatMap_cons, List.length_append, ih, length_blank, Instruction.total_cons]
  rw [offset, ← Array.length_toList, h.code, hlen, Call.size]

/-- Emitting an instruction keeps what the builder holds. -/
theorem Holds.emits {calls : List Call} {c : Call} {i : Instruction Label} {b b' : Builder} (h : Holds calls b)
    (hi : c.instruction? = some i) (he : Emits i b b') : Holds (calls ++ [c]) b' := by
  have hregion : c.region? = none := by cases c <;> first | rfl | cases hi
  have hmark : ∀ l, c ≠ .mark l := by rintro l rfl; cases hi
  refine ⟨?_, ?_, ?_, ?_, ?_⟩
  · rw [instructions_snoc, hi]
    intro k hk
    rcases List.mem_append.1 hk with hk | hk
    · exact h.suits k hk
    · cases List.mem_singleton.1 hk
      exact he.suits
  · simp [he.code, h.code, instructions_snoc, hi]
  · have hoffset : b.offset = Instruction.total (instructions calls) := h.offset_eq
    simp [he.fixups, h.fixups, instructions_snoc, hi, fixupsFrom_append, fixupsFrom, hoffset]
  · intro l
    simp [he.labels, h.labels, markedAt_snoc, hmark]
  · simp [he.regions, h.regions, regions_snoc, hregion]

/-- Declaring a region keeps what the builder holds. -/
theorem Holds.region {calls : List Call} {c : Call} {r : LabelledRegion} {b : Builder} (h : Holds calls b)
    (hr : c.region? = some r) : Holds (calls ++ [c]) { b with regions := b.regions.push r } := by
  have hi : c.instruction? = none := by cases c <;> first | rfl | cases hr
  have hmark : ∀ l, c ≠ .mark l := by rintro l rfl; cases hr
  refine ⟨?_, ?_, ?_, ?_, ?_⟩
  · simpa [instructions_snoc, hi] using h.suits
  · simp [h.code, instructions_snoc, hi]
  · simp [h.fixups, instructions_snoc, hi]
  · intro l
    simp [h.labels, markedAt_snoc, hmark]
  · simp [h.regions, regions_snoc, hr]

/-- A new label is not marked. -/
theorem Holds.define {calls : List Call} {b : Builder} {names : Array String} (h : Holds calls b) :
    Holds (calls ++ [.define]) { b with labels := b.labels.push none, names := names } := by
  refine ⟨?_, ?_, ?_, ?_, ?_⟩
  · simpa [instructions_snoc, instruction?] using h.suits
  · simp [h.code, instructions_snoc, instruction?]
  · simp [h.fixups, instructions_snoc, instruction?]
  · intro l
    have hl := h.labels l
    rw [markedAt_snoc, ← hl, Array.getElem?_push]
    by_cases hnew : l.index = b.labels.size
    · simp [hnew]
    · simp [hnew]
  · simp [h.regions, regions_snoc, region?]

/-- A mark is put at the end of the code. -/
theorem Holds.mark {calls : List Call} {b : Builder} {l : Label} (h : Holds calls b) (hl : l.index < b.labels.size)
    (hnone : (b.labels[l.index]?).join = none) :
    Holds (calls ++ [.mark l]) { b with labels := b.labels.setIfInBounds l.index (some b.offset) } := by
  refine ⟨?_, ?_, ?_, ?_, ?_⟩
  · simpa [instructions_snoc, instruction?] using h.suits
  · simp [h.code, instructions_snoc, instruction?]
  · simp [h.fixups, instructions_snoc, instruction?]
  · intro k
    have hk := h.labels k
    rw [markedAt_snoc, ← hk, Array.getElem?_setIfInBounds]
    by_cases hsame : l.index = k.index
    · have hlk : l = k := by cases l; cases k; cases hsame; rfl
      subst hlk
      rw [hnone]
      simp [hl, h.offset_eq]
    · have hne : l ≠ k := fun he => hsame (congrArg _ he)
      simp [hsame, hne]
  · simp [h.regions, regions_snoc, region?]

/-- **A call that succeeds keeps what the builder holds.** -/
theorem Holds.call {calls : List Call} {c : Call} {b b' : Builder} (h : Holds calls b)
    (hdefined : ∀ l ∈ c.marks, l.index < b.labels.size) (hrun : c.perform.run b = (.ok (), b')) :
    Holds (calls ++ [c]) b' := by
  cases hi : c.instruction? with
  | some i => exact h.emits hi ((perform_emits hi).of_ok hrun)
  | none =>
    cases c with
    | define => cases hrun; exact h.define
    | mark l =>
      have hmeets : Meets (Builder.mark l) b (fun _ b' => Holds (calls ++ [.mark l]) b') fun _ _ => True := by
        refine Meets.get_bind ?_
        cases hl : (b.labels[l.index]?).join with
        | some t => trivial
        | none => exact Meets.set (h.mark (hdefined l List.mem_cons_self) hl)
      exact hmeets.of_ok hrun
    | tryCatch tryBlock handler type => cases hrun; exact h.region rfl
    | tryFinally tryBlock handler => cases hrun; exact h.region rfl
    | tryFault tryBlock handler => cases hrun; exact h.region rfl
    | _ => cases hi

/-- **After calls that succeeded the builder holds what they say.** -/
theorem Performed.holds {calls : List Call} {b : Builder} (h : Performed calls b) : Holds calls b := by
  induction h with
  | start => exact ⟨by simp [instructions], rfl, rfl, by simp [markedAt], rfl⟩
  | call _ hdefined hrun ih => exact ih.call hdefined hrun

/-! ## Filling in -/

/-- The jump that a fixup is for. -/
def jumpOf (f : Fixup) : Jump Label := ⟨f.label, f.base, f.short⟩

theorem map_jumpOf_tableFixups (base : Nat) : ∀ (ls : List Label) (offset : Nat),
    (tableFixups base offset ls).map jumpOf = ls.map (⟨·, base, false⟩)
  | [], _ => rfl
  | l :: ls, offset => by simp [tableFixups, jumpOf, map_jumpOf_tableFixups base ls]

/-- There is a fixup for each jump. -/
theorem map_jumpOf_fixupsFrom (pc : Nat) (is : List (Instruction Label)) :
    (fixupsFrom pc is).map jumpOf = Instruction.jumpsFrom pc is := by
  induction is generalizing pc with
  | nil => rfl
  | cons i is ih =>
    have hi : (fixupsOf pc i).map jumpOf = i.jumps (pc + i.size) := by
      cases h : i.operand <;> simp [fixupsOf, Instruction.jumps, h, jumpOf, map_jumpOf_tableFixups]
    simp [fixupsFrom, Instruction.jumpsFrom, hi, ih]

theorem distance_ok {b : Builder} {f : Fixup} {t : Nat} (hr : b.resolve f.label = .ok t)
    (hfits : ((jumpOf f).to t).Fits) :
    b.distance f = .ok (Instruction.distance f.base (if f.short then 1 else 4) t) := by
  cases hs : f.short with
  | false =>
    simp only [distance, hr, hs, bind, Except.bind, pure, Except.pure]
    rfl
  | true =>
    have hdelta : -128 ≤ (t : Int) - f.base ∧ (t : Int) - f.base ≤ 127 := hfits hs
    simp only [distance, hr, hs, bind, Except.bind, pure, Except.pure, if_true, if_pos hdelta]
    rfl

theorem fillIn_cons {b : Builder} {f : Fixup} {rest : List Fixup} {code : Code} {bytes : List UInt8}
    (h : b.distance f = .ok bytes) : b.fillIn (f :: rest) code = b.fillIn rest (code.write f.offset bytes) := by
  rw [fillIn, h]
  rfl

variable {b : Builder} {place : Label → Nat}

/-- The distances of a jump table are filled in. -/
theorem fillIn_tableFixups (base : Nat) (rest : List Fixup) : ∀ (ls : List Label) (pre post : List UInt8),
    (∀ l ∈ ls, b.resolve l = .ok (place l)) →
    b.fillIn (tableFixups base pre.length ls ++ rest)
        ⟨(pre ++ ls.flatMap (fun _ => List.replicate 4 0) ++ post).toArray⟩ =
      b.fillIn rest ⟨(pre ++ ls.flatMap (fun l => Instruction.distance base 4 (place l)) ++ post).toArray⟩
  | [], _, _, _ => by simp [tableFixups]
  | l :: ls, pre, post, h => by
    have hlen : (Instruction.distance base 4 (place l)).length = 4 := length_littleEndian _ _
    have hl : b.distance ⟨l, pre.length, base, false⟩ = .ok (Instruction.distance base 4 (place l)) :=
      distance_ok (h l List.mem_cons_self) nofun
    have hwrite := Code.write_middle (Instruction.distance base 4 (place l)) (List.replicate 4 0) pre
      (ls.flatMap (fun _ => List.replicate 4 0) ++ post) hlen
    have ih := fillIn_tableFixups base rest ls (pre ++ Instruction.distance base 4 (place l)) post
      fun k hk => h k (List.mem_cons_of_mem _ hk)
    rw [List.length_append, hlen] at ih
    rw [tableFixups, List.cons_append, fillIn_cons hl, List.flatMap_cons, List.flatMap_cons]
    simp only [List.append_assoc] at hwrite ih ⊢
    rw [hwrite, ih]

/-- **The distances of an instruction are filled in**, and nothing else changes. -/
theorem fillIn_fixupsOf {i : Instruction Label} (pre post : List UInt8) (rest : List Fixup) (hs : i.Suits)
    (hj : ∀ j ∈ i.jumps (pre.length + i.size), b.resolve j.target = .ok (place j.target) ∧
      (j.to (place j.target)).Fits) :
    b.fillIn (fixupsOf pre.length i ++ rest) ⟨(pre ++ blank i ++ post).toArray⟩ =
      b.fillIn rest ⟨(pre ++ (i.map place).encode pre.length ++ post).toArray⟩ := by
  rw [Instruction.encode_map]
  obtain ⟨op, operand⟩ := i
  cases operand with
  | target l =>
    obtain ⟨hr, hfits⟩ := hj _ List.mem_cons_self
    have hwidth : (if op.operand == .shortBranch then 1 else 4) = op.operand.width := by
      rcases hs with hk | hk <;> rw [show op.operand = _ from hk] <;> rfl
    have hd := distance_ok (f := ⟨l, pre.length + op.size, _, op.operand == .shortBranch⟩) hr hfits
    rw [hwidth] at hd
    have hwrite := Code.write_middle
      (Instruction.distance (pre.length + Instruction.size ⟨op, .target l⟩) op.operand.width (place l))
      (List.replicate op.operand.width 0) (pre ++ op.encode) post
      ((length_littleEndian op.operand.width _).trans List.length_replicate.symm)
    rw [List.length_append, Instruction.length_encode_op] at hwrite
    rw [fixupsOf, List.singleton_append, fillIn_cons hd]
    simp only [blank, Instruction.bytesWith, Operand.bytesWith, List.append_assoc] at hwrite ⊢
    exact congrArg (b.fillIn rest) hwrite
  | table ls =>
    have hr : ∀ l ∈ ls, b.resolve l = .ok (place l) := fun l hl => (hj _ (List.mem_map_of_mem hl)).1
    have hfill := fillIn_tableFixups (pre.length + Instruction.size ⟨op, .table ls⟩) rest ls
      (pre ++ op.encode ++ littleEndian 4 ls.length) post hr
    simp only [List.length_append, Instruction.length_encode_op, length_littleEndian] at hfill
    simp only [fixupsOf, blank, Instruction.bytesWith, Operand.bytesWith, List.append_assoc] at hfill ⊢
    exact hfill
  | _ => rfl

/-- **Filling in gives the encoding of the instructions**, with offsets in the place of labels. -/
theorem fillIn_fixupsFrom : ∀ (is : List (Instruction Label)) (pre : List UInt8), (∀ i ∈ is, i.Suits) →
    (∀ j ∈ Instruction.jumpsFrom pre.length is, b.resolve j.target = .ok (place j.target) ∧
      (j.to (place j.target)).Fits) →
    b.fillIn (fixupsFrom pre.length is) ⟨(pre ++ is.flatMap blank).toArray⟩ =
      .ok ⟨(pre ++ Instruction.encodeFrom pre.length (is.map (·.map place))).toArray⟩
  | [], pre, _, _ => rfl
  | i :: is, pre, hs, hj => by
    have hlen : (pre ++ (i.map place).encode pre.length).length = pre.length + i.size := by
      rw [List.length_append, Instruction.length_encode, Instruction.size_map]
    have hi := fillIn_fixupsOf pre (is.flatMap blank) (fixupsFrom (pre.length + i.size) is)
      (hs i List.mem_cons_self) fun j hj' => hj j (List.mem_append_left _ hj')
    have ih := fillIn_fixupsFrom is (pre ++ (i.map place).encode pre.length)
      (fun k hk => hs k (List.mem_cons_of_mem _ hk)) fun j hj' => hj j (List.mem_append_right _ (hlen ▸ hj'))
    rw [hlen] at ih
    rw [fixupsFrom, List.flatMap_cons, ← List.append_assoc, hi, ih, List.map_cons, Instruction.encodeFrom,
      Instruction.size_map, List.append_assoc]

/-! ## When a body can be built -/

theorem isOk_iff {α : Type} {x : Except BuildError α} : x.isOk = true ↔ ∃ a, x = .ok a := by
  cases x <;> simp [Except.isOk, Except.toBool]

theorem isOk_bind {α β : Type} {x : Except BuildError α} {f : α → Except BuildError β} :
    (x >>= f).isOk = true ↔ ∃ a, x = .ok a ∧ (f a).isOk = true := by
  cases x <;> simp [Except.isOk, Except.toBool, bind, Except.bind]

theorem isOk_mapM {α β : Type} {f : α → Except BuildError β} : ∀ l : List α,
    (l.mapM f).isOk = true ↔ ∀ a ∈ l, (f a).isOk = true
  | [] => by simp [Except.isOk, Except.toBool, pure, Except.pure]
  | a :: l => by
    rw [List.mapM_cons, isOk_bind, List.forall_mem_cons, ← isOk_mapM l, isOk_iff (x := f a)]
    constructor
    · rintro ⟨c, hc, hrest⟩
      obtain ⟨cs, hcs, -⟩ := isOk_bind.1 hrest
      exact ⟨⟨c, hc⟩, by rw [hcs]; rfl⟩
    · rintro ⟨⟨c, hc⟩, hrest⟩
      obtain ⟨cs, hcs⟩ := isOk_iff.1 hrest
      exact ⟨c, hc, isOk_bind.2 ⟨cs, hcs, rfl⟩⟩

theorem isOk_distance {f : Fixup} : (b.distance f).isOk = true ↔
    ∃ t, b.resolve f.label = .ok t ∧ ((jumpOf f).to t).Fits := by
  constructor
  · intro h
    obtain ⟨t, ht, hrest⟩ := isOk_bind.1 h
    refine ⟨t, ht, fun hs => ?_⟩
    replace hs : f.short = true := hs
    by_cases hd : -128 ≤ (t : Int) - f.base ∧ (t : Int) - f.base ≤ 127
    · exact hd
    · simp only [hs, if_true, if_neg hd] at hrest
      cases hrest
  · rintro ⟨t, ht, hfits⟩
    rw [distance_ok ht hfits]
    rfl

theorem isOk_fillIn : ∀ (fs : List Fixup) (code : Code),
    (b.fillIn fs code).isOk = true ↔ ∀ f ∈ fs, (b.distance f).isOk = true
  | [], code => by simp [fillIn, Except.isOk, Except.toBool]
  | f :: fs, code => by
    rw [fillIn, isOk_bind, List.forall_mem_cons, isOk_iff (x := b.distance f)]
    constructor
    · rintro ⟨bytes, hbytes, hrest⟩
      exact ⟨⟨bytes, hbytes⟩, (isOk_fillIn fs _).1 hrest⟩
    · rintro ⟨⟨bytes, hbytes⟩, hrest⟩
      exact ⟨bytes, hbytes, (isOk_fillIn fs _).2 hrest⟩

/-- The labels of a region. -/
def labelsOf (r : LabelledRegion) : List Label := [r.tryBlock.1, r.tryBlock.2, r.handler.1, r.handler.2]

/-- The region between offsets in the place of labels. -/
def placed (place : Label → Nat) (r : LabelledRegion) : Region :=
  ⟨.between (place r.tryBlock.1) (place r.tryBlock.2), .between (place r.handler.1) (place r.handler.2),
    r.kind⟩

theorem resolveRegion_ok {r : LabelledRegion} (h : ∀ l ∈ labelsOf r, b.resolve l = .ok (place l)) :
    b.resolveRegion r = .ok (placed place r) := by
  simp only [labelsOf, List.forall_mem_cons] at h
  obtain ⟨h1, h2, h3, h4, -⟩ := h
  simp only [resolveRegion, h1, h2, h3, h4, bind, Except.bind, pure, Except.pure, placed]

theorem isOk_resolveRegion {r : LabelledRegion} : (b.resolveRegion r).isOk = true ↔
    ∀ l ∈ labelsOf r, (b.resolve l).isOk = true := by
  constructor
  · intro h
    obtain ⟨t1, h1, h⟩ := isOk_bind.1 h
    obtain ⟨t2, h2, h⟩ := isOk_bind.1 h
    obtain ⟨t3, h3, h⟩ := isOk_bind.1 h
    obtain ⟨t4, h4, h⟩ := isOk_bind.1 h
    simp [labelsOf, h1, h2, h3, h4, Except.isOk, Except.toBool]
  · intro h
    have hall : ∀ l ∈ labelsOf r, b.resolve l = .ok (((b.resolve l).toOption).getD 0) := by
      intro l hl
      obtain ⟨t, ht⟩ := isOk_iff.1 (h l hl)
      rw [ht]
      rfl
    rw [resolveRegion_ok hall]
    rfl

theorem Holds.resolve_ok {calls : List Call} (h : Holds calls b) {l : Label} {t : Nat} :
    b.resolve l = .ok t ↔ markedAt l calls = some t := by
  rw [resolve, h.labels l]
  cases markedAt l calls <;> simp

/-- **When a body can be built**: every label that is used is marked, and every distance fits. -/
theorem Holds.isOk_build {calls : List Call} (h : Holds calls b) : b.build.isOk = true ↔
    (∀ j ∈ jumps calls, ∃ t, markedAt j.target calls = some t ∧ (j.to t).Fits) ∧
    ∀ r ∈ Call.regions calls, ∀ l ∈ labelsOf r, ∃ t, markedAt l calls = some t := by
  have hfixups : (∀ f ∈ b.fixups.toList, (b.distance f).isOk = true) ↔
      ∀ j ∈ jumps calls, ∃ t, markedAt j.target calls = some t ∧ (j.to t).Fits := by
    rw [h.fixups, jumps, ← map_jumpOf_fixupsFrom, List.forall_mem_map]
    simp only [isOk_distance, h.resolve_ok, jumpOf]
  have hregions : (∀ r ∈ b.regions.toList, (b.resolveRegion r).isOk = true) ↔
      ∀ r ∈ Call.regions calls, ∀ l ∈ labelsOf r, ∃ t, markedAt l calls = some t := by
    rw [h.regions]
    simp only [isOk_resolveRegion]
    simp only [isOk_iff, h.resolve_ok]
  rw [← hfixups, ← hregions, ← isOk_fillIn b.fixups.toList ⟨b.code⟩, ← isOk_mapM, build, isOk_bind]
  constructor
  · rintro ⟨code, hcode, hrest⟩
    obtain ⟨regions, hrs, -⟩ := isOk_bind.1 hrest
    exact ⟨isOk_iff.2 ⟨code, hcode⟩, isOk_iff.2 ⟨regions, hrs⟩⟩
  · rintro ⟨hcode, hrs⟩
    obtain ⟨code, hcode⟩ := isOk_iff.1 hcode
    obtain ⟨regions, hrs⟩ := isOk_iff.1 hrs
    exact ⟨code, hcode, isOk_bind.2 ⟨regions, hrs, rfl⟩⟩

/-- What stands in the way of building a body. -/
theorem not_buildable {calls : List Call} :
    ¬ ((∀ j ∈ jumps calls, ∃ t, markedAt j.target calls = some t ∧ (j.to t).Fits) ∧
      ∀ r ∈ Call.regions calls, ∀ l ∈ labelsOf r, ∃ t, markedAt l calls = some t) ↔
    (∃ j ∈ jumps calls, markedAt j.target calls = none) ∨
    (∃ r ∈ Call.regions calls, ∃ l ∈ labelsOf r, markedAt l calls = none) ∨
    ∃ j ∈ jumps calls, ∃ t, markedAt j.target calls = some t ∧ ¬ (j.to t).Fits := by
  constructor
  · intro h
    by_cases hjump : ∃ j ∈ jumps calls, markedAt j.target calls = none
    · exact .inl hjump
    by_cases hregion : ∃ r ∈ Call.regions calls, ∃ l ∈ labelsOf r, markedAt l calls = none
    · exact .inr (.inl hregion)
    by_cases hshort : ∃ j ∈ jumps calls, ∃ t, markedAt j.target calls = some t ∧ ¬ (j.to t).Fits
    · exact .inr (.inr hshort)
    refine absurd ⟨fun j hj => ?_, fun r hr l hl => ?_⟩ h
    · cases ht : markedAt j.target calls with
      | none => exact absurd ⟨j, hj, ht⟩ hjump
      | some t =>
        by_cases hf : (j.to t).Fits
        · exact ⟨t, rfl, hf⟩
        · exact absurd ⟨j, hj, t, ht, hf⟩ hshort
    · cases ht : markedAt l calls with
      | none => exact absurd ⟨r, hr, l, hl, ht⟩ hregion
      | some t => exact ⟨t, rfl⟩
  · rintro h ⟨hjumps, hregions⟩
    rcases h with ⟨j, hj, hn⟩ | ⟨r, hr, l, hl, hn⟩ | ⟨j, hj, t, ht, hf⟩
    · obtain ⟨t, ht, -⟩ := hjumps j hj
      cases hn.symm.trans ht
    · obtain ⟨t, ht⟩ := hregions r hr l hl
      cases hn.symm.trans ht
    · obtain ⟨t', ht', hf'⟩ := hjumps j hj
      cases ht.symm.trans ht'
      exact hf hf'

/-! ## Reading what was built -/

theorem mapM_ok {α β : Type} {f : α → Except BuildError β} {g : α → β} : ∀ l : List α,
    (∀ a ∈ l, f a = .ok (g a)) → l.mapM f = .ok (l.map g)
  | [], _ => rfl
  | a :: l, h => by
    rw [List.mapM_cons, h a List.mem_cons_self, mapM_ok l fun c hc => h c (List.mem_cons_of_mem _ hc)]
    rfl

/-- **The body that is built**: the encoding of the instructions, and the regions, with offsets for labels. -/
theorem Holds.build_eq {calls : List Call} (h : Holds calls b)
    (hjumps : ∀ j ∈ jumps calls, ∃ t, markedAt j.target calls = some t ∧ (j.to t).Fits)
    (hregions : ∀ r ∈ Call.regions calls, ∀ l ∈ labelsOf r, ∃ t, markedAt l calls = some t) :
    b.build = .ok ⟨(Instruction.encodeFrom 0 ((instructions calls).map (·.map (position calls)))).toArray, b.maxStack,
      b.locals, (Call.regions calls).map (placed (position calls))⟩ := by
  have hposition : ∀ l t, markedAt l calls = some t → b.resolve l = .ok (position calls l) ∧ position calls l = t := by
    intro l t ht
    have hp : position calls l = t := by rw [position, ht]; rfl
    exact ⟨h.resolve_ok.2 (hp ▸ ht), hp⟩
  have hcode : b.fillIn b.fixups.toList ⟨b.code⟩ =
      .ok ⟨(Instruction.encodeFrom 0 ((instructions calls).map (·.map (position calls)))).toArray⟩ := by
    have hfill := fillIn_fixupsFrom (instructions calls) [] h.suits fun j hj => by
      obtain ⟨t, ht, hfits⟩ := hjumps j hj
      obtain ⟨hr, hp⟩ := hposition _ t ht
      exact ⟨hr, hp ▸ hfits⟩
    have hbytes : b.code = ((instructions calls).flatMap blank).toArray := by rw [← h.code]
    rw [h.fixups, hbytes]
    exact hfill
  have hplaced : b.regions.toList.mapM b.resolveRegion = .ok ((Call.regions calls).map (placed (position calls))) := by
    rw [h.regions]
    refine mapM_ok _ fun r hr => resolveRegion_ok fun l hl => ?_
    obtain ⟨t, ht⟩ := hregions r hr l hl
    exact (hposition l t ht).1
  simp only [build, hcode, hplaced, bind, Except.bind, pure, Except.pure]

/-- The encoded body reads as the instructions that were emitted. -/
theorem Holds.reads {calls : List Call} (h : Holds calls b) (hsize : Call.size calls < 2 ^ 31)
    (hjumps : ∀ j ∈ jumps calls, position calls j.target < Call.size calls ∧ (j.to (position calls j.target)).Fits) :
    (Code.mk (Instruction.encodeFrom 0 ((instructions calls).map (·.map (position calls)))).toArray).instructions =
      .ok ((instructions calls).map (·.map (position calls))) := by
  have htotal : Instruction.total ((instructions calls).map (·.map (position calls))) = Call.size calls :=
    Instruction.total_map _ _
  have hcode : Code.size ⟨(Instruction.encodeFrom 0 ((instructions calls).map (·.map (position calls)))).toArray⟩ =
      Call.size calls := by
    rw [Code.size, List.size_toArray, Instruction.length_encodeFrom, htotal]
  unfold Code.instructions
  apply Code.instructionsFrom_encodeFrom
  · rw [hcode]
    exact hsize
  · rw [hcode, ← htotal]
    exact Instruction.length_le_total _
  · rw [hcode, htotal, Nat.zero_add]
  · intro i hi
    obtain ⟨k, hk, rfl⟩ := List.mem_map.1 hi
    exact (Operand.suits_map _ _ _).2 (h.suits k hk)
  · intro k _
    simp
  · intro j hj
    have hmap := Instruction.jumpsFrom_map (position calls) 0 (instructions calls)
    rw [show (fun i : Instruction Label => i.map (position calls)) = Instruction.map (position calls) from rfl,
      hmap] at hj
    obtain ⟨k, hk, rfl⟩ := List.mem_map.1 hj
    rw [hcode]
    exact hjumps k hk

/-- **Building is the inverse of reading.** After calls that succeeded, a body cannot be built exactly when a label that
a jump or a region uses is not marked, or a distance does not fit its byte. Otherwise, if the code is smaller than two
gigabytes and jumps stay inside of it, the body reads as the instructions that were emitted, with the offset of its
label for every target, and the regions lie between the offsets of their labels. -/
theorem Performed.build_reads_back {calls : List Call} (h : Performed calls b) :
    (b.build.isOk = false ↔
      (∃ j ∈ jumps calls, markedAt j.target calls = none) ∨
      (∃ r ∈ Call.regions calls, ∃ l ∈ labelsOf r, markedAt l calls = none) ∨
      ∃ j ∈ jumps calls, ∃ t, markedAt j.target calls = some t ∧ ¬ (j.to t).Fits) ∧
    (Call.size calls < 2 ^ 31 →
      (∀ j ∈ jumps calls, ∃ t, markedAt j.target calls = some t ∧ t < Call.size calls) →
      (∀ r ∈ Call.regions calls, ∀ l ∈ labelsOf r, ∃ t, markedAt l calls = some t) →
      (∀ j ∈ jumps calls, ∀ t, markedAt j.target calls = some t → (j.to t).Fits) →
      ∃ body, b.build = .ok body ∧ body.code.size = Call.size calls ∧
        (Code.mk body.code).instructions = .ok ((instructions calls).map (·.map (position calls))) ∧
        body.regions = (Call.regions calls).map (placed (position calls))) := by
  have hb := h.holds
  constructor
  · rw [← Bool.not_eq_true, hb.isOk_build]
    exact not_buildable
  · intro hsize hmarked hregions hfits
    have hjumps : ∀ j ∈ jumps calls, ∃ t, markedAt j.target calls = some t ∧ (j.to t).Fits := by
      intro j hj
      obtain ⟨t, ht, -⟩ := hmarked j hj
      exact ⟨t, ht, hfits j hj t ht⟩
    refine ⟨_, hb.build_eq hjumps hregions, ?_, hb.reads hsize fun j hj => ?_, rfl⟩
    · rw [List.size_toArray, Instruction.length_encodeFrom]
      exact Instruction.total_map _ _
    · obtain ⟨t, ht, hlt⟩ := hmarked j hj
      have hp : position calls j.target = t := by rw [position, ht]; rfl
      rw [hp]
      exact ⟨hlt, hfits j hj t ht⟩

/-- Performs calls one after the other, as long as they succeed. -/
def performAll? : List Call → Builder → Option Builder
  | [], b => some b
  | c :: calls, b =>
    match c.perform.run b with
    | (.error _, _) => none
    | (.ok _, b') => if ∀ l ∈ c.marks, l.index < b.labels.size then performAll? calls b' else none

theorem performed_of_performAll? : ∀ {calls before : List Call} {b b' : Builder}, Performed before b →
    performAll? calls b = some b' → Performed (before ++ calls) b'
  | [], before, b, b', h, hrun => by
    cases hrun
    simpa using h
  | c :: calls, before, b, b', h, hrun => by
    rw [performAll?] at hrun
    split at hrun
    · cases hrun
    · rename_i u b₁ hc
      split at hrun
      · rename_i hmarks
        have h₁ : Performed (before ++ [c]) b₁ := .call h hmarks hc
        simpa using performed_of_performAll? h₁ hrun
      · cases hrun

/-- A loop over a jump table with a finally block behind it; the labels are used before and after they are marked. -/
def loopCalls : List Call :=
  [.define, .define, .define, .mark ⟨0⟩, .emitReal .ldcR4 ⟨0x3FF8000000000000⟩, .emit .pop, .emitConstant 100,
   .emitSwitch [⟨0⟩, ⟨1⟩], .emitBranch .brS ⟨0⟩, .mark ⟨1⟩, .emit .endfinally, .mark ⟨2⟩, .emit .ret,
   .tryFinally (⟨0⟩, ⟨1⟩) (⟨1⟩, ⟨2⟩)]

/-- The loop is read back: the table and the branch lead to the marks, and the finally block is where its labels are. -/
theorem loopCalls_reads_back : ∃ b body, Performed loopCalls b ∧ b.build = .ok body ∧
    (Code.mk body.code).instructions = .ok [⟨.ldcR4, .single 0x3FC00000⟩, ⟨.pop, .none⟩, ⟨.ldcI4S, .int 100⟩,
      ⟨.switch, .table [0, 23]⟩, ⟨.brS, .target 0⟩, ⟨.endfinally, .none⟩, ⟨.ret, .none⟩] ∧
    body.regions = [⟨⟨0, 23⟩, ⟨23, 1⟩, .finallyBlock⟩] := by
  have hrun : (performAll? loopCalls {}).isSome = true := by decide +kernel
  obtain ⟨b, hb⟩ := Option.isSome_iff_exists.1 hrun
  have h : Performed loopCalls b := performed_of_performAll? .start hb
  have hjumps : ∀ j ∈ jumps loopCalls, position loopCalls j.target < Call.size loopCalls ∧
      markedAt j.target loopCalls = some (position loopCalls j.target) ∧ (j.short = true →
        -128 ≤ (j.to (position loopCalls j.target)).delta ∧ (j.to (position loopCalls j.target)).delta ≤ 127) := by
    decide +kernel
  have hregions : ∀ r ∈ Call.regions loopCalls, ∀ l ∈ labelsOf r,
      markedAt l loopCalls = some (position loopCalls l) := by decide +kernel
  obtain ⟨body, hbody, -, hread, hplaced⟩ := h.build_reads_back.2 (by decide +kernel)
    (fun j hj => ⟨_, (hjumps j hj).2.1, (hjumps j hj).1⟩) (fun r hr l hl => ⟨_, hregions r hr l hl⟩) fun j hj t ht => by
      cases ht.symm.trans (hjumps j hj).2.1
      exact (hjumps j hj).2.2
  have hinstructions : (instructions loopCalls).map (·.map (position loopCalls)) =
      [⟨.ldcR4, .single 0x3FC00000⟩, ⟨.pop, .none⟩, ⟨.ldcI4S, .int 100⟩, ⟨.switch, .table [0, 23]⟩, ⟨.brS, .target 0⟩,
        ⟨.endfinally, .none⟩, ⟨.ret, .none⟩] := by decide +kernel
  have hspans : (Call.regions loopCalls).map (placed (position loopCalls)) =
      [⟨⟨0, 23⟩, ⟨23, 1⟩, .finallyBlock⟩] := by decide +kernel
  exact ⟨b, body, h, hbody, hinstructions ▸ hread, hspans ▸ hplaced⟩

end Builder

end ManagedCode
