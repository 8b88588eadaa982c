import ManagedCode.Proofs.Readers

/-!
# Encoded instructions

An instruction with its operand, the bytes that encode it at an offset, and the reader that takes code apart into
instructions (`Code.instructions`). A jump is encoded by the distance of its target from the next instruction, in one
byte or in four. Where the distances fit and the targets are inside of the code, reading gives back what was encoded
(`instructionsFrom_encodeFrom`).
-/

namespace ManagedCode

/-- The bytes of an operand of fixed size. -/
def OperandKind.width (k : OperandKind) : Nat := k.size?.getD 0

theorem OperandKind.size?_eq_width {k : OperandKind} (h : k ≠ .switch) : k.size? = some k.width := by
  cases k <;> first | rfl | exact absurd rfl h

/-- What stands behind an instruction. Jumps name their targets: by labels while the code is written, by offsets when
it is read. -/
inductive Operand (α : Type) where
  | none
  | int (value : BitVec 32)
  | long (value : BitVec 64)
  | single (bits : BitVec 32)
  | double (bits : BitVec 64)
  | slot (index : Nat)
  | token (t : Token)
  | target (t : α)
  | table (ts : List α)
  deriving DecidableEq, Repr

/-- An instruction with its operand. -/
structure Instruction (α : Type) where
  op : Opcode
  operand : Operand α
  deriving DecidableEq, Repr

/-- A jump of an instruction: where to, which instruction is next, and whether the distance has one byte. -/
structure Jump (α : Type) where
  target : α
  next : Nat
  short : Bool
  deriving DecidableEq, Repr

variable {α β : Type}

/-- The jump, when its target is at an offset. -/
def Jump.to (j : Jump α) (t : Nat) : Jump Nat := ⟨t, j.next, j.short⟩

/-- How far a jump goes from the next instruction. -/
def Jump.delta (j : Jump Nat) : Int := (j.target : Int) - j.next

/-- A distance that the bytes of the jump can hold: any that four bytes can, or one of a signed byte. -/
def Jump.Fits (j : Jump Nat) : Prop := j.short = true → -128 ≤ j.delta ∧ j.delta ≤ 127

namespace Operand

def map (f : α → β) : Operand α → Operand β
  | .none => .none
  | .int v => .int v
  | .long v => .long v
  | .single bits => .single bits
  | .double bits => .double bits
  | .slot i => .slot i
  | .token t => .token t
  | .target t => .target (f t)
  | .table ts => .table (ts.map f)

/-- The operand is one of the kind, and fits its bytes. -/
def Suits (k : OperandKind) : Operand α → Prop
  | .none => k = .none
  | .int v => (k = .shortInt ∧ -128 ≤ v.toInt ∧ v.toInt ≤ 127) ∨ k = .int
  | .long _ => k = .long
  | .single _ => k = .shortReal
  | .double _ => k = .real
  | .slot i => (k = .shortVariable ∧ i < 256) ∨ (k = .variable ∧ i < 65536)
  | .token _ => k.isToken = true
  | .target _ => k = .shortBranch ∨ k = .branch
  | .table _ => k = .switch

def size (k : OperandKind) : Operand α → Nat
  | .table ts => 4 + ts.length * 4
  | _ => k.width

/-- The number that an operand other than a jump is written as. -/
def number : Operand α → Nat
  | .int v => v.toNat
  | .long v => v.toNat
  | .single bits => bits.toNat
  | .double bits => bits.toNat
  | .slot i => i
  | .token t => t.raw.toNat
  | _ => 0

/-- The bytes of an operand; `distance` gives those of a jump, as many as it is told. -/
def bytesWith (distance : Nat → α → List UInt8) (k : OperandKind) : Operand α → List UInt8
  | .target t => distance k.width t
  | .table ts => littleEndian 4 ts.length ++ ts.flatMap (distance 4)
  | o => littleEndian k.width o.number

theorem size_map (f : α → β) (k : OperandKind) (o : Operand α) : (o.map f).size k = o.size k := by
  cases o <;> simp [map, size]

theorem suits_map (f : α → β) (k : OperandKind) (o : Operand α) : (o.map f).Suits k ↔ o.Suits k := by
  cases o <;> rfl

theorem bytesWith_map (f : α → β) (d : Nat → β → List UInt8) (k : OperandKind) (o : Operand α) :
    (o.map f).bytesWith d k = o.bytesWith (fun width t => d width (f t)) k := by
  cases o <;> simp [map, bytesWith, number, List.flatMap_map]

theorem length_bytesWith {d : Nat → α → List UInt8} (hd : ∀ width t, (d width t).length = width) (k : OperandKind)
    (o : Operand α) : (o.bytesWith d k).length = o.size k := by
  have htable : ∀ ts : List α, (ts.flatMap (d 4)).length = ts.length * 4 := by
    intro ts
    induction ts with
    | nil => rfl
    | cons t ts ih =>
      simp only [List.flatMap_cons, List.length_append, ih, hd, List.length_cons]
      omega
  cases o <;> simp [bytesWith, size, length_littleEndian, hd, htable]

end Operand

namespace Instruction

/-- The jumps of an instruction, when `next` is the offset of the next one. -/
def jumps (next : Nat) (i : Instruction α) : List (Jump α) :=
  match i.operand with
  | .target t => [⟨t, next, i.op.operand == .shortBranch⟩]
  | .table ts => ts.map (⟨·, next, false⟩)
  | _ => []

def map (f : α → β) (i : Instruction α) : Instruction β := ⟨i.op, i.operand.map f⟩

def Suits (i : Instruction α) : Prop := i.operand.Suits i.op.operand

def size (i : Instruction α) : Nat := i.op.size + i.operand.size i.op.operand

def bytesWith (distance : Nat → α → List UInt8) (i : Instruction α) : List UInt8 :=
  i.op.encode ++ i.operand.bytesWith distance i.op.operand

/-- The bytes of the distance of a target from the next instruction. -/
def distance (next width t : Nat) : List UInt8 :=
  littleEndian width (BitVec.ofInt (8 * width) ((t : Int) - next)).toNat

/-- The bytes that encode an instruction at an offset. -/
def encode (pc : Nat) (i : Instruction Nat) : List UInt8 := i.bytesWith (distance (pc + i.size))

/-- How many bytes instructions take. -/
def total (is : List (Instruction α)) : Nat := (is.map size).sum

/-- The jumps of instructions that stand from an offset on. -/
def jumpsFrom : Nat → List (Instruction α) → List (Jump α)
  | _, [] => []
  | pc, i :: is => i.jumps (pc + i.size) ++ jumpsFrom (pc + i.size) is

/-- The bytes that encode instructions from an offset on. -/
def encodeFrom : Nat → List (Instruction Nat) → List UInt8
  | _, [] => []
  | pc, i :: is => i.encode pc ++ encodeFrom (pc + i.size) is

theorem size_map (f : α → β) (i : Instruction α) : (i.map f).size = i.size := by
  simp [map, size, Operand.size_map]

theorem length_encode_op (op : Opcode) : op.encode.length = op.size := by
  unfold Opcode.encode Opcode.size
  split <;> rfl

theorem length_bytesWith {d : Nat → α → List UInt8} (hd : ∀ width t, (d width t).length = width) (i : Instruction α) :
    (i.bytesWith d).length = i.size := by
  rw [bytesWith, List.length_append, length_encode_op, Operand.length_bytesWith hd, size]

theorem length_encode (pc : Nat) (i : Instruction Nat) : (i.encode pc).length = i.size :=
  length_bytesWith (fun _ _ => length_littleEndian _ _) i

theorem encode_map (f : α → Nat) (pc : Nat) (i : Instruction α) :
    (i.map f).encode pc = i.bytesWith fun width t => distance (pc + i.size) width (f t) := by
  rw [encode, size_map]
  simp [bytesWith, map, Operand.bytesWith_map]

theorem jumps_map (f : α → Nat) (next : Nat) (i : Instruction α) :
    (i.map f).jumps next = (i.jumps next).map fun j => j.to (f j.target) := by
  cases h : i.operand <;> simp [jumps, map, Operand.map, h, Jump.to, Function.comp_def]

theorem total_map (f : α → β) (is : List (Instruction α)) : total (is.map (map f)) = total is := by
  simp [total, Function.comp_def, size_map]

theorem jumpsFrom_map (f : α → Nat) (pc : Nat) (is : List (Instruction α)) :
    jumpsFrom pc (is.map (map f)) = (jumpsFrom pc is).map fun j => j.to (f j.target) := by
  induction is generalizing pc with
  | nil => rfl
  | cons i is ih => simp [jumpsFrom, ih, size_map, jumps_map]

theorem total_cons (i : Instruction α) (is : List (Instruction α)) : total (i :: is) = i.size + total is := by
  simp [total]

theorem length_encodeFrom (pc : Nat) (is : List (Instruction Nat)) : (encodeFrom pc is).length = total is := by
  induction is generalizing pc with
  | nil => rfl
  | cons i is ih => rw [encodeFrom, List.length_append, length_encode, ih, total_cons]

theorem size_pos (i : Instruction α) : 1 ≤ i.size := Nat.le_add_right_of_le i.op.size_pos

theorem length_le_total (is : List (Instruction α)) : is.length ≤ total is := by
  induction is with
  | nil => exact Nat.zero_le _
  | cons i is ih =>
    have hpos := i.size_pos
    rw [total_cons, List.length_cons]
    omega

end Instruction

/-! ## Instructions and their numbers -/

namespace Opcode

theorem mem_all (op : Opcode) : op ∈ all := by
  have h : all[op.ctorIdx]? = some op := by cases op <;> rfl
  exact List.mem_of_getElem? h

theorem find?_value (op : Opcode) : all.find? (·.value == op.value) = some op := by
  have h : ∀ op ∈ all, all.find? (·.value == op.value) = some op := by decide +kernel
  exact h op (mem_all op)

/-- A number of one byte is not the escape; a number of two bytes starts with it. -/
theorem value_bounds (op : Opcode) : (op.value < 256 ∧ op.value ≠ 0xFE) ∨ (0xFE00 ≤ op.value ∧ op.value < 0xFF00) := by
  have h : ∀ op ∈ all, (op.value < 256 ∧ op.value ≠ 0xFE) ∨ (0xFE00 ≤ op.value ∧ op.value < 0xFF00) := by
    decide +kernel
  exact h op (mem_all op)

theorem ofValue?_value (op : Opcode) : ofValue? op.value = some op := by
  rcases value_bounds op with ⟨hlt, -⟩ | ⟨hle, hlt⟩
  · rw [ofValue?_oneByte hlt, find?_value]
  · obtain ⟨n, hn⟩ : ∃ n, op.value = 0xFE00 + n := ⟨op.value - 0xFE00, by omega⟩
    rw [hn, ofValue?_twoByte (by omega), ← hn, find?_value]

end Opcode

/-! ## Bytes in code -/

namespace Code

variable {c : Code} {pc : Nat} {op : Opcode} {bytes : List UInt8}

/-- The code has these bytes from an offset on. -/
def HasAt (c : Code) (pc : Nat) (bytes : List UInt8) : Prop :=
  ∀ k, k < bytes.length → c.bytes[pc + k]? = bytes[k]?

theorem hasAt_append {xs ys : List UInt8} (h : c.HasAt pc (xs ++ ys)) :
    c.HasAt pc xs ∧ c.HasAt (pc + xs.length) ys := by
  constructor
  · intro k hk
    have := h k (by simp; omega)
    rwa [List.getElem?_append_left hk] at this
  · intro k hk
    have := h (xs.length + k) (by simp; omega)
    rwa [List.getElem?_append_right (by omega), Nat.add_sub_cancel_left, ← Nat.add_assoc] at this

theorem HasAt.le (h : c.HasAt pc bytes) (hpos : bytes ≠ []) : pc + bytes.length ≤ c.size := by
  have hlen := List.length_pos_iff.2 hpos
  have hlast := h (bytes.length - 1) (by omega)
  rw [List.getElem?_eq_getElem (by omega)] at hlast
  obtain ⟨hlt, -⟩ := Array.getElem?_eq_some_iff.1 hlast
  unfold size
  omega

theorem readAt_of_hasAt {count offset : Nat} (h : c.HasAt offset bytes) (hc : bytes.length = count) (hpos : 0 < count) :
    c.readAt count offset pc = .ok (ofLittleEndian bytes) := by
  have hle := h.le (List.ne_nil_of_length_pos (by omega))
  have hextract : (c.bytes.extract offset (offset + count)).toList = bytes := by
    apply List.ext_getElem?
    intro k
    unfold size at hle
    by_cases hk : k < bytes.length
    · simp only [Array.getElem?_toList, Array.getElem?_extract, ← h k hk]
      rw [if_pos (by omega)]
    · have hlen : (c.bytes.extract offset (offset + count)).toList.length = count := by
        simp only [Array.length_toList, Array.size_extract]
        omega
      rw [List.getElem?_eq_none (by omega), List.getElem?_eq_none (by omega)]
  rw [readAt, if_pos (by omega), hextract]

/-- An encoded instruction is read. -/
theorem opcodeAt_of_hasAt (h : c.HasAt pc op.encode) : c.opcodeAt pc = .ok op := by
  have hvalue := Opcode.ofValue?_value op
  unfold Opcode.encode at h
  rcases Opcode.value_bounds op with ⟨hlt, hne⟩ | ⟨hle, hlt⟩
  · rw [if_neg (by omega)] at h
    have hfirst : c.bytes[pc]? = some (UInt8.ofNat op.value) := h 0 (by simp)
    have hescape : UInt8.ofNat op.value ≠ Opcode.escape := by
      intro he
      have := congrArg UInt8.toNat he
      rw [UInt8.toNat_ofNat_of_lt' hlt] at this
      exact hne this
    simp only [opcodeAt, hfirst, if_neg hescape, opcodeAt.found, UInt8.toNat_ofNat_of_lt' hlt, hvalue]
  · rw [if_pos (by omega)] at h
    have hfirst : c.bytes[pc]? = some Opcode.escape := h 0 (by simp)
    have hsecond : c.bytes[pc + 1]? = some (UInt8.ofNat op.value) := h 1 (by simp)
    have hnumber : 0xFE00 + (UInt8.ofNat op.value).toNat = op.value := by
      rw [UInt8.toNat_ofNat']
      omega
    simp only [opcodeAt, hfirst, hsecond, if_true, opcodeAt.found, hnumber, hvalue]

/-- A number behind an instruction is read, as far as the bytes go. -/
theorem operand_of_hasAt {count n : Nat} (ho : c.opcodeAt pc = .ok op)
    (h : c.HasAt (pc + op.size) (littleEndian count n)) (hpos : 0 < count) :
    c.operand count pc = .ok (n % 256 ^ count) := by
  rw [operand_eq ho, readAt_of_hasAt h (length_littleEndian _ _) hpos, ofLittleEndian_littleEndian]

theorem word_of_hasAt {n : Nat} (width : Nat) (ho : c.opcodeAt pc = .ok op)
    (h : c.HasAt (pc + op.size) (littleEndian (width / 8) n)) (hw : 8 * (width / 8) = width) (hpos : 0 < width) :
    c.word width pc = .ok (BitVec.ofNat width n) := by
  have hpow : 256 ^ (width / 8) = 2 ^ width := by
    rw [show 256 = 2 ^ 8 from rfl, ← Nat.pow_mul, hw]
  rw [word, operand_of_hasAt ho h (by omega), hpow]
  show Except.ok (BitVec.ofNat width (n % 2 ^ width)) = _
  congr 1
  apply BitVec.eq_of_toNat_eq
  simp

/-! ## Reading instructions -/

/-- The operand of the instruction at an offset. -/
def operandOf (c : Code) (pc : Nat) (op : Opcode) : Except EngineError (Operand Nat) :=
  match op.operand with
  | .none => return .none
  | .shortInt => return .int ((← c.word 8 pc).signExtend 32)
  | .int => return .int (← c.word 32 pc)
  | .long => return .long (← c.word 64 pc)
  | .shortReal => return .single (← c.word 32 pc)
  | .real => return .double (← c.word 64 pc)
  | .shortVariable | .variable => return .slot (← c.slotIndex pc)
  | .shortBranch | .branch => return .target (← c.branchTarget pc)
  | .switch => return .table (← c.switchTargets pc)
  | .method | .field | .type | .token | .string | .signature => return .token (← c.token pc)

/-- The instructions from an offset to the end of the code. -/
def instructionsFrom (c : Code) : (fuel pc : Nat) → Except EngineError (List (Instruction Nat))
  | 0, _ => return []
  | fuel + 1, pc => do
    if c.size ≤ pc then return []
    let op ← c.opcodeAt pc
    let operand ← c.operandOf pc op
    let next ← c.nextOffset pc
    return ⟨op, operand⟩ :: (← c.instructionsFrom fuel next)

/-- The instructions of the code. Every instruction has at least one byte, so the code's size bounds their number. -/
def instructions (c : Code) : Except EngineError (List (Instruction Nat)) := c.instructionsFrom c.size 0

/-- **A distance is read back**, if it fits its bytes and leads inside of the code. -/
theorem target?_distance {next t : Nat} (width : Nat) (ht : t < c.size)
    (hlo : -(2 ^ (8 * width - 1) : Int) ≤ (t : Int) - next)
    (hhi : (t : Int) - next < 2 ^ (8 * width - 1)) (hpos : 0 < width) :
    c.target? next (BitVec.ofInt (8 * width) ((t : Int) - next)).toInt = some t := by
  have hint : (BitVec.ofInt (8 * width) ((t : Int) - next)).toInt = (t : Int) - next := by
    rw [BitVec.toInt_ofInt, Int.bmod_eq_of_le_mul_two]
    · have : (2 ^ (8 * width) : Int) = 2 * 2 ^ (8 * width - 1) := by
        rw [← Int.pow_succ', show 8 * width - 1 + 1 = 8 * width by omega]
      push_cast
      omega
    · have : (2 ^ (8 * width) : Int) = 2 * 2 ^ (8 * width - 1) := by
        rw [← Int.pow_succ', show 8 * width - 1 + 1 = 8 * width by omega]
      push_cast
      omega
  rw [target?, hint]
  simp only [show (next : Int) + ((t : Int) - next) = t by omega]
  rw [if_pos (by omega)]
  rfl

variable {i : Instruction Nat} {next : Nat}

/-- Where an encoded instruction and its operand stand. -/
theorem HasAt.parts (h : c.HasAt pc (i.encode pc)) : c.opcodeAt pc = .ok i.op ∧ pc + i.size ≤ c.size ∧
    c.HasAt (pc + i.op.size) (i.operand.bytesWith (Instruction.distance (pc + i.size)) i.op.operand) := by
  have hlen := Instruction.length_encode pc i
  have hle := h.le (List.ne_nil_of_length_pos (by rw [hlen]; exact i.size_pos))
  obtain ⟨hop, hoperand⟩ := hasAt_append h
  rw [Instruction.length_encode_op] at hoperand
  exact ⟨opcodeAt_of_hasAt hop, by omega, hoperand⟩

/-- **An encoded instruction ends where its bytes do.** -/
theorem nextOffset_of_encode (hs : i.Suits) (h : c.HasAt pc (i.encode pc)) (hsize : c.size < 2 ^ 31) :
    c.nextOffset pc = .ok (pc + i.size) := by
  obtain ⟨hop, hle, hoperand⟩ := h.parts
  obtain ⟨op, operand⟩ := i
  have hfixed : op.operand ≠ .switch → Operand.size op.operand operand = op.operand.width →
      c.nextOffset pc = .ok (pc + Instruction.size ⟨op, operand⟩) := by
    intro hne hwidth
    simp only [Instruction.size, hwidth] at hle ⊢
    simp only [nextOffset, hop, OperandKind.size?_eq_width hne, bind, Except.bind, pure, Except.pure, Nat.add_assoc,
      hle, if_true]
  cases operand with
  | table ts =>
    have hk : op.operand = .switch := hs
    have hcount := (hasAt_append hoperand).1
    have hlen : ts.length % 256 ^ 4 = ts.length := by
      simp only [Instruction.size, Operand.size] at hle
      omega
    have hread : c.readAt 4 (pc + op.size) pc = .ok ts.length := by
      rw [readAt_of_hasAt hcount (length_littleEndian _ _) (by omega), ofLittleEndian_littleEndian, hlen]
    simp only [Instruction.size, Operand.size, ← Nat.add_assoc] at hle ⊢
    simp only [nextOffset, hop, hk, OperandKind.size?, hread, bind, Except.bind, pure, Except.pure, hle, if_true]
  | none => exact hfixed (by rw [show op.operand = .none from hs]; decide) rfl
  | int v => exact hfixed (by rcases hs with ⟨hk, -⟩ | hk <;> rw [hk] <;> decide) rfl
  | long v => exact hfixed (by rw [show op.operand = .long from hs]; decide) rfl
  | single v => exact hfixed (by rw [show op.operand = .shortReal from hs]; decide) rfl
  | double v => exact hfixed (by rw [show op.operand = .real from hs]; decide) rfl
  | slot n => exact hfixed (by rcases hs with ⟨hk, -⟩ | ⟨hk, -⟩ <;> rw [hk] <;> decide) rfl
  | token t => exact hfixed (by intro hk; rw [Instruction.Suits, hk] at hs; cases hs) rfl
  | target t => exact hfixed (by rcases hs with hk | hk <;> rw [hk] <;> decide) rfl

/-- A distance behind an instruction is read. -/
theorem word_of_distance {next t : Nat} (width : Nat) (ho : c.opcodeAt pc = .ok op)
    (h : c.HasAt (pc + op.size) (Instruction.distance next (width / 8) t)) (hw : 8 * (width / 8) = width)
    (hpos : 0 < width) : c.word width pc = .ok (BitVec.ofInt width ((t : Int) - next)) := by
  rw [Instruction.distance, hw] at h
  rw [word_of_hasAt width ho h hw hpos, BitVec.ofNat_toNat, BitVec.setWidth_eq]

/-- A number of a signed byte is read back. -/
theorem signExtend_ofNat {v : BitVec 32} (hlo : -128 ≤ v.toInt) (hhi : v.toInt ≤ 127) :
    (BitVec.ofNat 8 v.toNat).signExtend 32 = v := by
  apply BitVec.eq_of_toInt_eq
  have hlt := v.isLt
  rw [BitVec.toInt_signExtend_of_le (by decide)]
  simp only [BitVec.toInt_eq_toNat_cond, BitVec.toNat_ofNat] at hlo hhi ⊢
  omega

/-- **The targets of an encoded jump table are read.** -/
theorem tableTargets_of_encode (hsize : c.size < 2 ^ 31) (hnext : next ≤ c.size) : ∀ (ts : List Nat) (offset : Nat),
    c.HasAt offset (ts.flatMap (Instruction.distance next 4)) → (∀ t ∈ ts, t < c.size) →
    c.tableTargets pc next ts.length offset = .ok ts
  | [], _, _, _ => rfl
  | t :: ts, offset, h, hts => by
    rw [List.flatMap_cons] at h
    obtain ⟨hfirst, hrest⟩ := hasAt_append h
    have hlen : (Instruction.distance next 4 t).length = 4 := length_littleEndian _ _
    rw [hlen] at hrest
    have ht := hts t List.mem_cons_self
    have hread : c.readAt 4 offset pc = .ok (BitVec.ofInt 32 ((t : Int) - next)).toNat := by
      have hmod : (BitVec.ofInt 32 ((t : Int) - next)).toNat % 256 ^ 4 = (BitVec.ofInt 32 ((t : Int) - next)).toNat :=
        Nat.mod_eq_of_lt (BitVec.isLt _)
      rw [readAt_of_hasAt hfirst hlen (by decide), Instruction.distance, ofLittleEndian_littleEndian]
      exact congrArg Except.ok hmod
    have htarget : c.target? next (BitVec.ofInt 32 ((t : Int) - next)).toInt = some t :=
      target?_distance 4 ht (by omega) (by omega) (by decide)
    have ih := tableTargets_of_encode hsize hnext ts (offset + 4) hrest fun t ht => hts t (List.mem_cons_of_mem _ ht)
    simp only [List.length_cons, tableTargets, hread, BitVec.ofNat_toNat, BitVec.setWidth_eq, htarget, ih, bind,
      Except.bind, pure, Except.pure]

/-- **The operand of an encoded instruction is read**, if its jumps fit and lead inside of the code. -/
theorem operandOf_of_encode (hs : i.Suits) (h : c.HasAt pc (i.encode pc)) (hsize : c.size < 2 ^ 31)
    (hjumps : ∀ j ∈ i.jumps (pc + i.size), j.target < c.size ∧ j.Fits) : c.operandOf pc i.op = .ok i.operand := by
  have hnext := nextOffset_of_encode hs h hsize
  obtain ⟨hop, hle, hoperand⟩ := h.parts
  obtain ⟨op, operand⟩ := i
  cases operand with
  | none =>
    have hk : op.operand = .none := hs
    simp only [operandOf, hk]
    rfl
  | int v =>
    rcases hs with ⟨hk, hlo, hhi⟩ | hk
    · rw [hk] at hoperand
      have hword : c.word 8 pc = .ok (BitVec.ofNat 8 v.toNat) := word_of_hasAt 8 hop hoperand rfl (by decide)
      simp only [operandOf, hk, hword, bind, Except.bind, pure, Except.pure, signExtend_ofNat hlo hhi]
    · replace hk : op.operand = .int := hk
      rw [hk] at hoperand
      simp [operandOf, hk, word_of_hasAt 32 hop hoperand rfl, Operand.number, bind, Except.bind, pure, Except.pure]
  | long v =>
    have hk : op.operand = .long := hs
    rw [hk] at hoperand
    simp [operandOf, hk, word_of_hasAt 64 hop hoperand rfl, Operand.number, bind, Except.bind, pure, Except.pure]
  | single bits =>
    have hk : op.operand = .shortReal := hs
    rw [hk] at hoperand
    simp [operandOf, hk, word_of_hasAt 32 hop hoperand rfl, Operand.number, bind, Except.bind, pure, Except.pure]
  | double bits =>
    have hk : op.operand = .real := hs
    rw [hk] at hoperand
    simp [operandOf, hk, word_of_hasAt 64 hop hoperand rfl, Operand.number, bind, Except.bind, pure, Except.pure]
  | slot n =>
    rcases hs with ⟨hk, hn⟩ | ⟨hk, hn⟩
    · rw [hk] at hoperand
      have hread : c.operand 1 pc = .ok n :=
        (operand_of_hasAt hop hoperand (by decide)).trans (congrArg Except.ok (Nat.mod_eq_of_lt hn))
      simp only [operandOf, slotIndex, hop, hk, hread, bind, Except.bind, pure, Except.pure]
    · rw [hk] at hoperand
      have hread : c.operand 2 pc = .ok n :=
        (operand_of_hasAt hop hoperand (by decide)).trans (congrArg Except.ok (Nat.mod_eq_of_lt hn))
      simp only [operandOf, slotIndex, hop, hk, hread, bind, Except.bind, pure, Except.pure]
  | token t =>
    have hread : c.HasAt (pc + op.size) (littleEndian 4 t.raw.toNat) → c.token pc = .ok t := by
      intro hbytes
      simp [token, word_of_hasAt 32 hop hbytes rfl, bind, Except.bind, pure, Except.pure]
    have htoken : op.operand.isToken = true := hs
    -- every kind of token is read alike
    cases hk : op.operand <;> rw [hk] at htoken <;> cases htoken
    all_goals
      rw [hk] at hoperand
      simp only [operandOf, hk, hread hoperand, bind, Except.bind, pure, Except.pure]
  | target t =>
    obtain ⟨ht, hfits⟩ := hjumps _ List.mem_cons_self
    simp only [Jump.Fits, Jump.delta] at ht hfits
    generalize pc + Instruction.size ⟨op, .target t⟩ = next at hnext hle hoperand hfits
    rcases hs with hk | hk
    · rw [hk] at hoperand hfits
      have hdelta := hfits rfl
      have htarget : c.target? next (BitVec.ofInt 8 ((t : Int) - next)).toInt = some t :=
        target?_distance 1 ht (by omega) (by omega) (by decide)
      have hword : c.word 8 pc = .ok (BitVec.ofInt 8 ((t : Int) - next)) :=
        word_of_distance 8 hop hoperand rfl (by decide)
      simp only [operandOf, hk, branchTarget, hnext, hop, hword, htarget, bind, Except.bind, pure, Except.pure]
    · replace hk : op.operand = .branch := hk
      rw [hk] at hoperand
      have htarget : c.target? next (BitVec.ofInt 32 ((t : Int) - next)).toInt = some t :=
        target?_distance 4 ht (by omega) (by omega) (by decide)
      have hword : c.word 32 pc = .ok (BitVec.ofInt 32 ((t : Int) - next)) :=
        word_of_distance 32 hop hoperand rfl (by decide)
      simp only [operandOf, hk, branchTarget, hnext, hop, hword, htarget, bind, Except.bind, pure, Except.pure]
  | table ts =>
    have hk : op.operand = .switch := hs
    have htargets : ∀ t ∈ ts, t < c.size := fun t ht => (hjumps _ (List.mem_map_of_mem ht)).1
    obtain ⟨count, hcount, -, hswitch⟩ := switchTargets_eq hnext hop (by rw [hk]; rfl)
    have hcount : count = ts.length := by
      simp only [Instruction.size, Operand.size] at hcount
      omega
    have htable := (hasAt_append hoperand).2
    rw [length_littleEndian] at htable
    rw [hcount, tableTargets_of_encode hsize hle ts _ htable htargets] at hswitch
    simp only [operandOf, hk, hswitch, bind, Except.bind, pure, Except.pure]

open Instruction in
/-- **Reading code gives back the instructions that it encodes.** -/
theorem instructionsFrom_encodeFrom (hsize : c.size < 2 ^ 31) : ∀ (is : List (Instruction Nat)) (fuel pc : Nat),
    is.length ≤ fuel → pc + total is = c.size → (∀ i ∈ is, i.Suits) → c.HasAt pc (encodeFrom pc is) →
    (∀ j ∈ jumpsFrom pc is, j.target < c.size ∧ j.Fits) → c.instructionsFrom fuel pc = .ok is
  | [], 0, _, _, _, _, _, _ => rfl
  | [], fuel + 1, pc, _, hend, _, _, _ => by
    have hout : c.size ≤ pc := Nat.le_of_eq hend.symm
    simp only [instructionsFrom, if_pos hout]
    rfl
  | i :: is, fuel + 1, pc, hfuel, hend, hs, h, hjumps => by
    obtain ⟨hi, his⟩ := hasAt_append h
    rw [length_encode] at his
    rw [total_cons] at hend
    have hpos := i.size_pos
    have hin : ¬ c.size ≤ pc := by omega
    have hsi := hs i List.mem_cons_self
    have hop := hi.parts.1
    have hoperand := operandOf_of_encode hsi hi hsize fun j hj => hjumps j (List.mem_append_left _ hj)
    have hrest := instructionsFrom_encodeFrom hsize is fuel (pc + i.size) (Nat.le_of_succ_le_succ hfuel) (by omega)
      (fun k hk => hs k (List.mem_cons_of_mem _ hk)) his fun j hj => hjumps j (List.mem_append_right _ hj)
    simp only [instructionsFrom, if_neg hin, hop, hoperand, nextOffset_of_encode hsi hi hsize, hrest, bind, Except.bind,
      pure, Except.pure]

end Code

end ManagedCode
