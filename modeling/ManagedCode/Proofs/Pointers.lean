import ManagedCode.Proofs.Integers

/-!
# Pointers into arrays

A pointer into an array moves by bytes, forward by addition and backward by subtraction, and the difference of two
pointers is a number of bytes again. `movedIndex` says where such a move leads, in numbers; that it is an action of the
numbers of bytes is arithmetic. `Opcode.Combines` says what an instruction makes of two operands, wherever they lie at
the top of a stack: the instructions are shown to follow `movedIndex`, so the laws hold of them. `Opcode.Crashes` is
what becomes of a difference that no word counts.
-/

namespace ManagedCode

/-! ## Moves in numbers -/

/-- **Where a move by a number of bytes leads** from an index, in an array whose elements have `size` bytes. The bytes
have to be whole elements, and the index that they lead to one that a signed word counts. -/
def movedIndex (size index : Nat) (bytes : Int) : Except Unsupported Nat :=
  if (size : Int) ∣ bytes then
    if 0 ≤ index + bytes / size ∧ index + bytes / size < 2 ^ 63 then .ok (index + bytes / size).toNat
    else .error .beforeArray
  else .error (.partialElement bytes size)

/-- A signed word stands for the number. -/
def FitsNative (n : Int) : Prop := -2 ^ 63 ≤ n ∧ n < 2 ^ 63

section

variable {size i j k : Nat} {n m : Int}

theorem toInt_ofInt_of_fits (h : FitsNative n) : (BitVec.ofInt 64 n).toInt = n := by
  obtain ⟨hlow, hhigh⟩ := h
  rw [BitVec.toInt_ofInt, Int.bmod_eq_of_le (by omega) (by omega)]

theorem movedIndex_eq_ok : movedIndex size i n = .ok j ↔ (size : Int) ∣ n ∧ i + n / size = j ∧ j < 2 ^ 63 := by
  unfold movedIndex
  generalize (i : Int) + n / size = moved
  by_cases hdvd : (size : Int) ∣ n
  · rw [if_pos hdvd, and_iff_right hdvd]
    by_cases hrange : 0 ≤ moved ∧ moved < 2 ^ 63
    · rw [if_pos hrange, Except.ok.injEq]
      omega
    · rw [if_neg hrange]
      exact ⟨nofun, fun hj => absurd ⟨by omega, by omega⟩ hrange⟩
  · rw [if_neg hdvd]
    exact ⟨nofun, fun hj => absurd hj.1 hdvd⟩

/-- The way back is as long as the way. -/
theorem distance_movedIndex (h : movedIndex size i n = .ok j) : ((j : Int) - i) * size = n := by
  obtain ⟨hdvd, hj, -⟩ := movedIndex_eq_ok.1 h
  rw [← hj, show (i : Int) + n / size - i = n / size by omega, Int.ediv_mul_cancel hdvd]

/-- Two moves are the move by both numbers of bytes. -/
theorem movedIndex_add (h : movedIndex size i n = .ok j) (h' : movedIndex size j m = .ok k) :
    movedIndex size i (n + m) = .ok k := by
  obtain ⟨hn, hj, -⟩ := movedIndex_eq_ok.1 h
  obtain ⟨hm, hk, hlt⟩ := movedIndex_eq_ok.1 h'
  refine movedIndex_eq_ok.2 ⟨Int.dvd_add hn hm, ?_, hlt⟩
  rw [Int.add_ediv_of_dvd_left hn, ← Int.add_assoc, hj, hk]

end

/-! ## What the instructions make of two operands -/

/-- A pointer to an element of an array. -/
def Value.element (array : Ref) (index : Nat) : Value := .pointer (.element (some array) index)

/-- The number of bytes that an operand beside a pointer stands for. -/
def Value.byteCount? : Value → Option Int
  | .int32 n => some n.toInt
  | .nativeInt n => some n.toInt
  | _ => none

/-- The reference is to an array whose elements have `size` bytes. -/
def Heap.ElementsOf (md : Metadata) (h : Heap) (array : Ref) (size : Nat) : Prop :=
  (elementSize md (some array)).run h = (.ok size, h)

/-- **What an instruction makes of the operands `x` and `y`**, the second on top, wherever they lie at the top of a
stack above the heap `h` and the annotation names their types: the answer takes their place, or the instruction is not
supported. Nothing else changes. -/
def Opcode.Combines (md : Metadata) (h : Heap) (op : Opcode) (x y : Value) (answer : Except Unsupported Value) : Prop :=
  ∀ (p : Prepared) (pc : Nat) (s : Workspace), s.machine.metadata = md → s.machine.heap = h → s.Tops p [y, x] →
    p.analysis.operandTypes? pc = OperandTypes.pair? x.stackType y.stackType →
    (ExecM.instruction p pc op).run s = match answer with
      | .ok v => (.ok .advance, s.written 2 v)
      | .error u => (.error (.ofError (.notImplemented u)), s)

/-- **The instruction crashes on the operands `x` and `y`**, the second on top, wherever they lie at the top of a stack
above the heap `h` and the annotation names their types. -/
def Opcode.Crashes (md : Metadata) (h : Heap) (op : Opcode) (x y : Value) : Prop :=
  ∀ (p : Prepared) (pc : Nat) (s : Workspace), s.machine.metadata = md → s.machine.heap = h → s.Tops p [y, x] →
    p.analysis.operandTypes? pc = OperandTypes.pair? x.stackType y.stackType →
    (ExecM.instruction p pc op).run s = (.error (.abort .crash), s)

/-- An element of an array has at least one byte. -/
theorem Heap.ElementsOf.pos {md : Metadata} {h : Heap} {array : Ref} {size : Nat} (hs : h.ElementsOf md array size) :
    0 < size := by
  have hsizeOf : ∀ type : TypeSymbol, Maintains (fun _ : Heap => True) (sizeOf md type) fun n => 0 < n := by
    intro type
    have hkind : ∀ k : Kind, 0 < k.size := by intro k; cases k <;> decide
    unfold sizeOf
    split
    · exact (maintains_orEndless _).bind fun fields _ => .pure (Nat.lt_of_lt_of_le Nat.one_pos (Nat.le_max_left ..))
    · exact .pure (hkind _)
  have hmeets : Meets (elementSize md (some array)) h (fun n _ => 0 < n) fun _ _ => True := by
    refine Meets.bind (Q := fun _ _ => True) ?_ fun found h' _ => (hsizeOf _ h' trivial).mono (fun _ _ hn => hn.1) ?_
    · exact Meets.get_bind (by split <;> trivial)
    · exact fun _ _ _ => trivial
  exact hmeets.of_ok hs

namespace ExecM

/-- The computation gives the answer, or is not supported, and changes nothing. -/
def Yields {α : Type} (x : ExecM α) (s : Workspace) (answer : Except Unsupported α) : Prop :=
  x.run s = (answer.mapError fun u => .ofError (.notImplemented u), s)

variable {array : Ref} {size i j : Nat} {p : Prepared} {pc : Nat} {s : Workspace} {op : Opcode} {vs : List Value}
  {x y : Value} {n : Int}

theorem Yields.map {α β : Type} {x : ExecM α} {answer : Except Unsupported α} (h : x.Yields s answer) (f : α → β) :
    (do return f (← x) : ExecM β).Yields s (answer.map f) := by
  unfold Yields at h ⊢
  rw [Meets.run_bind, h]
  cases answer <;> rfl

/-- A first line that gave a result leaves the rest to run. -/
theorem Yields.of_bind {α β : Type} {x : ExecM α} {f : α → ExecM β} {a : α} {answer : Except Unsupported β}
    (hx : x.run s = (.ok a, s)) (hf : (f a).Yields s answer) : (x >>= f).Yields s answer :=
  (run_bind_ok hx).trans hf

theorem signedIndex_eq (hi : i < 2 ^ 63) : signedIndex i = i := by
  unfold signedIndex
  rw [BitVec.toInt_eq_toNat_of_lt] <;> rw [BitVec.toNat_ofNat] <;> omega

/-- What can be asked of the heap without an effect. -/
theorem onHeap_run_ok {α : Type} {x : HeapM α} {a : α} (hx : x.run s.machine.heap = (.ok a, s.machine.heap)) :
    (onHeap x).run s = (.ok a, s) := by
  have hrun : (HeapTrapM.ofHeap x).run s.machine.heap = (.ok a, s.machine.heap) := by
    show (Except.mapError HeapFailure.trap (x.run s.machine.heap).1, (x.run s.machine.heap).2) = _
    rw [hx]
    rfl
  unfold onHeap
  rw [onHeapTrap_run, hrun]

theorem elementSize_run (hs : s.machine.heap.ElementsOf s.machine.metadata array size) :
    (onHeap (Heap.elementSize s.machine.metadata (some array))).run s = (.ok size, s) := onHeap_run_ok hs

/-- **The numbers of a move line up** with what the machine computes on words. -/
theorem offsetPointer_yields (hs : s.machine.heap.ElementsOf s.machine.metadata array size) (hi : i < 2 ^ 63)
    (n : Int) : (offsetPointer (.element (some array) i) n).Yields s
      ((movedIndex size i n).map (.element (some array))) := by
  have hpos := hs.pos
  unfold offsetPointer movedIndex
  refine .of_bind (a := s.machine.metadata) rfl (.of_bind (elementSize_run hs) ?_)
  rw [signedIndex_eq hi]
  by_cases hdvd : (size : Int) ∣ n
  · rw [if_pos hdvd, if_neg, Int.tdiv_eq_ediv_of_dvd hdvd]
    · generalize (i : Int) + n / size = moved
      dsimp only
      split <;> rfl
    · simp [Nat.ne_of_gt hpos, Int.tmod_eq_zero_of_dvd hdvd]
  · rw [if_neg hdvd, if_pos]
    · rfl
    · exact .inr fun h => hdvd (Int.dvd_of_tmod_eq_zero h)

theorem movedPointer_yields (hs : s.machine.heap.ElementsOf s.machine.metadata array size) (hi : i < 2 ^ 63)
    (n : Int) : (do return .pointer (← offsetPointer (.element (some array) i) n) : ExecM Value).Yields s
      ((movedIndex size i n).map (.element array)) := by
  have hmap := (offsetPointer_yields hs hi n).map Value.pointer
  cases hmoved : movedIndex size i n <;> rw [hmoved] at hmap <;> exact hmap

theorem checkedWord_fits (h : FitsNative n) : checkedWord n = pure (BitVec.ofInt 64 n) := if_pos h

theorem checkedWord_crash (h : ¬ FitsNative n) : checkedWord n = throw (.abort .crash) := if_neg h

/-- The difference in elements always has a word, so that the one in bytes decides. -/
theorem pointerDifference_run (hs : s.machine.heap.ElementsOf s.machine.metadata array size) (hi : i < 2 ^ 63)
    (hj : j < 2 ^ 63) : (pointerDifference (.element (some array) j) (.element (some array) i)).run s =
      (checkedWord (((j : Int) - i) * size)).run s := by
  have hdistance : FitsNative ((j : Int) - i) := by
    unfold FitsNative
    omega
  unfold pointerDifference
  dsimp only
  rw [if_pos rfl, signedIndex_eq hi, signedIndex_eq hj, checkedWord_fits hdistance]
  refine (run_bind_ok (a := s.machine.metadata) rfl).trans ((run_bind_ok (elementSize_run hs)).trans ?_)
  rw [pure_bind, toInt_ofInt_of_fits hdistance]

/-- An operand of either type stands for a number of bytes. -/
theorem byteCount_run {k : Nat} (h : s.Tops p vs) (hy : vs[k]? = some y) (hn : y.byteCount? = some n) :
    ∃ a : BitVec 64, a.toInt = n ∧ (nativeAt p k).run s = (.ok a, s) := by
  cases y with
  | int32 a =>
    obtain rfl : a.toInt = n := by simpa [Value.byteCount?] using hn
    have ha : (a.signExtend 64).toInt = a.toInt := BitVec.toInt_signExtend_of_le (by decide)
    exact ⟨_, ha, nativeAt_run_int32 h hy ha⟩
  | nativeInt a => exact ⟨a, by simpa [Value.byteCount?] using hn, nativeAt_run h hy⟩
  | int64 | float | object | pointer => cases hn

theorem pointerAt_run {k : Nat} (h : s.Tops p vs) (hy : vs[k]? = some (.element array i)) :
    (pointerAt p k).run s = (.ok (.element (some array) i), s) := operand_run h hy rfl

/-- Where a pointer on the left moves, by the bytes that the operation makes of those on the right. -/
theorem binaryResult_right {b : BinaryOp} {moved : Int}
    (hs : s.machine.heap.ElementsOf s.machine.metadata array size) (hi : i < 2 ^ 63)
    (h : s.Tops p [y, .element array i]) (hy : y.byteCount? = some n)
    (ht : p.analysis.operandTypes? pc = OperandTypes.pair? (Value.element array i).stackType y.stackType)
    (hoffset : ∀ ts (a : BitVec 64), a.toInt = n → pointerOffset op b ts a = pure moved) :
    (binaryResult p pc op b).Yields s ((movedIndex size i moved).map (.element array)) := by
  obtain ⟨a, ha, hread⟩ := byteCount_run h (k := 0) rfl hy
  have htypes : p.analysis.operandTypes? pc = some .pointerInt32 ∨
      p.analysis.operandTypes? pc = some .pointerNativeInt := by
    cases y with
    | int32 => exact .inl ht
    | nativeInt => exact .inr ht
    | int64 | float | object | pointer => cases hy
  unfold binaryResult
  rcases htypes with hts | hts
  all_goals
    refine .of_bind (operandTypes_run hts) (.of_bind hread ?_)
    rw [hoffset _ a ha]
    exact .of_bind rfl (.of_bind (pointerAt_run h rfl) (movedPointer_yields hs hi moved))

/-- Where a pointer on the right moves. -/
theorem binaryResult_left {b : BinaryOp} (hs : s.machine.heap.ElementsOf s.machine.metadata array size)
    (hi : i < 2 ^ 63) (h : s.Tops p [.element array i, y]) (hy : y.byteCount? = some n)
    (ht : p.analysis.operandTypes? pc = OperandTypes.pair? y.stackType (Value.element array i).stackType) :
    (binaryResult p pc op b).Yields s ((movedIndex size i n).map (.element array)) := by
  obtain ⟨a, rfl, hread⟩ := byteCount_run h (k := 1) rfl hy
  have htypes : p.analysis.operandTypes? pc = some .int32Pointer ∨
      p.analysis.operandTypes? pc = some .nativeIntPointer := by
    cases y with
    | int32 => exact .inl ht
    | nativeInt => exact .inr ht
    | int64 | float | object | pointer => cases hy
  unfold binaryResult
  rcases htypes with hts | hts
  all_goals
    refine .of_bind (operandTypes_run hts) (.of_bind (pointerAt_run h rfl) (.of_bind hread ?_))
    exact movedPointer_yields hs hi a.toInt

end ExecM

section

variable {md : Metadata} {h : Heap} {array : Ref} {size i j k : Nat} {b : BinaryOp} {x y z : Value} {n m : Int}

theorem BinaryOp.instruction_opcode (b : BinaryOp) (p : Prepared) (pc : Nat) :
    ExecM.instruction p pc b.opcode = ExecM.binary p pc b.opcode b := by
  have haction : b.opcode.action = .binary b := by cases b <;> rfl
  unfold ExecM.instruction
  rw [haction]

/-- The instruction writes what it computes from its operands. -/
theorem BinaryOp.combines_of_yields {answer : Except Unsupported Value}
    (hresult : ∀ (p : Prepared) (pc : Nat) (s : Workspace), s.machine.metadata = md → s.machine.heap = h →
      s.Tops p [y, x] → p.analysis.operandTypes? pc = OperandTypes.pair? x.stackType y.stackType →
      (ExecM.binaryResult p pc b.opcode b).Yields s answer) : b.opcode.Combines md h x y answer := by
  intro p pc s hmd hh htops ht
  have hrun := hresult p pc s hmd hh htops ht
  rw [instruction_opcode, ExecM.binary]
  cases answer with
  | ok v =>
    rw [ExecM.run_bind_ok hrun, ExecM.run_bind_ok (ExecM.result_run 2 htops rfl Nat.two_pos v)]
    rfl
  | error u =>
    rw [Meets.run_bind, hrun]
    rfl

/-- **Addition moves a pointer on its left** by the bytes on its right. -/
theorem BinaryOp.combines_add (hs : h.ElementsOf md array size) (hi : i < 2 ^ 63) (hy : y.byteCount? = some n)
    (hb : b = .add ∨ b = .addOvfUn) :
    b.opcode.Combines md h (.element array i) y ((movedIndex size i n).map (.element array)) := by
  refine combines_of_yields fun p pc s hmd hh htops ht => ?_
  subst hmd hh
  refine ExecM.binaryResult_right hs hi htops hy ht fun ts a ha => ?_
  rw [← ha]
  rcases hb with rfl | rfl <;> rfl

/-- **Addition moves a pointer on its right** by the bytes on its left. The machine does so for whichever operation the
analysis lets through with a pointer there, and that is addition alone. -/
theorem BinaryOp.combines_add_left (hs : h.ElementsOf md array size) (hi : i < 2 ^ 63) (hy : y.byteCount? = some n) :
    b.opcode.Combines md h y (.element array i) ((movedIndex size i n).map (.element array)) := by
  refine combines_of_yields fun p pc s hmd hh htops ht => ?_
  subst hmd hh
  exact ExecM.binaryResult_left hs hi htops hy ht

/-- **Subtraction moves a pointer back**, by any number of bytes whose negative a word stands for. -/
theorem BinaryOp.combines_sub (hs : h.ElementsOf md array size) (hi : i < 2 ^ 63) (hy : y.byteCount? = some n)
    (hn : n ≠ -2 ^ 63) (hb : b = .sub ∨ b = .subOvfUn) :
    b.opcode.Combines md h (.element array i) y ((movedIndex size i (-n)).map (.element array)) := by
  refine combines_of_yields fun p pc s hmd hh htops ht => ?_
  subst hmd hh
  refine ExecM.binaryResult_right hs hi htops hy ht fun ts a ha => ?_
  have hmin : a ≠ BitVec.intMin 64 := by
    rintro rfl
    exact hn (ha.symm.trans (by decide))
  rw [← ha]
  rcases hb with rfl | rfl <;> exact if_neg hmin

/-- What is computed from two pointers is their difference. Of the operations, the analysis lets only subtraction
through with two pointers. -/
theorem BinaryOp.binaryResult_pointers {p : Prepared} {pc : Nat} {s : Workspace}
    (hs : s.machine.heap.ElementsOf s.machine.metadata array size) (hi : i < 2 ^ 63) (hj : j < 2 ^ 63)
    (htops : s.Tops p [.element array i, .element array j])
    (ht : p.analysis.operandTypes? pc =
      OperandTypes.pair? (Value.element array j).stackType (Value.element array i).stackType) :
    (ExecM.binaryResult p pc b.opcode b).run s =
      (do return .nativeInt (← ExecM.checkedWord (((j : Int) - i) * size)) : ExecM Value).run s := by
  unfold ExecM.binaryResult
  rw [ExecM.run_bind_ok (ExecM.operandTypes_run ht)]
  refine (ExecM.run_bind_ok (ExecM.pointerAt_run htops (k := 1) rfl)).trans ?_
  refine (ExecM.run_bind_ok (ExecM.pointerAt_run htops (k := 0) rfl)).trans ?_
  rw [Meets.run_bind, Meets.run_bind, ExecM.pointerDifference_run hs hi hj]

/-- **The difference of two pointers is the way between them**, if a word counts it. -/
theorem BinaryOp.combines_difference (hs : h.ElementsOf md array size) (hi : i < 2 ^ 63) (hj : j < 2 ^ 63)
    (hfits : FitsNative (((j : Int) - i) * size)) :
    b.opcode.Combines md h (.element array j) (.element array i)
      (.ok (.nativeInt (BitVec.ofInt 64 (((j : Int) - i) * size)))) := by
  refine combines_of_yields fun p pc s hmd hh htops ht => ?_
  subst hmd hh
  refine (binaryResult_pointers hs hi hj htops ht).trans ?_
  rw [ExecM.checkedWord_fits hfits]
  rfl

/-- **A difference that no word counts crashes.** -/
theorem BinaryOp.crashes_difference (hs : h.ElementsOf md array size) (hi : i < 2 ^ 63) (hj : j < 2 ^ 63)
    (hfits : ¬ FitsNative (((j : Int) - i) * size)) :
    b.opcode.Crashes md h (.element array j) (.element array i) := by
  intro p pc s hmd hh htops ht
  subst hmd hh
  have hrun := binaryResult_pointers (b := b) hs hi hj htops ht
  rw [ExecM.checkedWord_crash hfits] at hrun
  rw [instruction_opcode, ExecM.binary, Meets.run_bind, hrun]
  rfl

/-- The numbers of bytes are those that a signed word stands for. -/
theorem Value.byteCount_fits (hy : y.byteCount? = some n) : FitsNative n := by
  cases y with
  | int32 a =>
    obtain rfl : a.toInt = n := Option.some.inj hy
    have := a.toInt_lt
    have := a.le_toInt
    exact ⟨by omega, by omega⟩
  | nativeInt a =>
    obtain rfl : a.toInt = n := Option.some.inj hy
    exact ⟨a.le_toInt, a.toInt_lt⟩
  | int64 | float | object | pointer => cases hy

/-- A word stands for each of those numbers. -/
theorem Value.byteCount_ofInt (h : FitsNative n) : (Value.nativeInt (BitVec.ofInt 64 n)).byteCount? = some n :=
  congrArg some (toInt_ofInt_of_fits h)

end

/-- **Pointers into an array move additively.** In an array whose elements have `size` bytes, let `p` be the pointer to
the element `i`, which a signed word counts. For operands that stand for `n`, `m` and `n + m` bytes:

- `p + n` and `n + p` are the pointer to the element `i + n / size`, and not supported where that is not a whole number
  that a signed word counts without its sign;
- `(p + n) - p` is `n`;
- `p - n` is `p + (-n)`, for which there is an operand, unless `n` is the least number;
- `(p + n) + m`, where both additions have an answer, is `p + (n + m)`. -/
theorem BinaryOp.element_pointers_move_additively {md : Metadata} {h : Heap} {array : Ref} {size i : Nat} {n : Int}
    {y : Value} (hs : h.ElementsOf md array size) (hi : i < 2 ^ 63) (hy : y.byteCount? = some n) :
    (∀ b : BinaryOp, b = .add ∨ b = .addOvfUn →
      b.opcode.Combines md h (.element array i) y ((movedIndex size i n).map (.element array)) ∧
      b.opcode.Combines md h y (.element array i) ((movedIndex size i n).map (.element array))) ∧
    (∀ j, movedIndex size i n = .ok j → ∃ c : BitVec 64, c.toInt = n ∧ ∀ b : BinaryOp, b = .sub ∨ b = .subOvfUn →
      b.opcode.Combines md h (.element array j) (.element array i) (.ok (.nativeInt c))) ∧
    (n ≠ -2 ^ 63 → (∃ z : Value, z.byteCount? = some (-n)) ∧ ∀ z : Value, z.byteCount? = some (-n) →
      (∀ b : BinaryOp, b = .sub ∨ b = .subOvfUn →
        b.opcode.Combines md h (.element array i) y ((movedIndex size i (-n)).map (.element array))) ∧
      ∀ b : BinaryOp, b = .add ∨ b = .addOvfUn →
        b.opcode.Combines md h (.element array i) z ((movedIndex size i (-n)).map (.element array))) ∧
    ∀ (m : Int) (z t : Value) (j k : Nat), z.byteCount? = some m → t.byteCount? = some (n + m) →
      movedIndex size i n = .ok j → movedIndex size j m = .ok k → ∀ b : BinaryOp, b = .add ∨ b = .addOvfUn →
        b.opcode.Combines md h (.element array i) y (.ok (.element array j)) ∧
        b.opcode.Combines md h (.element array j) z (.ok (.element array k)) ∧
        b.opcode.Combines md h (.element array i) t (.ok (.element array k)) := by
  refine ⟨fun b hb => ⟨combines_add hs hi hy hb, combines_add_left hs hi hy⟩, fun j hj => ?_, fun hn => ⟨?_, ?_⟩, ?_⟩
  · -- the way back is counted without a loss, since it is the number that the operand stood for
    have hlt := (movedIndex_eq_ok.1 hj).2.2
    have hfits := Value.byteCount_fits hy
    refine ⟨BitVec.ofInt 64 n, toInt_ofInt_of_fits hfits, fun b _ => ?_⟩
    have hdistance := distance_movedIndex hj
    have hdifference := combines_difference (b := b) hs hi hlt (hdistance ▸ hfits)
    rwa [hdistance] at hdifference
  · obtain ⟨hlow, hhigh⟩ := Value.byteCount_fits hy
    exact ⟨_, Value.byteCount_ofInt ⟨by omega, by omega⟩⟩
  · exact fun z hz => ⟨fun b hb => combines_sub hs hi hy hn hb, fun b hb => combines_add hs hi hz hb⟩
  · intro m z t j k hz ht hj hk b hb
    have hfirst := combines_add hs hi hy hb
    have hsecond := combines_add hs (movedIndex_eq_ok.1 hj).2.2 hz hb
    have hboth := combines_add hs hi ht hb
    rw [hj] at hfirst
    rw [hk] at hsecond
    rw [movedIndex_add hj hk] at hboth
    exact ⟨hfirst, hsecond, hboth⟩

/-- A heap with one array of integers of 32 bits. -/
def heapOfIntegers : Heap := { objects := #[.array { (default : TypeSymbol) with kind := .i4 } #[]] }

/-- The element 3 with the number -8 of 32 bits above it: two elements back. -/
def thirdBesideMinusEight : Workspace where
  machine := { heap := heapOfIntegers }
  activation :=
    { method := ⟨1⟩, frame := ⟨⟨1⟩, ⟨0, 0, 2⟩, #[.element ⟨0⟩ 3, .int32 (-8)]⟩, top := 2, pc := 0, depth := 1 }

/-- A method whose first instruction has these operands. -/
def movesByInt32 : Prepared :=
  { (default : Prepared) with
    layout := ⟨0, 0, 2⟩
    analysis := { starts := #[true], depths := #[some 2], types := #[some .pointerInt32] } }

theorem BinaryOp.element_moves_two_back :
    heapOfIntegers.ElementsOf thirdBesideMinusEight.machine.metadata ⟨0⟩ 4 ∧ 3 < 2 ^ 63 ∧
    (Value.int32 (-8)).byteCount? = some (-8) ∧
    (ExecM.instruction movesByInt32 0 .add).run thirdBesideMinusEight =
      (.ok .advance, thirdBesideMinusEight.written 2 (.element ⟨0⟩ 1)) := by
  have hs : heapOfIntegers.ElementsOf thirdBesideMinusEight.machine.metadata ⟨0⟩ 4 := rfl
  have hy : (Value.int32 (-8)).byteCount? = some (-8) := rfl
  have htops : thirdBesideMinusEight.Tops movesByInt32 [.int32 (-8), .element ⟨0⟩ 3] := by
    refine ⟨by decide, fun n v hv => ?_⟩
    match n, hv with
    | 0, hv => exact hv
    | 1, hv => exact hv
  refine ⟨hs, by decide, hy, ?_⟩
  exact ((element_pointers_move_additively hs (by decide) hy).1 .add (.inl rfl)).1 movesByInt32 0 thirdBesideMinusEight
    rfl rfl htops rfl

end ManagedCode
