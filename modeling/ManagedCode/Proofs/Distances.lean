import ManagedCode.Proofs.Aborts
import ManagedCode.Proofs.Pointers

/-!
# How far apart pointers into an array can be

`ldelema` gives a pointer to an element that exists, but a pointer that moves may go past the end of its array, and may
do so again and again: only the start is watched. `Built` are the pointers that come about in this way, and they are the
pointers to all indices that a signed word counts (`built_iff`). The distance of two of them in bytes may be too large
for a word, and nothing looks whether it is: the machine crashes on such a difference, and that ends the run
(`Opcode.Crashes.ends_run`).
-/

namespace ManagedCode

/-- The reference is to an array of `length` elements, which have `size` bytes each. -/
structure Heap.ArrayOf (md : Metadata) (h : Heap) (array : Ref) (size length : Nat) : Prop where
  elements : h.ElementsOf md array size
  length_eq : (arrayLength (some array)).run h = (.ok length, h)

section

variable {md : Metadata} {h : Heap} {array : Ref} {size length i j : Nat} {p : Prepared} {pc : Nat} {s t : Workspace}
  {x y v w : Value} {n : Int} {b : BinaryOp}

/-! ## One instruction -/

/-- **The instruction makes a value of the operands `x` and `y`**, the second on top: there is a place where it does so,
above the heap `h` and with the annotation that the analysis makes for such operands. -/
def Opcode.Makes (md : Metadata) (h : Heap) (op : Opcode) (x y v : Value) : Prop :=
  ∃ (p : Prepared) (pc : Nat) (s : Workspace), s.machine.metadata = md ∧ s.machine.heap = h ∧ s.Tops p [y, x] ∧
    p.analysis.operandTypes? pc = OperandTypes.pair? x.stackType y.stackType ∧
    (ExecM.instruction p pc op).run s = (.ok .advance, s.written 2 v)

theorem Workspace.written_inj (htops : s.Tops p [y, x]) (heq : s.written 2 v = s.written 2 w) : v = w := by
  have hdeep := htops.2 1 x rfl
  have hsize := (Array.getElem?_eq_some_iff.1 hdeep).1
  have hslots := congrArg (fun t : Workspace => t.activation.frame.slots[s.activation.top - 2]?) heq
  simpa [Workspace.written, Array.getElem?_setIfInBounds, hsize] using hslots

/-- An instruction that combines operands makes nothing else of them. -/
theorem Opcode.Combines.eq_of_makes {op : Opcode} {answer : Except Unsupported Value}
    (hc : op.Combines md h x y answer) (hm : op.Makes md h x y v) : answer = .ok v := by
  obtain ⟨p, pc, s, hmd, hheap, htops, htypes, hrun⟩ := hm
  have hcombined := (hc p pc s hmd hheap htops htypes).symm.trans hrun
  cases answer with
  | error u => cases hcombined
  | ok v' => exact congrArg _ (Workspace.written_inj htops (Prod.mk.inj hcombined).2)

/-- An instruction that crashes on operands makes nothing of them. -/
theorem Opcode.Crashes.not_makes {op : Opcode} (hc : op.Crashes md h x y) : ¬ op.Makes md h x y v := by
  rintro ⟨p, pc, s, hmd, hheap, htops, htypes, hrun⟩
  cases (hc p pc s hmd hheap htops htypes).symm.trans hrun

/-- **A crash ends the run**, whatever handlers are around the instruction and however deep calls are nested. -/
theorem Opcode.Crashes.ends_run {op : Opcode} {start run : Execution} {a : Activation}
    {r : Except Trap Next × Workspace} {P : Execution → Prop}
    (hc : op.Crashes run.machine.metadata run.machine.heap x y) (hexec : run.Executes a p op r)
    (htops : Workspace.Tops ⟨run.machine, a⟩ p [y, x])
    (htypes : p.analysis.operandTypes? a.pc = OperandTypes.pair? x.stackType y.stackType)
    (hreach : start.Reaches P run) : ∃ m, start.EndsIn (.error (.abort .crash), m) := by
  -- the line of the trace about the instruction is all that stands between the state and its execution
  have hnoted := Execution.announced_noted ⟨run.machine, a⟩ op
  have htops' : (Execution.announced ⟨run.machine, a⟩ op).Tops p [y, x] := by
    unfold Workspace.Tops
    rw [hnoted.activation]
    exact htops
  have hrun := hc p a.pc _ (by rw [hnoted.machine]) hnoted.heap htops' htypes
  obtain ⟨m, -, hend⟩ := Execution.Executes.endsIn (hexec.result.symm.trans hrun ▸ hexec) hreach
  exact ⟨m, hend⟩

/-- A workspace with two operands, and a method whose first instruction has them. -/
def Workspace.withOperands (md : Metadata) (h : Heap) (x y : Value) : Workspace where
  machine := { metadata := md, heap := h }
  activation := { method := ⟨1⟩, frame := ⟨⟨1⟩, ⟨0, 0, 2⟩, #[x, y]⟩, top := 2, pc := 0, depth := 1 }

def Prepared.forOperands (x y : Value) : Prepared :=
  { (default : Prepared) with
    layout := ⟨0, 0, 2⟩
    analysis := { starts := #[true], depths := #[some 2], types := #[OperandTypes.pair? x.stackType y.stackType] } }

theorem Workspace.tops_withOperands :
    (Workspace.withOperands md h x y).Tops (.forOperands x y) [y, x] := by
  refine ⟨Nat.le_refl 2, fun n v hv => ?_⟩
  rcases n with _ | _ | n
  · exact hv
  · exact hv
  · cases hv

theorem Opcode.Combines.makes {op : Opcode} (hc : op.Combines md h x y (.ok v)) : op.Makes md h x y v :=
  ⟨.forOperands x y, 0, .withOperands md h x y, rfl, rfl, Workspace.tops_withOperands, rfl,
    hc _ _ _ rfl rfl Workspace.tops_withOperands rfl⟩

/-- The least number has no negative, so that it cannot be subtracted. -/
theorem BinaryOp.combines_sub_least (hy : y.byteCount? = some (-2 ^ 63)) (hb : b = .sub ∨ b = .subOvfUn) :
    b.opcode.Combines md h (.element array i) y (.error (.operands b.opcode .pointerNativeInt)) := by
  cases y with
  | int32 a =>
    have hlow : a.toInt = -2 ^ 63 := Option.some.inj hy
    have hle := a.le_toInt
    omega
  | nativeInt a =>
    have hleast : a = BitVec.intMin 64 := BitVec.toInt_inj.1 (Option.some.inj hy)
    subst hleast
    refine combines_of_yields fun p pc s _ _ htops ht => ?_
    unfold ExecM.binaryResult
    refine .of_bind (ExecM.operandTypes_run ht) (.of_bind (ExecM.nativeAt_run htops rfl) ?_)
    rcases hb with rfl | rfl <;> rfl
  | int64 | float | object | pointer => cases hy

namespace ExecM

theorem nativeAt_run_none {vs : List Value} {k : Nat} (htops : s.Tops p vs) (hx : vs[k]? = some x)
    (hnone : x.byteCount? = none) : ∃ e, (nativeAt p k).run s = (.error e, s) := by
  obtain ⟨hslot, hget⟩ := operandSlot_run htops hx
  unfold nativeAt
  rw [run_bind_ok hslot]
  refine (run_bind_ok (a := s.activation) rfl).symm ▸ ?_
  rw [Frame.getAs, hget]
  cases x with
  | int32 | nativeInt => cases hnone
  | int64 | float | object | pointer => exact ⟨_, rfl⟩

theorem indexAt_run {k : Nat} {a : BitVec 64} (hread : (nativeAt p k).run s = (.ok a, s)) :
    (indexAt p k).run s = if a.toInt < 0 then (.error (.ofKind .indexOutOfRange), s) else (.ok a.toNat, s) := by
  unfold indexAt
  rw [run_bind_ok hread]
  split <;> rfl

/-- **Where `ldelema` points**: to the element that its number names, which has to exist. -/
theorem elementAddress_run (ha : s.machine.heap.ArrayOf s.machine.metadata array size length)
    (htops : s.Tops p [x, .object (some array)]) (hx : x.byteCount? = some n) : (elementAddress p).run s =
      if 0 ≤ n ∧ n < length then (.ok .advance, s.written 2 (.element array n.toNat))
      else (.error (.ofKind .indexOutOfRange), s) := by
  have hobject : (objectAt p 1).run s = (.ok (some array), s) := operand_run htops (v := .object (some array)) rfl rfl
  have hlength : (onHeap (Heap.arrayLength (some array))).run s = (.ok length, s) := onHeap_run_ok ha.length_eq
  obtain ⟨a, rfl, hread⟩ := byteCount_run htops (k := 0) rfl hx
  unfold elementAddress nonNullAt
  rw [Meets.run_bind, run_bind_ok hobject]
  show (indexAt p 0 >>= _).run s = _
  rw [Meets.run_bind, indexAt_run hread]
  by_cases hneg : a.toInt < 0
  · rw [if_pos hneg, if_neg (by omega)]
  · have hindex : a.toInt = a.toNat := by
      have := a.toInt_eq_toNat_cond
      split at this <;> omega
    rw [if_neg hneg]
    dsimp only
    rw [run_bind_ok hlength, hindex, Int.toNat_natCast]
    by_cases hout : length ≤ a.toNat
    · rw [if_pos hout, if_neg (by omega)]
      rfl
    · rw [if_neg hout, if_pos (by omega), run_bind_ok (result_run 2 htops rfl Nat.two_pos _)]
      rfl

theorem elementAddress_element (ha : s.machine.heap.ArrayOf s.machine.metadata array size length)
    (htops : s.Tops p [x, .object (some array)]) {next : Next} (hrun : (elementAddress p).run s = (.ok next, t)) :
    ∃ i, i < length ∧ i < 2 ^ 63 ∧ t = s.written 2 (.element array i) := by
  cases hx : x.byteCount? with
  | none =>
    have hobject : (objectAt p 1).run s = (.ok (some array), s) := operand_run htops (v := .object (some array)) rfl rfl
    obtain ⟨e, hread⟩ := nativeAt_run_none htops (k := 0) rfl hx
    unfold elementAddress nonNullAt at hrun
    rw [Meets.run_bind, run_bind_ok hobject] at hrun
    replace hrun : (indexAt p 0 >>= _).run s = (.ok next, t) := hrun
    unfold indexAt at hrun
    rw [Meets.run_bind, Meets.run_bind, hread] at hrun
    cases hrun
  | some n =>
    rw [elementAddress_run ha htops hx] at hrun
    split at hrun
    · obtain ⟨-, hhigh⟩ := Value.byteCount_fits hx
      exact ⟨n.toNat, by omega, by omega, (Prod.mk.inj hrun).2.symm⟩
    · cases hrun

end ExecM

/-! ## The pointers of the guest -/

/-- **The pointers into an array that the guest can build**: `ldelema` makes one, and addition and subtraction of a
number move it. The heap may change in between, as long as the array is there. -/
inductive Built (md : Metadata) (array : Ref) (size length : Nat) : Value → Prop where
  | address {h : Heap} {x v : Value} : h.ArrayOf md array size length →
      Opcode.ldelema.Makes md h (.object (some array)) x v → Built md array size length v
  | moved {h : Heap} {b : BinaryOp} {x y v : Value} {n : Int} : h.ArrayOf md array size length →
      b ∈ [.add, .addOvfUn, .sub, .subOvfUn] → Built md array size length x → y.byteCount? = some n →
      b.opcode.Makes md h x y v → Built md array size length v
  | movedLeft {h : Heap} {b : BinaryOp} {x y v : Value} {n : Int} : h.ArrayOf md array size length →
      b ∈ [.add, .addOvfUn] → x.byteCount? = some n → Built md array size length y →
      b.opcode.Makes md h x y v → Built md array size length v

/-- A move leads to an index that a signed word counts. -/
theorem moved_element (hmoved : (movedIndex size i n).map (Value.element array) = .ok v) :
    ∃ j, v = .element array j ∧ j < 2 ^ 63 := by
  cases hj : movedIndex size i n with
  | error u => rw [hj] at hmoved; cases hmoved
  | ok j =>
    rw [hj] at hmoved
    exact ⟨j, (Except.ok.inj hmoved).symm, (movedIndex_eq_ok.1 hj).2.2⟩

theorem Built.element (hv : Built md array size length v) :
    0 < length ∧ ∃ i, v = .element array i ∧ i < 2 ^ 63 := by
  induction hv with
  | address ha hm =>
    obtain ⟨p, pc, s, rfl, rfl, htops, -, hrun⟩ := hm
    obtain ⟨i, hlt, hi, hwritten⟩ := ExecM.elementAddress_element ha htops hrun
    exact ⟨by omega, i, Workspace.written_inj htops hwritten, hi⟩
  | @moved h b x y v n ha hb _ hy hm ih =>
    obtain ⟨hpos, i, rfl, hi⟩ := ih
    refine ⟨hpos, ?_⟩
    have hb : (b = .add ∨ b = .addOvfUn) ∨ b = .sub ∨ b = .subOvfUn := by
      simpa [or_assoc] using hb
    rcases hb with hb | hb
    · exact moved_element ((BinaryOp.combines_add ha.elements hi hy hb).eq_of_makes hm)
    · by_cases hleast : n = -2 ^ 63
      · cases (BinaryOp.combines_sub_least (hleast ▸ hy) hb).eq_of_makes hm
      · exact moved_element ((BinaryOp.combines_sub ha.elements hi hy hleast hb).eq_of_makes hm)
  | movedLeft ha _ hx _ hm ih =>
    obtain ⟨hpos, i, rfl, hi⟩ := ih
    exact ⟨hpos, moved_element ((BinaryOp.combines_add_left ha.elements hi hx).eq_of_makes hm)⟩

/-- The first element can be pointed to, and from each element the next index. -/
theorem built_of_lt (ha : h.ArrayOf md array size length) (hsize : size < 2 ^ 63) (hpos : 0 < length) :
    ∀ i, i < 2 ^ 63 → Built md array size length (.element array i)
  | 0, _ => by
    have hzero : (Value.nativeInt 0).byteCount? = some 0 := rfl
    refine .address (x := .nativeInt 0) ha ⟨.forOperands (.object (some array)) (.nativeInt 0), 0,
      .withOperands md h (.object (some array)) (.nativeInt 0), rfl, rfl, Workspace.tops_withOperands, rfl, ?_⟩
    refine (ExecM.elementAddress_run ha Workspace.tops_withOperands hzero).trans ?_
    rw [if_pos ⟨Int.le_refl 0, by omega⟩]
    rfl
  | i + 1, hi => by
    have hstep : movedIndex size i size = .ok (i + 1) := by
      have hnonzero : (size : Int) ≠ 0 := by have := ha.elements.pos; omega
      exact movedIndex_eq_ok.2 ⟨Int.dvd_refl _, by rw [Int.ediv_self hnonzero]; rfl, hi⟩
    have hsteps := Value.byteCount_ofInt (n := size) ⟨by omega, by omega⟩
    have hadd := BinaryOp.combines_add (b := .add) ha.elements (Nat.lt_of_succ_lt hi) hsteps (.inl rfl)
    rw [hstep] at hadd
    exact .moved ha (by decide) (built_of_lt ha hsize hpos i (Nat.lt_of_succ_lt hi)) hsteps hadd.makes

/-- **Which pointers there are**: to every index that a signed word counts, whatever the length. -/
theorem built_iff (ha : h.ArrayOf md array size length) (hsize : size < 2 ^ 63) :
    Built md array size length v ↔ 0 < length ∧ ∃ i, v = .element array i ∧ i < 2 ^ 63 := by
  constructor
  · exact Built.element
  · rintro ⟨hpos, i, rfl, hi⟩
    exact built_of_lt ha hsize hpos i hi

/-! ## Their distances -/

/-- The way by the distance leads to the other index. -/
theorem movedIndex_distance (hpos : 0 < size) (hj : j < 2 ^ 63) :
    movedIndex size i (((j : Int) - i) * size) = .ok j := by
  have hnonzero : (size : Int) ≠ 0 := by omega
  refine movedIndex_eq_ok.2 ⟨Int.dvd_mul_left _ _, ?_, hj⟩
  rw [Int.mul_ediv_cancel _ hnonzero]
  omega

theorem fits_of_one (hi : i < 2 ^ 63) (hj : j < 2 ^ 63) : FitsNative (((j : Int) - i) * (1 : Nat)) := by
  unfold FitsNative
  omega

/-- Elements of two bytes or more are too far apart at half of the range of a word. -/
theorem not_fits (hsize : 2 ≤ size) : ¬ FitsNative ((((2 ^ 62 : Nat) : Int) - (0 : Nat)) * size) := by
  unfold FitsNative
  omega

/-- If a word counts the distance, subtraction gives it, and adding it leads to the other pointer. -/
theorem BinaryOp.difference_leads (ha : h.ArrayOf md array size length) (hi : i < 2 ^ 63) (hj : j < 2 ^ 63)
    (hfits : FitsNative (((j : Int) - i) * size)) : ∃ d : BitVec 64, d.toInt = ((j : Int) - i) * size ∧
      (∀ b : BinaryOp, b = .sub ∨ b = .subOvfUn →
        b.opcode.Combines md h (.element array j) (.element array i) (.ok (.nativeInt d))) ∧
      ∀ b : BinaryOp, b = .add ∨ b = .addOvfUn →
        b.opcode.Combines md h (.element array i) (.nativeInt d) (.ok (.element array j)) := by
  refine ⟨_, toInt_ofInt_of_fits hfits, fun b _ => combines_difference ha.elements hi hj hfits, fun b hb => ?_⟩
  have hadd := combines_add ha.elements hi (Value.byteCount_ofInt hfits) hb
  rwa [movedIndex_distance ha.elements.pos hj] at hadd

/-- **How far pointer differences go.** Let `array` be an array of `length` elements of `size` bytes. Two pointers into
it that the guest can build are to elements `i` and `j`. If a signed word counts the bytes between them, subtraction
gives that number, and adding it to the one pointer gives the other. If no word does, subtraction crashes. So every two
pointers that the guest can build have a difference, which leads from the one to the other, just if there are no such
pointers, or if elements have one byte. -/
theorem BinaryOp.differences_exact_iff (ha : h.ArrayOf md array size length) (hsize : size < 2 ^ 63) :
    (∀ p q, Built md array size length p → Built md array size length q →
      ∃ i j : Nat, p = .element array i ∧ q = .element array j ∧
        (FitsNative (((j : Int) - i) * size) → ∃ d : BitVec 64, d.toInt = ((j : Int) - i) * size ∧
          (∀ b : BinaryOp, b = .sub ∨ b = .subOvfUn → b.opcode.Combines md h q p (.ok (.nativeInt d))) ∧
          ∀ b : BinaryOp, b = .add ∨ b = .addOvfUn → b.opcode.Combines md h p (.nativeInt d) (.ok q)) ∧
        (¬ FitsNative (((j : Int) - i) * size) →
          ∀ b : BinaryOp, b = .sub ∨ b = .subOvfUn → b.opcode.Crashes md h q p)) ∧
    ((∀ p q, Built md array size length p → Built md array size length q →
      ∃ d, Opcode.sub.Makes md h q p (.nativeInt d) ∧ Opcode.add.Makes md h p (.nativeInt d) q) ↔
      length = 0 ∨ size = 1) := by
  refine ⟨fun p q hp hq => ?_, fun hall => ?_, fun hcase p q hp hq => ?_⟩
  · obtain ⟨-, i, rfl, hi⟩ := (built_iff ha hsize).1 hp
    obtain ⟨-, j, rfl, hj⟩ := (built_iff ha hsize).1 hq
    exact ⟨i, j, rfl, rfl, fun hfits => difference_leads ha hi hj hfits,
      fun hfits b _ => crashes_difference ha.elements hi hj hfits⟩
  · by_contra hcase
    have hpos := ha.elements.pos
    have hbuilt : ∀ i, i < 2 ^ 63 → Built md array size length (.element array i) := fun i hi =>
      (built_iff ha hsize).2 ⟨by omega, i, rfl, hi⟩
    obtain ⟨d, hmakes, -⟩ := hall _ _ (hbuilt 0 (by decide)) (hbuilt (2 ^ 62) (by decide))
    have hcrashes := crashes_difference (b := .sub) ha.elements (i := 0) (j := 2 ^ 62) (by decide) (by decide)
      (not_fits (by omega))
    exact hcrashes.not_makes hmakes
  · obtain ⟨hpos, i, rfl, hi⟩ := (built_iff ha hsize).1 hp
    obtain ⟨-, j, rfl, hj⟩ := (built_iff ha hsize).1 hq
    obtain rfl : size = 1 := hcase.resolve_left (by omega)
    obtain ⟨d, -, hsub, hadd⟩ := difference_leads ha hi hj (fits_of_one hi hj)
    exact ⟨d, (hsub .sub (.inl rfl)).makes, (hadd .add (.inl rfl)).makes⟩

end

def heapOfOne : Heap := { objects := #[.array { (default : TypeSymbol) with kind := .i4 } #[.int32 0]] }

theorem heapOfOne_arrayOf : heapOfOne.ArrayOf .core ⟨0⟩ 4 1 := ⟨rfl, rfl⟩

/-- In an array with elements of four bytes some pointers have no difference that leads from the one to the other. -/
theorem BinaryOp.heapOfOne_not_exact : heapOfOne.ArrayOf .core ⟨0⟩ 4 1 ∧ 4 < 2 ^ 63 ∧
    ¬ ∀ p q, Built .core ⟨0⟩ 4 1 p → Built .core ⟨0⟩ 4 1 q →
      ∃ d, Opcode.sub.Makes .core heapOfOne q p (.nativeInt d) ∧
        Opcode.add.Makes .core heapOfOne p (.nativeInt d) q := by
  refine ⟨heapOfOne_arrayOf, by decide, fun hall => ?_⟩
  have hcase := (differences_exact_iff heapOfOne_arrayOf (by decide)).2.1 hall
  exact absurd hcase (by decide)

/-- The index `2 ^ 61` is `2 ^ 63` bytes away from the first one, one more than a signed word counts: the machine
crashes on the difference, and no difference is made anywhere. -/
theorem BinaryOp.difference_crashes :
    Built .core ⟨0⟩ 4 1 (.element ⟨0⟩ 0) ∧ Built .core ⟨0⟩ 4 1 (.element ⟨0⟩ (2 ^ 61)) ∧
    Opcode.sub.Crashes .core heapOfOne (.element ⟨0⟩ (2 ^ 61)) (.element ⟨0⟩ 0) ∧
    ∀ v, ¬ Opcode.sub.Makes .core heapOfOne (.element ⟨0⟩ (2 ^ 61)) (.element ⟨0⟩ 0) v := by
  have hbuilt := built_of_lt heapOfOne_arrayOf (by decide) Nat.one_pos
  have hlarge : ¬ FitsNative ((((2 ^ 61 : Nat) : Int) - (0 : Nat)) * (4 : Nat)) := by
    unfold FitsNative
    decide
  have hcrashes := crashes_difference (b := .sub) heapOfOne_arrayOf.elements (by decide) (by decide) hlarge
  exact ⟨hbuilt 0 (by decide), hbuilt (2 ^ 61) (by decide), hcrashes, fun v => hcrashes.not_makes⟩

end ManagedCode
