import ManagedCode.Proofs.Objects

/-!
# Every instruction leaves the types that the analysis found

One lemma for each instruction: where the stack has types on which the analysis executed the instruction, it has the
types that the analysis went on with afterwards. Results of arithmetic have the type that the annotation names, loads
through pointers narrow to the kind of the instruction, and loads from variables find what fits, as those from objects
do.
-/

namespace ManagedCode

open Analysis (Replaces)

/-- What a return gives: a value exactly when the signature has a result, and one that fits its kind. -/
structure Prepared.Returns (md : Metadata) (p : Prepared) (value : Option Value) : Prop where
  isSome : value.isSome = p.symbol.signature.result.isSome
  proper : ∀ v, value = some v → v.Proper md
  fits : ∀ v k, value = some v → p.symbol.signature.result = some k → v.Fits k.stackType

/-- What an instruction asks for names methods and fields of the tables, and a return fits the signature. -/
def Next.Typed (md : Metadata) (p : Prepared) : Next → Prop
  | .ret value => p.Returns md value
  | .invoke target arguments _ => md.HasMethod target ∧ ∀ v ∈ arguments, v.Proper md
  | _ => True

/-- **The analysis executes the instruction on the types `st` and gets `st'`**, with the annotation that was noted. The
type that `box` names, if it is a class, is for a reference only, and the address of a static field is not asked for
with an address that is a plain number. -/
structure Prepared.Acts (md : Metadata) (p : Prepared) (pc : Nat) (op : Opcode) (next : Nat)
    (st st' : List StackType) : Prop where
  act : ∃ e, ((p.context md).act pc op next).run st = .ok (e, st') ∧ p.analysis.operandTypes? pc = e.operands
  box : op.action = .box → ∀ t type, p.declared.token pc = .ok t → md.resolveType t = .ok type →
    type.isValueType = false → ∃ rest, st = .object :: rest
  address : op.action = .fieldAddress → ∀ t f, p.declared.token pc = .ok t → md.resolveField t = .ok f →
    f.isStatic = true → ∀ rest, st ≠ .nativeInt :: rest

theorem Prepared.Acts.takes {md : Metadata} {p : Prepared} {pc next : Nat} {op : Opcode} {st st' : List StackType}
    (h : p.Acts md pc op next st st') : p.Takes md pc op next st st' where
  act := h.act.imp fun _ he => he.1
  box := h.box
  address := h.address

namespace ExecM

variable {md : Metadata} {p : Prepared} {pc next : Nat} {op : Opcode} {v : Value} {t : StackType}

theorem replaced {pops : Nat} (ha : op.action.replaces? = some (pops, t)) (hv : v.Fits t) :
    ∀ st st', p.Acts md pc op next st st' → ∃ t, Replaces pops t st st' ∧ v.Fits t :=
  fun st st' h => given ha hv st st' h.takes

theorem dropped (ha : op.action.drops = true) : ∀ st st', p.Acts md pc op next st st' → st' <:+ st := by
  intro st st' h
  obtain ⟨e, he, -⟩ := h.act
  exact Analysis.Context.act_drops he ha

/-- **The instruction delivers what the analysis found.** -/
abbrev Acting (md : Metadata) (p : Prepared) (pc : Nat) (op : Opcode) (next : Nat) (x : ExecM Next) : Prop :=
  Delivers md p (p.Acts md pc op next) x (Next.Typed md p)

theorem Giving.acting {x : ExecM Next} (h : Giving md p pc op next x) : Acting md p pc op next x := by
  intro w hw
  refine (h w hw).mono ?_ fun _ _ hw' => hw'
  rintro _ w' ⟨rfl, hw', hdelivers⟩
  exact ⟨trivial, hw', fun st st' hacts => hdelivers st st' hacts.takes⟩

section

variable (hs : p.Sound md)
include hs

theorem acting_result {pops : Nat} (hv : v.Proper md)
    (hR : ∀ st st', p.Acts md pc op next st st' → ∃ t, Replaces pops t st st' ∧ v.Fits t) :
    Acting md p pc op next (do result p pops v; return .advance) :=
  (delivers_result hs.aligned hv hR).before fun _ _ => .pure trivial

/-! ## Arguments, locals and constants -/

/-- The kinds of the slots of a place are the declared ones. -/
theorem computes_placeSlot (place : Place) (i : Nat) : Computes md p (placeSlot p place i) fun slot =>
    slot < p.layout.stackBase ∧ p.variableTypes[slot]? = some (placeKind p place i).stackType ∧
      ((p.context md).variableTypes place)[i]? = some (placeKind p place i).stackType := by
  have harguments : p.argumentKinds.length = p.layout.arguments := by rw [hs.argumentKinds, hs.layout]; rfl
  have hlocals : p.localKinds.length = p.layout.locals := by rw [hs.localKinds, hs.layout]
  have hbase : p.layout.stackBase = p.layout.arguments + p.layout.locals := rfl
  unfold placeSlot
  cases place with
  | argument =>
    dsimp only
    split
    · rename_i hi
      have hlt : i < p.argumentKinds.length := by omega
      have hkind : p.argumentKinds[i]? = some (placeKind p .argument i) := by
        rw [placeKind, List.getD_eq_getElem?_getD, List.getElem?_eq_getElem hlt]
        rfl
      refine .pure ⟨by omega, ?_, ?_⟩
      · rw [Nat.zero_add, Prepared.variableTypes, List.getElem?_map, List.getElem?_append_left hlt, hkind]
        rfl
      · show (p.symbol.signature.arguments.map (·.stackType))[i]? = _
        rw [← hs.argumentKinds, List.getElem?_map, hkind]
        rfl
    · exact computes_activation.bind fun _ _ => .throw
  | «local» =>
    dsimp only
    split
    · rename_i hi
      have hlt : i < p.localKinds.length := by omega
      have hkind : p.localKinds[i]? = some (placeKind p .local i) := by
        rw [placeKind, List.getD_eq_getElem?_getD, List.getElem?_eq_getElem hlt]
        rfl
      refine .pure ⟨by rw [Layout.localBase]; omega, ?_, ?_⟩
      · rw [Prepared.variableTypes, List.getElem?_map, Layout.localBase, ← harguments,
          List.getElem?_append_right (Nat.le_add_right _ _), Nat.add_sub_cancel_left, hkind]
        rfl
      · show (p.body.locals.map (·.stackType))[i]? = _
        rw [← hs.localKinds, List.getElem?_map, hkind]
        rfl
    · exact computes_activation.bind fun _ _ => .throw

omit hs in
theorem computes_placeIndex (index : SlotIndex) :
    Computes md p (placeIndex p pc index) fun i => index.value p.code pc = .ok i := by
  cases index with
  | implied n => exact .pure rfl
  | encoded => exact computes_ofEngine _

/-- A load copies a value that fits the kind of its place. -/
theorem acting_load (hd : p.Declares pc op next) (ha : p.declared.AgreeOn p.code pc next) {place : Place}
    {index : SlotIndex} (hact : op.action = .load place index) : Acting md p pc op next (load p pc place index) := by
  refine .after (computes_placeIndex index) fun i hi => .after (computes_placeSlot hs place i) ?_
  rintro source ⟨-, hvar, hcx⟩ w hw
  refine Meets.bind ((resultSlot_meets 0).mono (fun _ _ h => h) fun _ _ h => h ▸ hw) ?_
  rintro target w ⟨hle, rfl, rfl⟩
  refine Meets.bind ((copySlot_meets source _).mono (fun _ _ h => h) fun _ _ h => h ▸ hw) ?_
  rintro _ w' ⟨v, hv, hlt, rfl⟩
  obtain ⟨u, hu, hfits⟩ := hw.holds source _ hvar
  cases hv.symm.trans hu
  refine ⟨trivial, hw.set (hw.proper _ v hv) (fits_above hs.aligned (by omega)), fun st st' h htop hst => ?_⟩
  obtain ⟨e, he, -⟩ := h.act
  obtain ⟨j, t, hj, ht, rfl⟩ := Analysis.Context.act_load he hact
  have hij : j = i := by
    cases index with
    | implied n => cases hi; cases hj; rfl
    | encoded =>
      have hagree := Code.slotIndex_agree hd.next ha hd.opcode
      rw [show p.code.slotIndex pc = .ok i from hi, show p.declared.slotIndex pc = .ok j from hj] at hagree
      cases hagree
      rfl
  subst hij
  cases ht.symm.trans hcx
  rw [Nat.sub_zero, htop] at hlt ⊢
  exact hs.aligned.holds_push hst hfits hlt

theorem acting_store {place : Place} {index : SlotIndex} (hact : op.action = .store place index) :
    Acting md p pc op next (store p pc place index) := by
  refine .after (computes_placeIndex index) fun i _ => .after (computes_placeSlot hs place i) ?_
  rintro slot ⟨hslot, hvar, -⟩
  refine .after (computes_peek 0) fun v hv => .after (computes_normalize slot _ hv) fun u ⟨hu, hfits⟩ => ?_
  refine .after (computes_put hs.aligned hu hslot fun t ht => ?_) fun _ _ => .pure trivial (dropped (by rw [hact]; rfl))
  cases hvar.symm.trans ht
  exact hfits

theorem acting_loadAddress {place : Place} (hact : op.action = .address place) :
    Acting md p pc op next (loadAddress p pc place) := by
  refine .after (computes_placeIndex .encoded) fun i _ => .after (computes_placeSlot hs place i) fun slot _ => ?_
  refine .after computes_activation fun a _ => ?_
  have hresult : Acting md p pc op next (do result p 0 (.pointer (.slot a.frame.id slot)); return .advance) :=
    acting_result hs trivial (replaced (by rw [hact]; rfl) (.inl rfl))
  simpa only [result, bind_assoc] using hresult

theorem acting_loadConstant {c : Constant} (hact : op.action = .loadConstant c) :
    Acting md p pc op next (loadConstant p pc c) := by
  have hconstant : Computes md p (constant p pc c) fun v => v.Proper md ∧ v.Fits c.stackType := by
    cases c with
    | implied n => exact .pure ⟨trivial, .inl rfl⟩
    | short => exact (computes_ofEngine _).bind fun _ _ => .pure ⟨trivial, .inl rfl⟩
    | int => exact (computes_ofEngine _).bind fun _ _ => .pure ⟨trivial, .inl rfl⟩
    | long => exact (computes_ofEngine _).bind fun _ _ => .pure ⟨trivial, .inl rfl⟩
    | shortReal => exact (computes_ofEngine _).bind fun _ _ => .pure ⟨trivial, .inl rfl⟩
    | real => exact (computes_ofEngine _).bind fun _ _ => .pure ⟨trivial, .inl rfl⟩
  exact .after hconstant fun v ⟨hv, hfits⟩ => acting_result hs hv (replaced (by rw [hact]; rfl) hfits)

theorem acting_dup (hact : op.action = .dup) : Acting md p pc op next (dup p) := by
  intro w hw
  refine Meets.bind ((resultSlot_meets 1).mono (fun _ _ h => h) fun _ _ h => h ▸ hw) ?_
  rintro target w ⟨hle, rfl, rfl⟩
  refine Meets.bind ((copySlot_meets _ _).mono (fun _ _ h => h) fun _ _ h => h ▸ hw) ?_
  rintro _ w' ⟨v, hv, hlt, rfl⟩
  refine ⟨trivial, hw.set (hw.proper _ v hv) (fits_above hs.aligned (by omega)), fun st st' h htop hst => ?_⟩
  obtain ⟨e, he, -⟩ := h.act
  obtain ⟨t, rest, rfl, rfl⟩ := Analysis.Context.act_dup he hact
  obtain ⟨u, hu, hfits⟩ := hs.aligned.holds_at (n := 0) hst rfl
  rw [← htop] at hu
  cases hv.symm.trans hu
  have hslot : w.activation.top - 1 + 1 = p.layout.stackBase + (t :: rest).length := by omega
  rw [hslot] at hlt ⊢
  exact hs.aligned.holds_push hst hfits hlt

/-! ## Arithmetic -/

omit hs in
theorem computes_offsetPointer (q : Pointer) (bytes : Int) :
    Computes md p (offsetPointer q bytes) fun r => r.Proper md := by
  unfold offsetPointer
  split
  · refine computes_metadata.bind ?_
    rintro _ rfl
    refine (computes_onHeap (Heap.keeps_elementSize _)).bind fun size _ => ?_
    split
    · exact .throw
    · dsimp only
      split
      · exact .pure trivial
      · exact .throw
  · exact .throw

omit hs in
theorem computes_checkedWord (n : Int) : Computes md p (checkedWord n) fun _ => True := by
  unfold checkedWord
  split
  · exact .pure trivial
  · exact .throw

omit hs in
theorem computes_pointerDifference (q r : Pointer) : Computes md p (pointerDifference q r) fun _ => True := by
  have otherwise : Computes md p (if q.same r then pure 0 else unsupported (.unrelatedPointers q r) : ExecM (BitVec 64))
      fun _ => True := by
    split
    · exact .pure trivial
    · exact .throw
  unfold pointerDifference
  dsimp only
  split
  · split
    · refine computes_metadata.bind ?_
      rintro _ rfl
      refine (computes_onHeap (Heap.keeps_elementSize _)).bind fun _ _ => ?_
      exact (computes_checkedWord _).bind fun _ _ => computes_checkedWord _
    · exact otherwise
  · exact otherwise

omit hs in
theorem computes_pointerOffset (op : Opcode) (b : BinaryOp) (types : OperandTypes) (bytes : BitVec 64) :
    Computes md p (pointerOffset op b types bytes) fun _ => True := by
  unfold pointerOffset
  split
  · exact .pure trivial
  · exact .pure trivial
  · split
    · exact .throw
    · exact .pure trivial
  · split
    · exact .throw
    · exact .pure trivial
  · exact .throw

omit hs in
/-- **The result of arithmetic has the type that the annotation of its operands decides.** -/
theorem computes_binaryResult (op : Opcode) (b : BinaryOp) : Computes md p (binaryResult p pc op b) fun v =>
    v.Proper md ∧ ∀ ts, p.analysis.operandTypes? pc = some ts → v.Fits ts.arithmeticResult := by
  refine (computes_operandTypes pc).bind fun types htypes => ?_
  have noted : ∀ {v : Value}, v.Proper md → v.Fits types.arithmeticResult →
      v.Proper md ∧ ∀ ts, p.analysis.operandTypes? pc = some ts → v.Fits ts.arithmeticResult := by
    intro v hv hfits
    refine ⟨hv, fun ts hts => ?_⟩
    cases htypes.symm.trans hts
    exact hfits
  have moved : ∀ (q : Pointer) (bytes : Int), types.arithmeticResult = .pointer →
      Computes md p (do return .pointer (← offsetPointer q bytes) : ExecM Value) fun v =>
        v.Proper md ∧ ∀ ts, p.analysis.operandTypes? pc = some ts → v.Fits ts.arithmeticResult := by
    intro q bytes ht
    exact (computes_offsetPointer q bytes).bind fun r hr => .pure (noted hr (ht ▸ .inl rfl))
  split
  · exact (computes_int32At 1).bind fun _ _ => (computes_int32At 0).bind fun _ _ => (computes_ofFault _).bind fun _ _ =>
      .pure (noted trivial (.inl rfl))
  · exact (computes_int64At 1).bind fun _ _ => (computes_int64At 0).bind fun _ _ => (computes_ofFault _).bind fun _ _ =>
      .pure (noted trivial (.inl rfl))
  · exact (computes_nativeAt 1).bind fun _ _ => (computes_nativeAt 0).bind fun _ _ =>
      (computes_ofFault _).bind fun _ _ => .pure (noted trivial (.inl rfl))
  · exact (computes_nativeAt 1).bind fun _ _ => (computes_nativeAt 0).bind fun _ _ =>
      (computes_ofFault _).bind fun _ _ => .pure (noted trivial (.inl rfl))
  · exact (computes_nativeAt 1).bind fun _ _ => (computes_nativeAt 0).bind fun _ _ =>
      (computes_ofFault _).bind fun _ _ => .pure (noted trivial (.inl rfl))
  · refine (computes_floatAt 1).bind fun x _ => (computes_floatAt 0).bind fun y _ => ?_
    split
    · exact .pure (noted trivial (.inl rfl))
    · exact .throw
  · exact (computes_nativeAt 0).bind fun _ _ => (computes_pointerOffset _ _ _ _).bind fun _ _ =>
      (computes_pointerAt 1).bind fun _ _ => moved _ _ rfl
  · exact (computes_nativeAt 0).bind fun _ _ => (computes_pointerOffset _ _ _ _).bind fun _ _ =>
      (computes_pointerAt 1).bind fun _ _ => moved _ _ rfl
  · exact (computes_pointerAt 0).bind fun _ _ => (computes_nativeAt 1).bind fun _ _ => moved _ _ rfl
  · exact (computes_pointerAt 0).bind fun _ _ => (computes_nativeAt 1).bind fun _ _ => moved _ _ rfl
  · exact (computes_pointerAt 1).bind fun _ _ => (computes_pointerAt 0).bind fun _ _ =>
      (computes_pointerDifference _ _).bind fun _ _ => .pure (noted trivial (.inl rfl))
  · exact .throw

theorem acting_binary {b : BinaryOp} (hact : op.action = .binary b) : Acting md p pc op next (binary p pc op b) := by
  refine .after (computes_binaryResult op b) fun v ⟨hv, hfits⟩ => acting_result hs hv fun st st' h => ?_
  obtain ⟨e, he, htypes⟩ := h.act
  obtain ⟨l, r, ts, rest, -, hts, rfl, rfl⟩ := Analysis.Context.act_binary he hact
  exact ⟨_, ⟨[r, l], rest, rfl, rfl, rfl⟩, hfits ts (htypes.trans hts)⟩

theorem acting_shift {s : ShiftOp} (hact : op.action = .shift s) : Acting md p pc op next (shift p pc op s) := by
  refine .after (computes_operandTypes pc) fun types htypes => .after (computes_nativeAt 0) fun amount _ => ?_
  have shifted : ∀ {v : Value}, v.Proper md → v.Fits types.left →
      Acting md p pc op next (do result p 2 v; return .advance) := by
    intro v hv hfits
    refine acting_result hs hv fun st st' h => ?_
    obtain ⟨e, he, hnoted⟩ := h.act
    obtain ⟨l, r, ts, rest, hpair, hts, rfl, rfl⟩ := Analysis.Context.act_shift he hact
    cases htypes.symm.trans (hnoted.trans hts)
    exact ⟨_, ⟨[r, l], rest, rfl, rfl, rfl⟩, (OperandTypes.left_right_of_pair? hpair).1 ▸ hfits⟩
  split
  · rename_i hl
    exact .after (computes_int32At 1) fun _ _ => shifted trivial (hl ▸ .inl rfl)
  · rename_i hl
    exact .after (computes_int64At 1) fun _ _ => shifted trivial (hl ▸ .inl rfl)
  · rename_i hl
    exact .after (computes_nativeAt 1) fun _ _ => shifted trivial (hl ▸ .inl rfl)
  · exact .throw

theorem acting_unary {u : UnaryOp} (hact : op.action = .unary u) : Acting md p pc op next (unary p pc op u) := by
  refine .after (computes_operandTypes pc) fun types htypes => ?_
  have done : ∀ {v : Value}, v.Proper md → types = .single v.stackType →
      Acting md p pc op next (do result p 1 v; return .advance) := by
    intro v hv hsingle
    refine acting_result hs hv fun st st' h => ?_
    obtain ⟨e, he, hnoted⟩ := h.act
    obtain ⟨t, rest, hts, rfl, rfl⟩ := Analysis.Context.act_unary he hact
    have heq := htypes.symm.trans (hnoted.trans hts)
    rw [hsingle, Option.some.injEq] at heq
    refine ⟨t, ⟨[t], rest, rfl, rfl, rfl⟩, .inl ?_⟩
    generalize v.stackType = s at heq
    cases s <;> cases t <;> first | rfl | cases heq
  split
  · exact .after (computes_int32At 0) fun _ _ => done trivial rfl
  · exact .after (computes_int64At 0) fun _ _ => done trivial rfl
  · exact .after (computes_nativeAt 0) fun _ _ => done trivial rfl
  · exact .after (computes_floatAt 0) fun _ _ => done trivial rfl
  · exact .throw

theorem acting_checkFinite (hact : op.action = .checkFinite) : Acting md p pc op next (checkFinite p) := by
  refine .after (computes_floatAt 0) fun x _ => ?_
  split
  · exact acting_result hs trivial (replaced (by rw [hact]; rfl) (.inl rfl))
  · exact .throw

omit hs in
/-- A conversion gives a value of the type of its target. -/
theorem apply_ok {c : Conversion} {v w : Value} (h : c.apply v = .ok w) :
    (∀ md, w.Proper md) ∧ w.Fits (Analysis.conversionResult c.target) := by
  have number : ∀ n, c.ofNumber n = .ok w →
      (∀ md, w.Proper md) ∧ w.Fits (Analysis.conversionResult c.target) := by
    intro n hn
    unfold Conversion.ofNumber at hn
    split at hn
    · cases hn
    · cases hn
      cases c.target <;> exact ⟨fun _ => trivial, .inl rfl⟩
  have lifted : ∀ r, Conversion.apply.lift r = .ok w → r = .ok w := by
    intro r hr
    cases r with
    | ok u => cases hr; rfl
    | error k => cases hr
  cases v with
  | int32 n => exact number _ (lifted _ h)
  | int64 n => exact number _ (lifted _ h)
  | nativeInt n => exact number _ (lifted _ h)
  | object r => cases h
  | pointer q => cases h
  | float x =>
    have hr := lifted _ h
    unfold Conversion.ofReal at hr
    split at hr
    · rename_i ht; cases hr; rw [ht]; exact ⟨fun _ => trivial, .inl rfl⟩
    · rename_i ht; cases hr; rw [ht]; exact ⟨fun _ => trivial, .inl rfl⟩
    · rename_i ht; cases hr; rw [ht]; exact ⟨fun _ => trivial, .inl rfl⟩
    · split at hr
      · split at hr
        · cases hr
        · exact number _ hr
      · split at hr
        · cases hr
        · split at hr
          · exact number _ hr
          · exact number _ hr

theorem acting_convert {c : Conversion} (hact : op.action = .convert c) : Acting md p pc op next (convert p c) := by
  refine .after (computes_peek 0) fun v _ => ?_
  split
  · rename_i w hw
    exact acting_result hs ((apply_ok hw).1 md) (replaced (by rw [hact]; rfl) (apply_ok hw).2)
  · exact .throw

omit hs in
theorem computes_compareTop (op : Opcode) (c : Comparison) : Computes md p (compareTop p pc op c) fun _ => True := by
  refine (computes_operandTypes pc).bind fun types _ => ?_
  have answered : ∀ answer : Option Bool, Computes md p (pure answer >>= answered op types) fun _ => True := by
    intro answer
    cases answer with
    | some b => exact .pure trivial
    | none => exact .throw
  split
  · exact (computes_int32At 1).bind fun _ _ => (computes_int32At 0).bind fun _ _ => answered _
  · exact (computes_int64At 1).bind fun _ _ => (computes_int64At 0).bind fun _ _ => answered _
  · exact (computes_nativeAt 1).bind fun _ _ => (computes_nativeAt 0).bind fun _ _ => answered _
  · exact (computes_nativeAt 1).bind fun _ _ => (computes_nativeAt 0).bind fun _ _ => answered _
  · exact (computes_nativeAt 1).bind fun _ _ => (computes_nativeAt 0).bind fun _ _ => answered _
  · exact (computes_floatAt 1).bind fun _ _ => (computes_floatAt 0).bind fun _ _ => answered _
  · exact (computes_objectAt 1).bind fun _ _ => (computes_objectAt 0).bind fun _ _ => answered _
  · exact (computes_peek 1).bind fun _ _ => (computes_peek 0).bind fun _ _ => answered _
  · exact answered _
  · exact answered _
  · exact answered _

theorem acting_compare {c : Comparison} (hact : op.action = .compare c) :
    Acting md p pc op next (compare p pc op c) :=
  .after (computes_compareTop op c) fun _ _ => acting_result hs trivial (replaced (by rw [hact]; rfl) (.inl rfl))

/-! ## Loads and stores through pointers -/

theorem computes_slotKind (slot : Nat) : Computes md p (slotKind p slot) fun k =>
    slot < p.layout.stackBase ∧ p.variableTypes[slot]? = some k.stackType := by
  have harguments : p.argumentKinds.length = p.layout.arguments := by rw [hs.argumentKinds, hs.layout]; rfl
  have hkind : (if slot < p.layout.arguments then p.argumentKinds[slot]? else
      p.localKinds[slot - p.layout.localBase]?) = (p.argumentKinds ++ p.localKinds)[slot]? := by
    rw [List.getElem?_append, harguments]
    rfl
  unfold slotKind
  rw [hkind]
  dsimp only
  split
  · rename_i k hk
    refine .pure ⟨?_, by rw [Prepared.variableTypes, List.getElem?_map, hk]; rfl⟩
    have hlt := (List.getElem?_eq_some_iff.1 hk).1
    rw [← hs.length_variables, Prepared.variableTypes, List.length_map]
    exact hlt
  · exact computes_activation.bind fun _ _ => .throw

section

variable (hmd : md.WellFormed)
include hmd

omit hs in
theorem computes_loadThrough {q : Pointer} (hq : q.Proper md) (k : Kind) :
    Computes md p (loadThrough q k) fun v => v.Proper md ∧ v.Fits k.stackType :=
  (computes_deref hmd hq k).bind fun _ hv => computes_activation.bind fun _ _ => computes_normalize _ k hv

omit hmd in
/-- **A store through a pointer narrows to the kind of the location.** -/
theorem computes_storeThrough {q : Pointer} (hq : q.Proper md) (k : Kind) (hv : v.Proper md) :
    Computes md p (storeThrough p q k v) fun _ => True := by
  refine computes_activation.bind fun a _ => ?_
  cases q with
  | slot frame slot =>
    refine (computes_ownSlot frame slot).bind fun slot _ => (computes_slotKind hs slot).bind fun k ⟨hslot, hk⟩ => ?_
    refine (computes_normalize slot k hv).bind fun u ⟨hu, hfits⟩ => computes_put hs.aligned hu hslot fun t ht => ?_
    cases hk.symm.trans ht
    exact hfits
  | field object f =>
    exact (computes_normalize _ _ hv).bind fun u ⟨hu, _⟩ => computes_onHeap (Heap.keeps_storeField object hq hu)
  | static f => exact (computes_normalize _ _ hv).bind fun u ⟨hu, _⟩ => computes_onHeap (Heap.keeps_storeStatic hq hu)
  | element array index =>
    refine (computes_normalize _ _ hv).bind fun u ⟨hu, _⟩ => computes_metadata.bind ?_
    rintro _ rfl
    exact computes_onHeap (Heap.keeps_storeElement array index k hu)
  | boxed object =>
    refine (computes_normalize _ _ hv).bind fun u ⟨hu, _⟩ => computes_metadata.bind ?_
    rintro _ rfl
    exact computes_onHeap (Heap.keeps_storeBoxed object hu)
  | method h => exact .throw

theorem acting_loadIndirect {k : Kind}
    (hR : ∀ st st', p.Acts md pc op next st st' → Replaces 1 k.stackType st st') :
    Acting md p pc op next (loadIndirect p k) :=
  .after (computes_addressAt 0) fun _ hq => .after (computes_loadThrough hmd hq k) fun _ ⟨hv, hfits⟩ =>
    acting_result hs hv fun st st' h => ⟨_, hR st st' h, hfits⟩

omit hmd in
theorem acting_storeIndirect (hact : op.action.drops = true) (k : Kind) :
    Acting md p pc op next (storeIndirect p k) :=
  .after (computes_addressAt 1) fun _ hq => .after (computes_peek 0) fun _ hv =>
    .after (computes_storeThrough hs hq k hv) fun _ _ => .pure trivial (dropped hact)

theorem acting_copyObject (hact : op.action = .copyObject) : Acting md p pc op next (copyObject p pc) := by
  refine .after (computes_typeOperand pc) fun type _ => .after (computes_addressAt 1) fun target htarget => ?_
  refine .after (computes_addressAt 0) fun source hsource => ?_
  refine .after (computes_loadThrough hmd hsource _) fun v ⟨hv, _⟩ => ?_
  exact .after (computes_storeThrough hs htarget _ hv) fun _ _ => .pure trivial (dropped (by rw [hact]; rfl))

theorem acting_initObject (hact : op.action = .initObject) : Acting md p pc op next (initObject p pc) := by
  refine .after (computes_typeOperand pc) fun type _ => .after (computes_addressAt 0) fun q hq => ?_
  refine .after computes_metadata ?_
  rintro _ rfl
  refine .after (computes_onHeap (Heap.keeps_zeroOf hmd type)) fun v ⟨hv, _⟩ => ?_
  exact .after (computes_storeThrough hs hq _ hv) fun _ _ => .pure trivial (dropped (by rw [hact]; rfl))

end

/-! ## Stores to objects -/

omit hs in
theorem acting_storeElement {kind : Option Kind} (hact : op.action = .storeElement kind) :
    Acting md p pc op next (storeElement p pc kind) := by
  refine .after (computes_elementKind kind) fun k _ => .after (computes_nonNullAt 2) fun r _ => ?_
  refine .after (computes_indexAt 1) fun i _ => .after computes_activation fun _ _ => .after (computes_peek 0) ?_
  intro v hv
  refine .after (computes_normalize _ k hv) fun u ⟨hu, _⟩ => .after computes_metadata ?_
  rintro _ rfl
  exact .after (computes_onHeap (Heap.keeps_storeElement _ i k hu)) fun _ _ =>
    .pure trivial (dropped (by rw [hact]; rfl))

section

variable (hmd : md.WellFormed)
include hmd

theorem acting_loadObject (hd : p.Declares pc op next) (ha : p.declared.AgreeOn p.code pc next)
    (hact : op.action = .loadObject) : Acting md p pc op next (loadObject p pc) := by
  refine .after (computes_typeOperand pc) ?_
  rintro type ⟨t, ht, hr⟩
  refine acting_loadIndirect hs hmd fun st st' h => ?_
  obtain ⟨e, he, -⟩ := h.act
  obtain ⟨t', type', ht', hr', hrep⟩ := Analysis.Context.act_loadObject he hact
  cases same_type hd ha (by rw [hact]; rfl) ht hr ht' hr'
  exact hrep

omit hs in
theorem acting_storeField (hact : op.action = .storeField) : Acting md p pc op next (storeField p pc) := by
  refine .after (computes_fieldOperand pc) ?_
  rintro f ⟨t, ht, hr⟩
  have hfield := hmd.hasField hr
  refine .after computes_activation fun _ _ => .after (computes_peek 0) fun v hv => ?_
  refine .after (computes_normalize _ _ hv) fun u ⟨hu, _⟩ => ?_
  split
  · exact .after (computes_onHeap (Heap.keeps_storeStatic hfield hu)) fun _ _ =>
      .pure trivial (dropped (by rw [hact]; rfl))
  · exact .after (computes_fieldOwner hmd 1) fun _ _ => .after (computes_onHeap (Heap.keeps_storeField _ hfield hu))
      fun _ _ => .pure trivial (dropped (by rw [hact]; rfl))

omit hs in
theorem acting_storeStatic (hact : op.action = .storeStatic) :
    Acting md p pc op next (storeStatic p pc) := by
  refine .after (computes_fieldOperand pc) ?_
  rintro f ⟨t, ht, hr⟩
  refine .after computes_activation fun _ _ => .after (computes_peek 0) fun v hv => ?_
  refine .after (computes_normalize _ _ hv) fun u ⟨hu, _⟩ => ?_
  exact .after (computes_onHeap (Heap.keeps_storeStatic (hmd.hasField hr) hu)) fun _ _ =>
    .pure trivial (dropped (by rw [hact]; rfl))

end

/-! ## Branches -/

omit hs in
theorem acting_jumpIf (hact : op.action.drops = true) (taken : Bool) :
    Acting md p pc op next (jumpIf p pc op taken) := by
  refine .after (computes_ofEngine _) fun target _ => .after (computes_tracing _) fun _ _ => ?_
  refine .pure ?_ (dropped hact)
  cases taken <;> trivial

omit hs in
theorem computes_truth (op : Opcode) : Computes md p (truth p pc op) fun _ => True := by
  refine (computes_operandTypes pc).bind fun types _ => ?_
  split
  · exact (computes_int32At 0).bind fun _ _ => .pure trivial
  · exact (computes_int64At 0).bind fun _ _ => .pure trivial
  · exact (computes_nativeAt 0).bind fun _ _ => .pure trivial
  · exact (computes_objectAt 0).bind fun _ _ => .pure trivial
  · refine (computes_peek 0).bind fun v _ => ?_
    split
    · exact .pure trivial
    · exact .pure trivial
  · exact .throw

omit hs in
theorem acting_switch (hact : op.action = .switch) : Acting md p pc op next (switch p pc) := by
  have last : ∀ index : Nat, Acting md p pc op next (pure index >>= jumpInto p pc) := by
    intro index
    refine .after (Computes.pure (P := fun _ => True) trivial) fun index _ => ?_
    refine .after (computes_ofEngine _) fun targets _ => ?_
    split
    · exact .pure trivial (dropped (by rw [hact]; rfl))
    · exact .pure trivial (dropped (by rw [hact]; rfl))
  refine .after (computes_peek 0) fun v _ => ?_
  split
  · exact last _
  · exact .after (computes_nativeAt 0) fun _ _ => last _

omit hs in
theorem acting_throwTop : Acting md p pc op next (throwTop p) := by
  refine .after (computes_objectAt 0) fun r _ => .after computes_machine fun m _ => ?_
  split
  · exact .throw
  · exact .after computes_metadata fun _ _ => .after (computes_ofResolution _) fun _ _ => .throw

omit hs in
theorem acting_rethrow : Acting md p pc op next (rethrow p pc) :=
  .after computes_activation fun _ _ => .after (computes_ofEngine _) fun _ _ => .throw

/-! ## All of them -/

/-- **Every instruction that is no transfer leaves the types that the analysis found.** -/
theorem acting_instruction (hmd : md.WellFormed) (hd : p.Declares pc op next)
    (ha : p.declared.AgreeOn p.code pc next) (hplain : op.action.isTransfer = false) :
    Acting md p pc op next (instruction p pc op) := by
  have drops : ∀ {a : Action}, op.action = a → a.drops = true → op.action.drops = true :=
    fun hact hdrops => by rw [hact]; exact hdrops
  have advances : ∀ {a : Action}, op.action = a → a.drops = true → Acting md p pc op next (pure .advance) :=
    fun hact hdrops => .pure trivial (dropped (drops hact hdrops))
  by_cases hobjects : op.action.onObjects = true
  · exact (giving_instruction hs.aligned hmd hd ha hobjects).acting
  unfold instruction
  cases hact : op.action with
  | skip => exact advances hact rfl
  | pop => exact advances hact rfl
  | load place index => exact acting_load hs hd ha hact
  | address place => exact acting_loadAddress hs hact
  | store place index => exact acting_store hs hact
  | loadNull => exact acting_result hs trivial (replaced (by rw [hact]; rfl) (.inl rfl))
  | loadConstant c => exact acting_loadConstant hs hact
  | dup => exact acting_dup hs hact
  | jump => exact acting_jumpIf (drops hact rfl) true
  | jumpOn b => exact .after (computes_truth op) fun t _ => acting_jumpIf (drops hact rfl) (t == b)
  | jumpCompare c => exact .after (computes_compareTop op c) fun t _ => acting_jumpIf (drops hact rfl) t
  | switch => exact acting_switch hact
  | throw => exact acting_throwTop
  | rethrow => exact acting_rethrow
  | compare c => exact acting_compare hs hact
  | binary b => exact acting_binary hs hact
  | shift s => exact acting_shift hs hact
  | unary u => exact acting_unary hs hact
  | checkFinite => exact acting_checkFinite hs hact
  | convert c => exact acting_convert hs hact
  | loadIndirect k =>
    refine acting_loadIndirect hs hmd fun st st' h => ?_
    obtain ⟨e, he, -⟩ := h.act
    exact Analysis.Context.act_replaces he (by rw [hact]; rfl)
  | storeIndirect k => exact acting_storeIndirect hs (drops hact rfl) k
  | loadObject => exact acting_loadObject hs hmd hd ha hact
  | storeObject => exact .after (computes_typeOperand pc) fun type _ => acting_storeIndirect hs (drops hact rfl) _
  | copyObject => exact acting_copyObject hs hmd hact
  | initObject => exact acting_initObject hs hmd hact
  | storeElement kind => exact acting_storeElement hact
  | storeField => exact acting_storeField hmd hact
  | storeStatic => exact acting_storeStatic hmd hact
  | callIndirect => exact .throw
  | localAlloc => exact .throw
  | copyBlock => exact .throw
  | initBlock => exact .throw
  | argumentList => exact .throw
  | makeTyped => exact .throw
  | typedAddress => exact .throw
  | typedType => exact .throw
  | endFilter => exact .throw
  | _ =>
    first
    | exact absurd (by rw [hact]; rfl) hobjects
    | rw [hact] at hplain
      cases hplain

end

end ExecM

end ManagedCode
