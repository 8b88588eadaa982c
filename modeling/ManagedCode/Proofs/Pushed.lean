import ManagedCode.Proofs.Encoding
import ManagedCode.Proofs.Upkeep

/-!
# The values that instructions on objects push

Let the evaluation stack of a frame have types from which the analysis executes an instruction on objects, and let the
heap be typed. If the instruction completes, the value that it pushes has the type that the analysis pushed, but for two
combinations (`Prepared.Disagrees`), in which it never has. Nothing is assumed of the arguments and locals of the frame:
whatever they hold, a method with arguments of just these types has the same code (`Prepared.withVariables`), so
`ExecM.giving_instruction` applies to it.
-/

namespace ManagedCode

open Analysis (Replaces)

/-! ## Types from which the instruction is executed -/

/-- How many values an action on objects takes from the stack. -/
def Action.taken : Action → Nat
  | .loadString | .loadToken | .loadStatic | .staticAddress | .sizeOf | .functionPointer => 0
  | .elementAddress | .loadElement _ => 2
  | _ => 1

/-- The table of effects knows the same numbers. -/
theorem Opcode.effect_onObjects (op : Opcode) (h : op.action.onObjects = true) :
    op.effect = .fixed op.action.taken 1 := by
  cases op <;> first | rfl | cases h

namespace Analysis.Context

variable {cx : Context} {pc next : Nat} {op : Opcode} {st st' rest : List StackType} {t u : StackType} {e : Effect}

/-- **The analysis replaces what the instruction takes by one type.** -/
theorem act_onObjects (h : (cx.act pc op next).run st = .ok (e, st')) (hact : op.action.onObjects = true) :
    ∃ t, Replaces op.action.taken t st st' := by
  cases ha : op.action with
  | loadString | loadToken | newArray | arrayLength | elementAddress | staticAddress | box | unbox | sizeOf
  | functionPointer | virtualPointer => exact ⟨_, act_replaces h (by rw [ha]; rfl)⟩
  | loadElement kind =>
    cases kind with
    | some k => exact ⟨_, act_replaces h (by rw [ha]; rfl)⟩
    | none =>
      obtain ⟨-, type, -, -, hrep⟩ := act_loadElement h ha
      exact ⟨_, hrep⟩
  | loadField =>
    obtain ⟨-, f, owner, rest, -, -, rfl, rfl⟩ := act_loadField h ha
    exact ⟨_, [owner], rest, rfl, rfl, rfl⟩
  | fieldAddress =>
    obtain ⟨owner, rest, rfl, rfl⟩ := act_fieldAddress h ha
    exact ⟨_, [owner], rest, rfl, rfl, rfl⟩
  | loadStatic =>
    obtain ⟨-, f, -, -, rfl⟩ := act_loadStatic h ha
    exact ⟨_, [], st, rfl, rfl, rfl⟩
  | castClass =>
    obtain ⟨rest, rfl, rfl⟩ := act_cast h (.inl ha)
    exact ⟨_, [.object], rest, rfl, rfl, rfl⟩
  | isInstance =>
    obtain ⟨rest, rfl, rfl⟩ := act_cast h (.inr ha)
    exact ⟨_, [.object], rest, rfl, rfl, rfl⟩
  | unboxAny =>
    obtain ⟨-, type, rest, -, -, rfl, rfl⟩ := act_unboxAny h ha
    exact ⟨_, [.object], rest, rfl, rfl, rfl⟩
  | _ => rw [ha] at hact; cases hact

/-- The analysis takes anything for `box`. -/
theorem act_box (ha : op.action = .box) (t u : StackType) (rest : List StackType) :
    (cx.act pc op next).run (t :: rest) = (cx.act pc op next).run (u :: rest) := by
  simp only [act, ha]
  rfl

end Analysis.Context

/-! ## Stacks of any frame -/

/-- A kind of location for values of a type. -/
def StackType.kind : StackType → Kind
  | .int32 => .i4
  | .int64 => .i8
  | .nativeInt => .i
  | .float => .r8
  | .object => .object
  | .pointer => .byRef

theorem StackType.stackType_kind (t : StackType) : t.kind.stackType = t := by cases t <;> rfl

/-- **The evaluation stack has the types `st`**, its top first; the heap is typed, and pointers to fields carry the
symbols of the tables. -/
structure Workspace.Matches (md : Metadata) (p : Prepared) (st : List StackType) (w : Workspace) : Prop where
  metadata : w.machine.metadata = md
  heap : w.machine.heap.Typed md
  proper : w.activation.frame.Proper md
  size : p.layout.stackBase ≤ w.activation.frame.size
  top : w.activation.top = p.layout.stackBase + st.length
  stack : ∀ (i : Nat) t, st[i]? = some t →
    ∃ v, w.activation.frame.slots[w.activation.top - (i + 1)]? = some v ∧ v.Fits t

namespace Prepared

variable {md : Metadata} {p : Prepared} {f : Frame} {pc : Nat} {op : Opcode}

/-- The method with arguments of the types that the frame has below the stack, and no locals. -/
def withVariables (p : Prepared) (f : Frame) : Prepared :=
  { p with argumentKinds := (f.slots.toList.take p.layout.stackBase).map (·.stackType.kind), localKinds := [] }

theorem variableTypes_withVariables (p : Prepared) (f : Frame) :
    (p.withVariables f).variableTypes = (f.slots.toList.take p.layout.stackBase).map (·.stackType) := by
  rw [variableTypes, withVariables, List.append_nil, List.map_map]
  exact List.map_congr_left fun v _ => v.stackType.stackType_kind

theorem aligned_withVariables (h : p.layout.stackBase ≤ f.size) : (p.withVariables f).Aligned where
  length := by
    rw [variableTypes_withVariables, List.length_map, List.length_take, Array.length_toList]
    exact Nat.min_eq_left h

theorem holds_withVariables (p : Prepared) (f : Frame) : f.Holds (p.withVariables f).variableTypes := by
  intro i t ht
  rw [variableTypes_withVariables, List.getElem?_map, Option.map_eq_some_iff] at ht
  obtain ⟨v, hv, rfl⟩ := ht
  rw [List.getElem?_take, Array.getElem?_toList] at hv
  split at hv
  · exact ⟨v, hv, .inl rfl⟩
  · cases hv

/-- An instruction on objects does not ask for the kinds of arguments and locals. -/
theorem instruction_withVariables (p : Prepared) (f : Frame) (h : op.action.onObjects = true) :
    ExecM.instruction (p.withVariables f) pc op = ExecM.instruction p pc op := by
  unfold ExecM.instruction
  cases ha : op.action with
  | loadString | loadToken | newArray | arrayLength | elementAddress | loadElement | loadField | fieldAddress
  | loadStatic | staticAddress | castClass | isInstance | box | unbox | unboxAny | sizeOf | functionPointer
  | virtualPointer => rfl
  | _ => exact absurd h (by rw [ha]; exact Bool.false_ne_true)

end Prepared

namespace Workspace.Matches

variable {md : Metadata} {p : Prepared} {w : Workspace} {st rest : List StackType} {t u : StackType} {v : Value}

/-- Whatever the arguments and locals hold, the workspace is good for a method with arguments of these types. -/
theorem good (h : w.Matches md p st) : w.Good md (p.withVariables w.activation.frame) where
  metadata := h.metadata
  heap := h.heap
  proper := h.proper
  holds := p.holds_withVariables w.activation.frame

theorem holds (h : w.Matches md p st) :
    w.activation.frame.Holds ((p.withVariables w.activation.frame).types st) := by
  have hlength : (p.withVariables w.activation.frame).variableTypes.length = p.layout.stackBase :=
    (Prepared.aligned_withVariables h.size).length
  intro i t ht
  by_cases hi : i < p.layout.stackBase
  · rw [Prepared.types, List.getElem?_append_left (by rw [hlength]; exact hi)] at ht
    exact p.holds_withVariables w.activation.frame i t ht
  · rw [Prepared.types, List.getElem?_append_right (by rw [hlength]; exact Nat.le_of_not_lt hi), hlength] at ht
    have hlt := (List.getElem?_eq_some_iff.1 ht).1
    rw [List.length_reverse] at hlt
    rw [List.getElem?_reverse hlt] at ht
    obtain ⟨v, hv, hfits⟩ := h.stack _ t ht
    refine ⟨v, ?_, hfits⟩
    rw [← hv, h.top]
    congr 1
    show i = p.layout.stackBase + st.length - (st.length - 1 - (i - p.layout.stackBase) + 1)
    omega

/-- The top may have any type that its value fits. -/
theorem retop (h : w.Matches md p (t :: rest)) (hv : w.activation.frame.slots[w.activation.top - 1]? = some v)
    (hfits : v.Fits u) : w.Matches md p (u :: rest) where
  metadata := h.metadata
  heap := h.heap
  proper := h.proper
  size := h.size
  top := h.top
  stack := by
    intro i s hs
    cases i with
    | zero =>
      cases hs
      exact ⟨v, hv, hfits⟩
    | succ i => exact h.stack (i + 1) s hs

end Workspace.Matches

namespace ExecM

variable {md : Metadata} {p : Prepared} {pc next pops : Nat} {op : Opcode} {w w' : Workspace} {n : Next}
  {st rest : List StackType} {t : StackType} {v : Value}

/-- **What is pushed where the analysis and the machine agree.** -/
theorem gives_found (hmd : md.WellFormed) (hd : p.Declares pc op next) (ha : p.declared.AgreeOn p.code pc next)
    (hact : op.action.onObjects = true) (hw : w.Matches md p st) (htakes : p.Takes md pc op next st (t :: rest))
    (hrun : (instruction p pc op).run w = (.ok n, w')) :
    n = .advance ∧ ∃ v, w'.activation.frame.slots[p.layout.stackBase + rest.length]? = some v ∧ v.Fits t := by
  have haligned := Prepared.aligned_withVariables hw.size
  have htakes' : (p.withVariables w.activation.frame).Takes md pc op next st (t :: rest) :=
    ⟨htakes.act, htakes.box, htakes.address⟩
  have hgives := giving_instruction haligned hmd ⟨hd.opcode, hd.next⟩ ha hact w hw.good
  rw [p.instruction_withVariables _ hact] at hgives
  obtain ⟨hn, -, hdelivers⟩ := hgives.of_ok hrun
  refine ⟨hn, ?_⟩
  exact haligned.holds_at (n := 0) (hdelivers st _ htakes' hw.top hw.holds) rfl

/-- The result of an instruction stands where it took its operands. -/
theorem result_pushes (hrun : (do result p pops v; return Next.advance).run w = (.ok n, w')) :
    n = .advance ∧ w'.activation.frame.slots[w.activation.top - pops]? = some v := by
  have hresult : Meets (do result p pops v; return Next.advance) w (fun n w' => n = .advance ∧
      w'.activation.frame.slots[w.activation.top - pops]? = some v) fun _ _ => True := by
    unfold result
    rw [bind_assoc]
    refine Meets.bind ((resultSlot_meets pops).mono (fun _ _ h => h) fun _ _ _ => trivial) ?_
    rintro _ w ⟨-, rfl, rfl⟩
    refine Meets.bind ((put_meets _ v).mono (fun _ _ h => h) fun _ _ _ => trivial) ?_
    rintro _ w' ⟨hlt, rfl⟩
    exact ⟨rfl, Array.getElem?_setIfInBounds_self_of_lt hlt⟩
  exact hresult.of_ok hrun

/-- `box` leaves a value as it is if the type is a class. -/
theorem box_class {token : Token} {type : TypeSymbol} (ht : p.code.token pc = .ok token)
    (hr : w.machine.metadata.resolveType token = .ok type) (hv : type.isValueType = false) :
    (box p pc).run w = (.ok .advance, w) := by
  have htype : (typeOperand p pc).run w = (.ok type, w) := by
    rw [typeOperand, ht]
    show (ofResolution (w.machine.metadata.resolveType token)).run w = _
    rw [hr]
    rfl
  rw [box, Meets.run_bind, htype]
  dsimp only
  rw [hv]
  rfl

/-- The address of a static field is a pointer to it, whatever it is asked for with. -/
theorem fieldAddress_static {token : Token} {f : FieldSymbol} (ht : p.code.token pc = .ok token)
    (hr : w.machine.metadata.resolveField token = .ok f) (hf : f.isStatic = true) :
    (fieldAddress p pc).run w = (do result p 1 (.pointer (.static f)); return Next.advance).run w := by
  have hfield : (fieldOperand p pc).run w = (.ok f, w) := by
    rw [fieldOperand, ht]
    show (ofResolution (w.machine.metadata.resolveField token)).run w = _
    rw [hr]
    rfl
  rw [fieldAddress, Meets.run_bind, hfield]
  dsimp only
  rw [hf]
  rfl

end ExecM

/-! ## Agreement -/

/-- **Where the analysis and the machine disagree**: `box` with a class leaves a value that is no reference, and the
address of a static field that is asked for with a plain number is a pointer. -/
inductive Prepared.Disagrees (md : Metadata) (p : Prepared) (pc : Nat) (op : Opcode) (st : List StackType)
    (w : Workspace) : Prop where
  | box {token : Token} {type : TypeSymbol} {v : Value} : op.action = .box → p.declared.token pc = .ok token →
      md.resolveType token = .ok type → type.isValueType = false →
      w.activation.frame.slots[w.activation.top - 1]? = some v → v.stackType ≠ .object → Disagrees md p pc op st w
  | address {token : Token} {f : FieldSymbol} {rest : List StackType} : op.action = .fieldAddress →
      p.declared.token pc = .ok token → md.resolveField token = .ok f → f.isStatic = true →
      st = .nativeInt :: rest → Disagrees md p pc op st w

namespace ExecM

variable {md : Metadata} {p : Prepared} {pc next : Nat} {op : Opcode} {w w' w'' : Workspace} {n : Next}
  {st st' rest : List StackType} {t : StackType} {v : Value} {e : Analysis.Effect}

/-- **Where they disagree, the value never has the type that was found.** -/
theorem gives_other (hd : p.Declares pc op next) (ha : p.declared.AgreeOn p.code pc next) (hw : w.Matches md p st)
    (he : ((p.context md).act pc op next).run st = .ok (e, t :: rest)) (hdis : p.Disagrees md pc op st w)
    (hrun : (instruction p pc op).run w = (.ok n, w')) :
    n = .advance ∧ ∃ v, w'.activation.frame.slots[p.layout.stackBase + rest.length]? = some v ∧ ¬ v.Fits t := by
  have htop := hw.top
  have hmd := hw.metadata
  cases hdis with
  | @box token type v hact ht hr hvalue hv hne =>
    obtain ⟨ins, rest', hlen, rfl, hst⟩ := Analysis.Context.act_replaces he (by rw [hact]; rfl)
    cases hst
    rw [← Code.token_agree hd.next ha hd.opcode (op.size?_of_width? (by rw [hact]; rfl))] at ht
    rw [← hmd] at hr
    rw [instruction, hact] at hrun
    cases (box_class ht hr hvalue).symm.trans hrun
    rw [List.length_append, hlen] at htop
    refine ⟨rfl, v, ?_, fun hfits => hne (hfits.eq (by decide))⟩
    rw [← hv, htop]
    congr 1
    omega
  | @address token f rest' hact ht hr hstatic hst =>
    subst hst
    obtain ⟨owner, rest'', hst, hst'⟩ := Analysis.Context.act_fieldAddress he hact
    cases hst
    cases hst'
    rw [← Code.token_agree hd.next ha hd.opcode (op.size?_of_width? (by rw [hact]; rfl))] at ht
    rw [← hmd] at hr
    rw [instruction, hact] at hrun
    obtain ⟨hn, hslot⟩ := result_pushes ((fieldAddress_static ht hr hstatic).symm.trans hrun)
    rw [htop] at hslot
    exact ⟨hn, _, hslot, fun hfits => by cases hfits.eq (by decide)⟩

/-- **Where they do not disagree, it has.** If `box` names a class, the type of the value that it leaves may have been
anything; the analysis would have found the same for a reference, and that is what the value is. -/
theorem gives_agreed {ins : List StackType} (hmd : md.WellFormed) (hd : p.Declares pc op next)
    (ha : p.declared.AgreeOn p.code pc next) (hact : op.action.onObjects = true) (hw : w.Matches md p (ins ++ rest))
    (hlen : ins.length = op.action.taken)
    (he : ((p.context md).act pc op next).run (ins ++ rest) = .ok (e, t :: rest))
    (hdis : ¬ p.Disagrees md pc op (ins ++ rest) w) (hrun : (instruction p pc op).run w = (.ok n, w')) :
    n = .advance ∧ ∃ v, w'.activation.frame.slots[p.layout.stackBase + rest.length]? = some v ∧ v.Fits t := by
  have haddress : op.action = .fieldAddress → ∀ token f, p.declared.token pc = .ok token →
      md.resolveField token = .ok f → f.isStatic = true → ∀ rest', ins ++ rest ≠ .nativeInt :: rest' :=
    fun h token f ht hr hstatic rest' hst => hdis (.address h ht hr hstatic hst)
  by_cases hclass : op.action = .box ∧ ∃ token type, p.declared.token pc = .ok token ∧
      md.resolveType token = .ok type ∧ type.isValueType = false
  · obtain ⟨hbox, token, type, ht, hr, hvalue⟩ := hclass
    obtain ⟨u, rfl⟩ := List.length_eq_one_iff.1 (hlen.trans (by rw [hbox]; rfl))
    obtain ⟨v, hv, -⟩ := hw.stack 0 u rfl
    have hobject : v.stackType = .object :=
      Decidable.byContradiction fun hne => hdis (.box hbox ht hr hvalue hv hne)
    have he' := (Analysis.Context.act_box hbox .object u rest).trans he
    refine gives_found hmd hd ha hact (hw.retop hv (.inl hobject)) ⟨⟨e, he'⟩, fun _ _ _ _ _ _ => ⟨rest, rfl⟩, ?_⟩ hrun
    intro h
    rw [hbox] at h
    cases h
  · refine gives_found hmd hd ha hact hw ⟨⟨e, he⟩, fun hbox token type ht hr hvalue => ?_, haddress⟩ hrun
    exact absurd ⟨hbox, token, type, ht, hr, hvalue⟩ hclass

/-- What an instruction on objects has pushed is on top after the step. -/
theorem advance_leaves_top {before : Nat} (hact : op.action.onObjects = true)
    (hbefore : before = p.layout.stackBase + st.length) (hrep : Replaces op.action.taken t st (t :: rest))
    (hslot : w.activation.frame.slots[p.layout.stackBase + rest.length]? = some v)
    (hrun : (advance p op before).run w = (.ok (), w')) :
    w'.activation.top = p.layout.stackBase + (t :: rest).length ∧
      w'.activation.frame.slots[p.layout.stackBase + rest.length]? = some v := by
  obtain ⟨next, -, hmoved⟩ := advance_meets.of_ok hrun
  obtain ⟨ins, rest', hlen, rfl, hst⟩ := hrep
  cases hst
  rw [List.length_append, hlen] at hbefore
  obtain ⟨-, htop⟩ := hmoved.top_fixed (op.effect_onObjects hact)
  have htop : w'.activation.top = p.layout.stackBase + (t :: rest).length := by
    rw [htop, List.length_cons]
    omega
  refine ⟨htop, ?_⟩
  rcases hmoved.frame with hf | ⟨-, hf⟩
  · rw [hf]
    exact hslot
  · rw [hf, Frame.getElem?_clearRange_outside _ (.inl (by rw [htop, List.length_cons]; omega))]
    exact hslot

/-- **The value that an instruction on objects pushes has the type that the analysis pushed, unless the two disagree.**
Let the analysis execute the instruction on any stack of types, and let the evaluation stack of a frame hold values of
these types, over a heap that is typed. If the instruction completes, it goes on with the next one, and the one value
that it pushed fits the type that the analysis pushed exactly if the instruction is not `box` with a class on a value
that is no reference, and not the address of a static field that is asked for with a plain number. The value is the top
of the stack after the step. -/
theorem pushes_found_type_iff (hmd : md.WellFormed) (hd : p.Declares pc op next)
    (ha : p.declared.AgreeOn p.code pc next) (hact : op.action.onObjects = true)
    {found : Option OperandTypes × List Analysis.Successor}
    (ht : ((p.context md).transfer pc op).run st = .ok (found, st')) (hw : w.Matches md p st)
    (hrun : (instruction p pc op).run w = (.ok n, w')) :
    n = .advance ∧ ∃ t rest v, st' = t :: rest ∧ rest <:+ st ∧
      w'.activation.frame.slots[p.layout.stackBase + rest.length]? = some v ∧
      (v.Fits t ↔ ¬ p.Disagrees md pc op st w) ∧
      ∀ w'', (advance p op w.activation.top).run w' = (.ok (), w'') →
        w''.activation.top = p.layout.stackBase + st'.length ∧
        w''.activation.frame.slots[w''.activation.top - 1]? = some v := by
  obtain ⟨next', e, hnext, he, -⟩ := Analysis.Context.transfer_ok ht
  cases hd.next.symm.trans hnext
  obtain ⟨t, hrep⟩ := Analysis.Context.act_onObjects he hact
  obtain ⟨ins, rest, hlen, rfl, rfl⟩ := id hrep
  have hpushed : n = .advance ∧ ∃ v, w'.activation.frame.slots[p.layout.stackBase + rest.length]? = some v ∧
      (v.Fits t ↔ ¬ p.Disagrees md pc op (ins ++ rest) w) := by
    by_cases hdis : p.Disagrees md pc op (ins ++ rest) w
    · obtain ⟨hn, v, hv, hfits⟩ := gives_other hd ha hw he hdis hrun
      exact ⟨hn, v, hv, fun h => absurd h hfits, fun h => absurd hdis h⟩
    · obtain ⟨hn, v, hv, hfits⟩ := gives_agreed hmd hd ha hact hw hlen he hdis hrun
      exact ⟨hn, v, hv, fun _ => hdis, fun _ => hfits⟩
  obtain ⟨hn, v, hv, hiff⟩ := hpushed
  refine ⟨hn, t, rest, v, rfl, ⟨ins, rfl⟩, hv, hiff, fun w'' hw'' => ?_⟩
  obtain ⟨htop, hslot⟩ := advance_leaves_top hact hw.top hrep hv hw''
  refine ⟨htop, ?_⟩
  rw [htop]
  exact hslot

end ExecM

/-! ## A number that is boxed -/

/-- A method that boxes five as the type of a row of the tables: `ldc.i4.5`, `box`, `pop`, `ret`. -/
def boxesFive (row : UInt8) : Prepared :=
  let code := #[0x1B, 0x8C, row, 0, 0, 2, 0x26, 0x2A]
  { (default : Prepared) with
    symbol := { (default : MethodSymbol) with body := some { code, maxStack := 1 } }
    code := ⟨code⟩
    layout := ⟨0, 0, 1⟩ }

/-- Before `box`, five is on the stack. -/
def fiveOnTop : Workspace where
  machine := {}
  activation := { method := ⟨1⟩, frame := ⟨⟨1⟩, ⟨0, 0, 1⟩, #[.int32 5]⟩, top := 1, pc := 1, depth := 1 }

theorem fiveOnTop_matches (row : UInt8) : fiveOnTop.Matches .core (boxesFive row) [.int32] where
  metadata := rfl
  heap := (Heap.Built.empty none .core).typed
  proper := by
    intro i v hv
    match i, hv with
    | 0, rfl => trivial
  size := Nat.zero_le _
  top := rfl
  stack := by
    intro i t ht
    match i, ht with
    | 0, rfl => exact ⟨.int32 5, rfl, .inl rfl⟩

theorem boxesFive_agrees (row : UInt8) : (boxesFive row).declared.AgreeOn (boxesFive row).code 1 6 :=
  ⟨rfl, fun _ _ _ => rfl⟩

theorem boxesFive_declares (row : UInt8) : (boxesFive row).Declares 1 .box 6 := by
  have hop : (boxesFive row).declared.opcodeAt 1 = .ok .box := Code.opcodeAt_of_hasAt fun k hk => by
    match k, hk with
    | 0, _ => rfl
  refine ⟨hop, ?_⟩
  rw [Code.nextOffset, hop]
  rfl

theorem boxesFive_token (row : UInt8) :
    (boxesFive row).code.token 1 = .ok ⟨BitVec.ofNat 32 (ofLittleEndian [row, 0, 0, 2])⟩ := by
  have hop : (boxesFive row).code.opcodeAt 1 = .ok .box := (boxesFive_declares row).opcode
  rw [Code.token, Code.word, Code.operand, Code.operandAt, hop]
  rfl

theorem boxesFive_transfer (row : UInt8) :
    (((boxesFive row).context .core).transfer 1 .box).run [.int32] = .ok ((none, [⟨6, false⟩]), [.object]) := by
  have hnext : ((boxesFive row).context .core).code.nextOffset 1 = .ok 6 := (boxesFive_declares row).next
  rw [Analysis.Context.transfer, hnext]
  rfl

/-- **The analysis finds a reference after `box` with `System.Object`, but the number stays**, and the step goes on. -/
theorem ExecM.boxesFive_object_leaves_number : fiveOnTop.Matches .core (boxesFive 1) [.int32] ∧
    (((boxesFive 1).context .core).transfer 1 .box).run [.int32] = .ok ((none, [⟨6, false⟩]), [.object]) ∧
    (instruction (boxesFive 1) 1 .box).run fiveOnTop = (.ok .advance, fiveOnTop) ∧
    (match (advance (boxesFive 1) .box 1).run fiveOnTop with
      | (.ok (), w) => some (w.activation.pc, w.activation.top, w.activation.frame.slots.toList)
      | (.error _, _) => none) = some (6, 1, [.int32 5]) ∧
    ¬ (Value.int32 5).Fits .object := by
  have hr : Metadata.core.resolveType ⟨0x02000001⟩ = .ok ⟨⟨1⟩, "System.Object", .object, false⟩ := by decide +kernel
  exact ⟨fiveOnTop_matches 1, boxesFive_transfer 1, box_class (boxesFive_token 1) hr rfl, by decide +kernel,
    fun hfits => by cases hfits.eq (by decide)⟩

/-- Boxed as `System.Int32`, five becomes a reference. -/
theorem ExecM.boxesFive_int32_gives_reference : (boxesFive 23).Declares 1 .box 6 ∧
    fiveOnTop.Matches .core (boxesFive 23) [.int32] ∧
    ∃ w v, (instruction (boxesFive 23) 1 .box).run fiveOnTop = (.ok .advance, w) ∧
      w.activation.frame.slots[0]? = some v ∧ v.Fits .object := by
  have hdeclares : (boxesFive 23).Declares 1 .box 6 := boxesFive_declares 23
  have hmatches : fiveOnTop.Matches .core (boxesFive 23) [.int32] := fiveOnTop_matches 23
  have htoken : (boxesFive 23).declared.token 1 = .ok ⟨0x02000017⟩ := boxesFive_token 23
  have htype : Metadata.core.resolveType ⟨0x02000017⟩ = .ok ⟨⟨23⟩, "System.Int32", .i4, true⟩ := by decide +kernel
  have hagrees : ¬ (boxesFive 23).Disagrees .core 1 .box [.int32] fiveOnTop := by
    intro h
    cases h with
    | box _ ht hr hvalue _ _ =>
      cases htoken.symm.trans ht
      cases htype.symm.trans hr
      cases hvalue
    | address h _ _ _ _ => cases h
  have hsucceeds : ((instruction (boxesFive 23) 1 .box).run fiveOnTop).1.isOk = true := by decide +kernel
  generalize hr : (instruction (boxesFive 23) 1 .box).run fiveOnTop = r at hsucceeds
  obtain ⟨_ | n, w⟩ := r
  · cases hsucceeds
  obtain ⟨rfl, t, rest, v, hst, -, hv, hiff, -⟩ := pushes_found_type_iff Metadata.core_wellFormed hdeclares
    (boxesFive_agrees 23) rfl (boxesFive_transfer 23) hmatches hr
  cases hst
  exact ⟨hdeclares, hmatches, w, v, rfl, hv, hiff.2 hagrees⟩

end ManagedCode
