import ManagedCode.Proofs.Typing

/-!
# What instructions on objects give

The instructions on strings, tokens, arrays, fields, casts, boxes and function pointers push one value each. The
analysis decides its type from the operand in the code and from the types on the stack; the machine decides it from the
symbol that the operand names and from the values. `giving_instruction` says that the two agree: where the stack has
types from which the analysis gets others, it has those afterwards. No annotation is read and nothing is assumed of the
arguments and locals. Two combinations are left out, for in these the analysis and the machine disagree
(`Prepared.Takes`).
-/

namespace ManagedCode

open Analysis (Replaces)

/-- The actions on strings, tokens, arrays, fields, casts, boxes and function pointers that give a value. -/
def Action.onObjects : Action → Bool
  | .loadString | .loadToken | .newArray | .arrayLength | .loadElement _ | .elementAddress | .loadField | .fieldAddress
  | .loadStatic | .staticAddress | .castClass | .isInstance | .box | .unbox | .unboxAny | .sizeOf | .functionPointer
  | .virtualPointer => true
  | _ => false

/-- **The analysis executes the instruction on the types `st` and gets `st'`.** The type that `box` names, if it is a
class, is for a reference only, and the address of a static field is not asked for with an address that is a plain
number. -/
structure Prepared.Takes (md : Metadata) (p : Prepared) (pc : Nat) (op : Opcode) (next : Nat)
    (st st' : List StackType) : Prop where
  act : ∃ e, ((p.context md).act pc op next).run st = .ok (e, st')
  box : op.action = .box → ∀ t type, p.declared.token pc = .ok t → md.resolveType t = .ok type →
    type.isValueType = false → ∃ rest, st = .object :: rest
  address : op.action = .fieldAddress → ∀ t f, p.declared.token pc = .ok t → md.resolveField t = .ok f →
    f.isStatic = true → ∀ rest, st ≠ .nativeInt :: rest

namespace ExecM

variable {md : Metadata} {p : Prepared} {pc next : Nat} {op : Opcode} {v : Value} {t : StackType}

/-- An instruction of the first table gives a value of the type that the table names. -/
theorem given {pops : Nat} (ha : op.action.replaces? = some (pops, t)) (hv : v.Fits t) :
    ∀ st st', p.Takes md pc op next st st' → ∃ t, Replaces pops t st st' ∧ v.Fits t := by
  intro st st' h
  obtain ⟨e, he⟩ := h.act
  exact ⟨t, Analysis.Context.act_replaces he ha, hv⟩

/-- **The instruction goes on, with what the analysis found on the stack.** -/
abbrev Giving (md : Metadata) (p : Prepared) (pc : Nat) (op : Opcode) (next : Nat) (x : ExecM Next) : Prop :=
  Delivers md p (p.Takes md pc op next) x (· = .advance)

/-! ## Parts -/

theorem computes_ownSlot (frame : FrameId) (slot : Nat) : Computes md p (ownSlot frame slot) fun _ => True := by
  refine computes_activation.bind fun a _ => ?_
  split
  · exact .pure trivial
  · exact .throw

theorem computes_symbolOperand (pc : Nat) : Computes md p (symbolOperand p pc) fun _ => True := by
  refine (computes_ofEngine _).bind fun t _ => ?_
  split
  · exact (computes_resolveMethod t).bind fun _ _ => .pure trivial
  · exact computes_metadata.bind fun _ _ => (computes_ofResolution _).mono fun _ _ => trivial

theorem computes_elementKind (kind : Option Kind) : Computes md p (elementKind p pc kind) fun k =>
    kind = some k ∨ kind = none ∧ ∃ t type, p.code.token pc = .ok t ∧ md.resolveType t = .ok type ∧ k = type.kind := by
  cases kind with
  | some k => exact .pure (.inl rfl)
  | none =>
    refine (computes_typeOperand pc).bind ?_
    rintro type ⟨t, ht, hr⟩
    exact .pure (.inr ⟨rfl, t, type, ht, hr, rfl⟩)

section

variable (hmd : md.WellFormed)
include hmd

theorem computes_deref {q : Pointer} (hq : q.Proper md) (k : Kind) :
    Computes md p (deref q k) fun v => v.Proper md := by
  cases q with
  | slot frame slot =>
    refine (computes_ownSlot frame slot).bind fun slot _ => computes_activation.bind fun a ha => ?_
    exact (computes_ofEngine _).mono fun v hv => ha slot v (Frame.get_ok hv)
  | field object f =>
    refine computes_metadata.bind ?_
    rintro _ rfl
    exact (computes_onHeap (Heap.keeps_loadField hmd object hq)).mono fun _ h => h.1
  | static f =>
    refine computes_metadata.bind ?_
    rintro _ rfl
    exact (computes_onHeap (Heap.keeps_loadStatic hmd hq)).mono fun _ h => h.1
  | element array index => exact (computes_onHeap (Heap.keeps_loadElement array index k)).mono fun _ h => h.1
  | boxed object => exact computes_onHeap (Heap.keeps_loadBoxed object)
  | method h => exact .throw

theorem computes_ownerOf (hv : v.Proper md) : Computes md p (ownerOf v) fun _ => True := by
  have owned : ∀ object : Option Ref, Computes md p (pure object >>= owned) fun _ => True := by
    intro object
    cases object with
    | some r => exact .pure trivial
    | none => exact .throw
  unfold ownerOf
  split
  · exact owned _
  · refine (computes_deref hmd hv _).bind fun u _ => ?_
    split
    · exact owned _
    · exact .throw
  · exact .throw
  · exact computes_activation.bind fun _ _ => .throw

theorem computes_fieldOwner (n : Nat) : Computes md p (fieldOwner p n) fun _ => True :=
  (computes_peek n).bind fun _ hv => computes_ownerOf hmd hv

end

section

variable (hd : p.Declares pc op next) (ha : p.declared.AgreeOn p.code pc next)
include hd ha

/-- The type that the instruction names now is the one that the analysis found. -/
theorem same_type {t t' : Token} {type type' : TypeSymbol} (hw : op.action.width? = some 4)
    (ht : p.code.token pc = .ok t) (hr : md.resolveType t = .ok type) (ht' : p.declared.token pc = .ok t')
    (hr' : md.resolveType t' = .ok type') : type' = type := by
  rw [Code.token_agree hd.next ha hd.opcode (op.size?_of_width? hw)] at ht
  cases ht.symm.trans ht'
  cases hr.symm.trans hr'
  rfl

theorem same_field {t t' : Token} {f f' : FieldSymbol} (hw : op.action.width? = some 4)
    (ht : p.code.token pc = .ok t) (hr : md.resolveField t = .ok f) (ht' : p.declared.token pc = .ok t')
    (hr' : md.resolveField t' = .ok f') : f' = f := by
  rw [Code.token_agree hd.next ha hd.opcode (op.size?_of_width? hw)] at ht
  cases ht.symm.trans ht'
  cases hr.symm.trans hr'
  rfl

end

section

variable (hs : p.Aligned)
include hs

theorem giving_result {pops : Nat} (hv : v.Proper md)
    (hR : ∀ st st', p.Takes md pc op next st st' → ∃ t, Replaces pops t st st' ∧ v.Fits t) :
    Giving md p pc op next (do result p pops v; return .advance) :=
  (delivers_result hs hv hR).before fun _ _ => .pure rfl

/-! ## Strings, tokens and function pointers -/

theorem giving_loadString (hact : op.action = .loadString) : Giving md p pc op next (loadString p pc) :=
  .after (computes_ofEngine _) fun _ _ => .after computes_metadata fun _ _ => .after (computes_ofResolution _) fun s _ =>
    .after (computes_onHeap (Heap.keeps_newString s)) fun _ _ =>
      giving_result hs trivial (given (by rw [hact]; rfl) (.inl rfl))

theorem giving_loadToken (hact : op.action = .loadToken) : Giving md p pc op next (loadToken p pc) :=
  .after (computes_symbolOperand pc) fun s _ => .after (computes_onHeap (Heap.keeps_newHandle s)) fun _ _ =>
    giving_result hs trivial (given (by rw [hact]; rfl) (.inl rfl))

theorem giving_functionPointer (hact : op.action = .functionPointer) : Giving md p pc op next (functionPointer p pc) :=
  .after (computes_ofEngine _) fun t _ => .after (computes_resolveMethod t) fun _ _ =>
    giving_result hs trivial (given (by rw [hact]; rfl) (.inl rfl))

theorem giving_virtualPointer (hact : op.action = .virtualPointer) :
    Giving md p pc op next (virtualPointer p pc) := by
  refine .after (computes_ofEngine _) fun t _ => .after (computes_resolveMethod t) fun m _ => ?_
  refine .after (computes_nonNullAt 0) fun r _ => .after computes_machine fun _ _ => ?_
  split
  · exact .after computes_metadata fun _ _ => .after (computes_ofAbort _) fun _ _ =>
      giving_result hs trivial (given (by rw [hact]; rfl) (.inl rfl))
  · exact giving_result hs trivial (given (by rw [hact]; rfl) (.inl rfl))

/-! ## Arrays -/

theorem giving_newArray (hmd : md.WellFormed) (hact : op.action = .newArray) :
    Giving md p pc op next (newArray p pc) := by
  refine .after (computes_typeOperand pc) fun element _ => .after (computes_nativeAt 0) fun length _ => ?_
  split
  · exact .throw
  · refine .after computes_metadata ?_
    rintro _ rfl
    exact .after (computes_onHeap (Heap.keeps_newArray hmd element _)) fun _ _ =>
      giving_result hs trivial (given (by rw [hact]; rfl) (.inl rfl))

theorem giving_arrayLength (hact : op.action = .arrayLength) : Giving md p pc op next (arrayLength p) :=
  .after (computes_nonNullAt 0) fun _ _ => .after (computes_onHeap (Heap.keeps_arrayLength _)) fun _ _ =>
    giving_result hs trivial (given (by rw [hact]; rfl) (.inl rfl))

theorem giving_elementAddress (hact : op.action = .elementAddress) : Giving md p pc op next (elementAddress p) := by
  refine .after (computes_nonNullAt 1) fun r _ => .after (computes_indexAt 0) fun i _ => ?_
  refine .after (computes_onHeap (Heap.keeps_arrayLength _)) fun n _ => ?_
  split
  · exact .throw
  · exact giving_result hs trivial (given (by rw [hact]; rfl) (.inl rfl))

theorem giving_loadElement (hd : p.Declares pc op next) (ha : p.declared.AgreeOn p.code pc next) {kind : Option Kind}
    (hact : op.action = .loadElement kind) : Giving md p pc op next (loadElement p pc kind) := by
  refine .after (computes_elementKind kind) fun k hk => .after (computes_nonNullAt 1) fun r _ => ?_
  refine .after (computes_indexAt 0) fun i _ => .after (computes_onHeap (Heap.keeps_loadElement _ i k)) ?_
  rintro v ⟨hv, hfits⟩
  refine giving_result hs hv ?_
  rcases hk with rfl | ⟨rfl, t, type, ht, hr, rfl⟩
  · exact given (by rw [hact]; rfl) hfits
  · intro st st' h
    obtain ⟨e, he⟩ := h.act
    obtain ⟨t', type', ht', hr', hrep⟩ := Analysis.Context.act_loadElement he hact
    cases same_type hd ha (by rw [hact]; rfl) ht hr ht' hr'
    exact ⟨_, hrep, hfits⟩

/-! ## Casts -/

/-- A cast leaves the reference, or null in its place. -/
theorem giving_cast (faults : Bool)
    (hR : ∀ st st', p.Takes md pc op next st st' → ∃ rest, st = .object :: rest ∧ st' = st) :
    Giving md p pc op next (cast p pc faults) := by
  have same : Giving md p pc op next (pure .advance) := by
    refine .pure rfl fun st st' h => ?_
    obtain ⟨rest, -, rfl⟩ := hR st st' h
    exact List.suffix_refl _
  refine .after (computes_typeOperand pc) fun target _ => .after (computes_objectAt 0) fun r _ => ?_
  refine .after computes_machine fun m _ => ?_
  split
  · exact same
  · refine .after computes_metadata fun md' _ => ?_
    split
    · exact .throw
    · exact same
    · split
      · exact .after computes_metadata fun _ _ => .after (computes_ofResolution _) fun _ _ => .throw
      · refine giving_result hs trivial fun st st' h => ?_
        obtain ⟨rest, rfl, rfl⟩ := hR st st' h
        exact ⟨.object, ⟨[.object], rest, rfl, rfl, rfl⟩, .inl rfl⟩

theorem giving_castClass (faults : Bool) (hact : op.action = .castClass ∨ op.action = .isInstance) :
    Giving md p pc op next (cast p pc faults) := by
  refine giving_cast hs faults fun st st' h => ?_
  obtain ⟨e, he⟩ := h.act
  exact Analysis.Context.act_cast he hact

theorem giving_unbox (hact : op.action = .unbox) : Giving md p pc op next (unbox p pc) := by
  refine .after (computes_typeOperand pc) fun type _ => .after (computes_nonNullAt 0) fun r _ => ?_
  refine .after (computes_onHeap (Heap.keeps_unboxPointer _ type)) fun q hq => ?_
  have hv : (Value.pointer q).Proper md := hq
  exact giving_result hs hv (given (by rw [hact]; rfl) (.inl rfl))

section

variable (hmd : md.WellFormed)
include hmd

theorem giving_sizeOf (hact : op.action = .sizeOf) : Giving md p pc op next (sizeOf p pc) := by
  refine .after (computes_typeOperand pc) fun type _ => .after computes_metadata ?_
  rintro _ rfl
  exact .after (computes_onHeap (Heap.keeps_sizeOf type)) fun _ _ =>
    giving_result hs trivial (given (by rw [hact]; rfl) (.inl rfl))

theorem giving_staticAddress (hact : op.action = .staticAddress) :
    Giving md p pc op next (staticAddress p pc) := by
  refine .after (computes_fieldOperand pc) ?_
  rintro f ⟨t, ht, hr⟩
  have hv : (Value.pointer (.static f)).Proper md := hmd.hasField hr
  exact giving_result hs hv (given (by rw [hact]; rfl) (.inl rfl))

/-! ## Fields and boxes -/

variable (hd : p.Declares pc op next) (ha : p.declared.AgreeOn p.code pc next)
include hd ha

theorem giving_loadField (hact : op.action = .loadField) : Giving md p pc op next (loadField p pc) := by
  refine .after (computes_fieldOperand pc) ?_
  rintro f ⟨t, ht, hr⟩
  have hfield := hmd.hasField hr
  have loaded : ∀ v : Value, v.Proper md ∧ v.Fits f.kind.stackType →
      Giving md p pc op next (do result p 1 v; return .advance) := by
    rintro v ⟨hv, hfits⟩
    refine giving_result hs hv fun st st' h => ?_
    obtain ⟨e, he⟩ := h.act
    obtain ⟨t', f', owner, rest, ht', hr', rfl, rfl⟩ := Analysis.Context.act_loadField he hact
    cases same_field hd ha (by rw [hact]; rfl) ht hr ht' hr'
    exact ⟨_, ⟨[owner], rest, rfl, rfl, rfl⟩, hfits⟩
  split
  · refine .after computes_metadata ?_
    rintro _ rfl
    exact .after (computes_onHeap (Heap.keeps_loadStatic hmd hfield)) loaded
  · refine .after (computes_fieldOwner hmd 0) fun owner _ => .after computes_metadata ?_
    rintro _ rfl
    exact .after (computes_onHeap (Heap.keeps_loadField hmd _ hfield)) loaded

/-- The address of a field is a pointer, and the owner of one that has an owner is no plain number. -/
theorem giving_fieldAddress (hact : op.action = .fieldAddress) : Giving md p pc op next (fieldAddress p pc) := by
  have pointed : ∀ {R : List StackType → List StackType → Prop} {q : Pointer}, q.Proper md →
      (∀ st st', R st st' → p.Takes md pc op next st st' ∧ ∀ rest, st ≠ .nativeInt :: rest) →
      Delivers md p R (do result p 1 (.pointer q); return Next.advance) (· = .advance) := by
    intro R q hq hR
    have hv : (Value.pointer q).Proper md := hq
    refine (delivers_result hs hv fun st st' h => ?_).before fun _ _ => .pure rfl
    obtain ⟨htakes, hne⟩ := hR st st' h
    obtain ⟨e, he⟩ := htakes.act
    obtain ⟨owner, rest, rfl, rfl⟩ := Analysis.Context.act_fieldAddress he hact
    have howner : owner ≠ .nativeInt := fun ho => hne rest (by rw [ho])
    exact ⟨_, ⟨[owner], rest, rfl, rfl, rfl⟩, by rw [if_neg howner]; exact .inl rfl⟩
  refine .after (computes_fieldOperand pc) ?_
  rintro f ⟨t, ht, hr⟩
  have hfield := hmd.hasField hr
  split
  · rename_i hstatic
    refine pointed hfield fun st st' h => ⟨h, h.address hact t f ?_ hr hstatic⟩
    rw [← Code.token_agree hd.next ha hd.opcode (op.size?_of_width? (by rw [hact]; rfl))]
    exact ht
  · rw [fieldOwner_eq, bind_assoc]
    refine delivers_peek hs fun v hv => ?_
    by_cases hn : v.stackType = .nativeInt
    · cases v <;> first | exact .throw | cases hn
    · refine .after (computes_ownerOf hmd hv) fun r _ => ?_
      refine pointed (q := .field (some r) f) hfield fun st st' h => ⟨h.1, fun rest hst => hn ?_⟩
      exact (h.2 .nativeInt (by rw [hst]; rfl)).eq nofun

theorem giving_loadStatic (hact : op.action = .loadStatic) :
    Giving md p pc op next (loadStatic p pc) := by
  refine .after (computes_fieldOperand pc) ?_
  rintro f ⟨t, ht, hr⟩
  refine .after computes_metadata ?_
  rintro _ rfl
  refine .after (computes_onHeap (Heap.keeps_loadStatic hmd (hmd.hasField hr))) fun v ⟨hv, hfits⟩ => ?_
  refine giving_result hs hv fun st st' h => ?_
  obtain ⟨e, he⟩ := h.act
  obtain ⟨t', f', ht', hr', rfl⟩ := Analysis.Context.act_loadStatic he hact
  cases same_field hd ha (by rw [hact]; rfl) ht hr ht' hr'
  exact ⟨_, ⟨[], st, rfl, rfl, rfl⟩, hfits⟩

/-- A reference type leaves a reference as it is. -/
theorem giving_box (hact : op.action = .box) : Giving md p pc op next (box p pc) := by
  refine .after (computes_typeOperand pc) ?_
  rintro type ⟨t, ht, hr⟩
  split
  · refine .after computes_activation fun _ _ => .after (computes_peek 0) fun v hv => ?_
    refine .after (computes_normalize _ _ hv) fun u ⟨hu, _⟩ => ?_
    exact .after (computes_onHeap (Heap.keeps_box (hmd.hasType hr) hu)) fun _ _ =>
      giving_result hs trivial (given (by rw [hact]; rfl) (.inl rfl))
  · rename_i hvalue
    refine .pure rfl fun st st' h => ?_
    rw [Code.token_agree hd.next ha hd.opcode (op.size?_of_width? (by rw [hact]; rfl))] at ht
    obtain ⟨rest, rfl⟩ := h.box hact t type ht hr (by simpa using hvalue)
    obtain ⟨e, he⟩ := h.act
    obtain ⟨ins, rest', hlen, hst, rfl⟩ := Analysis.Context.act_replaces he (by rw [hact]; rfl)
    obtain ⟨u, rfl⟩ := List.length_eq_one_iff.1 hlen
    cases hst
    exact List.suffix_refl _

/-- A class is cast to; a value type is copied out of its box. -/
theorem giving_unboxAny (hact : op.action = .unboxAny) : Giving md p pc op next (unboxAny p pc) := by
  have named : ∀ {t : Token} {type : TypeSymbol} {st st' : List StackType}, p.code.token pc = .ok t →
      md.resolveType t = .ok type → p.Takes md pc op next st st' →
      ∃ rest, st = .object :: rest ∧ st' = type.kind.stackType :: rest := by
    intro t type st st' ht hr h
    obtain ⟨e, he⟩ := h.act
    obtain ⟨t', type', rest, ht', hr', hst, hst'⟩ := Analysis.Context.act_unboxAny he hact
    cases same_type hd ha (by rw [hact]; rfl) ht hr ht' hr'
    exact ⟨rest, hst, hst'⟩
  refine .after (computes_typeOperand pc) ?_
  rintro type ⟨t, ht, hr⟩
  split
  · refine .after (computes_nonNullAt 0) fun r _ => ?_
    refine .after (computes_onHeap (Heap.keeps_unbox _ (hmd.hasType hr))) fun v ⟨hv, hfits⟩ => ?_
    refine giving_result hs hv fun st st' h => ?_
    obtain ⟨rest, rfl, rfl⟩ := named ht hr h
    exact ⟨_, ⟨[.object], rest, rfl, rfl, rfl⟩, hfits⟩
  · rename_i hvalue
    refine giving_cast hs true fun st st' h => ?_
    obtain ⟨rest, rfl, rfl⟩ := named ht hr h
    exact ⟨rest, rfl, by rw [hmd.kind_class hr (by simpa using hvalue)]; rfl⟩

/-- **Every instruction on objects gives what the analysis found.** -/
theorem giving_instruction (hact : op.action.onObjects = true) : Giving md p pc op next (instruction p pc op) := by
  unfold instruction
  cases h : op.action with
  | loadString => exact giving_loadString hs h
  | loadToken => exact giving_loadToken hs h
  | newArray => exact giving_newArray hs hmd h
  | arrayLength => exact giving_arrayLength hs h
  | elementAddress => exact giving_elementAddress hs h
  | loadElement kind => exact giving_loadElement hs hd ha h
  | loadField => exact giving_loadField hs hmd hd ha h
  | fieldAddress => exact giving_fieldAddress hs hmd hd ha h
  | loadStatic => exact giving_loadStatic hs hmd hd ha h
  | staticAddress => exact giving_staticAddress hs hmd h
  | castClass => exact giving_castClass hs true (.inl h)
  | isInstance => exact giving_castClass hs false (.inr h)
  | box => exact giving_box hs hmd hd ha h
  | unbox => exact giving_unbox hs h
  | unboxAny => exact giving_unboxAny hs hmd hd ha h
  | sizeOf => exact giving_sizeOf hs hmd h
  | functionPointer => exact giving_functionPointer hs h
  | virtualPointer => exact giving_virtualPointer hs h
  | _ => rw [h] at hact; cases hact

end

end

end ExecM

end ManagedCode
