import ManagedCode.Proofs.Calls
import ManagedCode.Proofs.Shapes
import ManagedCode.Proofs.Storage

/-!
# What an instruction leaves on a typed stack

`Frame.Holds f ts` says that the slots of a frame hold values that fit the types `ts`, one after the other. A frame
always holds the kinds of its arguments and locals; where the stack is known to have the types `st`, it holds those as
well (`Prepared.types`).

`Computes` is said of the parts of an instruction that leave the stack alone, `Delivers` of whole instructions: where
the stack had the types `st`, it has the types `st'` afterwards, for all `st` and `st'` that a relation connects. Both
keep the workspace good, whatever the stack held before.
-/

namespace ManagedCode

/-! ## Typed frames -/

namespace Frame

variable {md : Metadata} {f f' : Frame} {ts us : List StackType} {slot : Nat} {v : Value}

/-- **The slots hold values that fit the types**, from the first slot on. -/
def Holds (f : Frame) (ts : List StackType) : Prop :=
  ∀ (i : Nat) t, ts[i]? = some t → ∃ v, f.slots[i]? = some v ∧ v.Fits t

/-- Every slot holds a value that names fields of the tables. -/
def Proper (md : Metadata) (f : Frame) : Prop := ∀ (i : Nat) v, f.slots[i]? = some v → v.Proper md

theorem Holds.agree (h : f.Holds ts) (hs : ∀ i, i < ts.length → f'.slots[i]? = f.slots[i]?) : f'.Holds ts := by
  intro i t ht
  obtain ⟨v, hv, hf⟩ := h i t ht
  exact ⟨v, (hs i (List.getElem?_eq_some_iff.1 ht).1).trans hv, hf⟩

theorem Holds.left (h : f.Holds (ts ++ us)) : f.Holds ts := by
  intro i t ht
  refine h i t ?_
  rw [List.getElem?_append_left (List.getElem?_eq_some_iff.1 ht).1]
  exact ht

theorem Holds.snoc {t : StackType} (h : f.Holds ts) (hs : f.slots[ts.length]? = some v) (hv : v.Fits t) :
    f.Holds (ts ++ [t]) := by
  intro i u hu
  by_cases hi : i < ts.length
  · rw [List.getElem?_append_left hi] at hu
    exact h i u hu
  · have hlt := (List.getElem?_eq_some_iff.1 hu).1
    rw [List.length_append, List.length_singleton] at hlt
    have hi : i = ts.length := by omega
    subst hi
    rw [List.getElem?_concat_length] at hu
    cases hu
    exact ⟨v, hs, hv⟩

/-- A slot takes another value that fits, or one that nothing is known of. -/
theorem Holds.set (h : f.Holds ts) (hv : ∀ t, ts[slot]? = some t → v.Fits t) : (f.set slot v).Holds ts := by
  intro i t ht
  obtain ⟨u, hu, hf⟩ := h i t ht
  by_cases hi : slot = i
  · subst hi
    exact ⟨v, Array.getElem?_setIfInBounds_self_of_lt (Array.getElem?_eq_some_iff.1 hu).1, hv t ht⟩
  · exact ⟨u, (Array.getElem?_setIfInBounds_ne hi).trans hu, hf⟩

theorem Proper.set (h : f.Proper md) (hv : v.Proper md) : (f.set slot v).Proper md := by
  intro i u hu
  rcases mem_set hu with hu | rfl
  · exact h i u hu
  · exact hv

theorem Proper.clearRange (h : f.Proper md) (start stop : Nat) : (f.clearRange start stop).Proper md := by
  intro i u hu
  rcases mem_clearFrom _ _ hu with hu | rfl
  · exact h i u hu
  · trivial

theorem get_ok (h : f.get slot = .ok v) : f.slots[slot]? = some v := by
  unfold get at h
  split at h
  · cases h; assumption
  · cases h

end Frame

namespace Prepared

variable {md : Metadata} {p p' : Prepared} {st st' rest : List StackType} {f : Frame} {v : Value} {t : StackType}

/-- The types of the arguments and locals. -/
def variableTypes (p : Prepared) : List StackType := (p.argumentKinds ++ p.localKinds).map (·.stackType)

/-- The types of the slots where the stack has the types `st`, whose top stands first. -/
def types (p : Prepared) (st : List StackType) : List StackType := p.variableTypes ++ st.reverse

theorem types_nil (p : Prepared) : p.types [] = p.variableTypes := List.append_nil _

theorem types_cons (p : Prepared) (t : StackType) (rest : List StackType) :
    p.types (t :: rest) = p.types rest ++ [t] := by
  rw [types, List.reverse_cons, ← List.append_assoc, types]

theorem Sound.length_variables (h : p.Sound md) : p.variableTypes.length = p.layout.stackBase := by
  rw [variableTypes, h.argumentKinds, h.localKinds, List.length_map, List.length_append, Layout.stackBase, h.layout]
  rfl

/-- The variables have exactly the slots below the stack. -/
structure Aligned (p : Prepared) : Prop where
  length : p.variableTypes.length = p.layout.stackBase

theorem Sound.aligned (h : p.Sound md) : p.Aligned := ⟨h.length_variables⟩

theorem Aligned.length_types (h : p.Aligned) (st : List StackType) :
    (p.types st).length = p.layout.stackBase + st.length := by
  rw [types, List.length_append, h.length, List.length_reverse]

theorem Evolves.types (h : p.Evolves p') (st : List StackType) : p'.types st = p.types st := by
  rw [Prepared.types, Prepared.types, variableTypes, variableTypes, h.argumentKinds, h.localKinds]

/-- The types of the variables do not depend on the stack. -/
theorem Aligned.types_variable (h : p.Aligned) {slot : Nat} (hs : slot < p.layout.stackBase) (st : List StackType) :
    (p.types st)[slot]? = p.variableTypes[slot]? := by
  rw [Prepared.types, List.getElem?_append_left (by rw [h.length]; exact hs)]

theorem holds_suffix (h : f.Holds (p.types st)) (hs : st' <:+ st) : f.Holds (p.types st') := by
  obtain ⟨ins, rfl⟩ := hs
  rw [types, List.reverse_append, ← List.append_assoc] at h
  exact h.left

/-- The value that lies `n` below the top fits its type. -/
theorem Aligned.holds_at (hs : p.Aligned) (h : f.Holds (p.types st)) {n : Nat} (ht : st[n]? = some t) :
    ∃ v, f.slots[p.layout.stackBase + st.length - (n + 1)]? = some v ∧ v.Fits t := by
  have hlt := (List.getElem?_eq_some_iff.1 ht).1
  refine h _ t ?_
  rw [types, List.getElem?_append_right (by rw [hs.length]; omega), hs.length,
    List.getElem?_reverse (by omega), ← ht]
  congr 1
  omega

/-- A value is written above the rest of the stack. -/
theorem Aligned.holds_push (hs : p.Aligned) (h : f.Holds (p.types rest)) (hv : v.Fits t)
    (hlt : p.layout.stackBase + rest.length < f.size) :
    (f.set (p.layout.stackBase + rest.length) v).Holds (p.types (t :: rest)) := by
  have hlen := hs.length_types rest
  rw [p.types_cons]
  refine Frame.Holds.snoc (v := v) (h.set fun u hu => ?_) ?_ hv
  · rw [List.getElem?_eq_none (by omega)] at hu
    cases hu
  · rw [hlen]
    exact Array.getElem?_setIfInBounds_self_of_lt hlt

end Prepared

/-- **A good workspace**: the heap is typed, every slot names fields of the tables only, and the arguments and locals
hold what fits their kinds. -/
structure Workspace.Good (md : Metadata) (p : Prepared) (w : Workspace) : Prop where
  metadata : w.machine.metadata = md
  heap : w.machine.heap.Typed md
  proper : w.activation.frame.Proper md
  holds : w.activation.frame.Holds p.variableTypes

/-- The height of the stack is the same, and what fitted still fits. -/
structure Workspace.Steady (p : Prepared) (w w' : Workspace) : Prop where
  top : w'.activation.top = w.activation.top
  holds : ∀ st, w.activation.frame.Holds (p.types st) → w'.activation.frame.Holds (p.types st)

theorem Workspace.Steady.refl {p : Prepared} (w : Workspace) : w.Steady p w := ⟨rfl, fun _ h => h⟩

theorem Workspace.Steady.trans {p : Prepared} {w w' w'' : Workspace} (h : w.Steady p w') (h' : w'.Steady p w'') :
    w.Steady p w'' := ⟨h'.top.trans h.top, fun st hst => h'.holds st (h.holds st hst)⟩

theorem Workspace.Good.sameFrame {md : Metadata} {p : Prepared} {w w' : Workspace} (h : w.Good md p)
    (hm : w'.machine.metadata = w.machine.metadata) (hh : w'.machine.heap.Typed md)
    (ha : w'.activation.frame = w.activation.frame) : w'.Good md p where
  metadata := hm.trans h.metadata
  heap := hh
  proper := by rw [ha]; exact h.proper
  holds := by rw [ha]; exact h.holds

theorem Workspace.Good.set {md : Metadata} {p : Prepared} {w : Workspace} {slot : Nat} {v : Value} (hw : w.Good md p)
    (hv : v.Proper md) (hfits : ∀ t, p.variableTypes[slot]? = some t → v.Fits t) :
    (w.withFrame (w.activation.frame.set slot v)).Good md p where
  metadata := hw.metadata
  heap := hw.heap
  proper := hw.proper.set hv
  holds := hw.holds.set hfits

namespace ExecM

variable {md : Metadata} {p : Prepared} {α β : Type} {P : α → Prop} {Q : β → Prop}
  {R : List StackType → List StackType → Prop}

/-- **The computation leaves the stack alone**, keeps the workspace good and gives what `P` says. -/
def Computes (md : Metadata) (p : Prepared) (x : ExecM α) (P : α → Prop) : Prop :=
  ∀ w, w.Good md p → Meets x w (fun a w' => P a ∧ w'.Good md p ∧ w.Steady p w') fun _ w' => w'.Good md p

/-- **The computation keeps the workspace good**, gives what `P` says, and brings a stack of the types `st` to the types
`st'` wherever `R` connects them. -/
def Delivers (md : Metadata) (p : Prepared) (R : List StackType → List StackType → Prop) (x : ExecM α)
    (P : α → Prop) : Prop :=
  ∀ w, w.Good md p → Meets x w (fun a w' => P a ∧ w'.Good md p ∧ ∀ st st', R st st' →
    w.activation.top = p.layout.stackBase + st.length → w.activation.frame.Holds (p.types st) →
    w'.activation.frame.Holds (p.types st')) fun _ w' => w'.Good md p

namespace Computes

variable {x : ExecM α} {f : α → ExecM β}

theorem pure {a : α} (ha : P a) : Computes md p (Pure.pure a) P := fun w hw => ⟨ha, hw, .refl w⟩

theorem throw {t : Trap} : Computes md p (MonadExcept.throw t : ExecM α) P := fun _ hw => hw

theorem mono {P' : α → Prop} (hx : Computes md p x P) (h : ∀ a, P a → P' a) : Computes md p x P' :=
  fun w hw => (hx w hw).mono (fun a _ ⟨ha, hk⟩ => ⟨h a ha, hk⟩) fun _ _ he => he

theorem bind (hx : Computes md p x P) (hf : ∀ a, P a → Computes md p (f a) Q) : Computes md p (x >>= f) Q := by
  intro w hw
  refine Meets.bind (hx w hw) fun a w' ⟨ha, hw', hs⟩ => ?_
  exact (hf a ha w' hw').mono (fun b w'' ⟨hb, hw'', hs'⟩ => ⟨hb, hw'', hs.trans hs'⟩) fun _ _ h => h

end Computes

namespace Delivers

variable {x : ExecM α} {f : α → ExecM β}

/-- The types that are left were there before. -/
theorem pure {a : α} (ha : P a) (h : ∀ st st', R st st' → st' <:+ st) : Delivers md p R (Pure.pure a) P :=
  fun _ hw => ⟨ha, hw, fun st st' hR _ hst => Prepared.holds_suffix hst (h st st' hR)⟩

theorem throw {t : Trap} : Delivers md p R (MonadExcept.throw t : ExecM α) P := fun _ hw => hw

theorem connect {R' : List StackType → List StackType → Prop} (hx : Delivers md p R x P)
    (h : ∀ st st', R' st st' → R st st') : Delivers md p R' x P :=
  fun w hw => (hx w hw).mono (fun _ _ ⟨ha, hw', hd⟩ => ⟨ha, hw', fun st st' hR => hd st st' (h st st' hR)⟩)
    fun _ _ he => he

/-- What comes first leaves the stack alone. -/
theorem after (hx : Computes md p x P) (hf : ∀ a, P a → Delivers md p R (f a) Q) : Delivers md p R (x >>= f) Q := by
  intro w hw
  refine Meets.bind (hx w hw) fun a w' ⟨ha, hw', hs⟩ => ?_
  refine (hf a ha w' hw').mono (fun b w'' ⟨hb, hw'', hd⟩ => ⟨hb, hw'', fun st st' hR htop hst => ?_⟩) fun _ _ h => h
  exact hd st st' hR (hs.top.trans htop) (hs.holds st hst)

/-- What comes last leaves the stack alone. -/
theorem before (hx : Delivers md p R x P) (hf : ∀ a, P a → Computes md p (f a) Q) : Delivers md p R (x >>= f) Q := by
  intro w hw
  refine Meets.bind (hx w hw) fun a w' ⟨ha, hw', hd⟩ => ?_
  refine (hf a ha w' hw').mono (fun b w'' ⟨hb, hw'', hs⟩ => ⟨hb, hw'', fun st st' hR htop hst => ?_⟩) fun _ _ h => h
  exact hs.holds st' (hd st st' hR htop hst)

/-- Nothing is said of the stack. -/
theorem bind {R' : List StackType → List StackType → Prop} (hx : Delivers md p R' x P)
    (hf : ∀ a, P a → Delivers md p (fun _ _ => False) (f a) Q) : Delivers md p (fun _ _ => False) (x >>= f) Q := by
  intro w hw
  refine Meets.bind (hx w hw) fun a w' ⟨ha, hw', _⟩ => ?_
  exact (hf a ha w' hw').mono (fun b w'' ⟨hb, hw'', _⟩ => ⟨hb, hw'', fun _ _ hR => hR.elim⟩) fun _ _ h => h

end Delivers

/-! ## Traps and parts of the workspace -/

theorem computes_ofEngine (r : Except EngineError α) : Computes md p (ofEngine r) fun a => r = .ok a := by
  cases r with
  | ok a => exact .pure rfl
  | error e => exact .throw

theorem computes_ofResolution (r : Except ResolutionError α) : Computes md p (ofResolution r) fun a => r = .ok a := by
  cases r with
  | ok a => exact .pure rfl
  | error e => exact .throw

theorem computes_ofFault (r : Except FaultKind α) : Computes md p (ofFault r) fun _ => True := by
  cases r with
  | ok a => exact .pure trivial
  | error k => exact .throw

theorem computes_ofAbort (r : Except Abort α) : Computes md p (ofAbort r) fun a => r = .ok a := by
  cases r with
  | ok a => exact .pure rfl
  | error a => exact .throw

theorem computes_machine : Computes md p machine fun _ => True := fun w hw => ⟨trivial, hw, .refl w⟩

theorem computes_activation : Computes md p activation fun a => a.frame.Proper md :=
  fun w hw => ⟨hw.proper, hw, .refl w⟩

theorem computes_metadata : Computes md p metadata (· = md) := fun w hw => ⟨hw.metadata, hw, .refl w⟩

/-- What has changed is no part of a good workspace. -/
theorem computes_noted {x : ExecM α} (hx : ∀ w, Meets x w (fun _ w' => w'.machine.metadata = w.machine.metadata ∧
    w'.machine.heap = w.machine.heap ∧ w'.activation = w.activation) fun _ _ => False) :
    Computes md p x fun _ => True := by
  intro w hw
  refine (hx w).mono (fun a w' ⟨hm, hh, ha⟩ => ⟨trivial, ?_, ?_⟩) fun _ _ h => h.elim
  · exact hw.sameFrame hm (hh ▸ hw.heap) (by rw [ha])
  · exact ⟨by rw [ha], fun st hst => by rw [ha]; exact hst⟩

theorem computes_modifyMetrics (f : Metrics → Metrics) : Computes md p (modifyMetrics f) fun _ => True :=
  computes_noted fun _ => ⟨rfl, rfl, rfl⟩

theorem computes_tracing (f : Trace → Nat → Trace) : Computes md p (tracing f) fun _ => True :=
  computes_noted fun _ => ⟨rfl, rfl, rfl⟩

theorem computes_resolveMethod (t : Token) : Computes md p (resolveMethod t) fun m => md.resolveMethod t = .ok m := by
  intro w hw
  unfold resolveMethod
  refine Meets.bind (Q := fun r w' => r = md.resolveMethod t ∧ w'.Good md p ∧ w.Steady p w') ?_ ?_
  · exact ⟨congrArg (·.resolveMethod t) hw.metadata, hw.sameFrame rfl hw.heap rfl, rfl, fun _ h => h⟩
  · rintro _ w' ⟨rfl, hw', hs⟩
    exact (computes_ofResolution _ w' hw').mono (fun m w'' ⟨hm, hw'', hs'⟩ => ⟨hm, hw'', hs.trans hs'⟩) fun _ _ h => h

theorem computes_onHeapTrap {x : HeapTrapM α} (hx : Heap.Keeps md x P) : Computes md p (onHeapTrap x) P := by
  intro w hw
  have hx := hx w.machine.heap hw.heap
  unfold Meets at hx ⊢
  rw [onHeapTrap_run]
  rcases hr : x.run w.machine.heap with ⟨t | a, heap⟩
  · rw [hr] at hx
    exact hw.sameFrame rfl hx rfl
  · rw [hr] at hx
    exact ⟨hx.1, hw.sameFrame rfl hx.2 rfl, rfl, fun _ h => h⟩

theorem computes_onHeap {x : HeapM α} (hx : Heap.Keeps md x P) : Computes md p (onHeap x) P :=
  computes_onHeapTrap (HeapTrapM.keeps_ofHeap hx)

theorem computes_normalize (slot : Nat) (k : Kind) {v : Value} (hv : v.Proper md) :
    Computes md p (normalize slot k v) fun w => w.Proper md ∧ w.Fits k.stackType :=
  computes_onHeapTrap (HeapTrapM.keeps_normalize slot k hv)

/-! ## Slots and operands -/

theorem computes_underflow : Computes md p (underflow : ExecM α) P := computes_activation.bind fun _ _ => .throw

theorem computes_stackSlot (n : Nat) : Computes md p (stackSlot p n) fun _ => True := by
  refine computes_activation.bind fun a _ => ?_
  dsimp only
  split
  · exact .pure trivial
  · exact computes_underflow

/-- A value is read from the stack, by its tag or not. -/
theorem computes_operand (n : Nat) (read : Frame → Nat → Except EngineError α) :
    Computes md p (do
      let slot ← stackSlot p n
      ofEngine (read (← activation).frame slot)) fun a => ∃ f slot, f.Proper md ∧ read f slot = .ok a :=
  (computes_stackSlot n).bind fun slot _ => computes_activation.bind fun a ha =>
    (computes_ofEngine _).mono fun _ h => ⟨a.frame, slot, ha, h⟩

theorem computes_peek (n : Nat) : Computes md p (peek p n) fun v => v.Proper md :=
  (computes_operand n Frame.get).mono fun _ ⟨_, slot, hf, h⟩ => hf slot _ (Frame.get_ok h)

theorem computes_int32At (n : Nat) : Computes md p (int32At p n) fun _ => True :=
  (computes_operand n Frame.getInt32).mono fun _ _ => trivial

theorem computes_int64At (n : Nat) : Computes md p (int64At p n) fun _ => True :=
  (computes_operand n Frame.getInt64).mono fun _ _ => trivial

theorem computes_nativeAt (n : Nat) : Computes md p (nativeAt p n) fun _ => True :=
  (computes_stackSlot n).bind fun _ _ => computes_activation.bind fun _ _ =>
    (computes_ofEngine _).mono fun _ _ => trivial

theorem computes_floatAt (n : Nat) : Computes md p (floatAt p n) fun _ => True :=
  (computes_operand n Frame.getFloat).mono fun _ _ => trivial

theorem computes_objectAt (n : Nat) : Computes md p (objectAt p n) fun _ => True :=
  (computes_operand n Frame.getObject).mono fun _ _ => trivial

theorem computes_pointerAt (n : Nat) : Computes md p (pointerAt p n) fun _ => True :=
  (computes_operand n Frame.getPointer).mono fun _ _ => trivial

theorem computes_nonNullAt (n : Nat) : Computes md p (nonNullAt p n) fun _ => True := by
  refine (computes_objectAt n).bind fun r _ => ?_
  cases r with
  | some r => exact .pure trivial
  | none => exact .throw

theorem computes_indexAt (n : Nat) : Computes md p (indexAt p n) fun _ => True := by
  refine (computes_nativeAt n).bind fun i _ => ?_
  split
  · exact .throw
  · exact .pure trivial

theorem computes_addressAt (n : Nat) : Computes md p (addressAt p n) fun q => q.Proper md := by
  refine (computes_stackSlot n).bind fun slot _ => computes_activation.bind fun a ha => ?_
  refine (computes_ofEngine _).bind fun v hv => ?_
  split
  · exact .pure (ha slot _ (Frame.get_ok hv))
  · exact .throw
  · exact .throw
  · exact .throw

theorem computes_operandTypes (pc : Nat) :
    Computes md p (operandTypes p pc) fun ts => p.analysis.operandTypes? pc = some ts := by
  unfold operandTypes
  cases p.analysis.operandTypes? pc with
  | some ts => exact .pure rfl
  | none => exact .throw

theorem computes_typeOperand (pc : Nat) : Computes md p (typeOperand p pc) fun type =>
    ∃ t, p.code.token pc = .ok t ∧ md.resolveType t = .ok type := by
  refine (computes_ofEngine _).bind fun t ht => computes_metadata.bind ?_
  rintro _ rfl
  exact (computes_ofResolution _).mono fun type hr => ⟨t, ht, hr⟩

theorem computes_fieldOperand (pc : Nat) : Computes md p (fieldOperand p pc) fun f =>
    ∃ t, p.code.token pc = .ok t ∧ md.resolveField t = .ok f := by
  refine (computes_ofEngine _).bind fun t ht => computes_metadata.bind ?_
  rintro _ rfl
  exact (computes_ofResolution _).mono fun f hr => ⟨t, ht, hr⟩

/-! ## Writing slots -/

theorem resultSlot_meets (pops : Nat) {w : Workspace} : Meets (resultSlot p pops) w
    (fun slot w' => p.layout.stackBase + pops ≤ w.activation.top ∧ slot = w.activation.top - pops ∧ w' = w)
    fun _ w' => w' = w := by
  unfold resultSlot
  refine activation_bind ?_
  by_cases h : p.layout.stackBase + pops ≤ w.activation.top
  · simp only [h, if_true]
    exact ⟨trivial, rfl, rfl⟩
  · simp only [h, if_false]
    exact rfl

theorem copySlot_meets (source target : Nat) {w : Workspace} : Meets (copySlot source target) w
    (fun _ w' => ∃ v, w.activation.frame.slots[source]? = some v ∧ target < w.activation.frame.size ∧
      w' = w.withFrame (w.activation.frame.set target v))
    fun _ w' => w' = w := by
  unfold copySlot
  refine activation_bind (ofEngine_bind (fun f hf => ?_) fun _ _ => rfl)
  obtain ⟨v, hv, hput⟩ := Frame.copy_ok hf
  obtain ⟨hlt, rfl⟩ := Frame.put_ok hput
  exact ⟨v, Frame.get_ok hv, hlt, rfl⟩

section

variable (hs : p.Aligned) {v : Value}
include hs

/-- Nothing is known of the slots of the stack but by its types. -/
theorem fits_above {slot : Nat} (hslot : p.layout.stackBase ≤ slot) :
    ∀ t, p.variableTypes[slot]? = some t → v.Fits t := by
  intro t ht
  rw [List.getElem?_eq_none (by rw [hs.length]; exact hslot)] at ht
  cases ht

/-- **The result of an instruction fits the type that stands for it.** -/
theorem delivers_result {pops : Nat} (hv : v.Proper md)
    (hR : ∀ st st', R st st' → ∃ t, Analysis.Replaces pops t st st' ∧ v.Fits t) :
    Delivers md p R (result p pops v) fun _ => True := by
  intro w hw
  unfold result
  refine Meets.bind ((resultSlot_meets pops).mono (fun _ _ h => h) fun _ w' hw' => hw' ▸ hw) ?_
  rintro _ w ⟨hle, rfl, rfl⟩
  refine (put_meets _ v).mono ?_ fun _ w' h => h.2.2.2 ▸ hw
  rintro _ w' ⟨hlt, rfl⟩
  refine ⟨trivial, hw.set hv (fits_above hs (by omega)), fun st st' h htop hst => ?_⟩
  obtain ⟨t, ⟨ins, rest, hlen, rfl, rfl⟩, hfits⟩ := hR st st' h
  rw [List.length_append] at htop
  have hslot : w.activation.top - pops = p.layout.stackBase + rest.length := by omega
  rw [hslot] at hlt ⊢
  exact hs.holds_push (Prepared.holds_suffix hst ⟨ins, rfl⟩) hfits hlt

/-- **An argument or a local takes a value that fits its kind.** -/
theorem computes_put {slot : Nat} (hv : v.Proper md) (hslot : slot < p.layout.stackBase)
    (hfits : ∀ t, p.variableTypes[slot]? = some t → v.Fits t) : Computes md p (put slot v) fun _ => True := by
  intro w hw
  refine (put_meets slot v).mono ?_ fun _ w' h => h.2.2.2 ▸ hw
  rintro _ w' ⟨-, rfl⟩
  refine ⟨trivial, hw.set hv hfits, rfl, fun st hst => hst.set fun t ht => hfits t ?_⟩
  rw [← hs.types_variable hslot st]
  exact ht

/-- The value that lies `n` below the top fits its type. -/
theorem delivers_peek {n : Nat} {f : Value → ExecM β} (hf : ∀ v, v.Proper md →
    Delivers md p (fun st st' => R st st' ∧ ∀ t, st[n]? = some t → v.Fits t) (f v) Q) :
    Delivers md p R (peek p n >>= f) Q := by
  intro w hw
  unfold peek
  rw [bind_assoc]
  refine Meets.bind ((stackSlot_meets n).mono (fun _ _ h => h) fun _ w' h => h.2.2 ▸ hw) ?_
  rintro _ w ⟨hle, rfl, rfl⟩
  rw [bind_assoc]
  refine activation_bind (ofEngine_bind (fun v hv => ?_) fun _ _ => hw)
  have hv := Frame.get_ok hv
  refine (hf v (hw.proper _ v hv) w hw).mono ?_ fun _ _ h => h
  rintro b w' ⟨hb, hw', hd⟩
  refine ⟨hb, hw', fun st st' h htop hst => hd st st' ⟨h, fun t ht => ?_⟩ htop hst⟩
  obtain ⟨u, hu, hfits⟩ := hs.holds_at hst ht
  rw [← htop] at hu
  cases hv.symm.trans hu
  exact hfits

end

end ExecM

end ManagedCode
