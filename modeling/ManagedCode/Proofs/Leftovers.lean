import ManagedCode.Proofs.Copies
import ManagedCode.Proofs.Histories
import ManagedCode.Proofs.Nesting

/-!
# What a failed operation leaves behind

An operation of the heap that fails never touches what was there, but it may have made objects before, and these stay
and count. Three kinds of operations make more than one object. An array of structures and an instance with structures
inside are constructed part by part, and memory may run out between two parts (`Constructing`); a box of a structure is
made of a copy, which stays when it does not fit into the box. All others fail before they have done anything
(`Intact`).
-/

namespace ManagedCode

/-- An instance of the type has a structure inside. -/
def Metadata.HasParts (md : Metadata) (t : TypeHandle) : Prop := md.firstPart? t ≠ none

/-- The zero of the type is a structure with a structure inside. -/
def Metadata.ZeroHasParts (md : Metadata) (type : TypeSymbol) : Prop :=
  type.kind = .struct ∧ md.HasParts type.handle

/-- The zero of the field is a structure with a structure inside. -/
def Metadata.FieldHasParts (md : Metadata) (f : FieldSymbol) : Prop :=
  ∃ t, md.typeSymbol? f.type = some t ∧ md.ZeroHasParts t

namespace Heap

variable {md : Metadata} {h h' : Heap} {α β : Type}

/-- The heap with more objects, all of which count. -/
def adding (h : Heap) (extra : Array Object) : Heap :=
  { h with objects := h.objects ++ extra, allocated := h.allocated + extra.size }

theorem adding_empty (h : Heap) : h.adding #[] = h := by simp [adding]

theorem adding_adding (h : Heap) (extra more : Array Object) :
    (h.adding extra).adding more = h.adding (extra ++ more) := by
  simp [adding, Nat.add_assoc]

theorem adding_eq_self_iff {extra : Array Object} : h.adding extra = h ↔ extra = #[] := by
  constructor
  · intro heq
    have hcount : h.allocated + extra.size = h.allocated := congrArg allocated heq
    exact Array.eq_empty_of_size_eq_zero (by omega)
  · rintro rfl
    exact h.adding_empty

theorem full_iff : h.limit.any (· ≤ h.allocated) = true ↔ h.room = some 0 := by
  unfold room
  cases h.limit <;> simp [Nat.sub_eq_zero_iff_le]

/-- An allocation fails exactly if no room is left, and then nothing changes. -/
theorem allocate_full (o : Object) : Meets (allocate o) h (fun _ h' => h.room ≠ some 0 ∧ h' = h.adding #[o])
    fun e h' => h' = h ∧ e = .fault .outOfMemory ∧ h.room = some 0 := by
  unfold allocate
  refine Meets.get_bind ?_
  by_cases hfull : h.limit.any (· ≤ h.allocated) = true
  · rw [if_pos hfull]
    exact ⟨rfl, rfl, full_iff.1 hfull⟩
  · rw [if_neg hfull]
    exact ⟨fun hroom => hfull (full_iff.2 hroom), rfl⟩

/-! ## Operations that only construct -/

/-- **Objects were added**, and none where no room was left. -/
def Added (h h' : Heap) : Prop := ∃ extra, h' = h.adding extra ∧ (h.room = some 0 → extra = #[])

theorem Added.refl (h : Heap) : Added h h := ⟨#[], h.adding_empty.symm, fun _ => rfl⟩

theorem Added.trans {h₁ h₂ : Heap} (ha : Added h h₁) (hb : Added h₁ h₂) : Added h h₂ := by
  obtain ⟨extra, rfl, hextra⟩ := ha
  obtain ⟨more, rfl, hmore⟩ := hb
  refine ⟨extra ++ more, adding_adding h extra more, fun hfull => ?_⟩
  have hnone := hextra hfull
  subst hnone
  rw [adding_empty] at hmore
  rw [hmore hfull, Array.append_empty]

/-- **The operation constructs**: it adds objects, and fails only where no room is left, unless it has no end. -/
def Constructing (x : HeapM α) : Prop :=
  ∀ h, Meets x h (fun _ h' => Added h h') fun e h' =>
    Added h h' ∧ (e = .endless ∨ e = .fault .outOfMemory ∧ h'.room = some 0)

namespace Constructing

variable {x : HeapM α} {f : α → HeapM β}

theorem pure (a : α) : Constructing (Pure.pure a : HeapM α) := fun h => Added.refl h

theorem endless : Constructing (throw .endless : HeapM α) := fun h => ⟨Added.refl h, .inl rfl⟩

theorem bind (hx : Constructing x) (hf : ∀ a, Constructing (f a)) : Constructing (x >>= f) := fun h =>
  Meets.bind (hx h) fun a h₁ ha => (hf a h₁).mono (fun _ _ hb => ha.trans hb) fun _ _ hb => ⟨ha.trans hb.1, hb.2⟩

theorem orEndless (o : Option α) : Constructing (Heap.orEndless o) := by
  cases o with
  | none => exact endless
  | some a => exact pure a

theorem allocate (o : Object) : Constructing (Heap.allocate o) := by
  intro h
  refine (allocate_full o).mono ?_ ?_
  · rintro _ _ ⟨hroom, rfl⟩
    exact ⟨#[o], rfl, fun hfull => absurd hfull hroom⟩
  · rintro _ _ ⟨rfl, rfl, hfull⟩
    exact ⟨Added.refl _, .inr ⟨rfl, hfull⟩⟩

theorem mapM {f : α → HeapM β} (hf : ∀ a, Constructing (f a)) : ∀ xs : List α, Constructing (xs.mapM f)
  | [] => pure []
  | a :: xs => by
    rw [List.mapM_cons]
    exact (hf a).bind fun b => (mapM hf xs).bind fun bs => pure (b :: bs)

theorem newInstanceWithin (md : Metadata) : ∀ (fuel : Nat) (type : TypeSymbol),
    Constructing (Heap.newInstanceWithin md fuel type)
  | 0, _ => endless
  | fuel + 1, type => by
    unfold Heap.newInstanceWithin
    refine (orEndless _).bind fun fields => (mapM (fun f => ?_) fields).bind fun values => allocate _
    cases md.typeSymbol? f.type with
    | none => exact pure _
    | some t =>
      dsimp only
      split
      · exact (newInstanceWithin md fuel t).bind fun r => pure _
      · exact pure _

theorem newInstance (md : Metadata) (type : TypeSymbol) : Constructing (Heap.newInstance md type) := fun h =>
  Meets.get_bind (newInstanceWithin md _ type h)

theorem zeroOf (md : Metadata) (type : TypeSymbol) : Constructing (Heap.zeroOf md type) := by
  rw [zeroOf_eq]
  split
  · exact (newInstance md type).bind fun r => pure _
  · exact pure _

theorem fieldZero (md : Metadata) (f : FieldSymbol) : Constructing (Heap.fieldZero md f) := by
  unfold Heap.fieldZero
  split
  · exact zeroOf md _
  · exact pure _

theorem fill (md : Metadata) (element : TypeSymbol) : ∀ (count : Nat) (items : Array Value),
    Constructing (Heap.fill md element count items)
  | 0, items => pure items
  | count + 1, items => (zeroOf md element).bind fun v => fill md element count (items.push v)

theorem newArray (md : Metadata) (element : TypeSymbol) (length : Nat) :
    Constructing (Heap.newArray md element length) := (fill md element length #[]).bind fun _ => allocate _

/-- A construction that fails with a fault has used up all the room there was. -/
theorem of_fault {k : FaultKind} (hx : Constructing x) (hfail : x.run h = (.error (.fault k), h')) :
    k = .outOfMemory ∧ h'.room = some 0 ∧ ∃ extra, h' = h.adding extra ∧ (extra = #[] ↔ h.room = some 0) := by
  obtain ⟨⟨extra, rfl, hextra⟩, hend | ⟨hk, hroom⟩⟩ := (hx h).of_error hfail
  · cases hend
  · cases hk
    refine ⟨rfl, hroom, extra, rfl, fun hnone => ?_, hextra⟩
    rwa [hnone, adding_empty] at hroom

end Constructing

/-! ## Constructions of one object -/

/-- **A construction of one object fails only where there was no room for it.** -/
theorem room_of_spends {x : HeapM α} {g : Option Nat → Except HeapFailure (Option Nat)} {k : FaultKind}
    (hx : Spends x g) (hg : ∀ r, g r = .error (.fault k) → r = some 0) (hfail : x.run h = (.error (.fault k), h')) :
    h.room = some 0 := by
  have hspent := hx h
  rw [hfail] at hspent
  exact hg h.room hspent.symm

theorem eq_zero_of_take {k : FaultKind} {r : Option Nat} (htake : take r = .error (.fault k)) : r = some 0 := by
  cases r with
  | none => cases htake
  | some n =>
    cases n with
    | zero => rfl
    | succ n => cases htake

theorem eq_zero_of_spend {k : FaultKind} {t : TypeHandle} (ht : ¬ md.HasParts t) {n : Nat} {r : Option Nat}
    (hspend : spend md n t r = .error (.fault k)) : r = some 0 := by
  cases n with
  | zero => cases hspend
  | succ n =>
    rw [spend] at hspend
    cases hfields : md.instanceFields? t with
    | none =>
      rw [hfields] at hspend
      cases hspend
    | some fields =>
      have hnone : md.parts fields = [] := by
        rw [Metadata.HasParts, not_not, Metadata.firstPart?, hfields] at ht
        exact List.head?_eq_none_iff.1 ht
      simp only [hfields, hnone] at hspend
      exact eq_zero_of_take hspend

theorem spends_fill_plain {element : TypeSymbol} (hplain : element.kind ≠ .struct) :
    ∀ (count : Nat) (items : Array Value), Spends (fill md element count items) .ok
  | 0, items => .pure items
  | count + 1, items => by
    unfold fill
    rw [zeroOf_eq, if_neg hplain, pure_bind]
    exact spends_fill_plain hplain count _

/-! ## Operations that make one object at most -/

/-- **The operation changes nothing.** -/
def Looking (x : HeapM α) : Prop :=
  ∀ h, Meets x h (fun _ h' => h' = h) fun e h' => h' = h ∧ e ≠ .fault .outOfMemory

/-- **A failure changes nothing**, and memory runs out only where no room was left. -/
def Intact (x : HeapM α) : Prop :=
  ∀ h, Meets x h (fun _ _ => True) fun e h' => h' = h ∧ (e = .fault .outOfMemory → h.room = some 0)

section

variable {x : HeapM α} {f : α → HeapM β}

theorem Looking.intact (hx : Looking x) : Intact x := fun h =>
  (hx h).mono (fun _ _ _ => trivial) fun _ _ he => ⟨he.1, fun hk => absurd hk he.2⟩

theorem Looking.bind (hx : Looking x) (hf : ∀ a, Looking (f a)) : Looking (x >>= f) := fun h =>
  Meets.bind (hx h) fun a _ hsame => hsame ▸ hf a h

theorem Intact.bind (hx : Looking x) (hf : ∀ a, Intact (f a)) : Intact (x >>= f) := fun h =>
  Meets.bind ((hx h).mono (fun _ _ hsame => hsame) fun _ _ he => ⟨he.1, fun hk => absurd hk he.2⟩)
    fun a _ hsame => hsame ▸ hf a h

/-- What is returned of a result is no matter. -/
theorem Intact.bind_pure (hx : Intact x) (g : α → β) : Intact (x >>= fun a => pure (g a)) := fun h =>
  Meets.bind (hx h) fun _ _ _ => trivial

theorem Looking.pure (a : α) : Looking (Pure.pure a : HeapM α) := fun _ => rfl

theorem Looking.raise {k : FaultKind} (hk : k ≠ .outOfMemory) : Looking (Heap.raise k : HeapM α) := fun _ =>
  ⟨rfl, fun heq => hk (HeapFailure.fault.inj heq)⟩

theorem Looking.orEndless (o : Option α) : Looking (Heap.orEndless o) := by
  cases o with
  | none => exact fun _ => ⟨rfl, HeapFailure.noConfusion⟩
  | some a => exact pure a

theorem Looking.get_bind {f : Heap → HeapM β} (hf : ∀ h, Looking (f h)) : Looking (get >>= f) :=
  fun h => Meets.get_bind (hf h h)

theorem Intact.allocate (o : Object) : Intact (Heap.allocate o) := fun _ =>
  (allocate_full o).mono (fun _ _ _ => trivial) fun _ _ he => ⟨he.1, fun _ => he.2.2⟩

theorem Intact.modify (g : Heap → Heap) : Intact (modify g : HeapM PUnit) := fun _ => trivial

theorem Looking.getAs (r : Option Ref) (select : Object → Option α) : Looking (Heap.getAs r select) := by
  unfold Heap.getAs
  cases r with
  | none => exact raise (by decide)
  | some r =>
    refine get_bind fun _ => ?_
    split
    · exact pure _
    · exact raise (by decide)

theorem Looking.narrow (k : Kind) (v : Value) : Looking (Heap.narrow k v) := by
  unfold Heap.narrow
  split
  · exact pure _
  · exact raise (by decide)

theorem Looking.admits (md : Metadata) (element : TypeSymbol) (v : Value) : Looking (Heap.admits md element v) := by
  unfold Heap.admits
  split
  · refine get_bind fun h => ?_
    split
    · split
      · exact pure _
      · exact orEndless _
    · exact pure _
  · exact pure _

theorem Looking.loadBoxed (r : Option Ref) : Looking (Heap.loadBoxed r) :=
  (getAs r _).bind fun _ => pure _

theorem Looking.unboxPointer (r : Option Ref) (type : TypeSymbol) : Looking (Heap.unboxPointer r type) := by
  refine (getAs r _).bind fun a => ?_
  dsimp only
  split
  · exact pure _
  · exact raise (by decide)

theorem Looking.arrayLength (r : Option Ref) : Looking (Heap.arrayLength r) :=
  (getAs r _).bind fun _ => pure _

theorem Looking.sizeOf (md : Metadata) (type : TypeSymbol) : Looking (Heap.sizeOf md type) := by
  unfold Heap.sizeOf
  split
  · exact (orEndless _).bind fun fields => pure _
  · exact pure _

theorem Looking.elementSize (md : Metadata) (r : Option Ref) : Looking (Heap.elementSize md r) :=
  (getAs r _).bind fun _ => sizeOf md _

theorem Looking.loadElement (r : Option Ref) (index : Nat) (k : Kind) : Looking (Heap.loadElement r index k) := by
  refine (getAs r _).bind fun a => ?_
  dsimp only
  split
  · exact raise (by decide)
  · split
    · exact narrow k _
    · exact raise (by decide)

theorem Intact.storeBoxed (md : Metadata) (r : Option Ref) (v : Value) : Intact (Heap.storeBoxed md r v) :=
  .bind (.getAs r _) fun _ => .bind (.narrow _ v) fun _ => .modify _

theorem Intact.storeElement (md : Metadata) (r : Option Ref) (index : Nat) (k : Kind) (v : Value) :
    Intact (Heap.storeElement md r index k v) := by
  refine .bind (.getAs r _) fun a => ?_
  dsimp only
  split
  · exact (Looking.raise (by decide)).intact
  · refine .bind (.admits md _ v) fun fits => ?_
    split
    · exact (Looking.raise (by decide)).intact
    · refine .bind (.narrow _ v) fun w => ?_
      split
      · exact .modify _
      · exact (Looking.raise (by decide)).intact

theorem Intact.storeField (r : Option Ref) (f : FieldSymbol) (v : Value) : Intact (Heap.storeField r f v) :=
  .bind (.getAs r _) fun _ => .bind (.narrow _ v) fun _ => .modify _

theorem Intact.storeStatic (f : FieldSymbol) (v : Value) : Intact (Heap.storeStatic f v) :=
  .bind (.narrow _ v) fun _ => .modify _

end

/-! ## Copies and boxes -/

theorem copyValue_copied {v : Value} {o : Object} (hcopied : Copied h v o) : Meets (copyValue v) h
    (fun _ h' => h.room ≠ some 0 ∧ h' = h.adding #[o])
    fun e h' => h' = h ∧ e = .fault .outOfMemory ∧ h.room = some 0 := by
  obtain ⟨r, type, fields, rfl, ho, rfl⟩ := hcopied
  unfold copyValue
  refine Meets.get_bind ?_
  simp only [ho]
  exact Meets.bind (allocate_full _) fun _ _ hmade => hmade

theorem copyValue_plain {v : Value} (hplain : ∀ o, ¬ Copied h v o) :
    Meets (copyValue v) h (fun w h' => w = v ∧ h' = h) fun _ _ => False := by
  unfold copyValue
  split
  · rename_i r
    refine Meets.get_bind ?_
    split
    · rename_i type fields ho
      exact absurd ⟨r, type, fields, rfl, ho, rfl⟩ (hplain _)
    · exact ⟨rfl, rfl⟩
  · exact ⟨rfl, rfl⟩

theorem Intact.copyValue (v : Value) : Intact (Heap.copyValue v) := by
  intro h
  by_cases hcopied : ∃ o, Copied h v o
  · obtain ⟨o, ho⟩ := hcopied
    exact (copyValue_copied ho).mono (fun _ _ _ => trivial) fun _ _ he => ⟨he.1, fun _ => he.2.2⟩
  · exact (copyValue_plain fun o ho => hcopied ⟨o, ho⟩).mono (fun _ _ _ => trivial) fun _ _ hf => hf.elim

theorem Intact.unbox (r : Option Ref) (type : TypeSymbol) : Intact (Heap.unbox r type) := by
  refine .bind (.getAs r _) fun a => ?_
  dsimp only
  split
  · exact copyValue _
  · exact (Looking.raise (by decide)).intact

/-- What is left of boxing once the value has been copied. -/
theorem intact_boxed (type : TypeSymbol) (w : Value) :
    Intact (do let u ← narrow type.kind w; return some (← allocate (.boxed type.handle u)) : HeapM (Option Ref)) :=
  .bind (.narrow type.kind w) fun u => (Intact.allocate (.boxed type.handle u)).bind_pure some

/-- A box of anything but a structure is one object. -/
theorem box_plain {type : TypeSymbol} {v : Value} (hplain : ¬ (type.isValueType = true ∧ ∃ o, Copied h v o)) :
    Meets (box type v) h (fun _ _ => True) fun e h' => h' = h ∧ (e = .fault .outOfMemory → h.room = some 0) := by
  unfold box
  split
  · rename_i ht
    have hcopy := copyValue_plain fun o ho => hplain ⟨ht, o, ho⟩
    refine Meets.bind (hcopy.mono (fun _ _ hw => hw) fun _ _ hf => hf.elim) ?_
    rintro w _ ⟨rfl, rfl⟩
    exact intact_boxed type w _
  · split
    · trivial
    · exact ⟨rfl, fun hk => by cases hk⟩

/-- A structure is copied before it is known whether the copy fits into the box and whether there is room for that. -/
theorem box_copied {type : TypeSymbol} {v : Value} {o : Object} (ht : type.isValueType = true)
    (hcopied : Copied h v o) :
    Meets (box type v) h (fun _ _ => True) fun e h' => (h' = h ∧ e = .fault .outOfMemory ∧ h.room = some 0) ∨
      h.room ≠ some 0 ∧ h' = h.adding #[o] ∧ (e = .fault .outOfMemory → h'.room = some 0) := by
  unfold box
  rw [if_pos ht]
  refine Meets.bind ((copyValue_copied hcopied).mono (fun _ _ hw => hw) fun _ _ he => .inl he) ?_
  rintro w _ ⟨hroom, rfl⟩
  refine (intact_boxed type w _).mono (fun _ _ _ => trivial) ?_
  rintro e _ ⟨rfl, hfull⟩
  exact .inr ⟨hroom, rfl, hfull⟩

/-! ## What a failure leaves -/

/-- **What an operation leaves that failed with a fault**, where `composite` says whether it makes more than one
object. -/
def Leaves (composite : Prop) (k : FaultKind) (h h' : Heap) : Prop :=
  (h' = h ↔ ¬ (composite ∧ h.room ≠ some 0)) ∧ ∃ extra : Array Object, h' = h.adding extra ∧
    (k = .outOfMemory → h'.room = some 0) ∧ (k ≠ .outOfMemory → extra.size ≤ 1)

theorem Leaves.unchanged {composite : Prop} {k : FaultKind} (hnone : ¬ (composite ∧ h.room ≠ some 0))
    (hfull : k = .outOfMemory → h.room = some 0) : Leaves composite k h h :=
  ⟨iff_of_true rfl hnone, #[], h.adding_empty.symm, hfull, fun _ => Nat.zero_le 1⟩

theorem Leaves.and {p composite : Prop} {k : FaultKind} (hleaves : Leaves composite k h h') (hp : p) :
    Leaves (p ∧ composite) k h h' := by
  rwa [and_iff_right hp]

/-- There is an instance, and it does not have the field. -/
def Lacks (h : Heap) (r : Option Ref) (f : FieldSymbol) : Prop := ∃ q type isValueType fields, r = some q ∧
  h.get? q = some (.record type isValueType fields) ∧ fields.lookup f.handle = none

/-- From each heap that it fails on, the operation leaves what `composite` says of that heap. -/
def Leaving (composite : Heap → Prop) (x : HeapM α) : Prop :=
  ∀ h, Meets x h (fun _ _ => True) fun e h' => ∀ k, e = .fault k → Leaves (composite h) k h h'

namespace Leaving

variable {composite : Heap → Prop} {x : HeapM α}

theorem bind_pure (hx : Leaving composite x) (g : α → β) : Leaving composite (x >>= fun a => pure (g a)) := fun h =>
  Meets.bind (hx h) fun _ _ _ => trivial

theorem of_intact (hx : Intact x) : Leaving (fun _ => False) x := by
  intro h
  refine (hx h).mono (fun _ _ _ => trivial) ?_
  rintro e _ ⟨rfl, hfull⟩ k rfl
  exact .unchanged (fun hc => hc.1) fun hk => hfull (congrArg HeapFailure.fault hk)

theorem of_constructing (hx : Constructing x) (hsingle : ∀ h k h', ¬ composite h →
    x.run h = (.error (.fault k), h') → h.room = some 0) : Leaving composite x := by
  intro h
  unfold Meets
  rcases hrun : x.run h with ⟨e | a, h'⟩
  · rintro k rfl
    obtain ⟨rfl, hroom, extra, rfl, hextra⟩ := hx.of_fault hrun
    refine ⟨?_, extra, rfl, fun _ => hroom, fun hk => absurd rfl hk⟩
    rw [adding_eq_self_iff, hextra]
    exact ⟨fun hfull hc => hc.2 hfull, fun hnot => by_contra fun hleft =>
      hleft (hsingle h _ _ (fun hc => hnot ⟨hc, hleft⟩) hrun)⟩
  · trivial

theorem newInstance (md : Metadata) (type : TypeSymbol) :
    Leaving (fun _ => md.HasParts type.handle) (Heap.newInstance md type) :=
  .of_constructing (.newInstance md type) fun _ _ _ hparts hrun =>
    room_of_spends (newInstance_spends md type) (fun _ => eq_zero_of_spend hparts) hrun

theorem zeroOf (md : Metadata) (type : TypeSymbol) :
    Leaving (fun _ => md.ZeroHasParts type) (Heap.zeroOf md type) := by
  rw [zeroOf_eq]
  by_cases hk : type.kind = .struct
  · have hsame : md.ZeroHasParts type = md.HasParts type.handle := propext (and_iff_right hk)
    rw [if_pos hk, hsame]
    exact (newInstance md type).bind_pure fun r => Value.object (some r)
  · rw [if_neg hk]
    exact fun _ => trivial

theorem fieldZero (md : Metadata) (f : FieldSymbol) :
    Leaving (fun _ => md.FieldHasParts f) (Heap.fieldZero md f) := by
  unfold Heap.fieldZero
  cases ht : md.typeSymbol? f.type with
  | none => exact fun _ => trivial
  | some t =>
    have hsame : md.FieldHasParts f = md.ZeroHasParts t := by simp [Metadata.FieldHasParts, ht]
    rw [hsame]
    exact zeroOf md t

theorem newArray (md : Metadata) (element : TypeSymbol) (length : Nat) :
    Leaving (fun _ => element.kind = .struct ∧ 0 < length) (Heap.newArray md element length) := by
  refine .of_constructing (.newArray md element length) fun h k h' hplain hrun => ?_
  have hfill : Spends (fill md element length #[]) .ok := by
    by_cases hk : element.kind = .struct
    · obtain rfl : length = 0 := by
        refine Nat.eq_zero_of_not_pos fun hpos => hplain ⟨hk, hpos⟩
      exact .pure #[]
    · exact spends_fill_plain hk length #[]
  exact room_of_spends (hfill.bind fun items => spends_allocate _) (fun _ => eq_zero_of_take) hrun

theorem box (type : TypeSymbol) (v : Value) :
    Leaving (fun h => type.isValueType = true ∧ ∃ o, Copied h v o) (Heap.box type v) := by
  intro h
  by_cases hc : type.isValueType = true ∧ ∃ o, Copied h v o
  · obtain ⟨ht, o, ho⟩ := id hc
    refine (box_copied ht ho).mono (fun _ _ _ => trivial) ?_
    rintro e h' (⟨rfl, rfl, hfull⟩ | ⟨hroom, rfl, hfull⟩) k hk
    · exact .unchanged (fun hleft => hleft.2 hfull) fun _ => hfull
    · refine ⟨iff_of_false (fun heq => ?_) (not_not_intro ⟨hc, hroom⟩), #[o], rfl, fun hmem => ?_,
        fun _ => Nat.le_refl 1⟩
      · cases adding_eq_self_iff.1 heq
      · exact hfull (hmem ▸ hk)
  · refine (box_plain hc).mono (fun _ _ _ => trivial) ?_
    rintro e _ ⟨rfl, hfull⟩ k rfl
    exact .unchanged (fun hleft => hc hleft.1) fun hk => hfull (congrArg HeapFailure.fault hk)

theorem loadField (md : Metadata) (r : Option Ref) (f : FieldSymbol) :
    Leaving (fun h => h.Lacks r f ∧ md.FieldHasParts f) (Heap.loadField md r f) := by
  intro h
  cases r with
  | none =>
    rintro k hk
    cases hk
    refine .unchanged ?_ fun hk => by cases hk
    rintro ⟨⟨⟨q, _, _, _, hq, -⟩, -⟩, -⟩
    cases hq
  | some q =>
    have hcast (hnone : ∀ type isValueType fields, h.get? q ≠ some (.record type isValueType fields)) (k : FaultKind)
        (hk : HeapFailure.fault .invalidCast = .fault k) : Leaves (h.Lacks (some q) f ∧ md.FieldHasParts f) k h h := by
      cases hk
      refine .unchanged ?_ fun hk => by cases hk
      rintro ⟨⟨⟨q', type, isValueType, fields, hq, hrecord, -⟩, -⟩, -⟩
      cases hq
      exact hnone _ _ _ hrecord
    unfold Meets Heap.loadField getRecord
    rw [Meets.run_bind, getAs_run]
    cases ho : h.get? q with
    | none => exact hcast fun _ _ _ hrecord => by cases ho.symm.trans hrecord
    | some o =>
      cases o with
      | record type isValueType fields =>
        simp only [Option.bind_some]
        cases hf : fields.lookup f.handle with
        | some v => trivial
        | none =>
          refine (fieldZero md f h).mono (fun _ _ _ => trivial) fun e h' hleaves k hk => ?_
          exact (hleaves k hk).and ⟨q, type, isValueType, fields, rfl, ho, hf⟩
      | _ => exact hcast fun _ _ _ hrecord => by cases ho.symm.trans hrecord

theorem loadStatic (md : Metadata) (f : FieldSymbol) :
    Leaving (fun h => h.statics.lookup f.handle = none ∧ md.FieldHasParts f) (Heap.loadStatic md f) := by
  intro h
  unfold Heap.loadStatic
  refine Meets.get_bind ?_
  cases hf : h.statics.lookup f.handle with
  | some v => exact trivial
  | none =>
    refine Meets.bind ((fieldZero md f h).mono (fun _ _ hv => hv) fun e h' hleaves k hk => ?_) fun _ _ _ => trivial
    exact (hleaves k hk).and hf

end Leaving

/-- **The operation makes more than one object**: an instance, a zero or an array with a structure inside, or a box of a
structure. A load does so if there is nothing to load and the zero is such a one. -/
def Call.Composite (md : Metadata) (h : Heap) : Call → Prop
  | newInstance type => md.HasParts type.handle
  | zeroOf type => md.ZeroHasParts type
  | newArray element length => element.kind = .struct ∧ 0 < length
  | box type v => type.isValueType = true ∧ ∃ o, Copied h v o
  | loadField r f => h.Lacks r f ∧ md.FieldHasParts f
  | loadStatic f => h.statics.lookup f.handle = none ∧ md.FieldHasParts f
  | _ => False

theorem leaving_perform (md : Metadata) (c : Call) : Leaving (fun h => c.Composite md h) (c.perform md) := by
  have hintact {α : Type} {x : HeapM α} (hx : Intact x) (g : α → Option Value) :
      Leaving (fun _ => False) (x >>= fun a => pure (g a)) := (Leaving.of_intact hx).bind_pure g
  cases c with
  | newString s => exact hintact (.allocate _) fun r => some (Value.object (some r))
  | newHandle s => exact hintact (.allocate _) fun r => some (Value.object (some r))
  | newInstance type => exact (Leaving.newInstance md type).bind_pure fun r => some (Value.object (some r))
  | newArray element length =>
    exact (Leaving.newArray md element length).bind_pure fun r => some (Value.object (some r))
  | newException kind message => exact fun _ => trivial
  | zeroOf type => exact (Leaving.zeroOf md type).bind_pure some
  | copyValue v => exact hintact (.copyValue v) some
  | box type v => exact (Leaving.box type v).bind_pure fun r => some (Value.object r)
  | unbox r type => exact hintact (.unbox r type) some
  | unboxPointer r type => exact hintact (Looking.unboxPointer r type).intact fun q => some (Value.pointer q)
  | loadBoxed r => exact hintact (Looking.loadBoxed r).intact some
  | storeBoxed r v => exact hintact (.storeBoxed md r v) fun _ => none
  | arrayLength r => exact hintact (Looking.arrayLength r).intact fun _ => none
  | elementSize r => exact hintact (Looking.elementSize md r).intact fun _ => none
  | sizeOf type => exact hintact (Looking.sizeOf md type).intact fun _ => none
  | loadElement r index kind => exact hintact (Looking.loadElement r index kind).intact some
  | storeElement r index kind v => exact hintact (.storeElement md r index kind v) fun _ => none
  | loadField r f => exact (Leaving.loadField md r f).bind_pure some
  | storeField r f v => exact hintact (.storeField r f v) fun _ => none
  | loadStatic f => exact (Leaving.loadStatic md f).bind_pure some
  | storeStatic f v => exact hintact (.storeStatic f v) fun _ => none

/-- **What a failed operation leaves.** It changes nothing, unless it makes more than one object and there was room for
one. Then objects have been added that count, while all other objects and the static fields are as they were: so many
that no room is left if memory ran out, and one at most on any other fault. -/
theorem failed_changes_iff {c : Call} {k : FaultKind} (hfail : (c.perform md).run h = (.error (.fault k), h')) :
    (h' = h ↔ ¬ (c.Composite md h ∧ h.room ≠ some 0)) ∧ ∃ extra : Array Object, h' = h.adding extra ∧
      (k = .outOfMemory → h'.room = some 0) ∧ (k ≠ .outOfMemory → extra.size ≤ 1) :=
  (leaving_perform md c h).of_error hfail k rfl

/-! Two points of an array leave no room for the array, and a point is copied for a box that is not for points. -/

def pointTables : Metadata := Metadata.built [.defineType "Point" .struct none]

def pointType : TypeSymbol := ⟨⟨31⟩, "Point", .struct, true⟩

def pointsCall : Call := .newArray pointType 2

def pointsMade : Heap := ((pointsCall.perform pointTables).run { limit := some 2 }).2

theorem pointsCall_fails :
    (pointsCall.perform pointTables).run { limit := some 2 } = (.error (.fault .outOfMemory), pointsMade) := rfl

def pointHeap : Heap := { objects := #[.record ⟨31⟩ true []], allocated := 1, limit := some 2 }

def boxCall : Call := .box ⟨⟨23⟩, "System.Int32", .i4, true⟩ (.object (some ⟨0⟩))

def pointCopied : Heap := ((boxCall.perform pointTables).run pointHeap).2

theorem boxCall_fails :
    (boxCall.perform pointTables).run pointHeap = (.error (.fault .invalidCast), pointCopied) := rfl

theorem points_left_over :
    (pointsCall.perform pointTables).run { limit := some 2 } = (.error (.fault .outOfMemory), pointsMade) ∧
    pointsMade ≠ { limit := some 2 } ∧ pointsMade.room = some 0 ∧
    (boxCall.perform pointTables).run pointHeap = (.error (.fault .invalidCast), pointCopied) ∧
    pointCopied ≠ pointHeap := by
  obtain ⟨hpoints, _, -, hroom, -⟩ := failed_changes_iff pointsCall_fails
  obtain ⟨hbox, -⟩ := failed_changes_iff boxCall_fails
  refine ⟨pointsCall_fails, fun hsame => ?_, hroom rfl, boxCall_fails, fun hsame => ?_⟩
  · exact hpoints.1 hsame ⟨⟨rfl, by decide⟩, by decide⟩
  · exact hbox.1 hsame ⟨⟨rfl, _, ⟨0⟩, ⟨31⟩, [], rfl, rfl, rfl⟩, by decide⟩

/-- A failed operation that leaves more objects than there were. -/
theorem failed_not_unchanged : ¬ ∀ md c h k h', (Call.perform md c).run h = (.error (.fault k), h') →
    h'.allocated = h.allocated := by
  intro hall
  have hsame := hall _ _ _ _ _ pointsCall_fails
  revert hsame
  decide +kernel

end Heap

end ManagedCode
