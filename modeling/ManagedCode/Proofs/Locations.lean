import ManagedCode.Proofs.Narrowed
import ManagedCode.Proofs.Sound

/-!
# The locations of a heap

A heap is a store of locations: the static fields, and inside of objects the elements of arrays, the fields of
instances and the contents of boxes. `Heap.at?` says what a location holds, and `Heap.Declares` of which type it is.

Two things happen to a heap. Objects and static fields are added (`Adds`), and then every location that there was holds
what it held; what an operation constructs has the zeros of its types (`Grown`), and a copy has the fields of what was
copied. Or one location is written (`Written`), and then every other one holds what it held.
-/

namespace ManagedCode

namespace Meets

variable {ε σ α : Type} {x : ExceptT ε (StateM σ) α} {s : σ} {Q : α → σ → Prop} {E : ε → σ → Prop}

/-- A result that is described is the result of the run. -/
theorem with_run (hx : Meets x s Q E) : Meets x s (fun a t => x.run s = (.ok a, t) ∧ Q a t) E := by
  unfold Meets at hx ⊢
  rcases hr : x.run s with ⟨e | a, t⟩
  · rw [hr] at hx
    exact hx
  · rw [hr] at hx
    exact ⟨rfl, hx⟩

theorem ignore_error (hx : Meets x s Q E) : Meets x s Q fun _ _ => True :=
  hx.mono (fun _ _ ha => ha) fun _ _ _ => trivial

end Meets

/-- A place inside an object: an element of an array, a field of an instance, or what a box holds. -/
inductive Slot where
  | element (index : Nat)
  | field (handle : FieldHandle)
  | content
  deriving DecidableEq, Repr

/-- What an object holds in a place. -/
def Object.slot? : Object → Slot → Option Value
  | .array _ items, .element i => items[i]?
  | .record _ _ fields, .field k => fields.lookup k
  | .boxed _ v, .content => some v
  | _, _ => none

namespace Metadata

variable {md md' : Metadata}

/-- The type of a field, which has the kind of the field. -/
def FieldType (md : Metadata) (k : FieldHandle) (t : TypeSymbol) : Prop :=
  ∃ f, md.HasField f ∧ f.handle = k ∧ md.typeSymbol? f.type = some t ∧ t.kind = f.kind

theorem WellFormed.fieldType {f : FieldSymbol} (hmd : md.WellFormed) (hf : md.HasField f) :
    ∃ t, md.typeSymbol? f.type = some t ∧ t.kind = f.kind ∧ md.FieldType f.handle t := by
  obtain ⟨t, ht, hk⟩ := hmd.typeOfField hf
  exact ⟨t, ht, hk, f, hf, rfl, ht, hk⟩

theorem FieldType.extends {k : FieldHandle} {t : TypeSymbol} (h : md.FieldType k t) (he : md.Extends md') :
    md'.FieldType k t := by
  obtain ⟨f, hf, hk, ht, hkind⟩ := h
  exact ⟨f, he.hasField hf, hk, he.typeSymbol? ht, hkind⟩

end Metadata

/-- The type that a place inside an object is declared with. -/
def Object.Declares (md : Metadata) : Object → Slot → TypeSymbol → Prop
  | .array element _, .element _, t => t = element
  | .record .., .field k, t => md.FieldType k t
  | .boxed type _, .content, t => md.typeSymbol? type = some t
  | _, _, _ => False

namespace Heap

/-- **A location**: a static field, or a place inside an object. -/
inductive Location where
  | static (handle : FieldHandle)
  | inside (object : Ref) (slot : Slot)
  deriving DecidableEq, Repr

/-- **What a location holds.** There is nothing at a static field that was not used yet, in a place that an object does
not have, or inside of an object that there is not. -/
def at? (h : Heap) : Location → Option Value
  | .static k => h.statics.lookup k
  | .inside r s => (h.get? r).bind (·.slot? s)

/-- **The type that a location is declared with.** -/
def Declares (md : Metadata) (h : Heap) : Location → TypeSymbol → Prop
  | .static k, t => md.FieldType k t
  | .inside r s, t => ∃ o, h.get? r = some o ∧ o.Declares md s t

/-- Every location that holds something is declared with a type. -/
def Known (md : Metadata) (h : Heap) : Prop := ∀ l w, h.at? l = some w → ∃ t, h.Declares md l t

/-- An instance of a type that the second heap has and the first has not. -/
def NewInstance (t : TypeSymbol) (h h' : Heap) (r : Ref) : Prop :=
  h.get? r = none ∧ ∃ fields, h'.get? r = some (.record t.handle t.isValueType fields)

/-- **The zero of a type.** That of a structure is a new instance; what this holds are locations of their own. -/
def Zeroed (t : TypeSymbol) (h h' : Heap) (v : Value) : Prop :=
  match t.kind with
  | .struct => ∃ r, v = .object (some r) ∧ NewInstance t h h' r
  | k => v = k.zero

variable {md md' : Metadata} {h h' h₁ h₂ : Heap} {P P' : Object → Prop} {S S' : FieldHandle × Value → Prop}
  {l : Location} {t : TypeSymbol} {v w : Value}

theorem Declares.extends (hd : h.Declares md l t) (he : md.Extends md') : h.Declares md' l t := by
  cases l with
  | static k => exact Metadata.FieldType.extends hd he
  | inside r s =>
    obtain ⟨o, ho, hd⟩ := hd
    refine ⟨o, ho, ?_⟩
    cases o <;> cases s <;> try exact hd
    · exact hd.extends he
    · exact he.typeSymbol? hd

/-! ## Locations that are added -/

/-- Every object stays as it is. -/
def Persists (h h' : Heap) : Prop := ∀ r o, h.get? r = some o → h'.get? r = some o

theorem Persists.refl (h : Heap) : h.Persists h := fun _ _ ho => ho

theorem Persists.push (o : Object) (n : Nat) :
    h.Persists { h with allocated := n, objects := h.objects.push o } :=
  fun _ _ ho => Metadata.getElem?_push_of_some ho

theorem Persists.absent (hp : h.Persists h') {r : Ref} (hr : h'.get? r = none) : h.get? r = none := by
  cases ho : h.get? r with
  | none => rfl
  | some o => cases hr.symm.trans (hp r o ho)

/-- **The second heap is the first with objects and static fields added**, each of them as described. -/
structure Adds (P : Object → Prop) (S : FieldHandle × Value → Prop) (h h' : Heap) : Prop where
  kept : h.Persists h'
  added : ∀ r o, h.get? r = none → h'.get? r = some o → P o
  keptStatic : ∀ k v, h.statics.lookup k = some v → h'.statics.lookup k = some v
  addedStatic : ∀ k v, h.statics.lookup k = none → h'.statics.lookup k = some v → S (k, v)

namespace Adds

theorem refl (P : Object → Prop) (S : FieldHandle × Value → Prop) (h : Heap) : Adds P S h h where
  kept := .refl h
  added := fun r o hn ho => by cases hn.symm.trans ho
  keptStatic := fun _ _ hv => hv
  addedStatic := fun k v hn hv => by cases hn.symm.trans hv

theorem mono (ha : Adds P S h h') (hP : ∀ o, P o → P' o) (hS : ∀ e, S e → S' e) : Adds P' S' h h' where
  kept := ha.kept
  added := fun r o hn ho => hP o (ha.added r o hn ho)
  keptStatic := ha.keptStatic
  addedStatic := fun k v hn hv => hS (k, v) (ha.addedStatic k v hn hv)

theorem trans (ha : Adds P S h h₁) (hb : Adds P S h₁ h₂) : Adds P S h h₂ where
  kept := fun r o ho => hb.kept r o (ha.kept r o ho)
  added := by
    intro r o hn ho
    cases hr : h₁.get? r with
    | none => exact hb.added r o hr ho
    | some o' =>
      cases (hb.kept r o' hr).symm.trans ho
      exact ha.added r o hn hr
  keptStatic := fun k v hv => hb.keptStatic k v (ha.keptStatic k v hv)
  addedStatic := by
    intro k v hn hv
    cases hk : h₁.statics.lookup k with
    | none => exact hb.addedStatic k v hk hv
    | some v' =>
      cases (hb.keptStatic k v' hk).symm.trans hv
      exact ha.addedStatic k v hn hk

/-- One object more. -/
theorem push {o : Object} (ho : P o) (n : Nat) :
    Adds P S h { h with allocated := n, objects := h.objects.push o } where
  kept := .push o n
  added := by
    intro r o' hn ho'
    rcases Metadata.getElem?_push ho' with hold | ⟨-, rfl⟩
    · cases hn.symm.trans hold
    · exact ho
  keptStatic := fun _ _ hv => hv
  addedStatic := fun k v hn hv => by cases hn.symm.trans hv

/-- A static field more, which there was not at first. -/
theorem insertStatic {k : FieldHandle} (ha : Adds P S h h₁) (hk : h.statics.lookup k = none) (hv : S (k, v)) :
    Adds P S h { h₁ with statics := insertEntry k v h₁.statics } where
  kept := ha.kept
  added := ha.added
  keptStatic := by
    intro j u hu
    rw [lookup_insertEntry]
    by_cases hj : j = k
    · subst hj
      cases hk.symm.trans hu
    · simpa [hj] using ha.keptStatic j u hu
  addedStatic := by
    intro j u hn hu
    rw [lookup_insertEntry] at hu
    by_cases hj : j = k
    · subst hj
      simp only [BEq.rfl, if_true, Option.some.injEq] at hu
      exact hu ▸ hv
    · simp only [beq_iff_eq, hj, if_false] at hu
      exact ha.addedStatic j u hn hu

/-- **What there was is left as it is.** -/
theorem at?_of_some (ha : Adds P S h h') (hw : h.at? l = some w) : h'.at? l = some w := by
  cases l with
  | static k => exact ha.keptStatic k w hw
  | inside r s =>
    obtain ⟨o, ho, hs⟩ := Option.bind_eq_some_iff.1 hw
    exact Option.bind_eq_some_iff.2 ⟨o, ha.kept r o ho, hs⟩

theorem declares (ha : Adds P S h h') (hd : h.Declares md l t) : h'.Declares md l t := by
  cases l with
  | static k => exact hd
  | inside r s =>
    obtain ⟨o, ho, hd⟩ := hd
    exact ⟨o, ha.kept r o ho, hd⟩

/-- A new location is a static field that was added, or inside of an object that was. -/
theorem new_cases (ha : Adds P S h h') (hn : h.at? l = none) (hw : h'.at? l = some w) :
    (∃ k, l = .static k ∧ S (k, w)) ∨ ∃ r s o, l = .inside r s ∧ h'.get? r = some o ∧ P o ∧ o.slot? s = some w := by
  cases l with
  | static k => exact .inl ⟨k, rfl, ha.addedStatic k w hn hw⟩
  | inside r s =>
    obtain ⟨o, ho, hs⟩ := Option.bind_eq_some_iff.1 hw
    refine .inr ⟨r, s, o, rfl, ho, ha.added r o ?_ ho, hs⟩
    cases hr : h.get? r with
    | none => rfl
    | some o' =>
      cases (ha.kept r o' hr).symm.trans ho
      cases hn.symm.trans (Option.bind_eq_some_iff.2 ⟨o, hr, hs⟩)

end Adds

/-! ## Construction -/

/-- A field with the zero of its type. -/
def BlankField (md : Metadata) (h h' : Heap) (e : FieldHandle × Value) : Prop :=
  ∃ t, md.FieldType e.1 t ∧ Zeroed t h h' e.2

/-- An object that was constructed: every place in it has the zero of its type. -/
def Blank (md : Metadata) (h h' : Heap) : Object → Prop
  | .array element items => ∀ v ∈ items, Zeroed element h h' v
  | .record _ _ fields => ∀ e ∈ fields, BlankField md h h' e
  | .boxed .. => False
  | _ => True

/-- **Between the two heaps objects and static fields were constructed**, and nothing else happened. -/
def Grown (md : Metadata) (h h' : Heap) : Prop := Adds (Blank md h h') (BlankField md h h') h h'

theorem Zeroed.widen (hz : Zeroed t h₁ h₂ v) (hb : h.Persists h₁) (ha : h₂.Persists h') : Zeroed t h h' v := by
  unfold Zeroed at hz ⊢
  split at hz
  · obtain ⟨r, hv, hn, fields, hr⟩ := hz
    exact ⟨r, hv, hb.absent hn, fields, ha r _ hr⟩
  · exact hz

theorem NewInstance.zeroed {r : Ref} (hr : NewInstance t h h' r) (hs : t.kind = .struct) :
    Zeroed t h h' (.object (some r)) := by
  simp only [Zeroed, hs]
  exact ⟨r, rfl, hr⟩

theorem zeroed_zero (hs : t.kind ≠ .struct) : Zeroed t h h' t.kind.zero := by
  unfold Zeroed
  split
  · contradiction
  · rfl

theorem BlankField.widen {e : FieldHandle × Value} (he : BlankField md h₁ h₂ e) (hb : h.Persists h₁)
    (ha : h₂.Persists h') : BlankField md h h' e := by
  obtain ⟨t, ht, hz⟩ := he
  exact ⟨t, ht, hz.widen hb ha⟩

theorem Blank.widen {o : Object} (ho : Blank md h₁ h₂ o) (hb : h.Persists h₁) (ha : h₂.Persists h') :
    Blank md h h' o := by
  cases o with
  | array element items => exact fun v hv => (ho v hv).widen hb ha
  | record type isValueType fields => exact fun e he => (ho e he).widen hb ha
  | _ => exact ho

theorem Grown.refl (h : Heap) : Grown md h h := Adds.refl _ _ h

/-- What is added afterwards may hold what was constructed before. -/
theorem Grown.add (ha : Grown md h h₁) (hb : Adds (Blank md h h₂) (BlankField md h h₂) h₁ h₂) : Grown md h h₂ := by
  have hfirst : Adds (Blank md h h₂) (BlankField md h h₂) h h₁ :=
    ha.mono (fun o ho => ho.widen (.refl h) hb.kept) fun e he => he.widen (.refl h) hb.kept
  exact hfirst.trans hb

theorem Grown.trans (ha : Grown md h h₁) (hb : Grown md h₁ h₂) : Grown md h h₂ :=
  ha.add (hb.mono (fun _ ho => ho.widen ha.kept (.refl h₂)) fun _ he => he.widen ha.kept (.refl h₂))

/-- **The operation only constructs**, also when it fails, and gives what `P` says of the two heaps. -/
def Constructs {α : Type} (md : Metadata) (x : HeapM α) (P : Heap → Heap → α → Prop) : Prop :=
  ∀ h, Meets x h (fun a h' => Grown md h h' ∧ P h h' a) fun _ h' => Grown md h h'

namespace Constructs

variable {α β : Type} {x : HeapM α} {f : α → HeapM β} {P : Heap → Heap → α → Prop} {R : Heap → Heap → β → Prop}

theorem pure {a : α} (ha : ∀ h, P h h a) : Constructs md (Pure.pure a : HeapM α) P := fun h => ⟨.refl h, ha h⟩

/-- What follows sees the heap that the first operation began on. -/
theorem bind (hx : Constructs md x P) (hf : ∀ a h h₁, Grown md h h₁ → P h h₁ a →
    Meets (f a) h₁ (fun b h₂ => Grown md h h₂ ∧ R h h₂ b) fun _ h₂ => Grown md h h₂) : Constructs md (x >>= f) R :=
  fun h => Meets.bind (hx h) fun a h₁ ⟨hg, ha⟩ => hf a h h₁ hg ha

theorem after {h h₁ : Heap} {Q : α → Heap → Prop} (hx : Constructs md x P) (hg : Grown md h h₁)
    (hq : ∀ a h₂, Grown md h₁ h₂ → P h₁ h₂ a → Q a h₂) :
    Meets x h₁ (fun a h₂ => Grown md h h₂ ∧ Q a h₂) fun _ h₂ => Grown md h h₂ :=
  (hx h₁).mono (fun a h₂ ⟨hg', ha⟩ => ⟨hg.trans hg', hq a h₂ hg' ha⟩) fun _ _ hg' => hg.trans hg'

/-- The heap that an operation leaves, whatever is returned of its result. -/
theorem grown {g : α → β} (hx : Constructs md x P) (h : Heap) :
    Grown md h ((x >>= fun a => (Pure.pure (g a) : HeapM β)).run h).2 :=
  Meets.state (S := Grown md h) (Meets.bind (hx h) fun _ _ ha => ha.1)

theorem mapM {g : α → HeapM β} (hwide : ∀ {h h₁ h₂ h' b}, R h₁ h₂ b → h.Persists h₁ → h₂.Persists h' → R h h' b) :
    ∀ {xs : List α}, (∀ a ∈ xs, Constructs md (g a) R) →
      Constructs md (xs.mapM g) fun h h' bs => ∀ b ∈ bs, R h h' b
  | [], _ => .pure fun _ _ hb => by cases hb
  | a :: xs, hg => by
    rw [List.mapM_cons]
    refine (hg a List.mem_cons_self).bind fun b h h₁ hgrown hb => ?_
    have hrest := mapM hwide fun a ha => hg a (List.mem_cons_of_mem _ ha)
    refine Meets.bind (hrest.after hgrown fun bs h₂ hgrown' hbs c hc => ?_) fun bs h₂ hbs => hbs
    rcases List.mem_cons.1 hc with rfl | hc
    · exact hwide hb (.refl h) hgrown'.kept
    · exact hwide (hbs c hc) hgrown.kept (.refl h₂)

end Constructs

theorem constructs_orEndless {α : Type} (o : Option α) : Constructs md (orEndless o) fun _ _ a => o = some a := by
  cases o with
  | some a => exact .pure fun _ => rfl
  | none => exact fun h => Grown.refl h

/-- An object whose places were made before it. -/
theorem allocate_grown {o : Object} (hg : Grown md h h₁) (ho : Blank md h h₁ o) : Meets (allocate o) h₁
    (fun r h₂ => Grown md h h₂ ∧ h.get? r = none ∧ h₂.get? r = some o) fun _ h₂ => Grown md h h₂ := by
  refine (allocate_meets o).mono ?_ fun _ _ hh => hh ▸ hg
  rintro r h₂ ⟨rfl, rfl⟩
  refine ⟨hg.add (.push (ho.widen (.refl h) (.push o _)) _), hg.kept.absent ?_, ?_⟩
  · simp [Heap.get?]
  · simp [Heap.get?]

theorem constructs_allocate {o : Object} (ho : ∀ h, Blank md h h o) : Constructs md (allocate o) fun _ _ _ => True :=
  fun h => (allocate_grown (.refl h) (ho h)).mono (fun _ _ hr => ⟨hr.1, trivial⟩) fun _ _ hg => hg

section

variable (hmd : md.WellFormed)
include hmd

theorem constructs_newInstanceWithin : ∀ (fuel : Nat) (type : TypeSymbol),
    Constructs md (newInstanceWithin md fuel type) fun h h' r => NewInstance type h h' r
  | 0, _ => fun h => Grown.refl h
  | fuel + 1, type => by
    unfold newInstanceWithin
    refine (constructs_orEndless _).bind fun fields h h₁ hg hfields => ?_
    refine Meets.bind (Q := fun values h₂ => Grown md h h₂ ∧ ∀ e ∈ values, BlankField md h h₂ e)
      (Constructs.after (.mapM (R := BlankField md) BlankField.widen fun f hf => ?_) hg
        fun values h₂ _ hv e he => (hv e he).widen hg.kept (.refl h₂)) fun values h₂ hvalues => ?_
    · obtain ⟨t, ht, -, hft⟩ := hmd.fieldType (hmd.hasField_of_instance hfields hf)
      simp only [ht]
      split
      · rename_i hs
        -- a structure inside the instance is constructed first
        exact (constructs_newInstanceWithin fuel t).bind fun r h h₁ hg hr => ⟨hg, t, hft, hr.zeroed hs⟩
      · rename_i hs
        exact .pure fun h => ⟨t, hft, zeroed_zero hs⟩
    · refine (allocate_grown (o := .record type.handle type.isValueType values) hvalues.1 hvalues.2).mono ?_
        fun _ _ hg => hg
      rintro r h₃ ⟨hg, hn, hr⟩
      exact ⟨hg, hn, values, hr⟩

theorem constructs_newInstance (type : TypeSymbol) :
    Constructs md (newInstance md type) fun h h' r => NewInstance type h h' r :=
  fun h => Meets.get_bind (constructs_newInstanceWithin hmd _ type h)

theorem constructs_zeroOf (type : TypeSymbol) : Constructs md (zeroOf md type) fun h h' v => Zeroed type h h' v := by
  unfold zeroOf
  split
  · rename_i hs
    exact (constructs_newInstance hmd type).bind fun r h h₁ hg hr => ⟨hg, hr.zeroed hs⟩
  · rename_i hs
    exact .pure fun h => zeroed_zero hs

theorem constructs_fieldZero {f : FieldSymbol} (hf : md.HasField f) : Constructs md (fieldZero md f) fun h h' v =>
    BlankField md h h' (f.handle, v) := by
  obtain ⟨t, ht, -, hft⟩ := hmd.fieldType hf
  unfold fieldZero
  rw [ht]
  exact fun h => (constructs_zeroOf hmd t h).mono (fun v h' ⟨hg, hz⟩ => ⟨hg, t, hft, hz⟩) fun _ _ hg => hg

theorem fill_grown (element : TypeSymbol) : ∀ (count : Nat) (items : Array Value) {h₁ : Heap}, Grown md h h₁ →
    (∀ v ∈ items, Zeroed element h h₁ v) → Meets (fill md element count items) h₁
      (fun items' h₂ => Grown md h h₂ ∧ ∀ v ∈ items', Zeroed element h h₂ v) fun _ h₂ => Grown md h h₂
  | 0, items, _, hg, hi => ⟨hg, hi⟩
  | count + 1, items, h₁, hg, hi => by
    have hzero := (constructs_zeroOf hmd element).after (Q := fun v h₂ => ∀ u ∈ items.push v, Zeroed element h h₂ u) hg
      fun v h₂ hg' hv u hu => by
        rcases Array.mem_push.1 hu with hu | rfl
        · exact (hi u hu).widen (.refl h) hg'.kept
        · exact hv.widen hg.kept (.refl h₂)
    exact Meets.bind hzero fun v h₂ ⟨hg₂, hi₂⟩ => fill_grown element count _ hg₂ hi₂

theorem constructs_newArray (element : TypeSymbol) (length : Nat) :
    Constructs md (newArray md element length) fun _ _ _ => True := by
  intro h
  have hfill := fill_grown hmd element length #[] (.refl h) fun v hv => absurd hv (Array.not_mem_empty v)
  refine Meets.bind hfill fun items h₁ ⟨hg, hi⟩ => ?_
  exact (allocate_grown (o := .array element items) hg hi).mono (fun _ _ hr => ⟨hr.1, trivial⟩) fun _ _ hg => hg

end

/-! ## Copies -/

/-- The structure that a value is, which its copy has all the fields of. -/
def Copied (h : Heap) (v : Value) (o : Object) : Prop :=
  ∃ r type fields, v = .object (some r) ∧ h.get? r = some o ∧ o = .record type true fields

theorem copyValue_adds (v : Value) : Meets (copyValue v) h
    (fun _ h' => Adds (Copied h v) (fun _ => False) h h') fun _ h' => h' = h := by
  unfold copyValue
  split
  · rename_i r
    refine Meets.get_bind ?_
    split
    · rename_i type fields ho
      refine Meets.bind (allocate_meets _) ?_
      rintro _ _ ⟨-, rfl⟩
      exact Adds.push ⟨r, type, fields, rfl, ho, rfl⟩ _
    · exact Adds.refl _ _ h
  · exact Adds.refl _ _ h

/-- What a box of a value holds: the copy, narrowed to the type of the box. -/
def Boxes (h : Heap) (type : TypeSymbol) (v w : Value) : Prop :=
  ∃ u, ((copyValue v).run h).1 = .ok u ∧ type.kind.coerce u = some w

/-- What boxing a value adds: the copy, if the value is a structure, and the box. -/
def MadeByBox (h : Heap) (type : TypeSymbol) (v : Value) (o : Object) : Prop :=
  Copied h v o ∨ ∃ w, o = .boxed type.handle w ∧ Boxes h type v w

theorem box_adds (type : TypeSymbol) (v : Value) : Meets (box type v) h
    (fun _ h' => Adds (MadeByBox h type v) (fun _ => False) h h')
    fun _ h' => Adds (MadeByBox h type v) (fun _ => False) h h' := by
  have same : Adds (MadeByBox h type v) (fun _ => False) h h := .refl _ _ h
  unfold box
  split
  · refine Meets.bind ((copyValue_adds v).with_run.mono (fun _ _ ha => ha) fun _ _ hh => hh ▸ same) ?_
    rintro u h₁ ⟨hrun, hcopy⟩
    have hcopied : Adds (MadeByBox h type v) (fun _ => False) h h₁ := hcopy.mono (fun _ ho => .inl ho) fun _ hf => hf
    refine Meets.bind ((narrow_meets type.kind u).mono (fun _ _ ha => ha) fun _ _ hh => hh ▸ hcopied) ?_
    rintro w h₁ ⟨rfl, hw⟩
    refine Meets.bind ((allocate_meets _).mono (fun _ _ ha => ha) fun _ _ hh => hh ▸ hcopied) ?_
    rintro r _ ⟨-, rfl⟩
    exact hcopied.trans (.push (.inr ⟨w, rfl, u, congrArg Prod.fst hrun, hw⟩) _)
  · split
    · exact same
    · exact same

/-! ## Stores -/

/-- **One location was written**, and every other holds what it held. -/
structure Written (md : Metadata) (l : Location) (w : Value) (h h' : Heap) : Prop where
  here : h'.at? l = some w
  elsewhere : ∀ l', l' ≠ l → h'.at? l' = h.at? l'
  declares : ∀ l' t, h.Declares md l' t → h'.Declares md l' t

/-- **A value was stored**: its location holds what the kind of the location makes of it. -/
def Stored (md : Metadata) (l : Location) (v : Value) (h h' : Heap) : Prop :=
  ∃ t w, h.Declares md l t ∧ t.kind.coerce v = some w ∧ Written md l w h h'

theorem get?_replaced {r : Ref} {o : Object} (ho : h.get? r = some o) (o' : Object) (q : Ref) :
    Heap.get? { h with objects := h.objects.setIfInBounds r.id o' } q = if r = q then some o' else h.get? q := by
  have hlt : r.id < h.objects.size := (Array.getElem?_eq_some_iff.1 ho).1
  unfold Heap.get?
  rw [Array.getElem?_setIfInBounds]
  by_cases hq : r = q
  · subst hq
    simp [hlt]
  · simp [hq, id_ne hq]

theorem replace_written {r : Ref} {s : Slot} {o o' : Object} {E : HeapFailure → Heap → Prop} (ho : h.get? r = some o)
    (hs : o'.slot? s = some w) (hother : ∀ s', s' ≠ s → o'.slot? s' = o.slot? s')
    (hd : ∀ s' t, o.Declares md s' t → o'.Declares md s' t) :
    Meets (replace r o') h (fun _ h' => Written md (.inside r s) w h h') E := by
  have hget := get?_replaced ho o'
  refine ⟨?_, ?_, ?_⟩
  · simp [at?, hget, hs]
  · intro l' hl
    cases l' with
    | static k => rfl
    | inside q s' =>
      simp only [at?, hget]
      by_cases hq : r = q
      · subst hq
        simp only [if_true, ho, Option.bind_some]
        exact hother s' fun hs' => hl (hs' ▸ rfl)
      · rw [if_neg hq]
  · intro l' t hl
    cases l' with
    | static k => exact hl
    | inside q s' =>
      obtain ⟨o₁, ho₁, hd₁⟩ := hl
      by_cases hq : r = q
      · subst hq
        cases ho.symm.trans ho₁
        exact ⟨o', by simp [hget], hd s' t hd₁⟩
      · exact ⟨o₁, by simp [hget, hq, ho₁], hd₁⟩

theorem setStatic_written (k : FieldHandle) (w : Value) :
    Written md (.static k) w h { h with statics := insertEntry k w h.statics } where
  here := by simp [at?, lookup_insertEntry]
  elsewhere := by
    intro l' hl
    cases l' with
    | static j =>
      have hj : (j == k) = false := by simpa using fun hj : j = k => hl (hj ▸ rfl)
      simp [at?, lookup_insertEntry, hj]
    | inside r s => rfl
  declares := fun l' t hd => by cases l' <;> exact hd

theorem storeElement_stored (r : Option Ref) (index : Nat) (k : Kind) (v : Value) :
    Meets (storeElement md r index k v) h
      (fun _ h' => ∃ q, r = some q ∧ Stored md (.inside q (.element index)) v h h') fun _ h' => h' = h := by
  unfold storeElement getArray
  refine Meets.bind (getAs_meets r _) ?_
  rintro ⟨q, element, items⟩ h ⟨rfl, hr, o, ho, hs⟩
  cases o <;> cases hs
  dsimp only
  split
  · exact rfl
  · refine Meets.bind ((admits_meets element v).mono (fun _ _ ha => ha.1) fun _ _ hh => hh) ?_
    rintro b h rfl
    split
    · exact rfl
    · refine Meets.bind (narrow_meets _ v) ?_
      rintro w h ⟨rfl, hw⟩
      split
      · rename_i hlt
        refine (replace_written ho ?_ ?_ ?_).mono (fun _ _ hw' => ⟨q, hr, element, w, ⟨_, ho, rfl⟩, hw, hw'⟩)
          fun _ _ hf => hf
        · simp [Object.slot?, hlt]
        · intro s' hs'
          cases s' with
          | element i => exact Array.getElem?_setIfInBounds_ne fun hi : index = i => hs' (hi ▸ rfl)
          | _ => rfl
        · exact fun s' t hd => by cases s' <;> exact hd
      · exact rfl

theorem storeField_stored (hmd : md.WellFormed) (r : Option Ref) {f : FieldSymbol} (hf : md.HasField f) (v : Value) :
    Meets (storeField r f v) h
      (fun _ h' => ∃ q, r = some q ∧ Stored md (.inside q (.field f.handle)) v h h') fun _ h' => h' = h := by
  obtain ⟨t, -, hk, hft⟩ := hmd.fieldType hf
  unfold storeField getRecord
  refine Meets.bind (getAs_meets r _) ?_
  rintro ⟨q, type, isValueType, fields⟩ h ⟨rfl, hr, o, ho, hs⟩
  cases o <;> cases hs
  refine Meets.bind (narrow_meets _ v) ?_
  rintro w h ⟨rfl, hw⟩
  refine (replace_written ho ?_ ?_ ?_).mono (fun _ _ hw' => ⟨q, hr, t, w, ⟨_, ho, hft⟩, hk ▸ hw, hw'⟩) fun _ _ hf => hf
  · simp [Object.slot?, lookup_insertEntry]
  · intro s' hs'
    cases s' with
    | field j =>
      have hj : (j == f.handle) = false := by simpa using fun hj : j = f.handle => hs' (hj ▸ rfl)
      simp [Object.slot?, lookup_insertEntry, hj]
    | _ => rfl
  · exact fun s' t hd => by cases s' <;> exact hd

theorem storeBoxed_stored (hknown : h.Known md) (r : Option Ref) (v : Value) :
    Meets (storeBoxed md r v) h
      (fun _ h' => ∃ q, r = some q ∧ Stored md (.inside q .content) v h h') fun _ h' => h' = h := by
  unfold storeBoxed getBoxed
  refine Meets.bind (getAs_meets r _) ?_
  rintro ⟨q, type, u⟩ h ⟨rfl, hr, o, ho, hs⟩
  cases o <;> cases hs
  obtain ⟨t, o, ho', ht⟩ := hknown (.inside q .content) u (Option.bind_eq_some_iff.2 ⟨_, ho, rfl⟩)
  cases ho.symm.trans ho'
  have ht : md.typeSymbol? type = some t := ht
  refine Meets.bind (narrow_meets _ v) ?_
  rintro w h ⟨rfl, hw⟩
  simp only [ht, Option.map_some, Option.getD_some] at hw
  refine (replace_written ho rfl ?_ ?_).mono (fun _ _ hw' => ⟨q, hr, t, w, ⟨_, ho, ht⟩, hw, hw'⟩) fun _ _ hf => hf
  · intro s' hs'
    cases s' with
    | content => exact absurd rfl hs'
    | _ => rfl
  · exact fun s' t hd => by cases s' <;> exact hd

theorem storeStatic_stored (hmd : md.WellFormed) {f : FieldSymbol} (hf : md.HasField f) (v : Value) :
    Meets (storeStatic f v) h (fun _ h' => Stored md (.static f.handle) v h h') fun _ h' => h' = h := by
  obtain ⟨t, -, hk, hft⟩ := hmd.fieldType hf
  refine Meets.bind (narrow_meets _ v) ?_
  rintro w h ⟨rfl, hw⟩
  exact ⟨t, w, hft, hk ▸ hw, setStatic_written f.handle w⟩

/-! ## Operations that read -/

theorem constructs_getAs {α : Type} (r : Option Ref) (select : Object → Option α) :
    Constructs md (getAs r select) fun _ _ _ => True := by
  intro h
  have same : Grown md h h := .refl h
  exact (getAs_meets r select).mono (fun _ _ ha => ⟨ha.1 ▸ same, trivial⟩) fun _ _ hh => hh ▸ same

theorem constructs_unboxPointer (r : Option Ref) (type : TypeSymbol) :
    Constructs md (unboxPointer r type) fun _ _ _ => True := by
  refine (constructs_getAs r _).bind fun a h h₁ hg _ => ?_
  dsimp only
  split
  · exact ⟨hg, trivial⟩
  · exact hg

theorem constructs_arrayLength (r : Option Ref) : Constructs md (arrayLength r) fun _ _ _ => True :=
  (constructs_getAs r _).bind fun _ _ _ hg _ => ⟨hg, trivial⟩

theorem constructs_sizeOf (type : TypeSymbol) : Constructs md (sizeOf md type) fun _ _ _ => True := by
  unfold sizeOf
  split
  · exact (constructs_orEndless _).bind fun _ _ _ hg _ => ⟨hg, trivial⟩
  · exact .pure fun _ => trivial

theorem constructs_elementSize (r : Option Ref) : Constructs md (elementSize md r) fun _ _ _ => True :=
  (constructs_getAs r _).bind fun _ _ _ hg _ => (constructs_sizeOf _).after hg fun _ _ _ _ => trivial

theorem constructs_loadElement (r : Option Ref) (index : Nat) (k : Kind) : Constructs md (loadElement r index k)
    fun h _ v => ∃ q w, r = some q ∧ h.at? (.inside q (.element index)) = some w ∧ k.coerce w = some v := by
  intro h
  have same : Grown md h h := .refl h
  unfold loadElement getArray
  refine Meets.bind ((getAs_meets r _).mono (fun _ _ ha => ha) fun _ _ hh => hh ▸ same) ?_
  rintro ⟨q, element, items⟩ h ⟨rfl, hr, o, ho, hs⟩
  cases o <;> cases hs
  dsimp only
  split
  · exact same
  · split
    · rename_i w hw
      refine (narrow_meets k w).mono ?_ fun _ _ hh => hh ▸ same
      rintro v h ⟨rfl, hv⟩
      exact ⟨same, q, w, hr, by simp [at?, ho, Object.slot?, hw], hv⟩
    · exact same

theorem constructs_loadBoxed (r : Option Ref) : Constructs md (loadBoxed r) fun h _ v =>
    ∃ q, r = some q ∧ h.at? (.inside q .content) = some v := by
  intro h
  have same : Grown md h h := .refl h
  refine Meets.bind ((getAs_meets r _).mono (fun _ _ ha => ha) fun _ _ hh => hh ▸ same) ?_
  rintro ⟨q, type, v⟩ h ⟨rfl, hr, o, ho, hs⟩
  cases o <;> cases hs
  exact ⟨same, q, hr, by simp [at?, ho, Object.slot?]⟩

theorem unbox_adds (r : Option Ref) (type : TypeSymbol) : Meets (unbox r type) h
    (fun v h' => ∃ q w, r = some q ∧ h.at? (.inside q .content) = some w ∧ ((copyValue w).run h).1 = .ok v ∧
      Adds (Copied h w) (fun _ => False) h h') fun _ h' => h' = h := by
  unfold unbox getBoxed
  refine Meets.bind (getAs_meets r _) ?_
  rintro ⟨q, held, w⟩ h ⟨rfl, hr, o, ho, hs⟩
  cases o <;> cases hs
  dsimp only
  split
  · refine (copyValue_adds w).with_run.mono ?_ fun _ _ hh => hh
    rintro v h' ⟨hrun, hcopy⟩
    exact ⟨q, w, hr, by simp [at?, ho, Object.slot?], congrArg Prod.fst hrun, hcopy⟩
  · exact rfl

/-- What loading a field gives: what the location holds or, where there is nothing yet, the zero of its type. -/
def Reads (md : Metadata) (l : Location) (h h' : Heap) (v : Value) : Prop :=
  h.at? l = some v ∨ h.at? l = none ∧ ∃ t, h.Declares md l t ∧ Zeroed t h h' v

theorem constructs_loadField (hmd : md.WellFormed) (r : Option Ref) {f : FieldSymbol} (hf : md.HasField f) :
    Constructs md (loadField md r f) fun h h' v => ∃ q, r = some q ∧ Reads md (.inside q (.field f.handle)) h h' v := by
  intro h
  have same : Grown md h h := .refl h
  unfold loadField getRecord
  refine Meets.bind ((getAs_meets r _).mono (fun _ _ ha => ha) fun _ _ hh => hh ▸ same) ?_
  rintro ⟨q, type, isValueType, fields⟩ h ⟨rfl, hr, o, ho, hs⟩
  cases o <;> cases hs
  dsimp only
  split
  · rename_i v hv
    exact ⟨same, q, hr, .inl (by simp [at?, ho, Object.slot?, hv])⟩
  · rename_i hn
    refine (constructs_fieldZero hmd hf h).mono ?_ fun _ _ hg => hg
    rintro v h' ⟨hg, t, ht, hz⟩
    exact ⟨hg, q, hr, .inr ⟨by simp [at?, ho, Object.slot?, hn], t, ⟨_, ho, ht⟩, hz⟩⟩

/-- A static field is made on its first use. -/
theorem constructs_loadStatic (hmd : md.WellFormed) {f : FieldSymbol} (hf : md.HasField f) :
    Constructs md (loadStatic md f) (Reads md (.static f.handle)) := by
  intro h
  refine Meets.get_bind ?_
  split
  · rename_i v hv
    exact ⟨.refl h, .inl hv⟩
  · rename_i hn
    refine Meets.bind (constructs_fieldZero hmd hf h) ?_
    rintro v h₁ ⟨hg, t, ht, hz⟩
    have hsame : h₁.Persists { h₁ with statics := insertEntry f.handle v h₁.statics } := fun _ _ ho => ho
    refine ⟨?_, .inr ⟨hn, t, ht, hz.widen (.refl h) hsame⟩⟩
    exact (hg.insertStatic hn ⟨t, ht, hz⟩).mono (fun o ho => ho.widen (.refl h) hsame) fun e he =>
      he.widen (.refl h) hsame

end Heap

end ManagedCode
