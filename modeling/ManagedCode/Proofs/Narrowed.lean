import ManagedCode.Proofs.Storage

/-!
# Storage holds what was narrowed to it

An item of an array, a field, a static field and the inside of a box each have a declared kind, and each holds the zero
of that kind or what the kind made of some value (`Kind.Holds`). The items of an array of references are moreover of
types that can stand for the element type. `Heap.Narrowed` says so of a whole heap; every operation keeps it, on
whatever values, and so do definitions that come later.
-/

namespace ManagedCode

namespace Kind

/-- The kind made the value of some value. -/
def Made (k : Kind) (v : Value) : Prop := ∃ u, k.coerce u = some v

/-- **A location of the kind may hold the value**: it is the kind's zero, or the kind made it of some value. -/
def Holds (k : Kind) (v : Value) : Prop := v = k.zero ∨ k.Made v

/-- The bounds of the numbers that a location of a short integer kind can hold. -/
def range? : Kind → Option (Int × Int)
  | .i1 => some (-128, 127)
  | .boolean | .u1 => some (0, 255)
  | .i2 => some (-32768, 32767)
  | .char | .u2 => some (0, 65535)
  | _ => none

/-- **A short integer stays inside its bounds**, however it was stored. -/
theorem Holds.in_range {k : Kind} {v : Value} {lo hi : Int} (h : k.Holds v) (hr : k.range? = some (lo, hi)) :
    ∃ n : BitVec 32, v = .int32 n ∧ lo ≤ n.toInt ∧ n.toInt ≤ hi := by
  have signed : ∀ {w : Nat} (b : BitVec w), w ≤ 32 →
      -2 ^ (w - 1) ≤ (b.signExtend 32).toInt ∧ (b.signExtend 32).toInt ≤ 2 ^ (w - 1) - 1 := by
    intro w b hw
    rw [BitVec.toInt_signExtend_of_le hw]
    exact ⟨b.le_toInt, Int.le_sub_one_of_lt b.toInt_lt⟩
  have unsigned : ∀ {w : Nat} (b : BitVec w), w < 32 →
      0 ≤ (b.zeroExtend 32).toInt ∧ (b.zeroExtend 32).toInt ≤ 2 ^ w - 1 := by
    intro w b hw
    have hlt := b.isLt
    have hpow : 2 ^ w ≤ 2 ^ 31 := Nat.pow_le_pow_right (by decide) (by omega)
    have hnat : (b.zeroExtend 32).toNat = b.toNat := BitVec.toNat_setWidth_of_le (by omega)
    rw [BitVec.toInt_eq_toNat_of_lt (by omega), hnat]
    exact ⟨Int.natCast_nonneg _, Int.le_sub_one_of_lt (by exact_mod_cast hlt)⟩
  rcases h with rfl | ⟨u, hu⟩
  · cases k <;> cases hr <;> exact ⟨0, rfl, by decide⟩
  · have made : ∀ {f : BitVec 64 → BitVec 32}, (u.bits?.map fun b => Value.int32 (f b)) = some v →
        (∀ b, lo ≤ (f b).toInt ∧ (f b).toInt ≤ hi) → ∃ n : BitVec 32, v = .int32 n ∧ lo ≤ n.toInt ∧ n.toInt ≤ hi := by
      intro f hf hbound
      obtain ⟨b, -, rfl⟩ := Option.map_eq_some_iff.1 hf
      exact ⟨f b, rfl, hbound b⟩
    cases k with
    | i1 | i2 => cases hr; exact made hu fun b => signed _ (by decide)
    | boolean | u1 | char | u2 => cases hr; exact made hu fun b => unsigned _ (by decide)
    | _ => cases hr

/-- A reference is stored as it is, or not at all. -/
theorem eq_of_coerce_object {k : Kind} {v : Value} {r : Option Ref} (h : k.coerce v = some (.object r)) :
    v = .object r := by
  have hbits : ∀ {f : BitVec 64 → Value}, (∀ b, f b ≠ .object r) → v.bits?.map f ≠ some (.object r) := by
    intro f hf hv
    obtain ⟨b, -, hb⟩ := Option.map_eq_some_iff.1 hv
    exact hf b hb
  cases k with
  | object | struct => cases v <;> simp_all [coerce]
  | r4 | r8 | byRef => cases v <;> simp [coerce] at h
  | _ => exact absurd h (hbits fun b => by simp)

end Kind

/-! ## What the tables say -/

namespace Metadata

variable {md md' : Metadata}

theorem Extends.base? (h : md.Extends md') {k b : TypeHandle} (hb : md.base? k = some b) : md'.base? k = some b := by
  unfold Metadata.base? typeRow? at hb ⊢
  split at hb
  · cases hb
  · rename_i hk
    obtain ⟨r, hr, hbase⟩ := Option.bind_eq_some_iff.1 hb
    rw [if_neg hk, h.types _ r hr]
    exact hbase

theorem Extends.walkBound_le (h : md.Extends md') : md.walkBound ≤ md'.walkBound := by
  have hsize : md.types.size ≤ md'.types.size := by
    refine Nat.le_of_not_lt fun hlt => ?_
    have hlast : md.types.size - 1 < md.types.size := by omega
    have hrow := h.types _ _ (Array.getElem?_eq_getElem hlast)
    have := (Array.getElem?_eq_some_iff.1 hrow).1
    omega
  simp only [walkBound]
  omega

/-- A walk along bases that found something finds it in larger tables too. -/
theorem Extends.firstUp {β : Type} {p : TypeHandle → Option β} {b : β} (h : md.Extends md') :
    ∀ {fuel fuel' : Nat} {k : TypeHandle}, md.firstUp p fuel k = some (some b) → fuel ≤ fuel' →
      md'.firstUp p fuel' k = some (some b)
  | 0, _, _, hf, _ => by cases hf
  | fuel + 1, 0, _, _, hle => by omega
  | fuel + 1, fuel' + 1, k, hf, hle => by
    rw [Metadata.firstUp] at hf ⊢
    cases hp : p k with
    | some c =>
      rw [hp] at hf
      exact hf
    | none =>
      rw [hp] at hf
      cases hb : md.base? k with
      | none => simp [hb] at hf
      | some base =>
        simp only [hb] at hf
        simp only [h.base? hb]
        exact h.firstUp hf (by omega)

/-- **What could stand for a type still can** when more is defined. -/
theorem Extends.isAssignable? (h : md.Extends md') {s t : TypeHandle} (hs : md.isAssignable? s t = some true) :
    md'.isAssignable? s t = some true := by
  obtain ⟨o, ho, hsome⟩ := Option.map_eq_some_iff.1 hs
  obtain ⟨u, rfl⟩ := Option.isSome_iff_exists.1 hsome
  exact Option.map_eq_some_iff.2 ⟨some u, h.firstUp ho h.walkBound_le, rfl⟩

/-- A type that is no value type stores references. -/
theorem WellFormed.kind_of_hasType (h : md.WellFormed) {t : TypeSymbol} (ht : md.HasType t)
    (hv : t.isValueType = false) : t.kind = .object := by
  unfold HasType Metadata.typeSymbol? typeRow? at ht
  split at ht
  · cases ht
  · obtain ⟨r, hr, hsymbol⟩ := Option.map_eq_some_iff.1 ht
    have hrow := (h.types _ r hr).2
    rw [hsymbol] at hrow
    exact hrow hv

/-- An entry of a record or of the static fields: a field of the tables, with what its kind may hold. -/
def Stores (md : Metadata) (e : FieldHandle × Value) : Prop := ∃ f, md.HasField f ∧ f.handle = e.1 ∧ f.kind.Holds e.2

theorem Stores.extends {e : FieldHandle × Value} (h : md.Stores e) (he : md.Extends md') : md'.Stores e := by
  obtain ⟨f, hf, hk, hv⟩ := h
  exact ⟨f, he.hasField hf, hk, hv⟩

theorem Stores.holds {f : FieldSymbol} {v : Value} (h : md.Stores (f.handle, v)) (hf : md.HasField f) :
    f.kind.Holds v := by
  obtain ⟨g, hg, hk, hv⟩ := h
  cases hg.unique hf hk
  exact hv

theorem Stores.insert {f : FieldSymbol} {v : Value} {entries : List (FieldHandle × Value)}
    (h : ∀ e ∈ entries, md.Stores e) (hf : md.HasField f) (hv : f.kind.Holds v) :
    ∀ e ∈ insertEntry f.handle v entries, md.Stores e := by
  intro e he
  rcases mem_insertEntry he with rfl | he
  · exact ⟨f, hf, rfl, hv⟩
  · exact h e he

end Metadata

/-! ## The invariant -/

/-- The object exists, and its type can stand where `t` is expected. -/
def Heap.IsA (md : Metadata) (h : Heap) (r : Ref) (t : TypeHandle) : Prop :=
  ∃ s, h.typeOf? (some r) = some s ∧ md.isAssignable? s t = some true

/-- What an object holds was narrowed to where it stands, and what an array of references holds may stand there. -/
def Object.Narrowed (md : Metadata) (h : Heap) : Object → Prop
  | array element items => ∀ v ∈ items, element.kind.Holds v ∧
      (element.isValueType = false → ∀ r, v = .object (some r) → h.IsA md r element.handle)
  | record _ _ fields => ∀ e ∈ fields, md.Stores e
  | boxed type v => ∃ t, md.typeSymbol? type = some t ∧ t.kind.Holds v
  | _ => True

/-- **Every location holds what was narrowed to its kind.** -/
structure Heap.Narrowed (md : Metadata) (h : Heap) : Prop where
  objects : ∀ r o, h.get? r = some o → o.Narrowed md h
  statics : ∀ e ∈ h.statics, md.Stores e

/-- Objects keep their types. -/
def Heap.SameTypes (h h' : Heap) : Prop := ∀ r t, h.typeOf? (some r) = some t → h'.typeOf? (some r) = some t

section

variable {md md' : Metadata} {h h' : Heap} {o : Object}

theorem Heap.IsA.mono {r : Ref} {t : TypeHandle} (hr : h.IsA md r t) (hs : h.SameTypes h') : h'.IsA md r t := by
  obtain ⟨s, htype, ha⟩ := hr
  exact ⟨s, hs r s htype, ha⟩

theorem Object.Narrowed.mono (ho : o.Narrowed md h) (hs : h.SameTypes h') : o.Narrowed md h' := by
  cases o with
  | array element items => exact fun v hv => ⟨(ho v hv).1, fun he r hr => ((ho v hv).2 he r hr).mono hs⟩
  | _ => exact ho

theorem Object.Narrowed.extends (ho : o.Narrowed md h) (he : md.Extends md') : o.Narrowed md' h := by
  cases o with
  | array element items =>
    intro v hv
    refine ⟨(ho v hv).1, fun hc r hr => ?_⟩
    obtain ⟨s, htype, ha⟩ := (ho v hv).2 hc r hr
    exact ⟨s, htype, he.isAssignable? ha⟩
  | record type isValueType fields => exact fun e hm => (ho e hm).extends he
  | boxed type v =>
    obtain ⟨t, ht, hv⟩ := ho
    exact ⟨t, he.typeSymbol? ht, hv⟩
  | _ => trivial

/-- **Later definitions do not disturb what is stored.** -/
theorem Heap.Narrowed.extends (hn : h.Narrowed md) (he : md.Extends md') : h.Narrowed md' where
  objects := fun r o ho => (hn.objects r o ho).extends he
  statics := fun e hm => (hn.statics e hm).extends he

end

/-! ## Operations -/

namespace Heap

variable {md : Metadata} {h : Heap} {α : Type}

theorem get?_place {o o' : Object} {r : Ref} (ho : ((place o).run h).2.get? r = some o') :
    h.get? r = some o' ∨ o' = o := (Metadata.getElem?_push ho).imp_right And.right

theorem get?_place_of_some {o o' : Object} {r : Ref} (ho : h.get? r = some o') :
    ((place o).run h).2.get? r = some o' := Metadata.getElem?_push_of_some ho

theorem Narrowed.place {o : Object} (hn : h.Narrowed md) (ho : o.Narrowed md h) :
    ((place o).run h).2.Narrowed md := by
  have hs : h.SameTypes ((Heap.place o).run h).2 := by
    intro r t ht
    obtain ⟨o', ho', rfl⟩ := Option.map_eq_some_iff.1 ht
    exact Option.map_eq_some_iff.2 ⟨o', get?_place_of_some ho', rfl⟩
  refine ⟨fun r o' ho' => ?_, hn.statics⟩
  rcases get?_place ho' with ho' | rfl
  · exact (hn.objects r o' ho').mono hs
  · exact ho.mono hs

theorem maintains_allocate {o : Object} (ho : ∀ h, o.Narrowed md h) :
    Maintains (Narrowed md) (allocate o) fun _ => True := by
  intro h hn
  refine (allocate_meets o).mono ?_ fun _ _ hh => hh ▸ hn
  rintro _ _ ⟨-, rfl⟩
  have hcount : Narrowed md { h with allocated := h.allocated + 1 } :=
    ⟨fun r o' ho' => (hn.objects r o' ho').mono fun _ _ ht => ht, hn.statics⟩
  exact ⟨trivial, hcount.place (ho _)⟩

/-- An object is replaced by one of its type. -/
theorem Narrowed.replace {o o' : Object} {r : Ref} (hn : h.Narrowed md) (hr : h.get? r = some o)
    (ho : o'.Narrowed md h) (htype : o'.type = o.type) :
    Meets (replace r o') h (fun _ h' => h'.Narrowed md) fun _ h' => h'.Narrowed md := by
  have hlt : r.id < h.objects.size := (Array.getElem?_eq_some_iff.1 hr).1
  have hget : ∀ q, Heap.get? { h with objects := h.objects.setIfInBounds r.id o' } q =
      if r = q then some o' else h.get? q := by
    intro q
    unfold Heap.get?
    rw [Array.getElem?_setIfInBounds]
    by_cases hq : r = q
    · subst hq
      simp [hlt]
    · simp [hq, id_ne hq]
  have hs : h.SameTypes { h with objects := h.objects.setIfInBounds r.id o' } := by
    intro q t ht
    obtain ⟨o₁, ho₁, rfl⟩ := Option.map_eq_some_iff.1 ht
    have ho₁ : h.get? q = some o₁ := ho₁
    by_cases hq : r = q
    · subst hq
      cases hr.symm.trans ho₁
      simp [typeOf?, hget, htype]
    · simp [typeOf?, hget, hq, ho₁]
  refine ⟨fun q o₁ ho₁ => ?_, hn.statics⟩
  rw [hget] at ho₁
  by_cases hq : r = q
  · rw [if_pos hq] at ho₁
    cases ho₁
    exact ho.mono hs
  · rw [if_neg hq] at ho₁
    exact (hn.objects q o₁ ho₁).mono hs

theorem maintains_narrow (k : Kind) (v : Value) : Maintains (Narrowed md) (narrow k v) fun w => k.Holds w := by
  intro h hn
  refine (narrow_meets k v).mono ?_ fun _ _ hh => hh ▸ hn
  rintro w _ ⟨rfl, hw⟩
  exact ⟨.inr ⟨v, hw⟩, hn⟩

theorem maintains_copyValue (v : Value) : Maintains (Narrowed md) (copyValue v) fun _ => True := by
  unfold copyValue
  split
  · refine .get_bind fun h hn => ?_
    split
    · rename_i r type fields ho
      have hfields : ∀ h, (Object.record type true fields).Narrowed md h := fun _ => hn.objects _ _ ho
      exact (maintains_allocate hfields).bind fun _ _ => .pure trivial
    · exact .pure trivial
  · exact .pure trivial

/-! ## Construction -/

section Construction

variable (hmd : md.WellFormed)
include hmd

theorem maintains_newInstanceWithin : ∀ (fuel : Nat) (type : TypeSymbol),
    Maintains (Narrowed md) (newInstanceWithin md fuel type) fun _ => True
  | 0, _ => .throw
  | fuel + 1, type => by
    unfold newInstanceWithin
    refine (maintains_orEndless _).bind fun fields hfields => ?_
    refine Maintains.bind (P := fun values => ∀ e ∈ values, md.Stores e) (.mapM fun f hf => ?_) fun values hv =>
      maintains_allocate fun _ => hv
    have hfield : md.HasField f := hmd.hasField_of_instance hfields hf
    obtain ⟨t, ht, hk⟩ := hmd.typeOfField hfield
    simp only [ht]
    split
    · rename_i hs
      -- a structure inside the instance is constructed first
      refine (maintains_newInstanceWithin fuel t).bind fun r _ => .pure ⟨f, hfield, rfl, .inr ⟨.object (some r), ?_⟩⟩
      rw [← hk, hs]
      rfl
    · exact .pure ⟨f, hfield, rfl, .inl (by rw [hk])⟩

theorem maintains_newInstance (type : TypeSymbol) : Maintains (Narrowed md) (newInstance md type) fun _ => True :=
  .get_bind fun _ _ => maintains_newInstanceWithin hmd _ type

theorem maintains_zeroOf (type : TypeSymbol) : Maintains (Narrowed md) (zeroOf md type) fun v =>
    type.kind.Holds v ∧ (type.kind = .object → v = .null) := by
  unfold zeroOf
  split
  · rename_i hs
    refine (maintains_newInstance hmd type).bind fun r _ => .pure ⟨.inr ⟨.object (some r), ?_⟩, ?_⟩
    · rw [hs]
      rfl
    · rw [hs]
      nofun
  · refine .pure ⟨.inl rfl, fun hk => ?_⟩
    rw [hk]
    rfl

theorem maintains_fieldZero {f : FieldSymbol} (hf : md.HasField f) :
    Maintains (Narrowed md) (fieldZero md f) fun v => f.kind.Holds v := by
  unfold fieldZero
  obtain ⟨t, ht, hk⟩ := hmd.typeOfField hf
  rw [ht, ← hk]
  exact (maintains_zeroOf hmd t).mono fun _ hv => hv.1

theorem maintains_fill (element : TypeSymbol) {Q : Value → Prop}
    (hQ : ∀ v, element.kind.Holds v ∧ (element.kind = .object → v = .null) → Q v) :
    ∀ (count : Nat) (items : Array Value), (∀ v ∈ items, Q v) → Maintains (Narrowed md) (fill md element count items) fun items' => ∀ v ∈ items', Q v
  | 0, items, hi => .pure hi
  | count + 1, items, hi => by
    refine (maintains_zeroOf hmd element).bind fun v hv => maintains_fill element hQ count _ fun u hu => ?_
    rcases Array.mem_push.1 hu with hu | rfl
    · exact hi u hu
    · exact hQ u hv

theorem maintains_newArray {element : TypeSymbol} (he : md.HasType element) (length : Nat) :
    Maintains (Narrowed md) (newArray md element length) fun _ => True := by
  have hzero : ∀ v, element.kind.Holds v ∧ (element.kind = .object → v = .null) →
      element.kind.Holds v ∧ (element.isValueType = false → v = .null) :=
    fun v hv => ⟨hv.1, fun hc => hv.2 (hmd.kind_of_hasType he hc)⟩
  have hfill := maintains_fill hmd element hzero length #[] fun v hv => absurd hv (Array.not_mem_empty v)
  refine hfill.bind fun items hi => maintains_allocate fun h v hv => ⟨(hi v hv).1, fun hc r hr => ?_⟩
  rw [(hi v hv).2 hc] at hr
  cases hr

end Construction

/-! ## Stores -/

theorem maintains_box {type : TypeSymbol} (htype : md.HasType type) (v : Value) :
    Maintains (Narrowed md) (box type v) fun _ => True := by
  unfold box
  split
  · refine (maintains_copyValue v).bind fun u _ => (maintains_narrow type.kind u).bind fun w hw => ?_
    have hboxed : ∀ h, (Object.boxed type.handle w).Narrowed md h := fun _ => ⟨type, htype, hw⟩
    exact (maintains_allocate hboxed).bind fun _ _ => .pure trivial
  · split
    · exact .pure trivial
    · exact .throw

theorem maintains_unbox (r : Option Ref) (type : TypeSymbol) :
    Maintains (Narrowed md) (unbox r type) fun _ => True := by
  unfold unbox getBoxed
  intro h hn
  refine Meets.bind ((getAs_meets r _).mono (fun _ _ ha => ha) fun _ _ hh => hh ▸ hn) ?_
  rintro ⟨_, held, v⟩ _ ⟨rfl, -⟩
  dsimp only
  split
  · exact maintains_copyValue v _ hn
  · exact hn

theorem maintains_storeBoxed (r : Option Ref) (v : Value) :
    Maintains (Narrowed md) (storeBoxed md r v) fun _ => True := by
  unfold storeBoxed getBoxed
  intro h hn
  refine Meets.bind ((getAs_meets r _).mono (fun _ _ ha => ha) fun _ _ hh => hh ▸ hn) ?_
  rintro ⟨q, type, u⟩ h ⟨rfl, -, o, ho, hs⟩
  cases o <;> cases hs
  obtain ⟨t, ht, -⟩ := hn.objects q _ ho
  refine Meets.bind ((narrow_meets _ v).mono (fun _ _ ha => ha) fun _ _ hh => hh ▸ hn) ?_
  rintro w h ⟨rfl, hw⟩
  simp only [ht, Option.map_some, Option.getD_some] at hw
  have hboxed : (Object.boxed type w).Narrowed md h := ⟨t, ht, .inr ⟨v, hw⟩⟩
  exact (hn.replace ho hboxed rfl).mono (fun _ _ hh => ⟨trivial, hh⟩) fun _ _ hh => hh

/-- A value that an array of references admits is null or may stand there. -/
theorem admits_meets (element : TypeSymbol) (v : Value) : Meets (admits md element v) h
    (fun b h' => h' = h ∧ (b = true → element.isValueType = false → ∀ r s, v = .object (some r) →
      h.typeOf? (some r) = some s → md.isAssignable? s element.handle = some true)) fun _ h' => h' = h := by
  unfold admits
  split
  · rename_i r
    refine Meets.get_bind ?_
    split
    · rename_i actual hactual
      by_cases hc : element.isValueType = true
      · rw [if_pos hc]
        exact ⟨rfl, fun _ hc' => by simp [hc] at hc'⟩
      · rw [if_neg hc]
        cases ha : md.isAssignable? actual element.handle with
        | none => exact rfl
        | some b =>
          refine ⟨rfl, fun hb _ q s hq hs => ?_⟩
          cases hq
          cases hactual.symm.trans hs
          rw [ha, hb]
    · rename_i hnone
      refine ⟨rfl, fun _ _ q s hq hs => ?_⟩
      cases hq
      cases hnone.symm.trans hs
  · rename_i hv
    exact ⟨rfl, fun _ _ q s hq _ => absurd hq (hv (some q))⟩

/-- **A store into an array** narrows the value to the element kind, after it was checked where the array is one of
references. The value has to be one that there is: a reference to nothing has no type to check. -/
theorem storeElement_narrowed (hn : h.Narrowed md) (r : Option Ref) (index : Nat) (k : Kind) {v : Value}
    (hv : ∀ q, v = .object (some q) → (h.get? q).isSome = true) :
    Meets (storeElement md r index k v) h (fun _ h' => h'.Narrowed md) fun _ h' => h'.Narrowed md := by
  unfold storeElement getArray
  refine Meets.bind ((getAs_meets r _).mono (fun _ _ ha => ha) fun _ _ hh => hh ▸ hn) ?_
  rintro ⟨q, element, items⟩ h ⟨rfl, -, o, ho, hs⟩
  cases o <;> cases hs
  have hitems := hn.objects q _ ho
  dsimp only
  split
  · exact hn
  · refine Meets.bind ((admits_meets element v).mono (fun _ _ ha => ha) fun _ _ hh => hh ▸ hn) ?_
    rintro b h ⟨rfl, hadmits⟩
    split
    · exact hn
    · rename_i hb
      refine Meets.bind ((narrow_meets _ v).mono (fun _ _ ha => ha) fun _ _ hh => hh ▸ hn) ?_
      rintro w h ⟨rfl, hw⟩
      split
      · refine hn.replace ho (fun u hu => ?_) rfl
        rcases Array.mem_or_eq_of_mem_setIfInBounds hu with hu | rfl
        · exact hitems u hu
        · refine ⟨.inr ⟨v, hw⟩, fun hc r hr => ?_⟩
          have hvr : v = .object (some r) := Kind.eq_of_coerce_object (hr ▸ hw)
          obtain ⟨o, ho⟩ := Option.isSome_iff_exists.1 (hv r hvr)
          have htype : h.typeOf? (some r) = some o.type := by simp [typeOf?, ho]
          exact ⟨o.type, htype, hadmits (by simpa using hb) hc r o.type hvr htype⟩
      · exact hn

theorem maintains_loadField (hmd : md.WellFormed) (r : Option Ref) {f : FieldSymbol} (hf : md.HasField f) :
    Maintains (Narrowed md) (loadField md r f) fun _ => True := by
  unfold loadField getRecord
  intro h hn
  refine Meets.bind ((getAs_meets r _).mono (fun _ _ ha => ha) fun _ _ hh => hh ▸ hn) ?_
  rintro ⟨_, _, _, fields⟩ _ ⟨rfl, -⟩
  dsimp only
  split
  · exact ⟨trivial, hn⟩
  · exact ((maintains_fieldZero hmd hf).mono fun _ _ => trivial) _ hn

theorem maintains_storeField (r : Option Ref) {f : FieldSymbol} (hf : md.HasField f) (v : Value) :
    Maintains (Narrowed md) (storeField r f v) fun _ => True := by
  unfold storeField getRecord
  intro h hn
  refine Meets.bind ((getAs_meets r _).mono (fun _ _ ha => ha) fun _ _ hh => hh ▸ hn) ?_
  rintro ⟨q, type, isValueType, fields⟩ h ⟨rfl, -, o, ho, hs⟩
  cases o <;> cases hs
  refine Meets.bind ((narrow_meets _ v).mono (fun _ _ ha => ha) fun _ _ hh => hh ▸ hn) ?_
  rintro w h ⟨rfl, hw⟩
  have hfields : (Object.record type isValueType (insertEntry f.handle w fields)).Narrowed md h :=
    Metadata.Stores.insert (hn.objects q _ ho) hf (.inr ⟨v, hw⟩)
  exact (hn.replace ho hfields rfl).mono (fun _ _ hh => ⟨trivial, hh⟩) fun _ _ hh => hh

theorem maintains_setStatic {f : FieldSymbol} {v : Value} (hf : md.HasField f) (hv : f.kind.Holds v) : Maintains
    (Narrowed md) (modify fun h => { h with statics := insertEntry f.handle v h.statics } : HeapM Unit) fun _ => True :=
  .modify fun _ hn => ⟨fun r o ho => (hn.objects r o ho).mono fun _ _ ht => ht, .insert hn.statics hf hv⟩

theorem maintains_loadStatic (hmd : md.WellFormed) {f : FieldSymbol} (hf : md.HasField f) :
    Maintains (Narrowed md) (loadStatic md f) fun _ => True := by
  refine .get_bind fun h hn => ?_
  split
  · exact .pure trivial
  · refine (maintains_fieldZero hmd hf).bind fun v hv => ?_
    exact (maintains_setStatic hf hv).bind fun _ _ => .pure trivial

theorem maintains_storeStatic {f : FieldSymbol} (hf : md.HasField f) (v : Value) :
    Maintains (Narrowed md) (storeStatic f v) fun _ => True :=
  (maintains_narrow f.kind v).bind fun _ hw => maintains_setStatic hf hw

/-! ## Heaps that come about -/

/-- **The operations of a heap that change it**, on types and fields of the tables and on any values. A value that is
stored into an array names an object of the heap, if it names one. -/
inductive Performs (md : Metadata) (h : Heap) : {α : Type} → HeapM α → Prop where
  | newString (s : String) : Performs md h (newString s)
  | newHandle (s : Symbol) : Performs md h (newHandle s)
  | newInstance (type : TypeSymbol) : Performs md h (newInstance md type)
  | newArray {element : TypeSymbol} (length : Nat) : md.HasType element → Performs md h (newArray md element length)
  | newException (k : FaultKind) (message : String) : Performs md h (ExceptT.lift (newException md k message))
  | copyValue (v : Value) : Performs md h (copyValue v)
  | box {type : TypeSymbol} (v : Value) : md.HasType type → Performs md h (box type v)
  | unbox (r : Option Ref) (type : TypeSymbol) : Performs md h (unbox r type)
  | storeBoxed (r : Option Ref) (v : Value) : Performs md h (storeBoxed md r v)
  | storeElement (r : Option Ref) (index : Nat) (k : Kind) {v : Value} :
      (∀ q, v = .object (some q) → (h.get? q).isSome = true) → Performs md h (storeElement md r index k v)
  | loadField (r : Option Ref) {f : FieldSymbol} : md.HasField f → Performs md h (loadField md r f)
  | storeField (r : Option Ref) {f : FieldSymbol} (v : Value) : md.HasField f → Performs md h (storeField r f v)
  | loadStatic {f : FieldSymbol} : md.HasField f → Performs md h (loadStatic md f)
  | storeStatic {f : FieldSymbol} (v : Value) : md.HasField f → Performs md h (storeStatic f v)

/-- **The heaps that come about** with tables that are still being defined: empty at first, then whatever operations
make of them, whether these succeed or fail. -/
inductive ComesAbout : Metadata → Heap → Prop where
  | empty {md : Metadata} (limit : Option Nat) : md.Defined → ComesAbout md { limit }
  | performed {md : Metadata} {h : Heap} {α : Type} {x : HeapM α} : ComesAbout md h → Performs md h x →
      ComesAbout md (x.run h).2
  | defined {md md' : Metadata} {h : Heap} : ComesAbout md h → md.Defines md' → ComesAbout md' h

theorem ComesAbout.isDefined (hc : ComesAbout md h) : md.Defined := by
  induction hc with
  | empty limit hd => exact hd
  | performed _ _ ih => exact ih
  | defined _ hd ih => exact .defines ih hd

/-- **One operation** leaves narrowed what was narrowed. -/
theorem Performs.narrowed {x : HeapM α} (hmd : md.WellFormed) (hn : h.Narrowed md) (hx : Performs md h x) :
    (x.run h).2.Narrowed md := by
  cases hx with
  | newString s => exact (maintains_allocate (o := .string s) fun _ => trivial).run hn
  | newHandle s => exact (maintains_allocate (o := .handle s) fun _ => trivial).run hn
  | newInstance type => exact (maintains_newInstance hmd type).run hn
  | newArray length he => exact (maintains_newArray hmd he length).run hn
  | newException k message => exact hn.place trivial
  | copyValue v => exact (maintains_copyValue v).run hn
  | box v ht => exact (maintains_box ht v).run hn
  | unbox r type => exact (maintains_unbox r type).run hn
  | storeBoxed r v => exact (maintains_storeBoxed r v).run hn
  | storeElement r index k hv => exact (storeElement_narrowed hn r index k hv).state
  | loadField r hf => exact (maintains_loadField hmd r hf).run hn
  | storeField r v hf => exact (maintains_storeField r hf v).run hn
  | loadStatic hf => exact (maintains_loadStatic hmd hf).run hn
  | storeStatic v hf => exact (maintains_storeStatic hf v).run hn

theorem ComesAbout.narrowed (hc : ComesAbout md h) : h.Narrowed md := by
  induction hc with
  | empty limit hd => exact ⟨(fun r o ho => by cases ho), fun e he => by cases he⟩
  | performed hc hx ih => exact hx.narrowed hc.isDefined.wellFormed ih
  | defined _ hd ih => exact ih.extends hd.extends

/-- **Every location holds the zero of its declared kind or what that kind made of some value**, whatever operations
led to the heap and whatever was defined meanwhile; and what an array of references holds is of a type that can stand
for the element type. -/
theorem locations_hold_declared_kinds (hc : ComesAbout md h) :
    (∀ r element items, h.get? r = some (.array element items) → ∀ v ∈ items, element.kind.Holds v ∧
      (element.isValueType = false → ∀ q, v = .object (some q) → h.IsA md q element.handle)) ∧
    (∀ r type isValueType fields, h.get? r = some (.record type isValueType fields) → ∀ e ∈ fields, md.Stores e) ∧
    (∀ e ∈ h.statics, md.Stores e) ∧
    (∀ r type v, h.get? r = some (.boxed type v) → ∃ t, md.typeSymbol? type = some t ∧ t.kind.Holds v) :=
  ⟨fun r _ _ ho => hc.narrowed.objects r _ ho, fun r _ _ _ ho => hc.narrowed.objects r _ ho, hc.narrowed.statics,
    fun r _ _ ho => hc.narrowed.objects r _ ho⟩

def objectType : TypeSymbol := ⟨Core.object, "System.Object", .object, false⟩

def byteType : TypeSymbol := ⟨⟨19⟩, "System.SByte", .i1, true⟩

theorem core_hasType : Metadata.core.HasType objectType ∧ Metadata.core.HasType byteType := by
  unfold Metadata.HasType
  decide +kernel

/-- An array of two objects, a string that is stored into it, and a box of a number that a signed byte cannot hold. -/
def assorted : Heap :=
  let h := ((newArray .core objectType 2).run {}).2
  let h := ((newString "a").run h).2
  let h := ((storeElement .core (some ⟨0⟩) 0 .object (.object (some ⟨1⟩))).run h).2
  ((box byteType (.int32 300)).run h).2

theorem comesAbout_assorted : ComesAbout .core assorted := by
  refine .performed (.performed (.performed (.performed (.empty none .core) (.newArray 2 core_hasType.1))
    (.newString "a")) (.storeElement (some ⟨0⟩) 0 .object fun q hq => ?_)) (.box (.int32 300) core_hasType.2)
  cases hq
  decide +kernel

/-- The string stands in the array as an object, and the box holds what a signed byte keeps of the number. -/
theorem assorted_hold_declared_kinds :
    assorted.get? ⟨0⟩ = some (.array objectType #[.object (some ⟨1⟩), .null]) ∧
      assorted.IsA .core ⟨1⟩ Core.object ∧
      assorted.get? ⟨2⟩ = some (.boxed byteType.handle (.int32 44)) ∧ Kind.i1.Holds (.int32 44) := by
  have hitems : assorted.get? ⟨0⟩ = some (.array objectType #[.object (some ⟨1⟩), .null]) := by decide +kernel
  have hbox : assorted.get? ⟨2⟩ = some (.boxed byteType.handle (.int32 44)) := by decide +kernel
  obtain ⟨harray, -, -, hboxed⟩ := locations_hold_declared_kinds comesAbout_assorted
  obtain ⟨t, ht, hv⟩ := hboxed _ _ _ hbox
  cases core_hasType.2.symm.trans ht
  exact ⟨hitems, (harray _ _ _ hitems (.object (some ⟨1⟩)) (by simp)).2 rfl _ rfl, hbox, hv⟩

end Heap

end ManagedCode
