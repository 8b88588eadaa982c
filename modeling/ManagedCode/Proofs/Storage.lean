import ManagedCode.Proofs.Endings
import ManagedCode.Proofs.Extends

/-!
# What storage holds

Every typed location (a slot, a field, a static field, the inside of a box) holds a value that fits its kind: storing
narrows to the kind, and a fresh location holds its zero. `Heap.Typed` says so of a whole heap, and every operation of
the heap keeps it. Pointers into fields carry the symbol of the field, whose kind decides what is stored through them;
`Value.Proper` says that such a symbol is the one of the tables.
-/

namespace ManagedCode

/-! ## Values that fit a type -/

namespace Value

/-- **The value may stand where a type is expected**: its tag is the type, or it is a native integer or null where a
pointer is expected. -/
def Fits (v : Value) (t : StackType) : Prop :=
  v.stackType = t ∨ (t = .pointer ∧ (v.stackType = .nativeInt ∨ v = .null))

instance (v : Value) (t : StackType) : Decidable (v.Fits t) := inferInstanceAs (Decidable (_ ∨ _))

theorem Fits.eq {v : Value} {t : StackType} (h : v.Fits t) (ht : t ≠ .pointer) : v.stackType = t :=
  h.resolve_right fun hp => ht hp.1

end Value

namespace Kind

theorem fits_zero (k : Kind) : k.zero.Fits k.stackType := by
  cases k <;> decide

/-- What a location of a kind stores fits the kind. -/
theorem fits_coerce {k : Kind} {v w : Value} (h : k.coerce v = some w) : w.Fits k.stackType := by
  have hbits : ∀ {f : BitVec 64 → Value} {t : StackType}, (∀ b, (f b).stackType = t) → v.bits?.map f = some w →
      w.Fits t := by
    intro f t hf hw
    obtain ⟨b, -, rfl⟩ := Option.map_eq_some_iff.1 hw
    exact .inl (hf b)
  cases k with
  | r4 => cases v <;> cases h; exact .inl rfl
  | r8 => cases v <;> cases h; exact .inl rfl
  | object => cases v <;> cases h; exact .inl rfl
  | struct => cases v <;> cases h; exact .inl rfl
  | byRef =>
    cases v with
    | pointer p => cases h; exact .inl rfl
    | nativeInt n => cases h; exact .inr ⟨rfl, .inl rfl⟩
    | _ => cases h
  | _ => exact hbits (fun _ => rfl) h

end Kind

/-! ## Well-formed tables -/

namespace Metadata

variable {md md' : Metadata}

/-- The field is the one that the tables have under its handle. -/
def HasField (md : Metadata) (f : FieldSymbol) : Prop := f.handle.id ≠ 0 ∧ md.fields[f.handle.id - 1]? = some f

/-- The type is the one that the tables have under its handle. -/
def HasType (md : Metadata) (t : TypeSymbol) : Prop := md.typeSymbol? t.handle = some t

/-- The method is the one that the tables have under its handle, but for its body. -/
def HasMethod (md : Metadata) (m : MethodSymbol) : Prop := ∃ b, md.methodSymbol? m.handle = some { m with body := b }

/-- **Every row stands where its handle says**, only classes are no value types, and a field has the kind of its
type. -/
structure WellFormed (md : Metadata) : Prop where
  types : ∀ (i : Nat) r, md.types[i]? = some r →
    r.symbol.handle.id = i + 1 ∧ (r.symbol.isValueType = false → r.symbol.kind = .object)
  fields : ∀ (i : Nat) f, md.fields[i]? = some f →
    f.handle.id = i + 1 ∧ ∃ t, md.typeSymbol? f.type = some t ∧ t.kind = f.kind
  methods : ∀ (i : Nat) m, md.methods[i]? = some m → m.handle.id = i + 1

/-- **The tables that definitions make** out of the core. -/
inductive Defined : Metadata → Prop where
  | core : Defined .core
  | defines {md md' : Metadata} : Defined md → md.Defines md' → Defined md'

theorem Extends.typeSymbol? (h : md.Extends md') {k : TypeHandle} {t : TypeSymbol} (ht : md.typeSymbol? k = some t) :
    md'.typeSymbol? k = some t := by
  unfold Metadata.typeSymbol? typeRow? at ht ⊢
  split at ht
  · cases ht
  · rename_i hk
    rw [if_neg hk]
    obtain ⟨r, hr, rfl⟩ := Option.map_eq_some_iff.1 ht
    rw [h.types _ r hr]
    rfl

theorem Extends.hasField (h : md.Extends md') {f : FieldSymbol} (hf : md.HasField f) : md'.HasField f :=
  ⟨hf.1, h.fields _ f hf.2⟩

theorem Extends.hasMethod (h : md.Extends md') {m : MethodSymbol} (hm : md.HasMethod m) : md'.HasMethod m := by
  obtain ⟨b, hb⟩ := hm
  unfold methodSymbol? at hb
  split at hb
  · cases hb
  · rename_i hid
    obtain ⟨b', hb'⟩ := h.methods _ _ hb
    refine ⟨b', ?_⟩
    rw [methodSymbol?, if_neg hid]
    exact hb'

theorem core_wellFormed : core.WellFormed where
  types := by
    have hall : core.types.toList.zipIdx.all (fun e => e.1.symbol.handle.id = e.2 + 1 ∧
        (e.1.symbol.isValueType = false → e.1.symbol.kind = .object)) = true := by decide +kernel
    intro i r hr
    have hmem : (r, i) ∈ core.types.toList.zipIdx := by
      rw [List.mem_zipIdx_iff_getElem?, Array.getElem?_toList]
      exact hr
    exact of_decide_eq_true (List.all_eq_true.1 hall _ hmem)
  fields := fun i f hf => by cases hf
  methods := by
    intro i m hm
    have hsize : i < 2 := (Array.getElem?_eq_some_iff.1 hm).1
    have hi : i = 0 ∨ i = 1 := by omega
    rcases hi with rfl | rfl
    · cases hm; rfl
    · cases hm; rfl

theorem getElem?_push {α : Type} {xs : Array α} {i : Nat} {a b : α} (h : (xs.push b)[i]? = some a) :
    xs[i]? = some a ∨ (i = xs.size ∧ a = b) := by
  rw [Array.getElem?_push] at h
  split at h
  · rename_i hi
    cases h
    exact .inr ⟨hi, rfl⟩
  · exact .inl h

/-- A token names a type under its own handle. -/
theorem WellFormed.hasType (h : md.WellFormed) {t : Token} {ty : TypeSymbol} (ht : md.resolveType t = .ok ty) :
    md.HasType ty := by
  unfold Metadata.resolveType at ht
  cases hr : rowOf md.types t Token.typeDef "type" with
  | error e => rw [hr] at ht; cases ht
  | ok r =>
    rw [hr] at ht
    cases ht
    obtain ⟨-, hz, hrow⟩ := rowOf_ok hr
    have hid := (h.types _ r hrow).1
    simp only [HasType, Metadata.typeSymbol?, typeRow?, hid, Nat.add_sub_cancel, hrow]
    rfl

/-- A class stores references. -/
theorem WellFormed.kind_class (h : md.WellFormed) {t : Token} {ty : TypeSymbol} (ht : md.resolveType t = .ok ty)
    (hv : ty.isValueType = false) : ty.kind = .object := by
  unfold Metadata.resolveType at ht
  cases hr : rowOf md.types t Token.typeDef "type" with
  | error e => rw [hr] at ht; cases ht
  | ok r =>
    rw [hr] at ht
    cases ht
    obtain ⟨-, -, hrow⟩ := rowOf_ok hr
    exact (h.types _ r hrow).2 hv

theorem WellFormed.hasField (h : md.WellFormed) {t : Token} {f : FieldSymbol} (hf : md.resolveField t = .ok f) :
    md.HasField f := by
  obtain ⟨-, hz, hrow⟩ := rowOf_ok hf
  have hid := (h.fields _ f hrow).1
  refine ⟨by omega, ?_⟩
  rw [hid, Nat.add_sub_cancel]
  exact hrow

theorem WellFormed.hasMethod (h : md.WellFormed) {t : Token} {m : MethodSymbol} (hm : md.resolveMethod t = .ok m) :
    md.HasMethod m := by
  obtain ⟨-, hz, hrow⟩ := rowOf_ok hm
  have hid := h.methods _ m hrow
  refine ⟨m.body, ?_⟩
  simp only [methodSymbol?, hid, Nat.add_sub_cancel, hrow]
  rfl

theorem WellFormed.hasMethod_of_handle (h : md.WellFormed) {k : MethodHandle} {m : MethodSymbol}
    (hm : md.methodOf k = .ok m) : md.HasMethod m ∧ m.handle = k := by
  unfold methodOf at hm
  split at hm
  · rename_i m' hm'
    cases hm
    unfold methodSymbol? at hm'
    split at hm'
    · cases hm'
    · rename_i hk
      have hid := h.methods _ m hm'
      have hmk : m.handle = k := by
        cases hmh : m.handle
        cases k
        rw [hmh] at hid
        dsimp only at hid hk ⊢
        congr 1
        omega
      subst hmk
      refine ⟨⟨m.body, ?_⟩, rfl⟩
      rw [methodSymbol?, if_neg hk]
      exact hm'
  · cases hm

/-- The implementation of a virtual method is a method of the tables. -/
theorem WellFormed.hasMethod_of_virtual (h : md.WellFormed) {m target : MethodSymbol} {type : TypeHandle}
    (ht : md.resolveVirtual m type = .ok target) : md.HasMethod target := by
  unfold resolveVirtual at ht
  split at ht
  · cases ht
  · split at ht
    · cases ht
    · exact (h.hasMethod_of_handle ht).1
    · exact (h.hasMethod_of_handle ht).1

theorem WellFormed.hasField_of_instance (h : md.WellFormed) {k : TypeHandle} {fields : List FieldSymbol}
    {f : FieldSymbol} (hk : md.instanceFields? k = some fields) (hf : f ∈ fields) : md.HasField f := by
  obtain ⟨chain, -, rfl⟩ := Option.map_eq_some_iff.1 hk
  obtain ⟨i, hi⟩ := List.mem_iff_getElem?.1 (List.mem_filter.1 hf).1
  rw [Array.getElem?_toList] at hi
  have hid := (h.fields i f hi).1
  refine ⟨by omega, ?_⟩
  rw [hid, Nat.add_sub_cancel]
  exact hi

/-- A field has a type of the tables, and its kind. -/
theorem WellFormed.typeOfField (h : md.WellFormed) {f : FieldSymbol} (hf : md.HasField f) :
    ∃ t, md.typeSymbol? f.type = some t ∧ t.kind = f.kind := (h.fields _ f hf.2).2

/-- A method of the tables has one signature. -/
theorem HasMethod.signature_eq {m m' : MethodSymbol} (h : md.HasMethod m) (h' : md.HasMethod m')
    (he : m.handle = m'.handle) : m.signature = m'.signature := by
  obtain ⟨b, hb⟩ := h
  obtain ⟨b', hb'⟩ := h'
  rw [he, hb'] at hb
  cases m
  cases m'
  cases hb
  rfl

/-- **Definitions keep the tables well formed.** -/
theorem Defines.wellFormed (hd : md.Defines md') (h : md.WellFormed) : md'.WellFormed := by
  have hext := hd.extends
  -- a field keeps its type, whatever is defined
  have hfields : ∀ (i : Nat) f, md.fields[i]? = some f →
      f.handle.id = i + 1 ∧ ∃ t, md'.typeSymbol? f.type = some t ∧ t.kind = f.kind := by
    intro i f hf
    obtain ⟨hid, t, ht, hk⟩ := h.fields i f hf
    exact ⟨hid, t, hext.typeSymbol? ht, hk⟩
  cases hd with
  | type name kind base =>
    refine ⟨fun i r hr => ?_, hfields, h.methods⟩
    rcases getElem?_push hr with hr | ⟨rfl, rfl⟩
    · exact h.types i r hr
    · refine ⟨rfl, fun hv => ?_⟩
      by_cases hk : kind = .object
      · exact hk
      · simp [hk] at hv
  | field hf =>
    obtain ⟨owner, ty, -, hty, rfl⟩ := defineField_ok hf
    refine ⟨h.types, fun i f hf => ?_, h.methods⟩
    rcases getElem?_push hf with hf | ⟨rfl, rfl⟩
    · exact h.fields i f hf
    · exact ⟨rfl, ty, h.hasType hty, rfl⟩
  | string s => exact ⟨h.types, hfields, h.methods⟩
  | signature s => exact ⟨h.types, hfields, h.methods⟩
  | method declaring name s isVirtual =>
    refine ⟨h.types, hfields, fun i m hm => ?_⟩
    rcases getElem?_push hm with hm | ⟨rfl, rfl⟩
    · exact h.methods i m hm
    · rfl
  | @body _ method b hb =>
    unfold defineBody at hb
    cases hm : md.resolveMethod method with
    | error e => rw [hm] at hb; cases hb
    | ok m =>
      rw [hm] at hb
      cases hb
      obtain ⟨-, -, hrow⟩ := rowOf_ok hm
      refine ⟨h.types, hfields, fun i m' hm' => ?_⟩
      rw [Array.getElem?_setIfInBounds] at hm'
      split at hm'
      · rename_i hi
        split at hm'
        · cases hm'
          rw [← hi]
          exact h.methods _ m hrow
        · cases hm'
      · exact h.methods i m' hm'
  | @override _ base type implementation ho =>
    unfold overrideMethod at ho
    cases hb : md.resolveMethod base with
    | error e => rw [hb] at ho; cases ho
    | ok m =>
      cases hi : md.resolveMethod implementation with
      | error e => rw [hb, hi] at ho; cases ho
      | ok k =>
        cases ht : md.resolveType type with
        | error e => rw [hb, hi, ht] at ho; cases ho
        | ok ty =>
          rw [hb, hi, ht] at ho
          cases ho
          exact ⟨h.types, hfields, h.methods⟩

theorem Defined.wellFormed (h : md.Defined) : md.WellFormed := by
  induction h with
  | core => exact core_wellFormed
  | defines _ hd ih => exact hd.wellFormed ih

end Metadata

/-! ## Values that name fields of the tables -/

/-- A pointer to a field carries the symbol that the tables have. -/
def Pointer.Proper (md : Metadata) : Pointer → Prop
  | field _ f | static f => md.HasField f
  | _ => True

/-- **Pointers to fields carry the symbols that the tables have.** -/
def Value.Proper (md : Metadata) : Value → Prop
  | pointer q => q.Proper md
  | _ => True

/-- An entry of a record or of the static fields: a field of the tables, with a value that fits its kind. -/
def Metadata.Admits (md : Metadata) (e : FieldHandle × Value) : Prop :=
  e.2.Proper md ∧ ∃ f, md.HasField f ∧ f.handle = e.1 ∧ e.2.Fits f.kind.stackType

/-- What an object holds fits where it stands. An array narrows what it loads, so its items may be anything. -/
def Object.Typed (md : Metadata) : Object → Prop
  | array _ items => ∀ v ∈ items, v.Proper md
  | record _ _ fields => ∀ e ∈ fields, md.Admits e
  | boxed type v => v.Proper md ∧ ∃ t, md.typeSymbol? type = some t ∧ v.Fits t.kind.stackType
  | _ => True

/-- **Every object and every static field holds what fits.** -/
structure Heap.Typed (md : Metadata) (h : Heap) : Prop where
  objects : ∀ (i : Nat) o, h.objects[i]? = some o → o.Typed md
  statics : ∀ e ∈ h.statics, md.Admits e

section

variable {md md' : Metadata}

theorem Kind.proper_zero (k : Kind) : k.zero.Proper md := by
  cases k <;> trivial

theorem Kind.proper_coerce {k : Kind} {v w : Value} (h : k.coerce v = some w) (hv : v.Proper md) : w.Proper md := by
  have hbits : ∀ {f : BitVec 64 → Value}, v.bits?.map f = some w → (∀ b, (f b).Proper md) → w.Proper md := by
    intro f hw hf
    obtain ⟨b, -, rfl⟩ := Option.map_eq_some_iff.1 hw
    exact hf b
  cases k with
  | r4 => cases v <;> cases h; trivial
  | r8 => cases v <;> cases h; trivial
  | object => cases v <;> cases h; trivial
  | struct => cases v <;> cases h; trivial
  | byRef =>
    cases v with
    | pointer p => cases h; exact hv
    | nativeInt n => cases h; trivial
    | _ => cases h
  | _ => exact hbits h fun _ => trivial

theorem Metadata.HasField.unique {f g : FieldSymbol} (hf : md.HasField f) (hg : md.HasField g)
    (h : f.handle = g.handle) : f = g := by
  have := hf.2
  rw [h, hg.2] at this
  exact (Option.some.inj this).symm

theorem Value.Proper.extends {v : Value} (h : v.Proper md) (he : md.Extends md') : v.Proper md' := by
  cases v with
  | pointer q => cases q <;> first | exact he.hasField h | trivial
  | _ => trivial

theorem Metadata.Admits.extends {e : FieldHandle × Value} (h : md.Admits e) (he : md.Extends md') : md'.Admits e := by
  obtain ⟨hp, f, hf, hk, hv⟩ := h
  exact ⟨hp.extends he, f, he.hasField hf, hk, hv⟩

theorem Object.Typed.extends {o : Object} (h : o.Typed md) (he : md.Extends md') : o.Typed md' := by
  cases o with
  | array element items => exact fun v hv => (h v hv).extends he
  | record type isValueType fields => exact fun e hm => (h e hm).extends he
  | boxed type v =>
    obtain ⟨hp, t, ht, hv⟩ := h
    exact ⟨hp.extends he, t, he.typeSymbol? ht, hv⟩
  | _ => trivial

theorem Heap.Typed.extends {h : Heap} (ht : h.Typed md) (he : md.Extends md') : h.Typed md' where
  objects := fun i o ho => (ht.objects i o ho).extends he
  statics := fun e hm => (ht.statics e hm).extends he

theorem mem_insertEntry {κ ν : Type} [BEq κ] {k : κ} {v : ν} {e : κ × ν} :
    ∀ {l : List (κ × ν)}, e ∈ insertEntry k v l → e = (k, v) ∨ e ∈ l
  | [], h => .inl (List.mem_singleton.1 h)
  | (j, w) :: l, h => by
    rw [insertEntry] at h
    split at h
    · rcases List.mem_cons.1 h with rfl | h
      · exact .inl rfl
      · exact .inr (List.mem_cons_of_mem _ h)
    · rcases List.mem_cons.1 h with rfl | h
      · exact .inr List.mem_cons_self
      · exact (mem_insertEntry h).imp id (List.mem_cons_of_mem _)

theorem mem_of_lookup {κ ν : Type} [BEq κ] [LawfulBEq κ] {k : κ} {v : ν} :
    ∀ {l : List (κ × ν)}, l.lookup k = some v → (k, v) ∈ l
  | (j, w) :: l, h => by
    rw [List.lookup_cons] at h
    split at h
    · rename_i hj
      cases h
      rw [eq_of_beq hj]
      exact List.mem_cons_self
    · exact List.mem_cons_of_mem _ (mem_of_lookup h)

/-- What is found under the handle of a field fits the field. -/
theorem Metadata.HasField.lookup {f : FieldSymbol} {v : Value} {entries : List (FieldHandle × Value)}
    (hf : md.HasField f) (h : ∀ e ∈ entries, md.Admits e) (hl : entries.lookup f.handle = some v) :
    v.Proper md ∧ v.Fits f.kind.stackType := by
  obtain ⟨hp, g, hg, hk, hv⟩ := h _ (mem_of_lookup hl)
  cases hg.unique hf hk
  exact ⟨hp, hv⟩

theorem Metadata.HasField.insert {f : FieldSymbol} {v : Value} {entries : List (FieldHandle × Value)}
    (hf : md.HasField f) (h : ∀ e ∈ entries, md.Admits e) (hp : v.Proper md) (hv : v.Fits f.kind.stackType) :
    ∀ e ∈ insertEntry f.handle v entries, md.Admits e := by
  intro e he
  rcases mem_insertEntry he with rfl | he
  · exact ⟨hp, f, hf, rfl, hv⟩
  · exact h e he

end

/-! ## Operations that keep the heap typed -/

namespace Heap

variable {md : Metadata} {ε α β : Type} {P : α → Prop} {R : β → Prop} {h : Heap}

/-- **The operation keeps the heap typed**, also when it fails, and gives what `P` says. -/
def Keeps (md : Metadata) (x : ExceptT ε (StateM Heap) α) (P : α → Prop) : Prop :=
  ∀ h : Heap, h.Typed md → Meets x h (fun a h' => P a ∧ h'.Typed md) fun _ h' => h'.Typed md

namespace Keeps

variable {x : ExceptT ε (StateM Heap) α} {f : α → ExceptT ε (StateM Heap) β}

theorem pure {a : α} (ha : P a) : Keeps md (Pure.pure a : ExceptT ε (StateM Heap) α) P := Maintains.pure ha

theorem throw {e : ε} : Keeps md (MonadExcept.throw e : ExceptT ε (StateM Heap) α) P := Maintains.throw

theorem bind (hx : Keeps md x P) (hf : ∀ a, P a → Keeps md (f a) R) : Keeps md (x >>= f) R := Maintains.bind hx hf

theorem mono {P' : α → Prop} (hx : Keeps md x P) (hp : ∀ a, P a → P' a) : Keeps md x P' := Maintains.mono hx hp

theorem get_bind {f : Heap → ExceptT ε (StateM Heap) β} (hf : ∀ h, h.Typed md → Keeps md (f h) R) :
    Keeps md (get >>= f) R := Maintains.get_bind hf

theorem modify {g : Heap → Heap} (hg : ∀ h, h.Typed md → (g h).Typed md) :
    Keeps md (modify g : ExceptT ε (StateM Heap) PUnit) fun _ => True := Maintains.modify hg

theorem mapM {f : α → ExceptT ε (StateM Heap) β} {xs : List α} (hf : ∀ a ∈ xs, Keeps md (f a) R) :
    Keeps md (xs.mapM f) fun bs => ∀ b ∈ bs, R b := Maintains.mapM hf

end Keeps

theorem keeps_raise (k : FaultKind) : Keeps md (raise k : HeapM α) P := .throw

theorem maintains_orEndless {I : Heap → Prop} (o : Option α) : Maintains I (orEndless o) fun a => o = some a := by
  cases o with
  | some a => exact .pure rfl
  | none => exact .throw

theorem keeps_orEndless (o : Option α) : Keeps md (orEndless o) fun a => o = some a := maintains_orEndless o

theorem allocate_meets (o : Object) : Meets (allocate o) h (fun r h' => r = ⟨h.objects.size⟩ ∧
    h' = { h with allocated := h.allocated + 1, objects := h.objects.push o }) fun _ h' => h' = h := by
  unfold allocate
  refine Meets.get_bind ?_
  by_cases hl : h.limit.any (· ≤ h.allocated)
  · rw [if_pos hl]
    exact rfl
  · rw [if_neg hl]
    exact ⟨rfl, rfl⟩

theorem Typed.place (ht : h.Typed md) {o : Object} (ho : o.Typed md) : ((place o).run h).2.Typed md where
  objects := by
    intro i o' ho'
    rcases Metadata.getElem?_push ho' with ho' | ⟨-, rfl⟩
    · exact ht.objects i o' ho'
    · exact ho
  statics := ht.statics

theorem keeps_allocate {o : Object} (ho : o.Typed md) : Keeps md (allocate o) fun _ => True := by
  intro h ht
  refine (allocate_meets o).mono ?_ fun _ _ hh => hh ▸ ht
  rintro _ _ ⟨-, rfl⟩
  have hcount : Typed md { h with allocated := h.allocated + 1 } := ⟨ht.objects, ht.statics⟩
  exact ⟨trivial, hcount.place ho⟩

theorem keeps_replace {o : Object} (r : Ref) (ho : o.Typed md) : Keeps md (replace r o) fun _ => True := by
  refine .modify fun h ht => ⟨fun i o' ho' => ?_, ht.statics⟩
  rw [Array.getElem?_setIfInBounds] at ho'
  split at ho'
  · split at ho'
    · cases ho'; exact ho
    · cases ho'
  · exact ht.objects i o' ho'

theorem id_ne {q r : Ref} (hqr : q ≠ r) : q.id ≠ r.id := by
  cases q
  cases r
  simpa using hqr

/-- Looking at an object finds the one that a reference names. -/
theorem getAs_meets (r : Option Ref) (select : Object → Option α) : Meets (getAs r select) h
    (fun a h' => h' = h ∧ r = some a.1 ∧ ∃ o, h.get? a.1 = some o ∧ select o = some a.2) fun _ h' => h' = h := by
  unfold getAs
  cases r with
  | none => exact rfl
  | some r =>
    refine Meets.get_bind ?_
    cases ho : h.get? r with
    | none => exact rfl
    | some o =>
      simp only [Option.bind_some]
      cases hs : select o with
      | none => exact rfl
      | some a => exact ⟨rfl, rfl, o, ho, hs⟩

theorem keeps_getAs (r : Option Ref) (select : Object → Option α) :
    Keeps md (getAs r select) fun a => ∃ o, o.Typed md ∧ select o = some a.2 := by
  intro h ht
  refine (getAs_meets r select).mono ?_ fun _ _ hh => hh ▸ ht
  rintro a _ ⟨rfl, -, o, ho, hs⟩
  exact ⟨⟨o, ht.objects _ o ho, hs⟩, ht⟩

theorem keeps_getArray (r : Option Ref) : Keeps md (getArray r) fun a => ∀ v ∈ a.2.2, v.Proper md := by
  refine (keeps_getAs r _).mono ?_
  rintro ⟨_, e, items⟩ ⟨o, ho, hs⟩
  cases o <;> cases hs
  exact ho

theorem keeps_getRecord (r : Option Ref) : Keeps md (getRecord r) fun a => ∀ e ∈ a.2.2.2, md.Admits e := by
  refine (keeps_getAs r _).mono ?_
  rintro ⟨_, t, v, fields⟩ ⟨o, ho, hs⟩
  cases o <;> cases hs
  exact ho

theorem keeps_getBoxed (r : Option Ref) : Keeps md (getBoxed r) fun a =>
    a.2.2.Proper md ∧ ∃ t, md.typeSymbol? a.2.1 = some t ∧ a.2.2.Fits t.kind.stackType := by
  refine (keeps_getAs r _).mono ?_
  rintro ⟨_, t, v⟩ ⟨o, ho, hs⟩
  cases o <;> cases hs
  exact ho

theorem narrow_meets (k : Kind) (v : Value) :
    Meets (narrow k v) h (fun w h' => h' = h ∧ k.coerce v = some w) fun _ h' => h' = h := by
  unfold narrow
  cases hc : k.coerce v with
  | none => exact rfl
  | some w => exact ⟨rfl, rfl⟩

theorem keeps_narrow (k : Kind) {v : Value} (hv : v.Proper md) :
    Keeps md (narrow k v) fun w => w.Proper md ∧ w.Fits k.stackType := by
  intro h ht
  refine (narrow_meets k v).mono ?_ fun _ _ hh => hh ▸ ht
  rintro w _ ⟨rfl, hw⟩
  exact ⟨⟨Kind.proper_coerce hw hv, Kind.fits_coerce hw⟩, ht⟩

theorem keeps_copyValue (v : Value) : Keeps md (copyValue v) fun w =>
    (v.Proper md → w.Proper md) ∧ ∀ t, v.Fits t → w.Fits t := by
  have same : Keeps md (pure v : HeapM Value) fun w => (v.Proper md → w.Proper md) ∧ ∀ t, v.Fits t → w.Fits t :=
    .pure ⟨id, fun _ => id⟩
  unfold copyValue
  split
  · rename_i r
    refine .get_bind fun h ht => ?_
    split
    · rename_i type fields ho
      refine (keeps_allocate (ht.objects _ _ ho)).bind fun r' _ => .pure ⟨fun _ => trivial, fun t hf => ?_⟩
      rcases hf with hf | ⟨-, hf | hf⟩
      · exact .inl hf
      · cases hf
      · cases hf
    · exact same
  · exact same

theorem keeps_newString (s : String) : Keeps md (newString s) fun _ => True := keeps_allocate trivial

theorem keeps_newHandle (s : Symbol) : Keeps md (newHandle s) fun _ => True := keeps_allocate trivial

theorem Typed.newException (ht : h.Typed md) (k : FaultKind) (message : String) :
    ((newException md k message).run h).2.Typed md := ht.place trivial

section Construction

variable (hmd : md.WellFormed)
include hmd

theorem keeps_newInstanceWithin : ∀ (fuel : Nat) (type : TypeSymbol),
    Keeps md (newInstanceWithin md fuel type) fun _ => True
  | 0, _ => .throw
  | fuel + 1, type => by
    unfold newInstanceWithin
    refine (keeps_orEndless _).bind fun fields hfields => ?_
    refine Keeps.bind (P := fun values => ∀ e ∈ values, md.Admits e) (.mapM fun f hf => ?_) fun values hv =>
      keeps_allocate hv
    have hfield : md.HasField f := hmd.hasField_of_instance hfields hf
    obtain ⟨t, ht, hk⟩ := hmd.typeOfField hfield
    simp only [ht]
    split
    · rename_i hs
      refine (keeps_newInstanceWithin fuel t).bind fun r _ => .pure ⟨trivial, f, hfield, rfl, ?_⟩
      rw [← hk, hs]
      exact .inl rfl
    · exact .pure ⟨Kind.proper_zero _, f, hfield, rfl, hk ▸ Kind.fits_zero _⟩

theorem keeps_newInstance (type : TypeSymbol) : Keeps md (newInstance md type) fun _ => True :=
  .get_bind fun _ _ => keeps_newInstanceWithin hmd _ type

theorem keeps_zeroOf (type : TypeSymbol) :
    Keeps md (zeroOf md type) fun v => v.Proper md ∧ v.Fits type.kind.stackType := by
  unfold zeroOf
  split
  · rename_i hs
    refine (keeps_newInstance hmd type).bind fun r _ => .pure ⟨trivial, ?_⟩
    rw [hs]
    exact .inl rfl
  · exact .pure ⟨Kind.proper_zero _, Kind.fits_zero _⟩

theorem keeps_fieldZero {f : FieldSymbol} (hf : md.HasField f) :
    Keeps md (fieldZero md f) fun v => v.Proper md ∧ v.Fits f.kind.stackType := by
  unfold fieldZero
  obtain ⟨t, ht, hk⟩ := hmd.typeOfField hf
  rw [ht, ← hk]
  exact keeps_zeroOf hmd t

theorem keeps_fill (element : TypeSymbol) : ∀ (count : Nat) (items : Array Value), (∀ v ∈ items, v.Proper md) →
    Keeps md (fill md element count items) fun items' => ∀ v ∈ items', v.Proper md
  | 0, items, hi => .pure hi
  | count + 1, items, hi => by
    refine (keeps_zeroOf hmd element).bind fun v ⟨hv, _⟩ => keeps_fill element count _ fun u hu => ?_
    rcases Array.mem_push.1 hu with hu | rfl
    · exact hi u hu
    · exact hv

theorem keeps_newArray (element : TypeSymbol) (length : Nat) : Keeps md (newArray md element length) fun _ => True :=
  (keeps_fill hmd element length #[] fun v hv => absurd hv (Array.not_mem_empty v)).bind fun _ hi => keeps_allocate hi

end Construction

/-! ## Boxes and arrays -/

theorem keeps_box {type : TypeSymbol} {v : Value} (htype : md.HasType type) (hv : v.Proper md) :
    Keeps md (box type v) fun _ => True := by
  unfold box
  split
  · refine (keeps_copyValue v).bind fun u ⟨hu, _⟩ => (keeps_narrow type.kind (hu hv)).bind fun w ⟨hw, hfits⟩ => ?_
    have hboxed : (Object.boxed type.handle w).Typed md := ⟨hw, type, htype, hfits⟩
    exact (keeps_allocate hboxed).bind fun _ _ => .pure trivial
  · split
    · exact .pure trivial
    · exact keeps_raise _

theorem keeps_unbox (r : Option Ref) {type : TypeSymbol} (htype : md.HasType type) :
    Keeps md (unbox r type) fun v => v.Proper md ∧ v.Fits type.kind.stackType := by
  refine (keeps_getBoxed r).bind ?_
  rintro ⟨_, held, v⟩ ⟨hv, t, ht, hfits⟩
  dsimp only at hv ht hfits ⊢
  split
  · rename_i hh
    rw [hh, htype] at ht
    cases ht
    exact (keeps_copyValue v).mono fun w ⟨hp, hf⟩ => ⟨hp hv, hf _ hfits⟩
  · exact keeps_raise _

theorem keeps_unboxPointer (r : Option Ref) (type : TypeSymbol) :
    Keeps md (unboxPointer r type) fun q => q.Proper md := by
  refine (keeps_getBoxed r).bind ?_
  rintro ⟨_, held, v⟩ -
  dsimp only
  split
  · exact .pure trivial
  · exact keeps_raise _

theorem keeps_loadBoxed (r : Option Ref) : Keeps md (loadBoxed r) fun v => v.Proper md :=
  (keeps_getBoxed r).bind fun _ ha => .pure ha.1

theorem keeps_storeBoxed (r : Option Ref) {v : Value} (hv : v.Proper md) :
    Keeps md (storeBoxed md r v) fun _ => True := by
  refine (keeps_getBoxed r).bind ?_
  rintro ⟨r', type, u⟩ ⟨-, t, ht, -⟩
  dsimp only at ht ⊢
  refine (keeps_narrow _ hv).bind fun w ⟨hw, hfits⟩ => keeps_replace r' ⟨hw, t, ht, ?_⟩
  rw [ht] at hfits
  exact hfits

theorem keeps_arrayLength (r : Option Ref) : Keeps md (arrayLength r) fun _ => True :=
  (keeps_getArray r).bind fun _ _ => .pure trivial

theorem keeps_sizeOf (type : TypeSymbol) : Keeps md (sizeOf md type) fun _ => True := by
  unfold sizeOf
  split
  · exact (keeps_orEndless _).bind fun _ _ => .pure trivial
  · exact .pure trivial

theorem keeps_elementSize (r : Option Ref) : Keeps md (elementSize md r) fun _ => True :=
  (keeps_getArray r).bind fun _ _ => keeps_sizeOf _

theorem keeps_loadElement (r : Option Ref) (index : Nat) (k : Kind) :
    Keeps md (loadElement r index k) fun v => v.Proper md ∧ v.Fits k.stackType := by
  refine (keeps_getArray r).bind ?_
  rintro ⟨_, element, items⟩ hi
  dsimp only at hi ⊢
  split
  · exact keeps_raise _
  · split
    · rename_i v hv
      exact keeps_narrow k (hi v (Array.mem_of_getElem? hv))
    · exact keeps_raise _

theorem keeps_admits (element : TypeSymbol) (v : Value) : Keeps md (admits md element v) fun _ => True := by
  unfold admits
  split
  · refine .get_bind fun h _ => ?_
    split
    · split
      · exact .pure trivial
      · exact (keeps_orEndless _).mono fun _ _ => trivial
    · exact .pure trivial
  · exact .pure trivial

theorem keeps_storeElement (r : Option Ref) (index : Nat) (k : Kind) {v : Value} (hv : v.Proper md) :
    Keeps md (storeElement md r index k v) fun _ => True := by
  refine (keeps_getArray r).bind ?_
  rintro ⟨r', element, items⟩ hi
  dsimp only at hi ⊢
  split
  · exact keeps_raise _
  · refine (keeps_admits element v).bind fun b _ => ?_
    split
    · exact keeps_raise _
    · refine (keeps_narrow element.kind hv).bind fun w ⟨hw, _⟩ => ?_
      split
      · refine keeps_replace r' fun u hu => ?_
        rcases Array.mem_or_eq_of_mem_setIfInBounds hu with hu | rfl
        · exact hi u hu
        · exact hw
      · exact keeps_raise _

/-! ## Fields -/

theorem keeps_loadField (hmd : md.WellFormed) (r : Option Ref) {f : FieldSymbol} (hf : md.HasField f) :
    Keeps md (loadField md r f) fun v => v.Proper md ∧ v.Fits f.kind.stackType := by
  refine (keeps_getRecord r).bind ?_
  rintro ⟨_, _, _, fields⟩ hfields
  dsimp only at hfields ⊢
  split
  · rename_i v hv
    exact .pure (hf.lookup hfields hv)
  · exact keeps_fieldZero hmd hf

theorem keeps_storeField (r : Option Ref) {f : FieldSymbol} {v : Value} (hf : md.HasField f) (hv : v.Proper md) :
    Keeps md (storeField r f v) fun _ => True := by
  refine (keeps_getRecord r).bind ?_
  rintro ⟨r', type, isValueType, fields⟩ hfields
  exact (keeps_narrow f.kind hv).bind fun w ⟨hw, hfits⟩ => keeps_replace r' (hf.insert hfields hw hfits)

/-- A static field is set. -/
theorem keeps_setStatic {f : FieldSymbol} {v : Value} (hf : md.HasField f) (hv : v.Proper md)
    (hfits : v.Fits f.kind.stackType) :
    Keeps md (modify fun h => { h with statics := insertEntry f.handle v h.statics } : HeapM Unit) fun _ => True :=
  .modify fun _ ht => ⟨ht.objects, hf.insert ht.statics hv hfits⟩

theorem keeps_loadStatic (hmd : md.WellFormed) {f : FieldSymbol} (hf : md.HasField f) :
    Keeps md (loadStatic md f) fun v => v.Proper md ∧ v.Fits f.kind.stackType := by
  refine .get_bind fun h ht => ?_
  split
  · rename_i v hv
    exact .pure (hf.lookup ht.statics hv)
  · refine (keeps_fieldZero hmd hf).bind fun v hv => ?_
    exact (keeps_setStatic hf hv.1 hv.2).bind fun _ _ => .pure hv

theorem keeps_storeStatic {f : FieldSymbol} {v : Value} (hf : md.HasField f) (hv : v.Proper md) :
    Keeps md (storeStatic f v) fun _ => True :=
  (keeps_narrow f.kind hv).bind fun _ ⟨hw, hfits⟩ => keeps_setStatic hf hw hfits

/-! ## Heaps that were built -/

/-- **The operations of the heap that change it**, on types and fields of the tables. -/
inductive Operation (md : Metadata) : {α : Type} → HeapM α → Prop where
  | newString (s : String) : Operation md (newString s)
  | newHandle (s : Symbol) : Operation md (newHandle s)
  | newInstance (type : TypeSymbol) : Operation md (newInstance md type)
  | newArray (element : TypeSymbol) (length : Nat) : Operation md (newArray md element length)
  | newException (k : FaultKind) (message : String) :
      Operation md (ExceptT.lift (newException md k message))
  | copyValue (v : Value) : Operation md (copyValue v)
  | box {type : TypeSymbol} {v : Value} : md.HasType type → v.Proper md → Operation md (box type v)
  | unbox (r : Option Ref) {type : TypeSymbol} : md.HasType type → Operation md (unbox r type)
  | storeBoxed (r : Option Ref) {v : Value} : v.Proper md → Operation md (storeBoxed md r v)
  | storeElement (r : Option Ref) (index : Nat) (k : Kind) {v : Value} : v.Proper md →
      Operation md (storeElement md r index k v)
  | loadField (r : Option Ref) {f : FieldSymbol} : md.HasField f → Operation md (loadField md r f)
  | storeField (r : Option Ref) {f : FieldSymbol} {v : Value} : md.HasField f → v.Proper md →
      Operation md (storeField r f v)
  | loadStatic {f : FieldSymbol} : md.HasField f → Operation md (loadStatic md f)
  | storeStatic {f : FieldSymbol} {v : Value} : md.HasField f → v.Proper md → Operation md (storeStatic f v)

/-- **What operations make of a heap**, whether they succeed or fail. -/
inductive Becomes (md : Metadata) (h : Heap) : Heap → Prop where
  | refl : Becomes md h h
  | step {α : Type} {x : HeapM α} {h' : Heap} : Becomes md h h' → Operation md x → Becomes md h (x.run h').2

/-- **A heap that was built only through its own operations**, while the program was being defined. -/
inductive Built : Metadata → Heap → Prop where
  | empty {md : Metadata} (limit : Option Nat) : md.Defined → Built md { limit }
  | became {md : Metadata} {h h' : Heap} : Built md h → h.Becomes md h' → Built md h'
  | defined {md md' : Metadata} {h : Heap} : Built md h → md.Defines md' → Built md' h

theorem Operation.keeps (hmd : md.WellFormed) {x : HeapM α} (hx : Operation md x) : Keeps md x fun _ => True := by
  cases hx with
  | newString s => exact keeps_newString s
  | newHandle s => exact keeps_newHandle s
  | newInstance type => exact keeps_newInstance hmd type
  | newArray element length => exact keeps_newArray hmd element length
  | newException k message => exact fun _ ht => ⟨trivial, ht.newException k message⟩
  | copyValue v => exact (keeps_copyValue v).mono fun _ _ => trivial
  | box htype hv => exact keeps_box htype hv
  | unbox r htype => exact (keeps_unbox r htype).mono fun _ _ => trivial
  | storeBoxed r hv => exact keeps_storeBoxed r hv
  | storeElement r index k hv => exact keeps_storeElement r index k hv
  | loadField r hf => exact (keeps_loadField hmd r hf).mono fun _ _ => trivial
  | storeField r hf hv => exact keeps_storeField r hf hv
  | loadStatic hf => exact (keeps_loadStatic hmd hf).mono fun _ _ => trivial
  | storeStatic hf hv => exact keeps_storeStatic hf hv

/-- **Operations keep a heap typed.** -/
theorem Becomes.typed (hmd : md.WellFormed) {h' : Heap} (hb : h.Becomes md h') (ht : h.Typed md) : h'.Typed md := by
  induction hb with
  | refl => exact ht
  | @step _ x h' _ hx ih =>
    exact Maintains.run (hx.keeps hmd) ih

theorem Built.isDefined (hb : Built md h) : md.Defined := by
  induction hb with
  | empty limit hd => exact hd
  | became _ _ ih => exact ih
  | defined _ hd ih => exact .defines ih hd

/-- **A heap that was built through its operations is typed.** -/
theorem Built.typed (hb : Built md h) : h.Typed md := by
  induction hb with
  | empty limit hd => exact ⟨(fun i o ho => by cases ho), fun e he => by cases he⟩
  | became hb hc ih => exact hc.typed hb.isDefined.wellFormed ih
  | defined _ hd ih => exact ih.extends hd.extends

end Heap

/-! ## Narrowing -/

namespace HeapTrapM

variable {md : Metadata} {α : Type} {P : α → Prop}

theorem keeps_ofHeap {x : HeapM α} (hx : Heap.Keeps md x P) : Heap.Keeps md (ofHeap x) P := by
  intro h ht
  have hx := hx h ht
  have hr : (ofHeap x).run h = (Except.mapError HeapFailure.trap (x.run h).1, (x.run h).2) := rfl
  unfold Meets at hx ⊢
  rw [hr]
  rcases hrun : x.run h with ⟨f | a, h'⟩
  · rw [hrun] at hx; exact hx
  · rw [hrun] at hx; exact hx

theorem keeps_normalize (slot : Nat) (k : Kind) {v : Value} (hv : v.Proper md) :
    Heap.Keeps md (normalize slot k v) fun w => w.Proper md ∧ w.Fits k.stackType := by
  have last : ∀ u : Value, u.Proper md →
      Heap.Keeps md (coerced slot k u) fun w => w.Proper md ∧ w.Fits k.stackType := by
    intro u hu
    unfold coerced
    cases hc : k.coerce u with
    | none => exact .throw
    | some w => exact .pure ⟨Kind.proper_coerce hc hu, Kind.fits_coerce hc⟩
  rw [normalize_eq]
  split
  · exact (keeps_ofHeap (Heap.keeps_copyValue v)).bind fun u hu => last u (hu.1 hv)
  · exact last v hv

end HeapTrapM

end ManagedCode
