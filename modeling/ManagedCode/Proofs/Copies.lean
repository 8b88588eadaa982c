import ManagedCode.Proofs.Storage

/-!
# What a copy of a structure shares

A copy has the fields of the structure it was made from, and the structures inside of it are the same objects. Stores
to the original therefore never reach the fields of the copy itself; a store to a structure that the original held when
it was copied reaches the copy as well. `copy_independent_iff` says when a copy still reads as it did.
-/

namespace ManagedCode.Heap

variable {md : Metadata} {h h' : Heap}

/-! ## Loads that construct nothing -/

/-- Constructing an instance adds an object to the heap. -/
theorem newInstanceWithin_grows {n : Nat} : ∀ (fuel : Nat) (type : TypeSymbol) {h : Heap}, n ≤ h.objects.size →
    Meets (newInstanceWithin md fuel type) h (fun _ h' => n < h'.objects.size) fun _ h' => n ≤ h'.objects.size
  | 0, _, _, hn => hn
  | fuel + 1, type, h, hn => by
    have inner : ∀ t, Maintains (n ≤ ·.objects.size) (newInstanceWithin md fuel t) fun _ => True := fun t _ hn =>
      (newInstanceWithin_grows fuel t hn).mono (fun _ _ hlt => ⟨trivial, Nat.le_of_lt hlt⟩) fun _ _ hle => hle
    unfold newInstanceWithin
    refine Meets.bind (maintains_orEndless (I := (n ≤ ·.objects.size)) _ h hn) fun fields h₁ hn₁ => ?_
    refine Meets.bind (Q := fun _ h' => n ≤ h'.objects.size) ?_ fun values h₂ hn₂ => ?_
    · refine (Maintains.mapM (I := (n ≤ ·.objects.size)) (R := fun _ => True) (fun f _ => ?_) h₁ hn₁.2).mono
        (fun _ _ hv => hv.2) fun _ _ he => he
      split
      · exact .pure trivial
      · split
        · exact (inner _).bind fun _ _ => .pure trivial
        · exact .pure trivial
    · refine (allocate_meets _).mono ?_ fun _ _ hh => hh ▸ hn₂
      rintro _ _ ⟨-, rfl⟩
      simp only [Array.size_push]
      omega

/-- The result of an operation that began on `h` and constructed nothing. -/
def given? (h : Heap) : Except HeapFailure Value × Heap → Option Value
  | (.ok v, h') => if h'.objects.size = h.objects.size then some v else none
  | (.error _, _) => none

/-- The value that loading a field gives, where no zero has to be constructed for it. -/
def fieldAt? (md : Metadata) (h : Heap) (q : Ref) (f : FieldSymbol) : Option Value :=
  h.given? ((loadField md (some q) f).run h)

/-- The zero of a field, unless it is a structure and has to be constructed. -/
def zeroAt? (md : Metadata) (f : FieldSymbol) : Option Value :=
  match md.typeSymbol? f.type with
  | some t => if t.kind = .struct then none else some t.kind.zero
  | none => some f.kind.zero

theorem given?_pure (v : Value) : h.given? ((pure v : HeapM Value).run h) = some v := if_pos rfl

theorem given?_fieldZero (f : FieldSymbol) : h.given? ((fieldZero md f).run h) = zeroAt? md f := by
  unfold fieldZero zeroAt?
  cases md.typeSymbol? f.type with
  | none => exact given?_pure _
  | some t =>
    by_cases hs : t.kind = .struct
    · have hgrows : Meets (zeroOf md t) h (fun _ h' => h.objects.size < h'.objects.size) fun _ _ => True := by
        simp only [zeroOf, hs]
        refine Meets.bind (Q := fun _ h' => h.objects.size < h'.objects.size) ?_ fun _ _ hlt => hlt
        refine Meets.get_bind ((newInstanceWithin_grows _ t (Nat.le_refl _)).mono (fun _ _ hlt => hlt) ?_)
        exact fun _ _ _ => trivial
      dsimp only
      rw [if_pos hs]
      rcases hr : (zeroOf md t).run h with ⟨e | v, h'⟩
      · rfl
      · have hlt := hgrows.of_ok hr
        exact if_neg (by omega)
    · have hzero : zeroOf md t = pure t.kind.zero := by
        unfold zeroOf
        split
        · contradiction
        · rfl
      dsimp only
      rw [if_neg hs, hzero]
      exact given?_pure _

theorem getAs_run {α : Type} (q : Ref) (select : Object → Option α) : (getAs (some q) select).run h =
    match (h.get? q).bind select with
    | some a => (.ok (q, a), h)
    | none => (.error (.fault .invalidCast), h) := by
  show (match (h.get? q).bind select with
    | some a => pure (q, a)
    | none => raise .invalidCast : HeapM (Ref × α)).run h = _
  cases (h.get? q).bind select with
  | none => rfl
  | some a => rfl

/-- **What a field reads as is a matter of the object alone.** -/
theorem fieldAt?_eq (q : Ref) (f : FieldSymbol) : h.fieldAt? md q f = (h.get? q).bind fun
    | .record _ _ fields => (fields.lookup f.handle).or (zeroAt? md f)
    | _ => none := by
  unfold fieldAt? loadField getRecord
  rw [Meets.run_bind, getAs_run]
  cases h.get? q with
  | none => rfl
  | some o =>
    cases o with
    | record type isValueType fields =>
      simp only [Option.bind_some]
      cases fields.lookup f.handle with
      | some v => exact given?_pure v
      | none => exact given?_fieldZero f
    | _ => rfl

theorem fieldAt?_congr {q q' : Ref} (hq : h'.get? q' = h.get? q) (f : FieldSymbol) :
    h'.fieldAt? md q' f = h.fieldAt? md q f := by
  rw [fieldAt?_eq, fieldAt?_eq, hq]

/-! ## Reading through structures -/

/-- The structure that a field holds. -/
def inner? (f : FieldSymbol) : Option Value → Option Ref
  | some (.object r) => if f.kind = .struct then r else none
  | _ => none

/-- The structure that a path of fields leads to, each a field of the structure before it. -/
def follow? (md : Metadata) (h : Heap) : List FieldSymbol → Ref → Option Ref
  | [], q => some q
  | f :: path, q => (inner? f (h.fieldAt? md q f)).bind (follow? md h path)

/-- What a field reads as, of the structure that a path leads to. -/
def read? (md : Metadata) (h : Heap) (q : Ref) (path : List FieldSymbol) (f : FieldSymbol) : Option Value :=
  (h.follow? md path q).bind (h.fieldAt? md · f)

theorem follow?_append_singleton (f : FieldSymbol) : ∀ (path : List FieldSymbol) (q : Ref),
    h.follow? md (path ++ [f]) q = inner? f (h.read? md q path f)
  | [], q => by
    rw [List.nil_append, follow?, read?, follow?, Option.bind_some]
    cases inner? f (h.fieldAt? md q f) with
    | none => rfl
    | some q' => rfl
  | g :: path, q => by
    rw [List.cons_append, follow?, read?, follow?]
    cases inner? g (h.fieldAt? md q g) with
    | none => rfl
    | some q' => exact follow?_append_singleton f path q'

/-- A path leads where it led if no structure along any path reads differently. -/
theorem follow?_congr : ∀ (path : List FieldSymbol) {r : Ref}, (∀ path q, h.follow? md path r = some q → ∀ f,
    h'.fieldAt? md q f = h.fieldAt? md q f) → h'.follow? md path r = h.follow? md path r
  | [], _, _ => rfl
  | f :: path, r, hsame => by
    rw [follow?, follow?, hsame [] r rfl f]
    cases hi : inner? f (h.fieldAt? md r f) with
    | none => rfl
    | some q =>
      refine follow?_congr path fun path' q' hq' => hsame (f :: path') q' ?_
      rw [follow?, hi]
      exact hq'

theorem read?_congr {r : Ref} (hsame : ∀ path q, h.follow? md path r = some q → ∀ f,
    h'.fieldAt? md q f = h.fieldAt? md q f) (path : List FieldSymbol) (f : FieldSymbol) :
    h'.read? md r path f = h.read? md r path f := by
  unfold read?
  rw [follow?_congr path hsame]
  cases hq : h.follow? md path r with
  | none => rfl
  | some q => exact hsame path q hq f

/-! ## Copies -/

theorem copyValue_run {v c : Ref} {type : TypeHandle} {fields : List (FieldHandle × Value)}
    (hv : h.get? v = some (.record type true fields))
    (hc : (copyValue (.object (some v))).run h = (.ok (.object (some c)), h')) :
    v ≠ c ∧ h'.get? v = h.get? v ∧ h'.get? c = h.get? v := by
  have hcopy : Meets (copyValue (.object (some v))) h (fun u h' => u = .object (some ⟨h.objects.size⟩) ∧
      h' = { h with allocated := h.allocated + 1, objects := h.objects.push (.record type true fields) })
      fun _ _ => True := by
    refine Meets.get_bind ?_
    simp only [hv]
    refine Meets.bind ((allocate_meets _).mono (fun _ _ ha => ha) fun _ _ _ => trivial) ?_
    rintro _ _ ⟨rfl, rfl⟩
    exact ⟨rfl, rfl⟩
  obtain ⟨hu, rfl⟩ := hcopy.of_ok hc
  cases hu
  have hlt : v.id < h.objects.size := (Array.getElem?_eq_some_iff.1 hv).1
  refine ⟨fun hvc => ?_, ?_, ?_⟩
  · rw [hvc] at hlt
    exact Nat.lt_irrefl _ hlt
  · rw [hv]
    exact Metadata.getElem?_push_of_some hv
  · rw [hv]
    exact Array.getElem?_push_size

/-- A store changes the object it stores to, and no other. -/
theorem storeField_elsewhere {q r : Ref} (hqr : q ≠ r) (f : FieldSymbol) (x : Value) :
    ((storeField (some q) f x).run h).2.get? r = h.get? r := by
  refine Meets.state (S := fun h' : Heap => h'.get? r = h.get? r) ?_
  unfold storeField getRecord
  refine Meets.bind ((getAs_meets _ _).mono (fun _ _ ha => ha) fun _ _ hh => by rw [hh]) ?_
  rintro ⟨q', type, isValueType, fields⟩ h ⟨rfl, hq, -⟩
  cases hq
  refine Meets.bind ((narrow_meets _ _).mono (fun _ _ ha => ha) fun _ _ hh => by rw [hh]) ?_
  rintro w h ⟨rfl, -⟩
  exact Array.getElem?_setIfInBounds_ne (id_ne hqr)

/-- **Stores to a structure `v` and to the structures inside of it**, as they are at that moment, but not to `c`. -/
inductive Updates (md : Metadata) (v c : Ref) (h : Heap) : Heap → Prop where
  | refl : Updates md v c h h
  | store {h' : Heap} {path : List FieldSymbol} {q : Ref} (f : FieldSymbol) (x : Value) : Updates md v c h h' →
      h'.follow? md path v = some q → q ≠ c → Updates md v c h ((storeField (some q) f x).run h').2

theorem Updates.get?_eq {v c : Ref} (hu : Updates md v c h h') : h'.get? c = h.get? c := by
  induction hu with
  | refl => rfl
  | store f x _ _ hq ih => exact (storeField_elsewhere hq f x).trans ih

/-- **When a copy is independent.** A copy is another object and reads as the original did. Whatever is stored to the
original afterwards and to the structures inside of it, the fields of the copy itself read as before; and the copy as a
whole does so exactly if every structure that the original held when it was copied does. -/
theorem copy_independent_iff {h₀ : Heap} {v c : Ref} {type : TypeHandle} {fields : List (FieldHandle × Value)}
    (hv : h₀.get? v = some (.record type true fields))
    (hc : (copyValue (.object (some v))).run h₀ = (.ok (.object (some c)), h)) (hu : Updates md v c h h') :
    v ≠ c ∧ (∀ path f, h.read? md c path f = h.read? md v path f) ∧
    (∀ f, h'.fieldAt? md c f = h.fieldAt? md c f) ∧
    ((∀ path f, h'.read? md c path f = h.read? md c path f) ↔
      ∀ path q, path ≠ [] → h.follow? md path v = some q → ∀ f, h'.fieldAt? md q f = h.fieldAt? md q f) := by
  obtain ⟨hne, hv₁, hc₁⟩ := copyValue_run hv hc
  -- the copy has the fields of the original, so every path that takes a step leads from both to the same structure
  have hfields : ∀ f, h.fieldAt? md c f = h.fieldAt? md v f := fieldAt?_congr (hc₁.trans hv₁.symm)
  have hsteps : ∀ path, path ≠ [] → h.follow? md path c = h.follow? md path v := by
    intro path hp
    cases path with
    | nil => exact absurd rfl hp
    | cons f path => rw [follow?, follow?, hfields]
  have hown : ∀ f, h'.fieldAt? md c f = h.fieldAt? md c f := fieldAt?_congr hu.get?_eq
  refine ⟨hne, fun path f => ?_, hown, fun hreads path q hp hq f => ?_, fun hheld => read?_congr fun path q hq => ?_⟩
  · cases path with
    | nil => exact hfields f
    | cons g path => rw [read?, read?, hsteps _ (List.cons_ne_nil g path)]
  · -- the copy still leads to `q`, because the last step of the path is something that it reads
    rw [← hsteps path hp] at hq
    have hq' : h'.follow? md path c = some q := by
      obtain ⟨path, g, rfl⟩ : ∃ init g, path = init ++ [g] :=
        ⟨path.dropLast, path.getLast hp, (List.dropLast_concat_getLast hp).symm⟩
      rw [follow?_append_singleton, hreads, ← follow?_append_singleton]
      exact hq
    have hread := hreads path f
    rw [read?, read?, hq, hq'] at hread
    exact hread
  · cases path with
    | nil =>
      cases hq
      exact hown
    | cons g path =>
      rw [hsteps _ (List.cons_ne_nil g path)] at hq
      exact hheld _ q (List.cons_ne_nil g path) hq

/-! ## A structure inside a structure -/

def fieldX : FieldSymbol := ⟨⟨1⟩, "X", ⟨31⟩, ⟨23⟩, .i4, false⟩

def fieldIn : FieldSymbol := ⟨⟨2⟩, "In", ⟨32⟩, ⟨31⟩, .struct, false⟩

/-- The core with a structure `Inner` of one number and a structure `Outer` of one `Inner`. -/
def nestedTables : Metadata :=
  let md := (Metadata.core.defineType "Inner" .struct none).2
  { (md.defineType "Outer" .struct none).2 with fields := #[fieldX, fieldIn] }

/-- An `Outer`, which is object 1; the `Inner` inside of it is object 0. -/
def nestedHeap : Heap := ((newInstance nestedTables ⟨⟨32⟩, "Outer", .struct, true⟩).run {}).2

/-- Its copy is object 2. -/
def copiedHeap : Heap := ((copyValue (.object (some ⟨1⟩))).run nestedHeap).2

/-- A number has been stored to the `Inner` inside the original. -/
def storedHeap : Heap := ((storeField (some ⟨0⟩) fieldX (.int32 9)).run copiedHeap).2

theorem nestedHeap_get? : nestedHeap.get? ⟨1⟩ = some (.record ⟨32⟩ true [(⟨2⟩, .object (some ⟨0⟩))]) := by
  decide +kernel

theorem nestedHeap_copy : (copyValue (.object (some ⟨1⟩))).run nestedHeap = (.ok (.object (some ⟨2⟩)), copiedHeap) :=
  rfl

theorem copiedHeap_follow? : copiedHeap.follow? nestedTables [fieldIn] ⟨1⟩ = some ⟨0⟩ := by decide +kernel

theorem copiedHeap_updates : Updates nestedTables ⟨1⟩ ⟨2⟩ copiedHeap storedHeap :=
  .store fieldX (.int32 9) .refl copiedHeap_follow? (by decide)

/-- The copy's own field reads as before, and yet the copy as a whole does not. -/
theorem nestedHeap_dependent :
    storedHeap.fieldAt? nestedTables ⟨2⟩ fieldIn = copiedHeap.fieldAt? nestedTables ⟨2⟩ fieldIn ∧
    ¬ ∀ path f, storedHeap.read? nestedTables ⟨2⟩ path f = copiedHeap.read? nestedTables ⟨2⟩ path f := by
  obtain ⟨-, -, hown, hiff⟩ := copy_independent_iff nestedHeap_get? nestedHeap_copy copiedHeap_updates
  refine ⟨hown fieldIn, fun hreads => ?_⟩
  have hinner := hiff.1 hreads [fieldIn] ⟨0⟩ (List.cons_ne_nil _ _) copiedHeap_follow? fieldX
  revert hinner
  decide +kernel

/-- **A copy shares the structures inside of it**: after a copy was made, a number that is stored to the structure
inside the original is read from the copy. -/
theorem copy_shares_inner :
    nestedHeap.get? ⟨1⟩ = some (.record ⟨32⟩ true [(⟨2⟩, .object (some ⟨0⟩))]) ∧
      (copyValue (.object (some ⟨1⟩))).run nestedHeap = (.ok (.object (some ⟨2⟩)), copiedHeap) ∧
      Updates nestedTables ⟨1⟩ ⟨2⟩ copiedHeap storedHeap ∧
      copiedHeap.read? nestedTables ⟨2⟩ [fieldIn] fieldX = some (.int32 0) ∧
      storedHeap.read? nestedTables ⟨2⟩ [fieldIn] fieldX = some (.int32 9) :=
  ⟨nestedHeap_get?, nestedHeap_copy, copiedHeap_updates, by decide +kernel, by decide +kernel⟩

end ManagedCode.Heap
