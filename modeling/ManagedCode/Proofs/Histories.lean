import ManagedCode.Proofs.Locations

/-!
# What a location holds is what was last stored to it

A history is a list of operations that were performed, on a heap that was empty at first. Of every location it says
which value was given to the last store to it that did not fail (`lastStored?`), which operation made it, and what it
held to begin with (`Event.Initial`).

One operation does one of two things to a location that there is: it stores to it, or it leaves it as it is
(`Event.lawful`, one case per operation). So a history says everything about the locations of its heap
(`History.settled`), and loads give what it says.
-/

namespace ManagedCode.Heap

/-! ## Operations -/

/-- **An operation of the heap**, with its arguments. -/
inductive Call where
  | newString (s : String)
  | newHandle (s : Symbol)
  | newInstance (type : TypeSymbol)
  | newArray (element : TypeSymbol) (length : Nat)
  | newException (kind : FaultKind) (message : String)
  | zeroOf (type : TypeSymbol)
  | copyValue (v : Value)
  | box (type : TypeSymbol) (v : Value)
  | unbox (r : Option Ref) (type : TypeSymbol)
  | unboxPointer (r : Option Ref) (type : TypeSymbol)
  | loadBoxed (r : Option Ref)
  | storeBoxed (r : Option Ref) (v : Value)
  | arrayLength (r : Option Ref)
  | elementSize (r : Option Ref)
  | sizeOf (type : TypeSymbol)
  | loadElement (r : Option Ref) (index : Nat) (kind : Kind)
  | storeElement (r : Option Ref) (index : Nat) (kind : Kind) (v : Value)
  | loadField (r : Option Ref) (f : FieldSymbol)
  | storeField (r : Option Ref) (f : FieldSymbol) (v : Value)
  | loadStatic (f : FieldSymbol)
  | storeStatic (f : FieldSymbol) (v : Value)

namespace Call

/-- Performs the operation. The result is what it gives, if that is a value. -/
def perform (md : Metadata) : Call → HeapM (Option Value)
  | newString s => return some (.object (some (← Heap.newString s)))
  | newHandle s => return some (.object (some (← Heap.newHandle s)))
  | newInstance type => return some (.object (some (← Heap.newInstance md type)))
  | newArray element length => return some (.object (some (← Heap.newArray md element length)))
  | newException kind message => return some (.object (some (← Heap.newException md kind message)))
  | zeroOf type => return some (← Heap.zeroOf md type)
  | copyValue v => return some (← Heap.copyValue v)
  | box type v => return some (.object (← Heap.box type v))
  | unbox r type => return some (← Heap.unbox r type)
  | unboxPointer r type => return some (.pointer (← Heap.unboxPointer r type))
  | loadBoxed r => return some (← Heap.loadBoxed r)
  | storeBoxed r v => do Heap.storeBoxed md r v; return none
  | arrayLength r => do let _ ← Heap.arrayLength r; return none
  | elementSize r => do let _ ← Heap.elementSize md r; return none
  | sizeOf type => do let _ ← Heap.sizeOf md type; return none
  | loadElement r index kind => return some (← Heap.loadElement r index kind)
  | storeElement r index kind v => do Heap.storeElement md r index kind v; return none
  | loadField r f => return some (← Heap.loadField md r f)
  | storeField r f v => do Heap.storeField r f v; return none
  | loadStatic f => return some (← Heap.loadStatic md f)
  | storeStatic f v => do Heap.storeStatic f v; return none

/-- The types and fields that the operation is given are those of the tables. -/
def Resolved (md : Metadata) : Call → Prop
  | newInstance type | newArray type _ | zeroOf type | box type _ | unbox _ type | unboxPointer _ type | sizeOf type =>
    md.HasType type
  | loadField _ f | storeField _ f _ | loadStatic f | storeStatic f _ => md.HasField f
  | _ => True

/-- The location that a store is to, with the value that it is given. -/
def store? : Call → Option (Location × Value)
  | storeElement (some r) index _ v => some (.inside r (.element index), v)
  | storeField (some r) f v => some (.inside r (.field f.handle), v)
  | storeStatic f v => some (.static f.handle, v)
  | storeBoxed (some r) v => some (.inside r .content, v)
  | _ => none

/-- The location that a load is of. -/
def load? : Call → Option Location
  | loadElement (some r) index _ => some (.inside r (.element index))
  | loadField (some r) f => some (.inside r (.field f.handle))
  | loadStatic f => some (.static f.handle)
  | loadBoxed (some r) | unbox (some r) _ => some (.inside r .content)
  | _ => none

/-- **What a load gives for what the location holds.** An element is narrowed to the kind that is asked for, and
unboxing copies; any other load gives just that. -/
def Delivers (h : Heap) (w v : Value) : Call → Prop
  | loadElement _ _ kind => kind.coerce w = some v
  | unbox .. => ((Heap.copyValue w).run h).1 = .ok v
  | _ => v = w

/-- The value that the operation makes a copy of. -/
def copied? (h : Heap) : Call → Option Value
  | copyValue v | box _ v => some v
  | unbox (some r) _ => h.at? (.inside r .content)
  | _ => none

end Call

/-! ## Histories -/

/-- **An operation that was performed**, with the tables and the heap at that time. -/
structure Event where
  tables : Metadata
  call : Call
  before : Heap

namespace Event

/-- The result or the failure, with the heap afterwards. -/
def outcome (e : Event) : Except HeapFailure (Option Value) × Heap := (e.call.perform e.tables).run e.before

def after (e : Event) : Heap := e.outcome.2

/-- The value that was given to the location, if the operation is a store to it and did not fail. -/
def stored? (e : Event) (l : Location) : Option Value :=
  match e.outcome.1, e.call.store? with
  | .ok _, some (l', v) => if l' = l then some v else none
  | _, _ => none

/-- **What a location that the operation makes holds to begin with.** A box holds the value that was boxed; a field of a
copy holds what that field of the original held; any other location holds the zero of its type. -/
def Provides (e : Event) (t : TypeSymbol) (l : Location) (w : Value) : Prop :=
  match l, e.call.copied? e.before with
  | .inside _ .content, _ => ∃ v, e.call = .box t v ∧ Boxes e.before t v w
  | .inside _ (.field k), some v => ∃ r, v = .object (some r) ∧ e.before.at? (.inside r (.field k)) = some w
  | _, _ => Zeroed t e.before e.after w

/-- **The operation made the location**, and this is its initial content. -/
def Initial (e : Event) (t : TypeSymbol) (l : Location) (w : Value) : Prop :=
  e.before.at? l = none ∧ e.after.at? l = some w ∧ e.Provides t l w

end Event

/-- The value that was given to the last store to a location that did not fail; the latest event comes first. -/
def lastStored? (es : List Event) (l : Location) : Option Value := es.findSome? (·.stored? l)

/-- **The operations that led to a heap**, the latest first, while the tables were being defined. -/
inductive History : List Event → Metadata → Heap → Prop where
  | fresh {md : Metadata} (limit : Option Nat) : md.Defined → History [] md { limit }
  | performed {es : List Event} {md : Metadata} {h : Heap} {c : Call} : History es md h → c.Resolved md →
      History (⟨md, c, h⟩ :: es) md (Event.after ⟨md, c, h⟩)
  | defined {es : List Event} {md md' : Metadata} {h : Heap} : History es md h → md.Defines md' → History es md' h

/-! ## What one operation does -/

namespace Event

/-- **What one operation does to the locations.** A store that does not fail puts the narrowed value into its location;
a location that there is not may be made; and that is all. -/
structure Lawful (e : Event) : Prop where
  stored : ∀ l v, e.stored? l = some v →
    ∃ t w, e.before.Declares e.tables l t ∧ t.kind.coerce v = some w ∧ e.after.at? l = some w
  kept : ∀ l w, e.stored? l = none → e.before.at? l = some w → e.after.at? l = some w
  made : ∀ l w, e.stored? l = none → e.before.at? l = none → e.after.at? l = some w →
    ∃ t, e.after.Declares e.tables l t ∧ e.Initial t l w
  declares : ∀ l t, e.before.Declares e.tables l t → e.after.Declares e.tables l t

variable {e : Event} {P : Object → Prop} {S : FieldHandle × Value → Prop}

theorem stored?_of_store?_eq_none (hs : e.call.store? = none) (l : Location) : e.stored? l = none := by
  unfold stored?
  rw [hs]
  split <;> simp_all

/-- An operation that only adds is lawful if what it adds holds the right things to begin with. -/
theorem Lawful.of_adds (ha : Adds P S e.before e.after) (hs : ∀ l, e.stored? l = none)
    (hP : ∀ r s o w, P o → o.slot? s = some w → ∃ t, o.Declares e.tables s t ∧ e.Provides t (.inside r s) w)
    (hS : ∀ k w, S (k, w) → ∃ t, e.tables.FieldType k t ∧ e.Provides t (.static k) w) : e.Lawful where
  stored := fun l v hv => by cases (hs l).symm.trans hv
  kept := fun l w _ hw => ha.at?_of_some hw
  made := by
    intro l w _ hn hw
    rcases ha.new_cases hn hw with ⟨k, rfl, hk⟩ | ⟨r, s, o, rfl, ho, hp, hslot⟩
    · obtain ⟨t, ht, hprovides⟩ := hS k w hk
      exact ⟨t, ht, hn, hw, hprovides⟩
    · obtain ⟨t, ht, hprovides⟩ := hP r s o w hp hslot
      exact ⟨t, ⟨o, ho, ht⟩, hn, hw, hprovides⟩
  declares := fun l t hd => ha.declares hd

theorem Lawful.of_grown (hg : Grown e.tables e.before e.after) (hs : e.call.store? = none)
    (hc : e.call.copied? e.before = none) : e.Lawful := by
  refine .of_adds hg (stored?_of_store?_eq_none hs) ?_ ?_
  · intro r s o w ho hslot
    cases o with
    | array element items =>
      cases s with
      | element i => exact ⟨element, rfl, ho w (Array.mem_of_getElem? hslot)⟩
      | _ => cases hslot
    | record type isValueType fields =>
      cases s with
      | field k =>
        obtain ⟨t, ht, hz⟩ := ho (k, w) (mem_of_lookup hslot)
        refine ⟨t, ht, ?_⟩
        simp only [Provides, hc]
        exact hz
      | _ => cases hslot
    | boxed type v => exact ho.elim
    | _ => cases hslot
  · rintro k w ⟨t, ht, hz⟩
    exact ⟨t, ht, hz⟩

/-- The fields of a copy are those of the original, which are declared. -/
theorem provides_of_copied {v w : Value} {s : Slot} {o : Object} (hc : e.call.copied? e.before = some v)
    (hknown : e.before.Known e.tables) (ho : Copied e.before v o) (hslot : o.slot? s = some w) (r : Ref) :
    ∃ t, o.Declares e.tables s t ∧ e.Provides t (.inside r s) w := by
  obtain ⟨q, type, fields, rfl, hq, rfl⟩ := ho
  cases s with
  | field k =>
    have hw : e.before.at? (.inside q (.field k)) = some w := Option.bind_eq_some_iff.2 ⟨_, hq, hslot⟩
    obtain ⟨t, o, ho, ht⟩ := hknown _ w hw
    cases hq.symm.trans ho
    refine ⟨t, ht, ?_⟩
    simp only [Provides, hc]
    exact ⟨q, rfl, hw⟩
  | _ => cases hslot

theorem Lawful.of_same (hsame : e.after = e.before) (hs : ∀ l, e.stored? l = none) : e.Lawful := by
  have hadds : Adds (fun _ => False) (fun _ => False) e.before e.after := by
    rw [hsame]
    exact .refl _ _ e.before
  exact .of_adds hadds hs (fun _ _ _ _ hf => hf.elim) fun _ _ hf => hf.elim

theorem Lawful.of_copy (hmeets : Meets (e.call.perform e.tables) e.before
    (fun _ h' => ∃ v, e.call.copied? e.before = some v ∧ Adds (Copied e.before v) (fun _ => False) e.before h')
    fun _ h' => h' = e.before) (hs : e.call.store? = none) (hknown : e.before.Known e.tables) : e.Lawful := by
  rcases hr : e.outcome with ⟨f | a, h'⟩
  · exact .of_same ((congrArg Prod.snd hr).trans (hmeets.of_error hr)) (stored?_of_store?_eq_none hs)
  · obtain ⟨v, hv, ha⟩ := hmeets.of_ok hr
    have hafter : e.after = h' := congrArg Prod.snd hr
    rw [← hafter] at ha
    exact .of_adds ha (stored?_of_store?_eq_none hs)
      (fun r s o w ho hslot => provides_of_copied hv hknown ho hslot r) fun _ _ hf => hf.elim

/-- A store fails and changes nothing, or puts the value into its location. -/
theorem Lawful.of_store (hmeets : Meets (e.call.perform e.tables) e.before
    (fun _ h' => ∃ l v, e.call.store? = some (l, v) ∧ Stored e.tables l v e.before h') fun _ h' => h' = e.before) :
    e.Lawful := by
  rcases hr : e.outcome with ⟨f | a, h'⟩
  · exact .of_same ((congrArg Prod.snd hr).trans (hmeets.of_error hr)) fun l => by simp [stored?, hr]
  · obtain ⟨l, v, hl, t, w, hd, hc, hw⟩ := hmeets.of_ok hr
    have hafter : e.after = h' := congrArg Prod.snd hr
    have hstored : ∀ l', e.stored? l' = if l = l' then some v else none := fun l' => by simp [stored?, hr, hl]
    rw [← hafter] at hw
    -- of every location but `l` the store says nothing, and so nothing happens to it
    have helsewhere : ∀ l', e.stored? l' = none → e.after.at? l' = e.before.at? l' := by
      intro l' hn
      refine hw.elsewhere l' fun hl' => ?_
      simp [hstored, hl'] at hn
    constructor
    · intro l' v' hv'
      rw [hstored] at hv'
      split at hv'
      · rename_i heq
        subst heq
        cases hv'
        exact ⟨t, w, hd, hc, hw.here⟩
      · cases hv'
    · intro l' w' hn hw'
      rw [helsewhere l' hn, hw']
    · intro l' w' hn hb hw'
      rw [helsewhere l' hn, hb] at hw'
      cases hw'
    · exact hw.declares

/-- **Every operation is lawful**, on types and fields of the tables and on any values. -/
theorem lawful (hmd : e.tables.WellFormed) (hknown : e.before.Known e.tables) (hc : e.call.Resolved e.tables) :
    e.Lawful := by
  obtain ⟨md, c, h⟩ := e
  cases c with
  | newString s => exact .of_grown ((constructs_allocate (o := .string s) fun _ => trivial).grown h) rfl rfl
  | newHandle s => exact .of_grown ((constructs_allocate (o := .handle s) fun _ => trivial).grown h) rfl rfl
  | newInstance type => exact .of_grown ((constructs_newInstance hmd type).grown h) rfl rfl
  | newArray element length => exact .of_grown ((constructs_newArray hmd element length).grown h) rfl rfl
  | newException kind message => exact .of_grown ((Grown.refl h).add (.push trivial h.allocated)) rfl rfl
  | zeroOf type => exact .of_grown ((constructs_zeroOf hmd type).grown h) rfl rfl
  | unboxPointer r type => exact .of_grown ((constructs_unboxPointer r type).grown h) rfl rfl
  | loadBoxed r => exact .of_grown ((constructs_loadBoxed r).grown h) rfl rfl
  | arrayLength r => exact .of_grown ((constructs_arrayLength r).grown h) rfl rfl
  | elementSize r => exact .of_grown ((constructs_elementSize r).grown h) rfl rfl
  | sizeOf type => exact .of_grown ((constructs_sizeOf type).grown h) rfl rfl
  | loadElement r index kind => exact .of_grown ((constructs_loadElement r index kind).grown h) rfl rfl
  | loadField r f => exact .of_grown ((constructs_loadField hmd r hc).grown h) rfl rfl
  | loadStatic f => exact .of_grown ((constructs_loadStatic hmd hc).grown h) rfl rfl
  | copyValue v => exact .of_copy (Meets.bind (copyValue_adds v) fun _ _ ha => ⟨v, rfl, ha⟩) rfl hknown
  | box type v =>
    have hadds : Adds (MadeByBox h type v) (fun _ => False) h (after ⟨md, .box type v, h⟩) :=
      Meets.state (S := Adds _ _ h) (Meets.bind (box_adds type v) fun _ _ ha => ha)
    refine .of_adds hadds (stored?_of_store?_eq_none rfl) (fun r s o w ho hslot => ?_) fun _ _ hf => hf.elim
    rcases ho with ho | ⟨w', rfl, hboxes⟩
    · exact provides_of_copied rfl hknown ho hslot r
    · cases s with
      | content =>
        cases hslot
        exact ⟨type, hc, v, rfl, hboxes⟩
      | _ => cases hslot
  | unbox r type =>
    refine .of_copy (Meets.bind (unbox_adds r type) ?_) rfl hknown
    rintro v h' ⟨q, w, rfl, hw, -, ha⟩
    exact ⟨w, hw, ha⟩
  | storeBoxed r v =>
    refine .of_store (Meets.bind (storeBoxed_stored hknown r v) ?_)
    rintro _ h' ⟨q, rfl, hst⟩
    exact ⟨_, v, rfl, hst⟩
  | storeElement r index kind v =>
    refine .of_store (Meets.bind (storeElement_stored r index kind v) ?_)
    rintro _ h' ⟨q, rfl, hst⟩
    exact ⟨_, v, rfl, hst⟩
  | storeField r f v =>
    refine .of_store (Meets.bind (storeField_stored hmd r hc v) ?_)
    rintro _ h' ⟨q, rfl, hst⟩
    exact ⟨_, v, rfl, hst⟩
  | storeStatic f v =>
    exact .of_store (Meets.bind (storeStatic_stored hmd hc v) fun _ h' hst => ⟨_, v, rfl, hst⟩)

end Event

/-! ## What a history does -/

variable {es : List Event} {md : Metadata} {h : Heap}

/-- **What a location of a type is to hold after a history**: what its kind makes of the value that was last stored to
it or, if there was none, what it held when it was made. -/
def Expected (es : List Event) (t : TypeSymbol) (l : Location) (w : Value) : Prop :=
  match lastStored? es l with
  | some v => t.kind.coerce v = some w
  | none => ∃ e ∈ es, e.Initial t l w

/-- Everything is where a history says. -/
structure Settled (es : List Event) (md : Metadata) (h : Heap) : Prop where
  held : ∀ l w, h.at? l = some w → ∃ t, h.Declares md l t ∧ Expected es t l w
  absent : ∀ l, h.at? l = none → lastStored? es l = none

theorem lastStored?_cons (e : Event) (es : List Event) (l : Location) :
    lastStored? (e :: es) l = (e.stored? l).or (lastStored? es l) := by
  unfold lastStored?
  rw [List.findSome?_cons]
  cases e.stored? l with
  | none => rfl
  | some v => rfl

theorem Settled.known (hs : Settled es md h) : h.Known md := by
  intro l w hw
  obtain ⟨t, ht, -⟩ := hs.held l w hw
  exact ⟨t, ht⟩

/-- **One operation** leaves everything where the longer history says. -/
theorem Settled.step {e : Event} (hs : Settled es e.tables e.before) (he : e.Lawful) :
    Settled (e :: es) e.tables e.after where
  held := by
    intro l w hw
    cases hstored : e.stored? l with
    | some v =>
      obtain ⟨t, w', hd, hc, hw'⟩ := he.stored l v hstored
      cases hw'.symm.trans hw
      refine ⟨t, he.declares l t hd, ?_⟩
      simpa [Expected, lastStored?_cons, hstored] using hc
    | none =>
      cases hb : e.before.at? l with
      | some w' =>
        cases (he.kept l w' hstored hb).symm.trans hw
        obtain ⟨t, hd, hexp⟩ := hs.held l w hb
        refine ⟨t, he.declares l t hd, ?_⟩
        unfold Expected at hexp ⊢
        rw [lastStored?_cons, hstored, Option.none_or]
        split
        · simpa only [*] using hexp
        · rename_i hlast
          rw [hlast] at hexp
          obtain ⟨e', he', hinit⟩ := hexp
          exact ⟨e', List.mem_cons_of_mem e he', hinit⟩
      | none =>
        obtain ⟨t, hd, hinit⟩ := he.made l w hstored hb hw
        refine ⟨t, hd, ?_⟩
        simp only [Expected, lastStored?_cons, hstored, hs.absent l hb, Option.none_or]
        exact ⟨e, List.mem_cons_self, hinit⟩
  absent := by
    intro l hn
    rw [lastStored?_cons]
    cases hstored : e.stored? l with
    | some v =>
      obtain ⟨t, w, -, -, hw⟩ := he.stored l v hstored
      cases hn.symm.trans hw
    | none =>
      cases hb : e.before.at? l with
      | some w => cases hn.symm.trans (he.kept l w hstored hb)
      | none => exact hs.absent l hb

theorem Settled.extends {md' : Metadata} (hs : Settled es md h) (he : md.Extends md') : Settled es md' h where
  held := by
    intro l w hw
    obtain ⟨t, hd, hexp⟩ := hs.held l w hw
    exact ⟨t, hd.extends he, hexp⟩
  absent := hs.absent

theorem History.isDefined (hh : History es md h) : md.Defined := by
  induction hh with
  | fresh limit hd => exact hd
  | performed _ _ ih => exact ih
  | defined _ hd ih => exact .defines ih hd

/-- **Along a whole history** everything is where the history says. -/
theorem History.settled (hh : History es md h) : Settled es md h := by
  induction hh with
  | fresh limit hd =>
    constructor
    · intro l w hw
      cases l <;> cases hw
    · exact fun l _ => rfl
  | @performed es md h c hh hc ih => exact ih.step (Event.lawful hh.isDefined.wellFormed ih.known hc)
  | defined _ hd ih => exact ih.extends hd.extends

/-- What a load gives, by what its location holds. -/
theorem Call.loads {c : Call} {l : Location} (hmd : md.WellFormed) (hc : c.Resolved md) (hl : c.load? = some l) :
    Meets (c.perform md) h (fun a h' => ∃ v w, a = some v ∧ c.Delivers h w v ∧ Reads md l h h' w) fun _ _ => True := by
  cases c with
  | loadElement r index kind =>
    have hload : Constructs md (Heap.loadElement r index kind) _ := constructs_loadElement r index kind
    refine Meets.bind (hload h).ignore_error ?_
    rintro v h' ⟨-, q, w, rfl, hw, hv⟩
    cases hl
    exact ⟨v, w, rfl, hv, .inl hw⟩
  | loadField r f =>
    refine Meets.bind (constructs_loadField hmd r hc h).ignore_error ?_
    rintro v h' ⟨-, q, rfl, hv⟩
    cases hl
    exact ⟨v, v, rfl, rfl, hv⟩
  | loadStatic f =>
    refine Meets.bind (constructs_loadStatic hmd hc h).ignore_error ?_
    rintro v h' ⟨-, hv⟩
    cases hl
    exact ⟨v, v, rfl, rfl, hv⟩
  | loadBoxed r =>
    have hload : Constructs md (Heap.loadBoxed r) _ := constructs_loadBoxed r
    refine Meets.bind (hload h).ignore_error ?_
    rintro v h' ⟨-, q, rfl, hv⟩
    cases hl
    exact ⟨v, v, rfl, rfl, .inl hv⟩
  | unbox r type =>
    refine Meets.bind (unbox_adds r type).ignore_error ?_
    rintro v h' ⟨q, w, rfl, hw, hv, -⟩
    cases hl
    exact ⟨v, w, rfl, hv, .inl hw⟩
  | _ => cases hl

/-- **The heap is a store of independent locations.** Whatever operations led to it, a load that succeeds gives what was
last stored to its location without failing, narrowed to the type of the location, or else what the location held to
begin with: what it was made with or, where there is nothing yet, the zero of its type. And an operation leaves a
location as it is, unless it is a store to that very location that does not fail, or makes it. -/
theorem loads_give_last_store (hh : History es md h) {c : Call} (hc : c.Resolved md) (l : Location) :
    (∀ v h', c.load? = some l → (c.perform md).run h = (.ok (some v), h') →
      ∃ t w, h.Declares md l t ∧ c.Delivers h w v ∧
        match lastStored? es l with
        | some u => t.kind.coerce u = some w
        | none => (∃ e ∈ es, e.Initial t l w) ∨ h.at? l = none ∧ Zeroed t h h' w) ∧
    ((Event.mk md c h).stored? l = none →
      (Event.mk md c h).after.at? l = h.at? l ∨ h.at? l = none ∧ ∃ t w, (Event.mk md c h).Initial t l w) := by
  have hs := hh.settled
  have hmd := hh.isDefined.wellFormed
  constructor
  · intro v h' hl hrun
    obtain ⟨v', w, hv, hdelivers, hreads⟩ := (Call.loads hmd hc hl).of_ok hrun
    cases hv
    rcases hreads with hw | ⟨hn, t, ht, hz⟩
    · obtain ⟨t, ht, hexp⟩ := hs.held l w hw
      refine ⟨t, w, ht, hdelivers, ?_⟩
      unfold Expected at hexp
      split
      · simpa only [*] using hexp
      · rename_i hlast
        rw [hlast] at hexp
        exact .inl hexp
    · refine ⟨t, w, ht, hdelivers, ?_⟩
      rw [hs.absent l hn]
      exact .inr ⟨hn, hz⟩
  · intro hstored
    have he : (Event.mk md c h).Lawful := Event.lawful hmd hs.known hc
    cases hb : h.at? l with
    | some w => exact .inl (he.kept l w hstored hb)
    | none =>
      cases ha : (Event.mk md c h).after.at? l with
      | none => exact .inl rfl
      | some w =>
        obtain ⟨t, -, hinit⟩ := he.made l w hstored hb ha
        exact .inr ⟨rfl, t, w, hinit⟩

/-! ## A number that is stored as a signed byte -/

/-- The first of two elements. -/
def firstByte : Location := .inside ⟨0⟩ (.element 0)

def bytesMade : Event := ⟨.core, .newArray byteType 2, {}⟩

def byteStored : Event := ⟨.core, .storeElement (some ⟨0⟩) 0 .i1 (.int32 200), bytesMade.after⟩

/-- A reference is no number. -/
def nullRefused : Event := ⟨.core, .storeElement (some ⟨0⟩) 0 .i1 .null, byteStored.after⟩

def neighbourStored : Event := ⟨.core, .storeElement (some ⟨0⟩) 1 .i1 (.int32 7), nullRefused.after⟩

theorem history_byteStored : History [byteStored, bytesMade] .core byteStored.after :=
  .performed (.performed (.fresh none .core) core_hasType.2) trivial

theorem history_neighbourStored :
    History [neighbourStored, nullRefused, byteStored, bytesMade] .core neighbourStored.after :=
  .performed (.performed history_byteStored trivial) trivial

/-- As an unsigned byte the element gives the number back, through what a signed byte keeps of it; the refused store and
the one to the other element did nothing to it. -/
theorem firstByte_gives_last_store :
    (Call.perform .core (.loadElement (some ⟨0⟩) 0 .u1)).run neighbourStored.after =
      (.ok (some (.int32 200)), neighbourStored.after) ∧
    lastStored? [neighbourStored, nullRefused, byteStored, bytesMade] firstByte = some (.int32 200) ∧
    (∃ t w, neighbourStored.after.Declares .core firstByte t ∧ Kind.u1.coerce w = some (.int32 200) ∧
      t.kind.coerce (.int32 200) = some w) ∧
    nullRefused.stored? firstByte = none ∧ nullRefused.after.at? firstByte = some (.int32 (-56)) := by
  have hrun : (Call.perform .core (.loadElement (some ⟨0⟩) 0 .u1)).run neighbourStored.after =
      (.ok (some (.int32 200)), neighbourStored.after) := rfl
  have hlast : lastStored? [neighbourStored, nullRefused, byteStored, bytesMade] firstByte = some (.int32 200) := rfl
  have hrefused : nullRefused.stored? firstByte = none := rfl
  have hbefore : byteStored.after.at? firstByte = some (.int32 (-56)) := by decide +kernel
  obtain ⟨hload, -⟩ := loads_give_last_store history_neighbourStored
    (c := .loadElement (some ⟨0⟩) 0 .u1) trivial firstByte
  obtain ⟨t, w, ht, hw, hgiven⟩ := hload _ _ rfl hrun
  rw [hlast] at hgiven
  obtain ⟨-, hkept⟩ := loads_give_last_store history_byteStored
    (c := .storeElement (some ⟨0⟩) 0 .i1 .null) trivial firstByte
  refine ⟨hrun, hlast, ⟨t, w, ht, hw, hgiven⟩, hrefused, ?_⟩
  rcases hkept hrefused with hsame | ⟨hnone, -⟩
  · exact hsame.trans hbefore
  · cases hbefore.symm.trans hnone

end ManagedCode.Heap
