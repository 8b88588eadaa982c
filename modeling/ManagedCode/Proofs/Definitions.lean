import ManagedCode.Proofs.Storage

/-!
# Programs as sequences of calls

A program is made by calls that define types, fields, strings, signatures, methods, bodies and overrides. `built calls`
are its tables after the calls, the latest of which comes first: that order lets a statement about a whole program go by
recursion over the calls, with everything that was there at a call given by the rest of the list.
-/

namespace ManagedCode.Metadata

/-- **A call that defines something**, with its arguments. -/
inductive Call where
  | defineType (name : String) (kind : Kind) (base : Option Token)
  | defineField (declaring : Token) (name : String) (type : Token) (isStatic : Bool)
  | defineString (s : String)
  | defineSignature (s : Signature)
  | declareMethod (declaring : Token) (name : String) (signature : Signature) (isVirtual : Bool)
  | defineBody (method : Token) (body : Body)
  | defineMethod (name : String) (signature : Signature) (body : Body)
  | overrideMethod (base type implementation : Token)

namespace Call

/-- What a call gives and the tables it leaves, which are those before it if it is refused. -/
def orKept (md : Metadata) :
    Except ResolutionError (Option Token × Metadata) → Except ResolutionError (Option Token) × Metadata
  | .ok (t, md') => (.ok t, md')
  | .error e => (.error e, md)

/-- **Performs the call**: the token that it gives, if it gives one, or its error, and the tables afterwards. -/
def perform (md : Metadata) : Call → Except ResolutionError (Option Token) × Metadata
  | defineType name kind base => ((md.defineType name kind base).map (.ok ∘ some) id)
  | defineField declaring name type isStatic =>
    orKept md ((md.defineField declaring name type isStatic).map (Prod.map some id))
  | defineString s => ((md.defineString s).map (.ok ∘ some) id)
  | defineSignature s => ((md.defineSignature s).map (.ok ∘ some) id)
  | declareMethod declaring name signature isVirtual =>
    ((md.declareMethod declaring name signature isVirtual).map (.ok ∘ some) id)
  | defineBody method body => orKept md ((md.defineBody method body).map (none, ·))
  | defineMethod name signature body => ((md.defineMethod name signature body).map (Except.map some) id)
  | overrideMethod base type implementation => orKept md ((md.overrideMethod base type implementation).map (none, ·))

end Call

/-- **The tables after a sequence of calls**, the latest of which comes first. -/
def built : List Call → Metadata
  | [] => core
  | c :: calls => (c.perform (built calls)).2

variable {md md' md'' : Metadata}

/-! ## What succeeds -/

theorem defineBody_eq (md : Metadata) (method : Token) (body : Body) : md.defineBody method body =
    (md.resolveMethod method).map fun m =>
      { md with methods := md.methods.setIfInBounds (method.row - 1) { m with body := some body } } := by
  unfold defineBody
  cases md.resolveMethod method <;> rfl

theorem Extends.trans (h : md.Extends md') (h' : md'.Extends md'') : md.Extends md'' where
  types := fun i r hr => h'.types i r (h.types i r hr)
  fields := fun i f hf => h'.fields i f (h.fields i f hf)
  signatures := fun i s hs => h'.signatures i s (h.signatures i s hs)
  methods := by
    intro i m hm
    obtain ⟨b, hb⟩ := h.methods i m hm
    obtain ⟨b', hb'⟩ := h'.methods i _ hb
    exact ⟨b', hb'⟩

namespace Call

/-- **What definitions keep, calls keep.** -/
theorem perform_keeps {P : Metadata → Prop} (hP : ∀ md₁ md₂, P md₁ → Defines md₁ md₂ → P md₂) (hmd : P md) (c : Call) :
    P (c.perform md).2 := by
  cases c with
  | defineType name kind base => exact hP _ _ hmd (.type md name kind base)
  | defineString s => exact hP _ _ hmd (.string md s)
  | defineSignature s => exact hP _ _ hmd (.signature md s)
  | declareMethod declaring name signature isVirtual => exact hP _ _ hmd (.method md declaring name signature isVirtual)
  | defineField declaring name type isStatic =>
    rw [perform]
    cases hf : md.defineField declaring name type isStatic with
    | error e => exact hmd
    | ok r => exact hP _ _ hmd (.field hf)
  | defineBody method body =>
    rw [perform]
    cases hb : md.defineBody method body with
    | error e => exact hmd
    | ok md₁ => exact hP _ _ hmd (.body hb)
  | overrideMethod base type implementation =>
    rw [perform]
    cases ho : md.overrideMethod base type implementation with
    | error e => exact hmd
    | ok md₁ => exact hP _ _ hmd (.override ho)
  | defineMethod name signature body =>
    have hdeclared := hP _ _ hmd (.method md Core.object.token name signature false)
    show P (md.defineMethod name signature body).2
    unfold Metadata.defineMethod
    dsimp only
    split
    · rename_i md₁ hb
      exact hP _ _ hdeclared (.body hb)
    · exact hdeclared

theorem perform_extends (md : Metadata) (c : Call) : md.Extends (c.perform md).2 :=
  perform_keeps (P := md.Extends) (fun _ _ h hd => h.trans hd.extends) (.refl md) c

end Call

theorem isDefined_built : ∀ calls, (built calls).Defined
  | [] => .core
  | c :: calls => c.perform_keeps (P := Defined) (fun _ _ h hd => h.defines hd) (isDefined_built calls)

theorem wellFormed_built (calls : List Call) : (built calls).WellFormed := (isDefined_built calls).wellFormed

theorem extends_built (calls : List Call) : ∀ later, (built calls).Extends (built (later ++ calls))
  | [] => .refl _
  | c :: later => (extends_built calls later).trans (c.perform_extends _)

/-! ## Types and overrides -/

/-- The base of a type that is defined: what the token has the number of, or else the root of its kind. -/
def baseOf (kind : Kind) : Option Token → TypeHandle
  | some t => ⟨t.row⟩
  | none => if kind != .object then Core.valueType else Core.object

theorem defineType_eq (md : Metadata) (name : String) (kind : Kind) (base : Option Token) :
    (md.defineType name kind base).2 = { md with
      types := md.types.push ⟨⟨⟨md.types.size + 1⟩, name, kind, kind != .object⟩, some (baseOf kind base)⟩ } := by
  cases base <;> rfl

theorem defineMethod_methods (md : Metadata) (name : String) (signature : Signature) (body : Body) :
    ∃ methods, (md.defineMethod name signature body).2 = { md with methods } := by
  unfold defineMethod declareMethod
  dsimp only
  rw [defineBody_eq]
  cases resolveMethod _ _ with
  | error e => exact ⟨_, rfl⟩
  | ok m => exact ⟨_, rfl⟩

namespace Call

theorem perform_defineField (md : Metadata) (declaring : Token) (name : String) (type : Token) (isStatic : Bool) :
    ∃ fields, ((defineField declaring name type isStatic).perform md).2 = { md with fields } := by
  rw [perform]
  cases hf : md.defineField declaring name type isStatic with
  | error e => exact ⟨md.fields, rfl⟩
  | ok r =>
    obtain ⟨t, md'⟩ := r
    obtain ⟨owner, ty, -, -, rfl⟩ := defineField_ok hf
    exact ⟨_, rfl⟩

/-- The override that a call registers. -/
def registers? (md : Metadata) : Call → Option ((MethodHandle × TypeHandle) × MethodHandle)
  | overrideMethod base type implementation =>
    match md.resolveMethod base, md.resolveMethod implementation, md.resolveType type with
    | .ok m, .ok k, .ok t => some ((m.handle, t.handle), k.handle)
    | _, _, _ => none
  | _ => none

/-- **Only a definition of a type adds a type, and only an override adds an override.** -/
theorem perform_types_overrides (md : Metadata) (c : Call) :
    (c.perform md).2.types = (match c with
      | defineType name kind base => (md.defineType name kind base).2.types
      | _ => md.types) ∧
    (c.perform md).2.overrides = (c.registers? md).toList ++ md.overrides := by
  cases c with
  | defineField declaring name type isStatic =>
    obtain ⟨fields, hfields⟩ := perform_defineField md declaring name type isStatic
    rw [hfields]
    exact ⟨rfl, rfl⟩
  | defineBody method body =>
    rw [perform, defineBody_eq]
    cases md.resolveMethod method with
    | error e => exact ⟨rfl, rfl⟩
    | ok m => exact ⟨rfl, rfl⟩
  | defineMethod name signature body =>
    obtain ⟨methods, hmethods⟩ := md.defineMethod_methods name signature body
    show (md.defineMethod name signature body).2.types = _ ∧ (md.defineMethod name signature body).2.overrides = _
    rw [hmethods]
    exact ⟨rfl, rfl⟩
  | overrideMethod base type implementation =>
    rw [perform, registers?, Metadata.overrideMethod]
    cases md.resolveMethod base with
    | error e => exact ⟨rfl, rfl⟩
    | ok m =>
      cases md.resolveMethod implementation with
      | error e => exact ⟨rfl, rfl⟩
      | ok k => cases md.resolveType type <;> exact ⟨rfl, rfl⟩
  | _ => exact ⟨rfl, rfl⟩

end Call

end ManagedCode.Metadata
