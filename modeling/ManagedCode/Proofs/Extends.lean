import ManagedCode.Proofs.Flow

/-!
# Tables that grow

A program may still be defined while parts of it run: rows are added to the tables, and declared methods receive their
bodies. What a token named it still names, so an analysis that was accepted before is accepted by the larger tables as
well.
-/

namespace ManagedCode

namespace Metadata

/-- **The second tables have all rows of the first**; of a method the body may differ. -/
structure Extends (md md' : Metadata) : Prop where
  types : ∀ (i : Nat) r, md.types[i]? = some r → md'.types[i]? = some r
  fields : ∀ (i : Nat) f, md.fields[i]? = some f → md'.fields[i]? = some f
  signatures : ∀ (i : Nat) s, md.signatures[i]? = some s → md'.signatures[i]? = some s
  methods : ∀ (i : Nat) m, md.methods[i]? = some m → ∃ b, md'.methods[i]? = some { m with body := b }

/-- One definition. -/
inductive Defines : Metadata → Metadata → Prop where
  | type (md : Metadata) (name : String) (kind : Kind) (base : Option Token) :
      Defines md (md.defineType name kind base).2
  | field {md md' : Metadata} {declaring type t : Token} {name : String} {isStatic : Bool} :
      md.defineField declaring name type isStatic = .ok (t, md') → Defines md md'
  | string (md : Metadata) (s : String) : Defines md (md.defineString s).2
  | signature (md : Metadata) (s : Signature) : Defines md (md.defineSignature s).2
  | method (md : Metadata) (declaring : Token) (name : String) (s : Signature) (isVirtual : Bool) :
      Defines md (md.declareMethod declaring name s isVirtual).2
  | body {md md' : Metadata} {method : Token} {b : Body} : md.defineBody method b = .ok md' → Defines md md'
  | override {md md' : Metadata} {base type implementation : Token} :
      md.overrideMethod base type implementation = .ok md' → Defines md md'

variable {md md' : Metadata}

theorem getElem?_push_of_some {α : Type} {xs : Array α} {i : Nat} {a b : α} (h : xs[i]? = some a) :
    (xs.push b)[i]? = some a := by
  obtain ⟨hlt, rfl⟩ := Array.getElem?_eq_some_iff.1 h
  rw [Array.getElem?_push_lt hlt]

theorem Extends.refl (md : Metadata) : md.Extends md where
  types := fun _ _ h => h
  fields := fun _ _ h => h
  signatures := fun _ _ h => h
  methods := fun _ m h => ⟨m.body, h⟩

theorem defineField_ok {declaring type t : Token} {name : String} {isStatic : Bool}
    (h : md.defineField declaring name type isStatic = .ok (t, md')) :
    ∃ owner ty, md.resolveType declaring = .ok owner ∧ md.resolveType type = .ok ty ∧ md' = { md with
      fields := md.fields.push ⟨⟨md.fields.size + 1⟩, name, owner.handle, ty.handle, ty.kind, isStatic⟩ } := by
  unfold defineField at h
  cases ho : md.resolveType declaring with
  | error e => rw [ho] at h; cases h
  | ok owner =>
    cases ht : md.resolveType type with
    | error e => rw [ho, ht] at h; cases h
    | ok ty =>
      rw [ho, ht] at h
      cases h
      exact ⟨owner, ty, rfl, rfl, rfl⟩

theorem rowOf_ok {α : Type} {table : Array α} {t : Token} {number : Nat} {name : String} {a : α}
    (h : rowOf table t number name = .ok a) : t.table = number ∧ t.row ≠ 0 ∧ table[t.row - 1]? = some a := by
  unfold rowOf at h
  split at h
  · cases h
  · rename_i htable
    split at h
    · cases h
    · rename_i hrow
      split at h
      · rename_i b hb
        cases h
        exact ⟨by simpa using htable, hrow, hb⟩
      · cases h

theorem rowOf_of_some {α : Type} {table : Array α} {t : Token} {number : Nat} {name : String} {a : α}
    (ht : t.table = number) (hr : t.row ≠ 0) (ha : table[t.row - 1]? = some a) : rowOf table t number name = .ok a := by
  simp only [rowOf, ht, ne_eq, not_true_eq_false, if_false, hr, ha]

/-- **Definitions only add.** -/
theorem Defines.extends (h : Defines md md') : md.Extends md' := by
  cases h with
  | type name kind base => exact { Extends.refl md with types := fun _ _ hr => getElem?_push_of_some hr }
  | field h =>
    obtain ⟨owner, ty, -, -, rfl⟩ := defineField_ok h
    exact { Extends.refl md with fields := fun _ _ hf => getElem?_push_of_some hf }
  | string s => exact { Extends.refl md with }
  | signature s => exact { Extends.refl md with signatures := fun _ _ hs => getElem?_push_of_some hs }
  | method declaring name s isVirtual =>
    exact { Extends.refl md with methods := fun _ m hm => ⟨m.body, getElem?_push_of_some hm⟩ }
  | body h =>
    rename_i method b
    unfold defineBody at h
    cases hm : md.resolveMethod method with
    | error e => rw [hm] at h; cases h
    | ok m =>
      rw [hm] at h
      cases h
      obtain ⟨-, -, hrow⟩ := rowOf_ok hm
      refine { Extends.refl md with methods := fun i m' hm' => ?_ }
      by_cases hi : method.row - 1 = i
      · subst hi
        cases hrow.symm.trans hm'
        exact ⟨some b, Array.getElem?_setIfInBounds_self_of_lt (Array.getElem?_eq_some_iff.1 hrow).1⟩
      · exact ⟨m'.body, by rw [Array.getElem?_setIfInBounds_ne hi]; exact hm'⟩
  | override h =>
    rename_i base type implementation
    unfold overrideMethod at h
    cases hb : md.resolveMethod base with
    | error e => rw [hb] at h; cases h
    | ok m =>
      cases hi : md.resolveMethod implementation with
      | error e => rw [hb, hi] at h; cases h
      | ok k =>
        cases ht : md.resolveType type with
        | error e => rw [hb, hi, ht] at h; cases h
        | ok ty =>
          rw [hb, hi, ht] at h
          cases h
          exact { Extends.refl md with }

/-! ## Names keep their meaning -/

theorem Extends.resolveType (h : md.Extends md') {t : Token} {ty : TypeSymbol} (ht : md.resolveType t = .ok ty) :
    md'.resolveType t = .ok ty := by
  unfold Metadata.resolveType at ht
  cases hr : rowOf md.types t Token.typeDef "type" with
  | error e => rw [hr] at ht; cases ht
  | ok r =>
    rw [hr] at ht
    cases ht
    obtain ⟨h1, h2, h3⟩ := rowOf_ok hr
    rw [Metadata.resolveType, rowOf_of_some h1 h2 (h.types _ _ h3)]
    rfl

theorem Extends.typeOf (h : md.Extends md') {t : TypeHandle} {ty : TypeSymbol} (ht : md.typeOf t = .ok ty) :
    md'.typeOf t = .ok ty := by
  have hrow : ∀ r, md.typeRow? t = some r → md'.typeRow? t = some r := by
    intro r hr
    unfold typeRow? at hr ⊢
    split at hr
    · cases hr
    · rename_i hz
      rw [if_neg hz]
      exact h.types _ r hr
  unfold Metadata.typeOf typeSymbol? at ht ⊢
  cases hr : md.typeRow? t with
  | none => rw [hr] at ht; cases ht
  | some r =>
    rw [hr] at ht
    rw [hrow r hr]
    exact ht

theorem Extends.resolveField (h : md.Extends md') {t : Token} {f : FieldSymbol} (hf : md.resolveField t = .ok f) :
    md'.resolveField t = .ok f := by
  obtain ⟨h1, h2, h3⟩ := rowOf_ok hf
  exact rowOf_of_some h1 h2 (h.fields _ _ h3)

theorem Extends.resolveSignature (h : md.Extends md') {t : Token} {s : Signature}
    (hs : md.resolveSignature t = .ok s) : md'.resolveSignature t = .ok s := by
  obtain ⟨h1, h2, h3⟩ := rowOf_ok hs
  exact rowOf_of_some h1 h2 (h.signatures _ _ h3)

theorem Extends.resolveMethod (h : md.Extends md') {t : Token} {m : MethodSymbol}
    (hm : md.resolveMethod t = .ok m) : ∃ b, md'.resolveMethod t = .ok { m with body := b } := by
  obtain ⟨h1, h2, h3⟩ := rowOf_ok hm
  obtain ⟨b, hb⟩ := h.methods _ _ h3
  exact ⟨b, rowOf_of_some h1 h2 hb⟩

end Metadata

namespace Analysis

/-! ## The effect of an instruction in larger tables -/

/-- Whatever the first computation gives, the second gives as well. -/
def TypeM.Refines {α : Type} (x y : TypeM α) : Prop := ∀ st r, x.run st = .ok r → y.run st = .ok r

namespace TypeM.Refines

variable {α β : Type} {x y : TypeM α}

theorem refl (x : TypeM α) : Refines x x := fun _ _ h => h

theorem bind {f g : α → TypeM β} (h : Refines x y) (hf : ∀ a, Refines (f a) (g a)) :
    Refines (x >>= f) (y >>= g) := by
  intro st r hr
  rw [StateT.run_bind] at hr ⊢
  cases hx : x.run st with
  | error e => rw [hx] at hr; cases hr
  | ok q =>
    rw [hx] at hr
    rw [h st q hx]
    exact hf q.1 q.2 r hr

theorem ofResolution {a b : Except ResolutionError α} (h : ∀ v, a = .ok v → b = .ok v) :
    Refines (liftResolution a) (liftResolution b) := by
  cases a with
  | ok v => rw [h v rfl]; exact refl _
  | error e => intro st r hr; cases hr

end TypeM.Refines

variable {cx : Context} {md : Metadata}

/-- The same code, in other tables. -/
def Context.within (cx : Context) (md : Metadata) : Context := { cx with metadata := md }

namespace Context

open TypeM (Refines)

theorem operandType_refines (h : cx.metadata.Extends md) (pc : Nat) :
    Refines (cx.operandType pc) ((cx.within md).operandType pc) :=
  .bind (.refl _) fun _ => .bind (.ofResolution fun _ ht => h.resolveType ht) fun _ => .refl _

theorem operandField_refines (h : cx.metadata.Extends md) (pc : Nat) :
    Refines (cx.operandField pc) ((cx.within md).operandField pc) :=
  .bind (.refl _) fun _ => .ofResolution fun _ hf => h.resolveField hf

/-- A computation that asks a method for its signature only. -/
theorem operandMethod_refines {α : Type} {f : MethodSymbol → TypeM α} (h : cx.metadata.Extends md) (pc : Nat)
    (hf : ∀ (m : MethodSymbol) b, f { m with body := b } = f m) :
    Refines (cx.operandMethod pc >>= f) ((cx.within md).operandMethod pc >>= f) := by
  unfold operandMethod
  simp only [bind_assoc]
  refine .bind (.refl _) fun t => ?_
  cases hm : cx.metadata.resolveMethod t with
  | error e => intro st r hr; cases hr
  | ok m =>
    obtain ⟨b, hb⟩ := h.resolveMethod hm
    intro st r hr
    show StateT.run (TypeM.liftResolution (md.resolveMethod t) >>= f) st = .ok r
    rw [hb]
    show (f { m with body := b }).run st = .ok r
    rw [hf m b]
    exact hr

/-- **An instruction does in larger tables what it did before.** -/
theorem act_refines (h : cx.metadata.Extends md) (pc : Nat) (op : Opcode) (next : Nat) :
    Refines (cx.act pc op next) ((cx.within md).act pc op next) := by
  unfold act
  cases op.action with
  | callSite kind =>
    cases kind with
    | jmp => exact .refl _
    | newobj => exact operandMethod_refines h pc fun _ _ => rfl
    | call => exact operandMethod_refines h pc fun _ _ => rfl
    | callvirt => exact operandMethod_refines h pc fun _ _ => rfl
  | callIndirect =>
    exact .bind (.refl _) fun _ => .bind (.ofResolution fun _ hs => h.resolveSignature hs) fun _ => .refl _
  | loadObject => exact .bind (.refl _) fun _ => .bind (operandType_refines h pc) fun _ => .refl _
  | loadField => exact .bind (.refl _) fun _ => .bind (operandField_refines h pc) fun _ => .refl _
  | fieldAddress => exact .bind (.refl _) fun _ => .bind (operandField_refines h pc) fun _ => .refl _
  | loadStatic => exact .bind (operandField_refines h pc) fun _ => .refl _
  | unboxAny => exact .bind (.refl _) fun _ => .bind (operandType_refines h pc) fun _ => .refl _
  | loadElement kind =>
    refine .bind (.refl _) fun _ => .bind (.refl _) fun _ => ?_
    cases kind with
    | some k => exact .refl _
    | none => exact .bind (operandType_refines h pc) fun _ => .refl _
  | _ => exact .refl _

theorem transfer_refines (h : cx.metadata.Extends md) (pc : Nat) (op : Opcode) :
    Refines (cx.transfer pc op) ((cx.within md).transfer pc op) :=
  .bind (.refl _) fun next => .bind (act_refines h pc op next) fun _ => .refl _

end Context

/-- A visit in larger tables finds the same. -/
def Visit.within (h : cx.metadata.Extends md) {a : MethodAnalysis} {pc : Nat} {stack : List StackType}
    (v : Visit cx a pc stack) : Visit (cx.within md) a pc stack :=
  { v with transfer := Context.transfer_refines h _ _ _ _ v.transfer }

theorem Flows.within (h : cx.metadata.Extends md) {a : MethodAnalysis} {pc : Nat} {stack : List StackType}
    (hf : Flows cx a pc stack) : Flows (cx.within md) a pc stack := by
  induction hf with
  | entry hm => exact .entry hm
  | edge _ v hm ih => exact .edge ih (v.within h) hm

/-- **An accepted analysis stays accepted.** -/
theorem Accepted.within (h : cx.metadata.Extends md) {a : MethodAnalysis} (ha : Accepted cx a) :
    Accepted (cx.within md) a where
  scanned := ha.scanned
  entered := ha.entered
  visited := by
    intro pc hpc
    obtain ⟨stack, hf, v, hv⟩ := ha.visited pc hpc
    exact ⟨stack, hf.within h, v.within h, hv⟩

end Analysis

end ManagedCode
