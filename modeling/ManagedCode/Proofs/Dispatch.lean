import ManagedCode.Proofs.Hierarchy

/-!
# Assignability is an order, and dispatch takes the nearest override

Both questions follow the bases of a type. Where these come to an end and are all types (`Rooted`), assignability is a
partial order, and a virtual method is implemented by what was registered last for the first type on the way that has
an implementation registered for it (`Selects`). Which method that is depends on the chain of the type alone: calls that
register nothing for a type of the chain keep it, and with it both answers.
-/

namespace ManagedCode.Metadata

variable {md md' : Metadata} {s t u a : TypeHandle} {m k : MethodHandle}

/-! ## Chains -/

/-- **The bases of every type come to an end**, and all of them are types. -/
def Rooted (md : Metadata) : Prop := ∀ t, (md.typeSymbol? t).isSome →
  md.Ends t ∧ ∀ n a, md.up n t = some a → (md.typeSymbol? a).isSome

theorem typeRow?_of_isSome (ht : (md.typeSymbol? t).isSome) : ∃ r, md.typeRow? t = some r := by
  obtain ⟨ty, hty⟩ := Option.isSome_iff_exists.1 ht
  obtain ⟨r, hr, -⟩ := Option.map_eq_some_iff.1 hty
  exact ⟨r, hr⟩

/-- The walk from a handle without a type ends at once. -/
theorem Rooted.ends (hrooted : md.Rooted) (t : TypeHandle) : md.Ends t := by
  cases hr : md.typeRow? t with
  | some r =>
    refine (hrooted t ?_).1
    rw [typeSymbol?, hr]
    rfl
  | none =>
    refine ⟨1, ?_⟩
    rw [up, base?, hr]
    rfl

theorem Ordered.rooted (ho : md.Ordered) : md.Rooted := by
  intro t ht
  refine ⟨ho.ends t, fun n => ?_⟩
  induction n with
  | zero =>
    rintro a ⟨⟩
    exact ht
  | succ n ih =>
    intro a ha
    rw [up_succ] at ha
    obtain ⟨b, hb, ha⟩ := Option.bind_eq_some_iff.1 ha
    have hbounds := typeSymbol?_isSome_iff.1 (ih b hb)
    have hlt := ho b a ha
    exact typeSymbol?_isSome_iff.2 (by omega)

theorem Extends.base?_eq (he : md.Extends md') (ht : (md.typeSymbol? t).isSome) : md'.base? t = md.base? t := by
  obtain ⟨r, hr⟩ := typeRow?_of_isSome ht
  have hr' : md'.typeRow? t = some r := by
    unfold typeRow? at hr ⊢
    split at hr
    · cases hr
    · rw [if_neg (by assumption)]
      exact he.types _ r hr
  rw [Metadata.base?, Metadata.base?, hr, hr']

/-- **More definitions leave the chain of a type as it is.** -/
theorem Rooted.up_eq (hrooted : md.Rooted) (he : md.Extends md') (ht : (md.typeSymbol? t).isSome) :
    ∀ n, md'.up n t = md.up n t
  | 0 => rfl
  | n + 1 => by
    rw [up_succ, up_succ, hrooted.up_eq he ht n]
    cases ha : md.up n t with
    | none => rfl
    | some a => exact he.base?_eq ((hrooted t ht).2 n a ha)

/-! ## The order -/

theorem isAssignable?_isSome (hends : md.Ends s) (t : TypeHandle) : (md.isAssignable? s t).isSome := by
  obtain ⟨n, hn⟩ := hends
  by_contra hnone
  obtain ⟨k, hk, -⟩ := isAssignable?_eq_none_iff.1 (Option.not_isSome_iff_eq_none.1 hnone) n
  rw [hn] at hk
  cases hk

theorem isAssignable?_trans (hst : md.isAssignable? s t = some true) (htu : md.isAssignable? t u = some true) :
    md.isAssignable? s u = some true := by
  rw [isAssignable?_eq_true_iff] at *
  obtain ⟨n, hn⟩ := hst
  obtain ⟨k, hk⟩ := htu
  refine ⟨n + k, ?_⟩
  rw [up_add, hn]
  exact hk

theorem isAssignable?_antisymm (hends : md.Ends s) (hst : md.isAssignable? s t = some true)
    (hts : md.isAssignable? t s = some true) : s = t := by
  rw [isAssignable?_eq_true_iff] at *
  obtain ⟨n, hn⟩ := hst
  obtain ⟨k, hk⟩ := hts
  cases n with
  | zero => exact Option.some.inj hn
  | succ n =>
    have hround : md.up (n + k + 1) s = some s := by
      rw [Nat.add_right_comm, up_add, hn]
      exact hk
    exact absurd hends (not_ends_of_up hround)

/-- Two tables with the same chain of a type agree on what it can stand for. -/
theorem isAssignable?_congr (hup : ∀ n, md'.up n s = md.up n s) (t : TypeHandle) :
    md'.isAssignable? s t = md.isAssignable? s t := by
  have hnone : md'.isAssignable? s t = none ↔ md.isAssignable? s t = none := by
    simp only [isAssignable?_eq_none_iff, hup]
  have htrue : md'.isAssignable? s t = some true ↔ md.isAssignable? s t = some true := by
    simp only [isAssignable?_eq_true_iff, hup]
  match h : md.isAssignable? s t with
  | none => exact hnone.2 h
  | some true => exact htrue.2 h
  | some false =>
    match h' : md'.isAssignable? s t with
    | none => rw [hnone.1 h'] at h; cases h
    | some true => rw [htrue.1 h'] at h; cases h
    | some false => rfl

/-! ## The nearest override -/

/-- **The method that implements `m` for `t`**, where `registered` gives the implementation of `m` for a type: that of
the first type on the chain of `t` that has one, and `m` itself if none has. -/
def Selects (md : Metadata) (registered : TypeHandle → Option MethodHandle) (m : MethodHandle) (t : TypeHandle)
    (k : MethodHandle) : Prop :=
  (∃ n a, md.up n t = some a ∧ registered a = some k ∧ ∀ i < n, ∀ b, md.up i t = some b → registered b = none) ∨
  (k = m ∧ ∀ i b, md.up i t = some b → registered b = none)

theorem exists_selects (md : Metadata) (registered : TypeHandle → Option MethodHandle) (m : MethodHandle)
    (t : TypeHandle) : ∃ k, md.Selects registered m t k := by
  classical
  by_cases hsome : ∃ n, ∃ a k, md.up n t = some a ∧ registered a = some k
  · obtain ⟨a, k, ha, hk⟩ := Nat.find_spec hsome
    refine ⟨k, .inl ⟨Nat.find hsome, a, ha, hk, fun i hi b hb => ?_⟩⟩
    cases hr : registered b with
    | none => rfl
    | some j => exact absurd ⟨b, j, hb, hr⟩ (Nat.find_min hsome hi)
  · refine ⟨m, .inr ⟨rfl, fun i b hb => ?_⟩⟩
    cases hr : registered b with
    | none => rfl
    | some j => exact absurd ⟨i, b, j, hb, hr⟩ hsome

theorem Selects.unique {registered : TypeHandle → Option MethodHandle} {j : MethodHandle}
    (hj : md.Selects registered m t j) (hk : md.Selects registered m t k) : j = k := by
  rcases hj with ⟨n, a, ha, hj, hbefore⟩ | ⟨rfl, hall⟩
  · rcases hk with ⟨n', a', ha', hk, hbefore'⟩ | ⟨rfl, hall⟩
    · rcases Nat.lt_trichotomy n n' with hlt | rfl | hlt
      · rw [hbefore' n hlt a ha] at hj
        cases hj
      · rw [ha] at ha'
        cases ha'
        rw [hj] at hk
        exact Option.some.inj hk
      · rw [hbefore n' hlt a' ha'] at hk
        cases hk
    · rw [hall n a ha] at hj
      cases hj
  · rcases hk with ⟨n, a, ha, hk, -⟩ | ⟨rfl, -⟩
    · rw [hall n a ha] at hk
      cases hk
    · rfl

/-- **Dispatch gives the method that is selected**, as it is now. -/
theorem resolveVirtual_of_selects {method : MethodSymbol} (ht : (md.typeSymbol? t).isSome) (hends : md.Ends t)
    (hk : md.Selects (fun a => md.overrides.lookup (method.handle, a)) method.handle t k) :
    md.resolveVirtual method t = md.methodOf k := by
  have hdefined : ¬ (md.typeSymbol? t).isNone := by simpa [Option.isSome_iff_ne_none] using ht
  rw [resolveVirtual, if_neg hdefined]
  rcases hk with ⟨n, a, ha, hk, hbefore⟩ | ⟨rfl, hall⟩
  · rw [firstUp_walkBound (firstUp_of_up ha hk hbefore)]
  · obtain ⟨n, hn⟩ := hends
    rw [firstUp_walkBound (firstUp_of_ends hn hall)]

/-- What is selected depends on the chain, and on what is registered for its types. -/
theorem Selects.congr {registered registered' : TypeHandle → Option MethodHandle} (hk : md.Selects registered m t k)
    (hup : ∀ n, md'.up n t = md.up n t)
    (hregistered : ∀ n a, md.up n t = some a → registered' a = registered a) :
    md'.Selects registered' m t k := by
  rcases hk with ⟨n, a, ha, hk, hbefore⟩ | ⟨rfl, hall⟩
  · refine .inl ⟨n, a, (hup n).trans ha, (hregistered n a ha).trans hk, fun i hi b hb => ?_⟩
    rw [hup] at hb
    exact (hregistered i b hb).trans (hbefore i hi b hb)
  · refine .inr ⟨rfl, fun i b hb => ?_⟩
    rw [hup] at hb
    exact (hregistered i b hb).trans (hall i b hb)

/-! ## What calls register -/

/-- **The implementation of a method for a type that was registered last.** -/
def lastOverride? (m : MethodHandle) (a : TypeHandle) : List Call → Option MethodHandle
  | [] => none
  | c :: calls =>
    match c.registers? (built calls) with
    | some (key, k) => if (m, a) = key then some k else lastOverride? m a calls
    | none => lastOverride? m a calls

theorem lookup_built (m : MethodHandle) (a : TypeHandle) :
    ∀ calls, (built calls).overrides.lookup (m, a) = lastOverride? m a calls
  | [] => rfl
  | c :: calls => by
    have hoverrides := (c.perform_types_overrides (built calls)).2
    rw [show built (c :: calls) = (c.perform (built calls)).2 from rfl, hoverrides, lastOverride?]
    cases c.registers? (built calls) with
    | none => exact lookup_built m a calls
    | some e =>
      obtain ⟨key, k⟩ := e
      dsimp only
      rw [Option.toList_some, List.singleton_append, List.lookup_cons, lookup_built m a calls]
      by_cases hkey : (m, a) = key
      · simp [hkey]
      · rw [if_neg hkey, beq_eq_false_iff_ne.2 hkey]

/-- What is registered is a method. -/
theorem methodSymbol?_of_lastOverride? : ∀ {calls : List Call}, lastOverride? m a calls = some k →
    ∃ s, (built calls).methodSymbol? k = some s
  | c :: calls, hlast => by
    have hkeep : ∀ j : MethodHandle, (∃ s, (built calls).methodSymbol? j = some s) →
        ∃ s, (built (c :: calls)).methodSymbol? j = some s := by
      rintro j ⟨s, hs⟩
      have hj : (built calls).methodOf j = .ok s := by rw [methodOf, hs]
      obtain ⟨hmethod, rfl⟩ := (wellFormed_built calls).hasMethod_of_handle hj
      obtain ⟨b, hb⟩ := (c.perform_extends (built calls)).hasMethod hmethod
      exact ⟨_, hb⟩
    rw [lastOverride?] at hlast
    cases hc : c.registers? (built calls) with
    | none =>
      rw [hc] at hlast
      exact hkeep k (methodSymbol?_of_lastOverride? hlast)
    | some e =>
      obtain ⟨key, j⟩ := e
      rw [hc] at hlast
      dsimp only at hlast
      split at hlast
      · cases hlast
        refine hkeep k ?_
        unfold Call.registers? at hc
        split at hc
        · split at hc
          · rename_i impl _ _ himpl _
            cases hc
            obtain ⟨b, hb⟩ := (wellFormed_built calls).hasMethod himpl
            exact ⟨_, hb⟩
          · cases hc
        · cases hc
      · exact hkeep k (methodSymbol?_of_lastOverride? hlast)

/-! ## What later calls leave alone -/

theorem methodSymbol?_declareMethod {symbol : MethodSymbol} (hk : md.methodSymbol? k = some symbol) (declaring : Token)
    (name : String) (signature : Signature) (isVirtual : Bool) :
    (md.declareMethod declaring name signature isVirtual).2.methodSymbol? k = some symbol := by
  unfold methodSymbol? at hk ⊢
  split at hk
  · cases hk
  · rw [if_neg (by assumption)]
    exact getElem?_push_of_some hk

/-- A body changes the method that it is given to, and no other. -/
theorem methodSymbol?_defineBody {method : Token} {body : Body} (hb : md.defineBody method body = .ok md')
    (hne : method.row ≠ k.id) : md'.methodSymbol? k = md.methodSymbol? k := by
  rw [defineBody_eq] at hb
  cases hm : md.resolveMethod method with
  | error e => rw [hm] at hb; cases hb
  | ok symbol =>
    rw [hm] at hb
    cases hb
    have hrow : method.row ≠ 0 := (rowOf_ok hm).2.1
    unfold methodSymbol?
    by_cases hz : k.id = 0
    · rw [if_pos hz, if_pos hz]
    · rw [if_neg hz, if_neg hz, Array.getElem?_setIfInBounds_ne (by omega)]

namespace Call

/-- **The call does nothing to a chain or to a method**: it registers no override for a type of the chain, and the
method gets no body. A method that is defined together with its body gets it by its token, in which 24 bits of its
number have room. -/
def Spares (md : Metadata) (chain : TypeHandle → Prop) (k : MethodHandle) : Call → Prop
  | overrideMethod _ type _ => ∀ ty, md.resolveType type = .ok ty → ¬ chain ty.handle
  | defineBody method _ => method.row ≠ k.id
  | defineMethod .. => (MethodHandle.token ⟨md.methods.size + 1⟩).row ≠ k.id
  | _ => True

variable {c : Call} {chain : TypeHandle → Prop}

theorem Spares.methodSymbol? (hc : c.Spares md chain k) {symbol : MethodSymbol} (hk : md.methodSymbol? k = some symbol) :
    (c.perform md).2.methodSymbol? k = some symbol := by
  cases c with
  | declareMethod declaring name signature isVirtual =>
    exact methodSymbol?_declareMethod hk declaring name signature isVirtual
  | defineBody method body =>
    rw [perform]
    cases hb : md.defineBody method body with
    | error e => exact hk
    | ok md' => exact (methodSymbol?_defineBody hb hc).trans hk
  | defineMethod name signature body =>
    have hdeclared := methodSymbol?_declareMethod hk Core.object.token name signature false
    show (md.defineMethod name signature body).2.methodSymbol? k = some symbol
    unfold Metadata.defineMethod
    dsimp only
    split
    · rename_i md' hb
      exact (methodSymbol?_defineBody hb hc).trans hdeclared
    · exact hdeclared
  | defineField declaring name type isStatic =>
    obtain ⟨fields, hfields⟩ := perform_defineField md declaring name type isStatic
    rw [hfields]
    exact hk
  | overrideMethod base type implementation =>
    rw [perform, Metadata.overrideMethod]
    cases md.resolveMethod base with
    | error e => exact hk
    | ok m =>
      cases md.resolveMethod implementation with
      | error e => exact hk
      | ok j => cases md.resolveType type <;> exact hk
  | _ => exact hk

theorem Spares.lastOverride? {calls : List Call} (hc : c.Spares (built calls) chain k) (ha : chain a) :
    Metadata.lastOverride? m a (c :: calls) = Metadata.lastOverride? m a calls := by
  rw [Metadata.lastOverride?]
  cases hr : c.registers? (built calls) with
  | none => rfl
  | some e =>
    obtain ⟨⟨m', a'⟩, j⟩ := e
    refine if_neg ?_
    rintro ⟨⟩
    cases c with
    | overrideMethod base type implementation =>
      unfold registers? at hr
      dsimp only at hr
      split at hr
      · rename_i ty _ _ hty
        cases hr
        exact hc ty hty ha
      · cases hr
    | _ => cases hr

end Call

/-- Calls that spare a chain and a method leave the method as it is and register nothing new for the chain. -/
theorem spared_built {calls : List Call} {chain : TypeHandle → Prop} {symbol : MethodSymbol}
    (hk : (built calls).methodSymbol? k = some symbol) : ∀ {later : List Call},
    (∀ c between, c :: between <:+ later → c.Spares (built (between ++ calls)) chain k) →
      (built (later ++ calls)).methodSymbol? k = some symbol ∧
      ∀ m a, chain a → lastOverride? m a (later ++ calls) = lastOverride? m a calls
  | [], _ => ⟨hk, fun _ _ _ => rfl⟩
  | c :: later, hspares => by
    have hc := hspares c later (List.suffix_refl _)
    obtain ⟨hsymbol, hlast⟩ := spared_built hk fun c' between hs => hspares c' between (hs.trans (List.suffix_cons c later))
    exact ⟨hc.methodSymbol? hsymbol, fun m a ha => (hc.lastOverride? ha).trans (hlast m a ha)⟩

/-- **Assignability and dispatch.** Where the bases of all types come to an end and are types, assignability is
reflexive, transitive and antisymmetric, and always has an answer. Exactly one method is selected for a method and a
type: what was registered last for the first type on the chain that has something registered, or else the method itself.
Dispatch gives the symbol that this method has now, and goes on giving it whatever is defined later, unless an override
is registered for a type of the chain or the method gets a body. What a type can stand for never changes. -/
theorem dispatch_takes_nearest_override {calls : List Call} (hrooted : (built calls).Rooted) :
    (∀ s t, ((built calls).isAssignable? s t).isSome) ∧
    (∀ t, (built calls).isAssignable? t t = some true) ∧
    (∀ s t u, (built calls).isAssignable? s t = some true → (built calls).isAssignable? t u = some true →
      (built calls).isAssignable? s u = some true) ∧
    (∀ s t, (built calls).isAssignable? s t = some true → (built calls).isAssignable? t s = some true → s = t) ∧
    (∀ m t, ∃! k, (built calls).Selects (lastOverride? m · calls) m t k) ∧
    (∀ method t k, ((built calls).methodSymbol? method.handle).isSome → ((built calls).typeSymbol? t).isSome →
      (built calls).Selects (lastOverride? method.handle · calls) method.handle t k →
      ∃ symbol, (built calls).methodSymbol? k = some symbol ∧ (built calls).resolveVirtual method t = .ok symbol ∧
        ∀ later, (∀ c between, c :: between <:+ later →
            c.Spares (built (between ++ calls)) (fun a => ∃ n, (built calls).up n t = some a) k) →
          (built (later ++ calls)).resolveVirtual method t = .ok symbol) ∧
    ∀ s t later, ((built calls).typeSymbol? s).isSome →
      (built (later ++ calls)).isAssignable? s t = (built calls).isAssignable? s t := by
  have hends := hrooted.ends
  refine ⟨fun s => isAssignable?_isSome (hends s), fun t => isAssignable?_eq_true_iff.2 ⟨0, rfl⟩,
    fun s t u => isAssignable?_trans, fun s t => isAssignable?_antisymm (hends s), fun m t => ?_, ?_, ?_⟩
  · obtain ⟨k, hk⟩ := (built calls).exists_selects (lastOverride? m · calls) m t
    exact ⟨k, hk, fun j hj => hj.unique hk⟩
  · intro method t k hmethod ht hk
    obtain ⟨symbol, hsymbol⟩ : ∃ symbol, (built calls).methodSymbol? k = some symbol := by
      rcases hk with ⟨n, a, -, hk, -⟩ | ⟨rfl, -⟩
      · exact methodSymbol?_of_lastOverride? hk
      · exact Option.isSome_iff_exists.1 hmethod
    -- the calls so far are the case without later calls
    have hresolve : ∀ later, (∀ c between, c :: between <:+ later →
        c.Spares (built (between ++ calls)) (fun a => ∃ n, (built calls).up n t = some a) k) →
        (built (later ++ calls)).resolveVirtual method t = .ok symbol := by
      intro later hspares
      have hext := extends_built calls later
      have hup := hrooted.up_eq hext ht
      obtain ⟨hlater, hlast⟩ := spared_built hsymbol hspares
      have hselects : (built (later ++ calls)).Selects
          (fun a => (built (later ++ calls)).overrides.lookup (method.handle, a)) method.handle t k := by
        refine hk.congr hup fun n a ha => ?_
        rw [lookup_built]
        exact hlast method.handle a ⟨n, ha⟩
      have hends' : (built (later ++ calls)).Ends t := by
        obtain ⟨n, hn⟩ := hends t
        exact ⟨n, (hup n).trans hn⟩
      have ht' : ((built (later ++ calls)).typeSymbol? t).isSome := by
        obtain ⟨ty, hty⟩ := Option.isSome_iff_exists.1 ht
        rw [hext.typeSymbol? hty]
        rfl
      rw [resolveVirtual_of_selects ht' hends' hselects, methodOf, hlater]
    exact ⟨symbol, hsymbol, hresolve [] fun c between hs => by simp at hs, hresolve⟩
  · intro s t later hs
    exact isAssignable?_congr (hrooted.up_eq (extends_built calls later) hs) t

/-! ## Animals -/

/-- A dog is an animal and a puppy is a dog. Dogs yelp at first, and bark as soon as that is registered. -/
def animalCalls : List Call :=
  let type (row : Nat) : Token := .make Token.typeDef row
  let method (row : Nat) : Token := .make Token.methodDef row
  [.overrideMethod (method 3) (type 32) (method 4), .overrideMethod (method 3) (type 32) (method 5),
   .declareMethod (type 32) "Yelp" {} true, .declareMethod (type 32) "Bark" {} true,
   .declareMethod (type 31) "Speak" {} true, .defineType "Puppy" .object (some (type 32)),
   .defineType "Dog" .object (some (type 31)), .defineType "Animal" .object none]

/-- A cat is an animal that purrs. -/
def catCalls : List Call :=
  [.overrideMethod (.make Token.methodDef 3) (.make Token.typeDef 34) (.make Token.methodDef 6),
   .defineMethod "Purr" {} ⟨#[0x2A], 0, [], []⟩, .defineType "Cat" .object (some (.make Token.typeDef 31))]

/-- A puppy barks, and cats do not change that. -/
theorem puppy_barks :
    (built animalCalls).Rooted ∧
    (built animalCalls).isAssignable? ⟨33⟩ ⟨31⟩ = some true ∧
    ∃ speak bark, (built animalCalls).methodSymbol? ⟨3⟩ = some speak ∧ (built animalCalls).methodSymbol? ⟨4⟩ = some bark ∧
      (built animalCalls).resolveVirtual speak ⟨33⟩ = .ok bark ∧
      (built (catCalls ++ animalCalls)).resolveVirtual speak ⟨33⟩ = .ok bark ∧
      (built (catCalls ++ animalCalls)).isAssignable? ⟨33⟩ ⟨31⟩ = some true := by
  have hrooted : (built animalCalls).Rooted := (ordered_of_rows (by decide +kernel)).rooted
  obtain ⟨-, -, htrans, -, -, hresolve, hkeeps⟩ := dispatch_takes_nearest_override hrooted
  have hassignable := htrans ⟨33⟩ ⟨32⟩ ⟨31⟩ (by decide +kernel) (by decide +kernel)
  have hselects : (built animalCalls).Selects (lastOverride? ⟨3⟩ · animalCalls) ⟨3⟩ ⟨33⟩ ⟨4⟩ := by
    refine .inl ⟨1, ⟨32⟩, by decide +kernel, by decide +kernel, fun i hi b hb => ?_⟩
    obtain rfl : i = 0 := by omega
    cases hb
    decide +kernel
  have hcats : ∀ c between, c :: between <:+ catCalls →
      c.Spares (built (between ++ animalCalls)) (fun a => ∃ n, (built animalCalls).up n ⟨33⟩ = some a) ⟨4⟩ := by
    intro c between hs
    simp only [catCalls, List.suffix_cons_iff, List.cons.injEq, List.suffix_nil, reduceCtorEq, or_false] at hs
    obtain ⟨rfl, rfl⟩ | ⟨rfl, rfl⟩ | ⟨rfl, rfl⟩ := hs
    · intro ty hty hchain
      have hfalse : (built animalCalls).isAssignable? ⟨33⟩ ⟨34⟩ = some false := by decide +kernel
      have hhandle : ty.handle = ⟨34⟩ := by
        cases hty
        rfl
      rw [hhandle, ← isAssignable?_eq_true_iff, hfalse] at hchain
      cases hchain
    · show _ ≠ _
      decide +kernel
    · trivial
  obtain ⟨bark, hbark, hnow, hlater⟩ := hresolve ⟨⟨3⟩, "Speak", ⟨31⟩, {}, true, none⟩ ⟨33⟩ ⟨4⟩ (by decide +kernel)
    (by decide +kernel) hselects
  refine ⟨hrooted, hassignable, _, bark, rfl, hbark, hnow, hlater catCalls hcats, ?_⟩
  rw [hkeeps ⟨33⟩ ⟨31⟩ catCalls (by decide +kernel)]
  exact hassignable

end ManagedCode.Metadata
