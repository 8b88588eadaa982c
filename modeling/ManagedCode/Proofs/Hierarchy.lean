import ManagedCode.Proofs.Ancestry
import ManagedCode.Proofs.Definitions

/-!
# When the bases of types form a cycle

A type may be defined with a base that does not exist yet, and later definitions may then close a cycle. One definition
does so exactly if the walk from its base leads to the type that is being defined (`ends_defineType_iff`); no other call
touches a base. So the calls of a program say whether every walk in it ends (`ends_built_iff`). Bases that exist when
they are named never close a cycle.
-/

namespace ManagedCode.Metadata

variable {md md' : Metadata}

/-! ## One more base -/

theorem up_congr (hbase : ∀ h, md'.base? h = md.base? h) : ∀ (n : Nat) (h : TypeHandle), md'.up n h = md.up n h
  | 0, _ => rfl
  | n + 1, h => by
    rw [up, up, hbase]
    cases md.base? h with
    | none => rfl
    | some k => exact up_congr hbase n k

section

variable {k b : TypeHandle} (hbase : ∀ h, md'.base? h = if h = k then some b else md.base? h)

include hbase

/-- Walks are as before until they meet the type that got a base. -/
theorem up_of_ne : ∀ {n : Nat} {h : TypeHandle}, (∀ i < n, md.up i h ≠ some k) → md'.up n h = md.up n h
  | 0, _, _ => rfl
  | n + 1, h, hne => by
    have hk : h ≠ k := fun heq => hne 0 (by omega) (congrArg some heq)
    rw [up, up, hbase, if_neg hk]
    cases hb : md.base? h with
    | none => rfl
    | some j =>
      refine up_of_ne fun i hi hup => hne (i + 1) (by omega) ?_
      rw [up, hb]
      exact hup

/-- **A type that gets a base closes a cycle exactly if the walk from the base leads to it.** -/
theorem ends_iff_of_base (hk : md.base? k = none) :
    (∀ h, md'.Ends h) ↔ (∀ h, md.Ends h) ∧ ∀ n, md.up n b ≠ some k := by
  -- the old walks stop at `k`, so they meet it at most once
  have hlast : ∀ {n h}, md.up n h = some k → md.up (n + 1) h = none := by
    intro n h hn
    rw [up_succ, hn]
    exact hk
  have hbefore : ∀ {n h}, md.up n h = some k → ∀ i < n, md.up i h ≠ some k := by
    intro n h hn i hi hi'
    obtain ⟨j, hj⟩ := up_of_le (show i + 1 ≤ n by omega) hn
    rw [hlast hi'] at hj
    cases hj
  constructor
  · intro hends
    refine ⟨fun h => ?_, fun n hn => ?_⟩
    · by_contra hnot
      have hne : ∀ i, md.up i h ≠ some k := fun i hi => hnot ⟨i + 1, hlast hi⟩
      obtain ⟨n, hn⟩ := hends h
      rw [up_of_ne hbase fun i _ => hne i] at hn
      exact hnot ⟨n, hn⟩
    · have hround : md'.up (n + 1) k = some k := by
        rw [up, hbase, if_pos rfl]
        show md'.up n b = some k
        rw [up_of_ne hbase (hbefore hn), hn]
      exact not_ends_of_up hround (hends k)
  · rintro ⟨hends, hne⟩ h
    by_cases hmeets : ∃ n, md.up n h = some k
    · obtain ⟨n, hn⟩ := hmeets
      obtain ⟨m, hm⟩ := hends b
      refine ⟨n + (m + 1), ?_⟩
      rw [up_add, up_of_ne hbase (hbefore hn), hn]
      show md'.up (m + 1) k = none
      rw [up, hbase, if_pos rfl]
      show md'.up m b = none
      rw [up_of_ne hbase fun i _ => hne i, hm]
    · obtain ⟨m, hm⟩ := hends h
      refine ⟨m, ?_⟩
      rw [up_of_ne hbase fun i _ hi => hmeets ⟨i, hi⟩, hm]

end

/-! ## What calls do to bases -/

theorem base?_eq_none_of_size_lt {h : TypeHandle} (hsize : md.types.size < h.id) : md.base? h = none := by
  unfold base? typeRow?
  rw [if_neg (by omega), Array.getElem?_eq_none (by omega)]
  rfl

theorem base?_defineType (name : String) (kind : Kind) (base : Option Token) (h : TypeHandle) :
    (md.defineType name kind base).2.base? h =
      if h = ⟨md.types.size + 1⟩ then some (baseOf kind base) else md.base? h := by
  rw [defineType_eq]
  unfold base? typeRow?
  by_cases hh : h = ⟨md.types.size + 1⟩
  · subst hh
    simp
  · have hid : h.id ≠ md.types.size + 1 := fun hid => hh (by cases h; exact congrArg TypeHandle.mk hid)
    by_cases hz : h.id = 0
    · simp [hz, hh]
    · have hne : h.id - 1 ≠ md.types.size := by omega
      simp [hz, hh, Array.getElem?_push, hne]

theorem ends_defineType_iff (name : String) (kind : Kind) (base : Option Token) :
    (∀ h, (md.defineType name kind base).2.Ends h) ↔
      (∀ h, md.Ends h) ∧ ∀ n, md.up n (baseOf kind base) ≠ some ⟨md.types.size + 1⟩ :=
  ends_iff_of_base (base?_defineType name kind base) (base?_eq_none_of_size_lt (by simp))

theorem base?_of_types_eq (htypes : md'.types = md.types) (h : TypeHandle) : md'.base? h = md.base? h := by
  unfold base? typeRow?
  rw [htypes]

/-- Every base is a type in front of those that extend it. -/
def Ordered (md : Metadata) : Prop := ∀ h k, md.base? h = some k → 0 < k.id ∧ k.id < h.id

theorem Ordered.ends (ho : md.Ordered) (h : TypeHandle) : md.Ends h :=
  ends_of_descending (fun h k hb => (ho h k hb).2) h

theorem ordered_of_rows (hrows : md.types.toList.zipIdx.all (fun e => e.1.base.all fun b => 0 < b.id ∧ b.id ≤ e.2) = true) :
    md.Ordered := by
  intro h k hb
  obtain ⟨r, hr, hbase⟩ := Option.bind_eq_some_iff.1 hb
  unfold typeRow? at hr
  split at hr
  · cases hr
  · have hmem : (r, h.id - 1) ∈ md.types.toList.zipIdx := by
      rw [List.mem_zipIdx_iff_getElem?, Array.getElem?_toList]
      exact hr
    have hall := List.all_eq_true.1 hrows _ hmem
    rw [hbase] at hall
    have hbounds := of_decide_eq_true hall
    omega

theorem core_ordered : core.Ordered := ordered_of_rows (by decide +kernel)

/-! ## Whole programs -/

/-- The walks of a program end exactly if no definition of a type closed a cycle. -/
theorem ends_built_iff : ∀ calls : List Call, (∀ h, (built calls).Ends h) ↔
    ∀ name kind base earlier, .defineType name kind base :: earlier <:+ calls →
      ∀ n, (built earlier).up n (baseOf kind base) ≠ some ⟨(built earlier).types.size + 1⟩
  | [] => by
    refine iff_of_true core_ordered.ends ?_
    intro name kind base earlier hs
    simp at hs
  | c :: calls => by
    have ih := ends_built_iff calls
    by_cases hc : ∃ name kind base, c = .defineType name kind base
    · obtain ⟨name, kind, base, rfl⟩ := hc
      refine (ends_defineType_iff name kind base).trans ?_
      rw [ih]
      constructor
      · rintro ⟨hbefore, hnow⟩ name' kind' base' earlier hs
        rcases List.suffix_cons_iff.1 hs with heq | hs
        · cases heq
          exact hnow
        · exact hbefore name' kind' base' earlier hs
      · intro hall
        exact ⟨fun name' kind' base' earlier hs => hall name' kind' base' earlier (hs.trans (List.suffix_cons _ _)),
          hall name kind base calls (List.suffix_refl _)⟩
    · have htypes : (built (c :: calls)).types = (built calls).types := by
        have h := (c.perform_types_overrides (built calls)).1
        cases c with
        | defineType name kind base => exact absurd ⟨name, kind, base, rfl⟩ hc
        | _ => exact h
      have hends : ∀ h, (built (c :: calls)).Ends h ↔ (built calls).Ends h := by
        intro h
        simp only [Ends, up_congr (base?_of_types_eq htypes)]
      simp only [hends, ih]
      refine forall_congr' fun name => forall_congr' fun kind => forall_congr' fun base => forall_congr' fun earlier => ?_
      rw [List.suffix_cons_iff]
      constructor
      · rintro hall (heq | hs)
        · cases heq
          exact absurd ⟨name, kind, base, rfl⟩ hc
        · exact hall hs
      · exact fun hall hs => hall (.inr hs)

/-- Where every base exists when it is named, bases stand in front. -/
theorem ordered_built : ∀ {calls : List Call}, (∀ name kind base earlier,
    .defineType name kind base :: earlier <:+ calls → ((built earlier).typeSymbol? (baseOf kind base)).isSome) →
    (built calls).Ordered
  | [], _ => core_ordered
  | c :: calls, hall => by
    have ih : (built calls).Ordered := ordered_built fun name kind base earlier hs =>
      hall name kind base earlier (hs.trans (List.suffix_cons _ _))
    have htypes := (c.perform_types_overrides (built calls)).1
    cases c with
    | defineType name kind base =>
      intro h k hb
      rw [show built (.defineType name kind base :: calls) = ((built calls).defineType name kind base).2 from rfl,
        base?_defineType] at hb
      by_cases hh : h = ⟨(built calls).types.size + 1⟩
      · rw [if_pos hh] at hb
        cases hb
        have hbounds := typeSymbol?_isSome_iff.1 (hall name kind base calls (List.suffix_refl _))
        subst hh
        dsimp only
        omega
      · rw [if_neg hh] at hb
        exact ih h k hb
    | _ => exact fun h k hb => ih h k ((base?_of_types_eq htypes h).symm.trans hb)

/-- **When the hierarchy of types is acyclic.** No type of a program is above itself exactly if no definition of a type
names a base from which bases lead to the type that is being defined; then, and only then, every walk along bases ends.
Assignability, dispatch and the fields of an instance have no answer exactly where they walk for ever: on a walk that
does not end and meets neither the type nor an override that is looked for. Bases that exist when they are named never
close a cycle. -/
theorem hierarchy_acyclic_iff (calls : List Call) :
    ((∀ h n, (built calls).up (n + 1) h ≠ some h) ↔
      ∀ name kind base earlier, .defineType name kind base :: earlier <:+ calls →
        ∀ n, (built earlier).up n (baseOf kind base) ≠ some ⟨(built earlier).types.size + 1⟩) ∧
    ((∀ h n, (built calls).up (n + 1) h ≠ some h) ↔ ∀ h, (built calls).Ends h) ∧
    (∀ s t, (built calls).isAssignable? s t = none ↔ ∀ n, ∃ k, (built calls).up n s = some k ∧ k ≠ t) ∧
    (∀ m t, (built calls).resolveVirtual m t = .error .endless ↔ ((built calls).typeSymbol? t).isSome ∧
      ∀ n, ∃ k, (built calls).up n t = some k ∧ (built calls).overrides.lookup (m.handle, k) = none) ∧
    (∀ t, (built calls).instanceFields? t = none ↔ ¬ (built calls).Ends t) ∧
    ((∀ name kind base earlier, .defineType name kind base :: earlier <:+ calls →
      ((built earlier).typeSymbol? (baseOf kind base)).isSome) → ∀ h, (built calls).Ends h) := by
  refine ⟨?_, acyclic_iff, fun s t => isAssignable?_eq_none_iff, fun m t => resolveVirtual_eq_endless_iff,
    fun t => instanceFields?_eq_none_iff, fun hall h => (ordered_built hall).ends h⟩
  rw [acyclic_iff]
  exact ends_built_iff calls

/-! ## Two types that extend each other -/

/-- The first type names the second as its base, which is defined after it. -/
def mutualCalls : List Call :=
  [.defineType "B" .object (some (.make Token.typeDef 31)), .defineType "A" .object (some (.make Token.typeDef 32))]

/-- **A cycle of two types.** Each is assignable to the other, and whether one is assignable to the root class, which
method it takes and which fields it has are questions without an answer. -/
theorem mutualCalls_cyclic :
    (built mutualCalls).up 2 ⟨31⟩ = some ⟨31⟩ ∧
    (built mutualCalls).isAssignable? ⟨31⟩ ⟨32⟩ = some true ∧ (built mutualCalls).isAssignable? ⟨32⟩ ⟨31⟩ = some true ∧
    (built mutualCalls).isAssignable? ⟨31⟩ Core.object = none ∧
    (built mutualCalls).resolveVirtual (Core.constructor Core.objectConstructor Core.object) ⟨31⟩ = .error .endless ∧
    (built mutualCalls).instanceFields? ⟨31⟩ = none ∧ ¬ (built mutualCalls).Ends ⟨31⟩ := by
  have hround : (built mutualCalls).up 2 ⟨31⟩ = some ⟨31⟩ := by decide +kernel
  exact ⟨hround, by decide +kernel, by decide +kernel, by decide +kernel, rfl, by decide +kernel, not_ends_of_up hround⟩

end ManagedCode.Metadata
