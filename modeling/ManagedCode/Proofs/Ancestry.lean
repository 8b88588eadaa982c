import Mathlib.Data.Finset.Card
import Mathlib.Order.Preorder.Finite
import ManagedCode.Proofs.Narrowed

/-!
# Walks along bases

Assignability, dispatch and the fields of an instance all follow the bases of a type until they find something or there
is no further base. `up` counts the steps of such a walk and puts no bound on them; `Ends` says that it comes to an end.
A search that was given up after `walkBound` types is one that never ends (`firstUp_walkBound_eq_none_iff`), so a missing
answer of the three functions means that they do not return, and nothing else does.
-/

namespace ManagedCode

/-- **A family of subsets of a finite set that grows step by step**, each step depending on the one before alone, is
complete after as many steps as the set has members. -/
theorem reached_within_card {α : Type} (s : Finset α) {P : Nat → α → Prop}
    (hmono : ∀ n, ∀ a ∈ s, P n a → P (n + 1) a)
    (hstep : ∀ n, (∀ a ∈ s, P (n + 1) a → P n a) → ∀ a ∈ s, P (n + 2) a → P (n + 1) a)
    {n : Nat} {a : α} (ha : a ∈ s) (h : P n a) : P s.card a := by
  classical
  let F : Nat → Finset α := fun n => s.filter (P n)
  have hmem : ∀ m b, b ∈ F m ↔ b ∈ s ∧ P m b := fun m b => Finset.mem_filter
  have hsucc : ∀ m, F m ⊆ F (m + 1) := by
    intro m b hb
    rw [hmem] at hb ⊢
    exact ⟨hb.1, hmono m b hb.1 hb.2⟩
  have hgrow : Monotone F := monotone_nat_of_le_succ hsucc
  have hcard : Monotone fun m => (F m).card := fun i j hij => Finset.card_le_card (hgrow hij)
  have hbound : ∀ m, (F m).card ≤ s.card := fun m => Finset.card_filter_le s (P m)
  have hstable : ∀ m, (F m).card = (F (m + 1)).card → (F (m + 1)).card = (F (m + 2)).card := by
    intro m hm
    have heq : F m = F (m + 1) := Finset.eq_of_subset_of_card_le (hsucc m) hm.ge
    have hback : ∀ b ∈ s, P (m + 1) b → P m b := by
      intro b hb hp
      have hin : b ∈ F m := by rw [heq, hmem]; exact ⟨hb, hp⟩
      exact ((hmem m b).1 hin).2
    refine le_antisymm (Finset.card_le_card (hsucc (m + 1))) (Finset.card_le_card ?_)
    intro b hb
    rw [hmem] at hb ⊢
    exact ⟨hb.1, hstep m hback b hb.1 hb.2⟩
  have hin : a ∈ F s.card := by
    have hn : a ∈ F n := (hmem n a).2 ⟨ha, h⟩
    by_cases hle : n ≤ s.card
    · exact hgrow hle hn
    · have hge : s.card ≤ n := by omega
      have hsame := Nat.stabilises_of_monotone hcard hbound hstable hge
      rw [Finset.eq_of_subset_of_card_le (hgrow hge) hsame.le]
      exact hn
  exact ((hmem s.card a).1 hin).2

namespace Metadata

variable {md : Metadata}

/-! ## Steps -/

/-- The type that `n` steps along bases lead to. -/
def up (md : Metadata) : Nat → TypeHandle → Option TypeHandle
  | 0, h => some h
  | n + 1, h => (md.base? h).bind (md.up n)

/-- **The walk from a type comes to an end.** -/
def Ends (md : Metadata) (h : TypeHandle) : Prop := ∃ n, md.up n h = none

theorem up_add (n : Nat) : ∀ (m : Nat) (h : TypeHandle), md.up (m + n) h = (md.up m h).bind (md.up n)
  | 0, h => by rw [Nat.zero_add]; rfl
  | m + 1, h => by
    rw [Nat.add_right_comm, up, up]
    cases md.base? h with
    | none => rfl
    | some k => exact up_add n m k

theorem up_succ (n : Nat) (h : TypeHandle) : md.up (n + 1) h = (md.up n h).bind md.base? := by
  rw [up_add]
  cases md.up n h with
  | none => rfl
  | some k =>
    show (md.base? k).bind some = md.base? k
    cases md.base? k <;> rfl

theorem up_of_le {i n : Nat} {h k : TypeHandle} (hle : i ≤ n) (hn : md.up n h = some k) : ∃ j, md.up i h = some j := by
  obtain ⟨d, rfl⟩ := Nat.exists_eq_add_of_le hle
  rw [up_add] at hn
  obtain ⟨j, hj, -⟩ := Option.bind_eq_some_iff.1 hn
  exact ⟨j, hj⟩

/-- A walk that returns to where it began never ends. -/
theorem not_ends_of_up {n : Nat} {h : TypeHandle} (hn : md.up (n + 1) h = some h) : ¬ md.Ends h := by
  have hround : ∀ r, md.up ((n + 1) * r) h = some h := by
    intro r
    induction r with
    | zero => rfl
    | succ r ih =>
      rw [Nat.mul_succ, up_add, ih]
      exact hn
  rintro ⟨m, hm⟩
  have hle : m ≤ (n + 1) * m := Nat.le_mul_of_pos_left m (Nat.succ_pos n)
  obtain ⟨j, hj⟩ := up_of_le hle (hround m)
  rw [hm] at hj
  cases hj

/-- The handles of the types that there are. -/
def handles (md : Metadata) : Finset TypeHandle := (Finset.range md.types.size).image fun i => ⟨i + 1⟩

theorem card_handles_le (md : Metadata) : md.handles.card ≤ md.types.size := by
  have h := Finset.card_image_le (s := Finset.range md.types.size) (f := fun i => TypeHandle.mk (i + 1))
  rwa [Finset.card_range] at h

theorem typeSymbol?_isSome_iff {h : TypeHandle} : (md.typeSymbol? h).isSome ↔ 0 < h.id ∧ h.id ≤ md.types.size := by
  unfold typeSymbol? typeRow?
  by_cases hz : h.id = 0
  · simp [hz]
  · simp only [hz, if_false, Option.isSome_map, isSome_getElem?]
    omega

theorem mem_handles {h : TypeHandle} (hh : (md.typeSymbol? h).isSome) : h ∈ md.handles := by
  have hbounds := typeSymbol?_isSome_iff.1 hh
  refine Finset.mem_image.2 ⟨h.id - 1, Finset.mem_range.2 (by omega), ?_⟩
  rw [Nat.sub_add_cancel hbounds.1]

theorem mem_handles_of_base? {h k : TypeHandle} (hb : md.base? h = some k) : h ∈ md.handles := by
  obtain ⟨r, hr, -⟩ := Option.bind_eq_some_iff.1 hb
  refine mem_handles ?_
  rw [typeSymbol?, hr]
  rfl

/-- **A walk that does not end meets a type twice.** -/
theorem exists_cycle {h : TypeHandle} (hends : ¬ md.Ends h) :
    ∃ m n k, md.up m h = some k ∧ md.up (n + 1) k = some k := by
  have hsome : ∀ n, ∃ k, md.up n h = some k := by
    intro n
    cases hn : md.up n h with
    | none => exact absurd ⟨n, hn⟩ hends
    | some k => exact ⟨k, rfl⟩
  choose f hf using hsome
  have hbase : ∀ n, md.base? (f n) = some (f (n + 1)) := by
    intro n
    have hnext := hf (n + 1)
    rw [up_succ, hf n] at hnext
    exact hnext
  obtain ⟨i, j, hlt, heq⟩ := Set.Finite.exists_lt_map_eq_of_forall_mem (fun n => mem_handles_of_base? (hbase n))
    md.handles.finite_toSet
  obtain ⟨d, rfl⟩ := Nat.exists_eq_add_of_lt hlt
  refine ⟨i, d, f i, hf i, ?_⟩
  have hj := hf (i + d + 1)
  rw [Nat.add_assoc, up_add, hf i] at hj
  exact hj.trans (congrArg some heq.symm)

/-- **No type is above itself exactly if every walk ends.** -/
theorem acyclic_iff : (∀ h n, md.up (n + 1) h ≠ some h) ↔ ∀ h, md.Ends h := by
  constructor
  · intro hacyclic h
    by_contra hends
    obtain ⟨m, n, k, -, hcycle⟩ := exists_cycle hends
    exact hacyclic k n hcycle
  · intro hends h n hn
    exact not_ends_of_up hn (hends h)

/-- A walk ends if every base stands in front of the types that extend it. -/
theorem ends_of_descending (hdown : ∀ h k, md.base? h = some k → k.id < h.id) (h : TypeHandle) : md.Ends h := by
  obtain ⟨id⟩ := h
  induction id using Nat.strongRecOn with
  | ind id ih =>
    cases hb : md.base? ⟨id⟩ with
    | none => exact ⟨1, by rw [up, hb]; rfl⟩
    | some k =>
      obtain ⟨n, hn⟩ := ih k.id (hdown _ k hb)
      exact ⟨n + 1, by rw [up, hb]; exact hn⟩

/-! ## Searches -/

variable {β : Type} {p : TypeHandle → Option β}

/-- A search is given up only where the walk goes on. -/
theorem firstUp_eq_none_iff : ∀ {n : Nat} {h : TypeHandle}, md.firstUp p n h = none ↔
    ∀ i < n, ∃ k, md.up i h = some k ∧ p k = none ∧ (md.base? k).isSome
  | 0, h => by simp [firstUp]
  | n + 1, h => by
    rw [firstUp]
    constructor
    · intro hnone i hi
      cases hp : p h with
      | some b => simp [hp] at hnone
      | none =>
        cases hb : md.base? h with
        | none => simp [hp, hb] at hnone
        | some k =>
          simp only [hp, hb] at hnone
          cases i with
          | zero => exact ⟨h, rfl, hp, by simp [hb]⟩
          | succ i =>
            obtain ⟨j, hj⟩ := firstUp_eq_none_iff.1 hnone i (by omega)
            refine ⟨j, ?_, hj.2⟩
            rw [up, hb]
            exact hj.1
    · intro hall
      obtain ⟨k, hk, hp, hb⟩ := hall 0 (by omega)
      cases hk
      obtain ⟨k, hk⟩ := Option.isSome_iff_exists.1 hb
      simp only [hp, hk]
      refine firstUp_eq_none_iff.2 fun i hi => ?_
      have hnext := hall (i + 1) (by omega)
      simpa only [up, hk, Option.bind_some] using hnext

theorem firstUp_mono {r : Option β} : ∀ {n m : Nat} {h : TypeHandle}, md.firstUp p n h = some r → n ≤ m →
    md.firstUp p m h = some r
  | 0, _, _, hr, _ => by cases hr
  | n + 1, 0, _, _, hle => by omega
  | n + 1, m + 1, h, hr, hle => by
    rw [firstUp] at hr ⊢
    cases hp : p h with
    | some b => simpa only [hp] using hr
    | none =>
      cases hb : md.base? h with
      | none => simpa only [hp, hb] using hr
      | some k =>
        simp only [hp, hb] at hr ⊢
        exact firstUp_mono hr (by omega)

theorem firstUp_of_base?_eq_none {n : Nat} {h : TypeHandle} (hb : md.base? h = none) :
    (md.firstUp p (n + 1) h).isSome := by
  rw [firstUp, hb]
  cases p h <;> rfl

/-- **The bound of a search suffices**: what is found within any number of types is found within it. -/
theorem firstUp_walkBound {n : Nat} {h : TypeHandle} {r : Option β} (hr : md.firstUp p n h = some r) :
    md.firstUp p md.walkBound h = some r := by
  have hsome : (md.firstUp p md.walkBound h).isSome := by
    by_cases hh : h ∈ md.handles
    · -- the types from which a search ends within `n + 1` types grow with `n`
      have hwithin : (md.firstUp p (md.handles.card + 1) h).isSome := by
        refine reached_within_card md.handles (P := fun n h => (md.firstUp p (n + 1) h).isSome) ?_ ?_ hh (n := n) ?_
        · intro n k _ hk
          obtain ⟨s, hs⟩ := Option.isSome_iff_exists.1 hk
          exact Option.isSome_iff_exists.2 ⟨s, firstUp_mono hs (by omega)⟩
        · intro n hback k _ hk
          rw [firstUp] at hk ⊢
          cases hp : p k with
          | some b => rfl
          | none =>
            cases hb : md.base? k with
            | none => rfl
            | some j =>
              simp only [hp, hb] at hk ⊢
              by_cases hj : j ∈ md.handles
              · exact hback j hj hk
              · refine firstUp_of_base?_eq_none ?_
                cases hbase : md.base? j with
                | none => rfl
                | some i => exact absurd (mem_handles_of_base? hbase) hj
        · exact Option.isSome_iff_exists.2 ⟨r, firstUp_mono hr (by omega)⟩
      obtain ⟨s, hs⟩ := Option.isSome_iff_exists.1 hwithin
      have hle := md.card_handles_le
      exact Option.isSome_iff_exists.2 ⟨s, firstUp_mono hs (by simp only [walkBound]; omega)⟩
    · refine firstUp_of_base?_eq_none ?_
      cases hbase : md.base? h with
      | none => rfl
      | some i => exact absurd (mem_handles_of_base? hbase) hh
  obtain ⟨s, hs⟩ := Option.isSome_iff_exists.1 hsome
  rcases Nat.le_total n md.walkBound with hle | hge
  · exact firstUp_mono hr hle
  · rw [firstUp_mono hs hge] at hr
    rw [hs, hr]

/-- **A search is given up exactly if it never ends**: the walk goes on for ever and meets nothing that is looked
for. -/
theorem firstUp_walkBound_eq_none_iff {h : TypeHandle} :
    md.firstUp p md.walkBound h = none ↔ ∀ n, ∃ k, md.up n h = some k ∧ p k = none := by
  constructor
  · intro hnone n
    have hall : md.firstUp p (n + 1) h = none := by
      cases hr : md.firstUp p (n + 1) h with
      | none => rfl
      | some r =>
        rw [firstUp_walkBound hr] at hnone
        cases hnone
    obtain ⟨k, hk, hp, -⟩ := firstUp_eq_none_iff.1 hall n (by omega)
    exact ⟨k, hk, hp⟩
  · intro hall
    refine firstUp_eq_none_iff.2 fun i _ => ?_
    obtain ⟨k, hk, hp⟩ := hall i
    obtain ⟨j, hj, -⟩ := hall (i + 1)
    rw [up_succ, hk] at hj
    exact ⟨k, hk, hp, Option.isSome_iff_exists.2 ⟨j, hj⟩⟩

/-- What the nearest type gives that gives something. -/
theorem firstUp_of_up {b : β} : ∀ {n : Nat} {h a : TypeHandle}, md.up n h = some a → p a = some b →
    (∀ i < n, ∀ k, md.up i h = some k → p k = none) → md.firstUp p (n + 1) h = some (some b)
  | 0, h, a, ha, hb, _ => by
    cases ha
    rw [firstUp, hb]
  | n + 1, h, a, ha, hb, hbefore => by
    obtain ⟨k, hk, ha⟩ := Option.bind_eq_some_iff.1 ha
    rw [firstUp, hbefore 0 (by omega) h rfl, hk]
    refine firstUp_of_up ha hb fun i hi j hj => hbefore (i + 1) (by omega) j ?_
    rw [up, hk]
    exact hj

/-- Nothing is found on a walk that ends without meeting anything. -/
theorem firstUp_of_ends : ∀ {n : Nat} {h : TypeHandle}, md.up n h = none →
    (∀ i k, md.up i h = some k → p k = none) → md.firstUp p n h = some none
  | 0, h, hn, _ => by cases hn
  | n + 1, h, hn, hall => by
    rw [firstUp, hall 0 h rfl]
    cases hb : md.base? h with
    | none => rfl
    | some k =>
      rw [up, hb] at hn
      refine firstUp_of_ends hn fun i j hj => hall (i + 1) j ?_
      rw [up, hb]
      exact hj

/-! ## Assignability -/

theorem isAssignable?_eq_none_iff {s t : TypeHandle} :
    md.isAssignable? s t = none ↔ ∀ n, ∃ k, md.up n s = some k ∧ k ≠ t := by
  rw [isAssignable?, Option.map_eq_none_iff, firstUp_walkBound_eq_none_iff]
  simp

/-- **A type can stand for the types above it**, itself among them. -/
theorem isAssignable?_eq_true_iff {s t : TypeHandle} : md.isAssignable? s t = some true ↔ ∃ n, md.up n s = some t := by
  constructor
  · intro htrue
    by_contra hnone
    obtain ⟨o, ho, hsome⟩ := Option.map_eq_some_iff.1 htrue
    have hall : ∀ i k, md.up i s = some k → (if k = t then some () else none) = none := by
      intro i k hk
      rw [if_neg]
      rintro rfl
      exact hnone ⟨i, hk⟩
    by_cases hends : md.Ends s
    · obtain ⟨n, hn⟩ := hends
      rw [firstUp_walkBound (firstUp_of_ends hn hall)] at ho
      cases ho
      cases hsome
    · have hgiven : md.firstUp (fun h => if h = t then some () else none) md.walkBound s = none := by
        refine firstUp_walkBound_eq_none_iff.2 fun n => ?_
        cases hn : md.up n s with
        | none => exact absurd ⟨n, hn⟩ hends
        | some k => exact ⟨k, rfl, hall n k hn⟩
      rw [hgiven] at ho
      cases ho
  · rintro hup
    obtain ⟨n, hn, hfirst⟩ : ∃ n, md.up n s = some t ∧ ∀ i < n, md.up i s ≠ some t := by
      classical
      exact ⟨Nat.find hup, Nat.find_spec hup, fun i hi => Nat.find_min hup hi⟩
    have hfound : md.firstUp (fun h => if h = t then some () else none) md.walkBound s = some (some ()) := by
      refine firstUp_walkBound (firstUp_of_up hn (if_pos rfl) fun i hi k hk => if_neg ?_)
      rintro rfl
      exact hfirst i hi hk
    rw [isAssignable?, hfound]
    rfl

/-! ## The fields of an instance -/

theorem chainFrom_spec : ∀ {n : Nat} {h : TypeHandle} {chain : List TypeHandle}, md.chainFrom n h = some chain →
    ∀ i, chain[i]? = md.up i h
  | 0, _, _, hc, _ => by cases hc
  | n + 1, h, chain, hc, i => by
    rw [chainFrom] at hc
    cases hb : md.base? h with
    | none =>
      simp only [hb, Option.some.injEq] at hc
      subst hc
      cases i with
      | zero => rfl
      | succ i => simp [up, hb]
    | some k =>
      simp only [hb] at hc
      obtain ⟨rest, hrest, rfl⟩ := Option.map_eq_some_iff.1 hc
      cases i with
      | zero => rfl
      | succ i =>
        rw [List.getElem?_cons_succ, chainFrom_spec hrest i, up, hb]
        rfl

theorem chainFrom_eq_none_iff : ∀ {n : Nat} {h : TypeHandle}, md.chainFrom n h = none ↔
    md.firstUp (fun _ => (none : Option Unit)) n h = none
  | 0, h => by simp [chainFrom, firstUp]
  | n + 1, h => by
    rw [chainFrom, firstUp]
    cases hb : md.base? h with
    | none => simp
    | some k =>
      simp only [Option.map_eq_none_iff]
      exact chainFrom_eq_none_iff

theorem chain?_eq_none_iff {h : TypeHandle} : md.chain? h = none ↔ ¬ md.Ends h := by
  rw [chain?, chainFrom_eq_none_iff, firstUp_walkBound_eq_none_iff, Ends, not_exists]
  refine forall_congr' fun n => ?_
  cases md.up n h <;> simp

theorem instanceFields?_eq_none_iff {h : TypeHandle} : md.instanceFields? h = none ↔ ¬ md.Ends h := by
  rw [instanceFields?, Option.map_eq_none_iff, chain?_eq_none_iff]

/-- The fields of an instance are those that its type or one above it declares. -/
theorem mem_instanceFields? {h : TypeHandle} {fields : List FieldSymbol} (hf : md.instanceFields? h = some fields)
    (f : FieldSymbol) :
    f ∈ fields ↔ f ∈ md.fields ∧ f.isStatic = false ∧ ∃ n, md.up n h = some f.declaring := by
  obtain ⟨chain, hchain, rfl⟩ := Option.map_eq_some_iff.1 hf
  have hspec := chainFrom_spec hchain
  have hmem : f.declaring ∈ chain ↔ ∃ n, md.up n h = some f.declaring := by
    rw [List.mem_iff_getElem?]
    simp only [hspec]
  simp [List.mem_filter, hmem]

/-! ## Dispatch -/

theorem resolveVirtual_eq_endless_iff {m : MethodSymbol} {t : TypeHandle} :
    md.resolveVirtual m t = .error .endless ↔ (md.typeSymbol? t).isSome ∧
      ∀ n, ∃ k, md.up n t = some k ∧ md.overrides.lookup (m.handle, k) = none := by
  have hmethod : ∀ k, md.methodOf k ≠ .error .endless := by
    intro k
    unfold methodOf
    split <;> simp
  rw [← firstUp_walkBound_eq_none_iff (p := fun k => md.overrides.lookup (m.handle, k))]
  unfold resolveVirtual
  by_cases ht : (md.typeSymbol? t).isNone
  · rw [if_pos ht]
    simp [Option.isNone_iff_eq_none.1 ht]
  · rw [if_neg ht]
    have hsome : (md.typeSymbol? t).isSome := by simpa [Option.isSome_iff_ne_none] using ht
    simp only [hsome, true_and]
    split
    · simp [*]
    · simp [*]
    · simp [*]

end Metadata

end ManagedCode
