import Mathlib.Data.List.ProdSigma
import Mathlib.Logic.Relation
import Mathlib.Order.WellFounded
import ManagedCode.Proofs.Hierarchy

/-!
# Structures inside structures

An instance holds the structures of its fields, and these are constructed before it. A field may have any type that
there is, so a structure may hold itself, and then its construction has no end.

All that a construction depends on is the number of objects that may still be allocated, its `room`: `spend` is what it
does to that number (`newInstanceWithin_spends`). Two facts about `spend` settle when a construction ends. What is built
within some depth is built within the bound of `newInstance` (`spend_bound`), so one that is given up never ends. And
without a limit a construction ends exactly if no structure inside of it holds itself.
-/

namespace ManagedCode

open Relation (ReflTransGen TransGen)

namespace Metadata

variable {md : Metadata} {t u : TypeHandle} {fields : List FieldSymbol}

/-! ## What types hold -/

/-- **An instance of `t` holds a structure of type `u`**: a field has that type that `t` or a type above it declares. -/
def Contains (md : Metadata) (t u : TypeHandle) : Prop :=
  ∃ f ∈ md.fields, f.isStatic = false ∧ (∃ n, md.up n t = some f.declaring) ∧ f.type = u ∧
    ∃ s, md.typeSymbol? u = some s ∧ s.kind = .struct

/-- **Somewhere inside an instance of `t` is a structure that holds itself.** -/
def Recursive (md : Metadata) (t : TypeHandle) : Prop :=
  ∃ u, ReflTransGen md.Contains t u ∧ TransGen md.Contains u u

theorem Contains.mem_handles (h : md.Contains t u) : u ∈ md.handles := by
  obtain ⟨f, -, -, -, rfl, s, hs, -⟩ := h
  exact Metadata.mem_handles (Option.isSome_iff_exists.2 ⟨s, hs⟩)

theorem Recursive.exists_contains (ht : md.Recursive t) : ∃ u, md.Contains t u ∧ md.Recursive u := by
  obtain ⟨u, htu, hu⟩ := ht
  rcases ReflTransGen.cases_head htu with rfl | ⟨v, htv, hvu⟩
  · obtain ⟨v, htv, hvt⟩ := TransGen.head'_iff.1 hu
    exact ⟨v, htv, v, .refl, .tail' hvt htv⟩
  · exact ⟨v, htv, u, hvu, hu⟩

/-- **Only a structure that holds itself nests for ever.** -/
theorem acc_contains_iff : Acc (fun u t => md.Contains t u) t ↔ ¬ md.Recursive t := by
  constructor
  · intro hacc
    induction hacc with
    | intro t _ ih =>
      intro ht
      obtain ⟨u, htu, hu⟩ := ht.exists_contains
      exact ih u htu hu
  · intro ht
    by_contra hacc
    obtain ⟨f, rfl, hf⟩ := not_acc_iff_exists_descending_chain.1 hacc
    have hpath : ∀ i d, ReflTransGen md.Contains (f i) (f (i + d)) := by
      intro i d
      induction d with
      | zero => exact .refl
      | succ d ih => exact ih.tail (hf (i + d))
    obtain ⟨i, j, hlt, heq⟩ := Set.Finite.exists_lt_map_eq_of_forall_mem (f := fun n => f (n + 1))
      (fun n => (hf n).mem_handles) md.handles.finite_toSet
    obtain ⟨d, rfl⟩ := Nat.exists_eq_add_of_lt hlt
    have hround : TransGen md.Contains (f (i + 1)) (f (i + 1)) := by
      have hrest := hpath (i + 2) d
      rw [show i + 2 + d = i + d + 1 + 1 by omega, ← heq] at hrest
      exact .head' (hf (i + 1)) hrest
    refine ht ⟨f (i + 1), ?_, hround⟩
    simpa using hpath 0 (i + 1)

/-- The structure that a field holds. -/
def part? (md : Metadata) (f : FieldSymbol) : Option TypeHandle :=
  ((md.typeSymbol? f.type).filter (·.kind = .struct)).map (·.handle)

/-- The structures that fields hold, in the order of the fields. -/
def parts (md : Metadata) (fields : List FieldSymbol) : List TypeHandle := fields.filterMap md.part?

theorem WellFormed.handle_eq (hmd : md.WellFormed) {s : TypeSymbol} (hs : md.typeSymbol? t = some s) :
    s.handle = t := by
  obtain ⟨r, hr, rfl⟩ := Option.map_eq_some_iff.1 hs
  unfold typeRow? at hr
  split at hr
  · cases hr
  · have hid := (hmd.types _ r hr).1
    cases hh : r.symbol.handle
    cases t
    rw [hh] at hid
    dsimp only at *
    congr 1
    omega

theorem mem_parts (hmd : md.WellFormed) (hfields : md.instanceFields? t = some fields) :
    u ∈ md.parts fields ↔ md.Contains t u := by
  simp only [parts, part?, List.mem_filterMap, Option.map_eq_some_iff, Option.filter_eq_some_iff, decide_eq_true_eq]
  constructor
  · rintro ⟨f, hf, s, ⟨hs, hk⟩, rfl⟩
    obtain ⟨hmem, hstatic, hup⟩ := (mem_instanceFields? hfields f).1 hf
    have hhandle := hmd.handle_eq hs
    exact ⟨f, hmem, hstatic, hup, hhandle.symm, s, hhandle ▸ hs, hk⟩
  · rintro ⟨f, hmem, hstatic, hup, rfl, s, hs, hk⟩
    exact ⟨f, (mem_instanceFields? hfields f).2 ⟨hmem, hstatic, hup⟩, s, ⟨hs, hk⟩, hmd.handle_eq hs⟩

/-- The structure that an instance constructs before anything else. -/
def firstPart? (md : Metadata) (t : TypeHandle) : Option TypeHandle :=
  (md.instanceFields? t).bind fun fields => (md.parts fields).head?

end Metadata

namespace Heap

variable {md : Metadata} {t u : TypeHandle} {r r' : Option Nat}

/-! ## The room that a construction takes -/

/-- The number of objects that may still be allocated, if there is a limit. -/
def room (h : Heap) : Option Nat := h.limit.map (· - h.allocated)

/-- The room that one more object leaves. -/
def take : Option Nat → Except HeapFailure (Option Nat)
  | none => .ok none
  | some 0 => .error (.fault .outOfMemory)
  | some (n + 1) => .ok (some n)

/-- **The room that an instance leaves**, with all structures inside of it. -/
def spend (md : Metadata) : (fuel : Nat) → TypeHandle → Option Nat → Except HeapFailure (Option Nat)
  | 0, _, _ => .error .endless
  | fuel + 1, t, room =>
    match md.instanceFields? t with
    | none => .error .endless
    | some fields => (md.parts fields).foldlM (fun room u => spend md fuel u room) room >>= take

/-- What is left of an operation if only the room counts. -/
def outcome {α : Type} : Except HeapFailure α × Heap → Except HeapFailure (Option Nat)
  | (.ok _, h) => .ok h.room
  | (.error e, _) => .error e

/-- The operation does to the room what `g` says, and fails as `g` does. -/
def Spends {α : Type} (x : HeapM α) (g : Option Nat → Except HeapFailure (Option Nat)) : Prop :=
  ∀ h, outcome (x.run h) = g h.room

namespace Spends

variable {α β : Type} {x : HeapM α} {f : α → HeapM β} {g g' : Option Nat → Except HeapFailure (Option Nat)}

theorem pure (a : α) : Spends (pure a : HeapM α) .ok := fun _ => rfl

theorem bind (hx : Spends x g) (hf : ∀ a, Spends (f a) g') : Spends (x >>= f) fun r => g r >>= g' := by
  intro h
  have hg := hx h
  rw [Meets.run_bind]
  rcases hr : x.run h with ⟨e | a, h'⟩
  · rw [hr] at hg
    simp only [← hg]
    rfl
  · rw [hr] at hg
    simp only [← hg]
    exact hf a h'

/-- What adds nothing to the room that was spent. -/
theorem bind_pure (hx : Spends x g) (f : α → β) : Spends (x >>= fun a => Pure.pure (f a)) g := by
  intro h
  rw [Meets.run_bind, ← hx h]
  rcases x.run h with ⟨e | a, h'⟩ <;> rfl

end Spends

theorem spends_allocate (o : Object) : Spends (allocate o) take := by
  rintro ⟨objects, statics, allocated, limit⟩
  cases limit with
  | none => rfl
  | some limit =>
    show outcome ((if decide (limit ≤ allocated) = true then raise .outOfMemory
      else do set (Heap.mk objects statics (allocated + 1) (some limit)); place o : HeapM Ref).run
        ⟨objects, statics, allocated, some limit⟩) = take (some (limit - allocated))
    by_cases hfull : limit ≤ allocated
    · rw [if_pos (decide_eq_true hfull), Nat.sub_eq_zero_of_le hfull]
      rfl
    · have hleft : limit - allocated = limit - (allocated + 1) + 1 := by omega
      rw [if_neg (by simpa using hfull), hleft]
      rfl

theorem spends_mapM {β : Type} {f : FieldSymbol → HeapM β}
    {sub : TypeHandle → Option Nat → Except HeapFailure (Option Nat)}
    (hf : ∀ a, Spends (f a) fun r => (md.part? a).elim (.ok r) (sub · r)) : ∀ fields : List FieldSymbol,
    Spends (fields.mapM f) fun r => (md.parts fields).foldlM (fun r u => sub u r) r
  | [] => .pure []
  | a :: fields => by
    rw [List.mapM_cons, Metadata.parts, List.filterMap_cons]
    have hrest : ∀ b, Spends (do let bs ← fields.mapM f; pure (b :: bs)) fun r =>
        (md.parts fields).foldlM (fun r u => sub u r) r := fun b => (spends_mapM hf fields).bind_pure (b :: ·)
    have hall := (hf a).bind hrest
    cases hp : md.part? a with
    | none =>
      simp only [hp] at hall
      exact hall
    | some u =>
      simp only [hp] at hall
      simp only [List.foldlM_cons]
      exact hall

/-- **Only the room counts for a construction.** -/
theorem newInstanceWithin_spends : ∀ (fuel : Nat) (type : TypeSymbol),
    Spends (newInstanceWithin md fuel type) (spend md fuel type.handle)
  | 0, _ => fun _ => rfl
  | fuel + 1, type => by
    unfold newInstanceWithin
    cases hfields : md.instanceFields? type.handle with
    | none =>
      intro h
      rw [spend, hfields]
      rfl
    | some fields =>
      have hspend : spend md (fuel + 1) type.handle = fun r =>
          (md.parts fields).foldlM (fun r u => spend md fuel u r) r >>= take := by
        funext r
        rw [spend, hfields]
      rw [hspend, show orEndless (some fields) = pure fields from rfl, pure_bind]
      refine Spends.bind (spends_mapM (fun a => ?_) fields) fun values => spends_allocate _
      unfold Metadata.part?
      cases md.typeSymbol? a.type with
      | none => exact .pure _
      | some s =>
        by_cases hs : s.kind = .struct
        · simp only [hs]
          have hinner := (newInstanceWithin_spends fuel s).bind_pure fun r => (a.handle, Value.object (some r))
          simpa [Option.filter, hs] using hinner
        · have hzero : Spends (pure (a.handle, s.kind.zero) : HeapM _) .ok := .pure _
          simp only [Option.filter, hs]
          split
          · contradiction
          · simpa using hzero

/-! ## More depth -/

/-- The second goes on where the first is given up, and agrees with it elsewhere. -/
def Refines {α : Type} (a b : Except HeapFailure α) : Prop := a = .error .endless ∨ a = b

theorem Refines.bind {α β : Type} {a b : Except HeapFailure α} {f g : α → Except HeapFailure β} (hab : Refines a b)
    (hfg : ∀ v, a = .ok v → Refines (f v) (g v)) : Refines (a >>= f) (b >>= g) := by
  rcases hab with rfl | rfl
  · exact .inl rfl
  · cases a with
    | error e => exact .inr rfl
    | ok v => exact hfg v rfl

/-- The rooms that can be left of a room. -/
def rooms : Option Nat → List (Option Nat)
  | none => [none]
  | some n => (List.range (n + 1)).map some

theorem length_rooms : ∀ r, (rooms r).length = r.getD 0 + 1
  | none => rfl
  | some n => by simp [rooms]

theorem self_mem_rooms : ∀ r, r ∈ rooms r
  | none => List.mem_singleton_self none
  | some n => List.mem_map_of_mem (List.mem_range.2 (Nat.lt_succ_self n))

section

variable {room : Option Nat} {sub sub' : TypeHandle → Option Nat → Except HeapFailure (Option Nat)}

theorem take_mem_rooms (hr : r ∈ rooms room) (htake : take r = .ok r') : r' ∈ rooms room := by
  cases room with
  | none =>
    obtain rfl := List.mem_singleton.1 hr
    cases htake
    exact hr
  | some n =>
    obtain ⟨m, hm, rfl⟩ := List.mem_map.1 hr
    cases m with
    | zero => cases htake
    | succ m =>
      cases htake
      have hlt := List.mem_range.1 hm
      exact List.mem_map_of_mem (List.mem_range.2 (by omega))

theorem foldlM_mem_rooms (hsub : ∀ u r r', r ∈ rooms room → sub u r = .ok r' → r' ∈ rooms room) :
    ∀ {parts : List TypeHandle} {r r' : Option Nat}, r ∈ rooms room →
      parts.foldlM (fun r u => sub u r) r = .ok r' → r' ∈ rooms room
  | [], r, r', hr, h => by
    cases h
    exact hr
  | u :: parts, r, r', hr, h => by
    rw [List.foldlM_cons] at h
    cases hu : sub u r with
    | error e => rw [hu] at h; cases h
    | ok r₁ =>
      rw [hu] at h
      exact foldlM_mem_rooms hsub (hsub u r r₁ hr hu) h

theorem foldlM_refines (hkeep : ∀ u r r', r ∈ rooms room → sub u r = .ok r' → r' ∈ rooms room) :
    ∀ {parts : List TypeHandle} {r : Option Nat}, (∀ u ∈ parts, ∀ r ∈ rooms room, Refines (sub u r) (sub' u r)) →
      r ∈ rooms room → Refines (parts.foldlM (fun r u => sub u r) r) (parts.foldlM (fun r u => sub' u r) r)
  | [], _, _, _ => .inr rfl
  | u :: parts, r, hsub, hr => by
    rw [List.foldlM_cons, List.foldlM_cons]
    refine (hsub u List.mem_cons_self r hr).bind fun r₁ hr₁ => ?_
    exact foldlM_refines hkeep (fun u hu => hsub u (List.mem_cons_of_mem _ hu)) (hkeep u r r₁ hr hr₁)

theorem spend_mem_rooms : ∀ (n : Nat) (t : TypeHandle) (r r' : Option Nat), r ∈ rooms room →
    spend md n t r = .ok r' → r' ∈ rooms room
  | 0, _, _, _, _, h => by cases h
  | n + 1, t, r, r', hr, h => by
    rw [spend] at h
    cases hfields : md.instanceFields? t with
    | none => rw [hfields] at h; cases h
    | some fields =>
      simp only [hfields] at h
      cases hparts : (md.parts fields).foldlM (fun r u => spend md n u r) r with
      | error e => rw [hparts] at h; cases h
      | ok r₁ =>
        rw [hparts] at h
        exact take_mem_rooms (foldlM_mem_rooms (spend_mem_rooms n) hr hparts) h

/-- One more level is as good as the level below it. -/
theorem spend_refines_of (n m : Nat) (hr : r ∈ rooms room)
    (hparts : ∀ fields, md.instanceFields? t = some fields → ∀ u ∈ md.parts fields, ∀ r ∈ rooms room,
      Refines (spend md n u r) (spend md m u r)) : Refines (spend md (n + 1) t r) (spend md (m + 1) t r) := by
  rw [spend, spend]
  cases hfields : md.instanceFields? t with
  | none => exact .inl rfl
  | some fields =>
    exact (foldlM_refines (spend_mem_rooms n) (hparts fields hfields) hr).bind fun _ _ => .inr rfl

end

theorem spend_refines : ∀ (n : Nat) (t : TypeHandle) (r : Option Nat), Refines (spend md n t r) (spend md (n + 1) t r)
  | 0, _, _ => .inl rfl
  | n + 1, _, r => spend_refines_of n (n + 1) (self_mem_rooms r) fun _ _ u _ r _ => spend_refines n u r

/-- What was built within some depth is built alike within any greater one. -/
theorem spend_of_le {n m : Nat} (hle : n ≤ m) (h : spend md n t r ≠ .error .endless) :
    spend md m t r = spend md n t r := by
  induction m, hle using Nat.le_induction with
  | base => rfl
  | succ m _ ih =>
    rcases spend_refines m t r with hend | heq
    · rw [ih] at hend
      exact absurd hend h
    · rw [← heq, ih]

/-- **The bound of a construction suffices.** -/
theorem spend_bound (hmd : md.WellFormed) {n : Nat} (h : spend md n t r ≠ .error .endless) :
    spend md (md.walkBound * (r.getD 0 + 1)) t r = spend md n t r := by
  classical
  let s := ((insert t md.handles).toList ×ˢ rooms r).toFinset
  have hmem : ∀ e, e ∈ s ↔ (e.1 = t ∨ e.1 ∈ md.handles) ∧ e.2 ∈ rooms r := by
    rintro ⟨u, r₁⟩
    rw [List.mem_toFinset, List.mem_product, Finset.mem_toList, Finset.mem_insert]
  -- the types and rooms that are built within `n` levels grow with `n`
  have hwithin : spend md s.card t r ≠ .error .endless := by
    refine reached_within_card s (P := fun n e => spend md n e.1 e.2 ≠ .error .endless) ?_ ?_ (n := n) (a := (t, r))
      ((hmem _).2 ⟨.inl rfl, self_mem_rooms r⟩) h
    · intro n e _ he
      rwa [spend_of_le (Nat.le_succ n) he]
    · intro n hback e hes he
      have hless : Refines (spend md (n + 2) e.1 e.2) (spend md (n + 1) e.1 e.2) := by
        refine spend_refines_of (n + 1) n ((hmem e).1 hes).2 fun fields hfields u hu r₁ hr₁ => ?_
        by_cases hu₁ : spend md (n + 1) u r₁ = .error .endless
        · exact .inl hu₁
        · have hhandle : u ∈ md.handles := ((Metadata.mem_parts hmd hfields).1 hu).mem_handles
          exact .inr (spend_of_le (Nat.le_succ n) (hback (u, r₁) ((hmem _).2 ⟨.inr hhandle, hr₁⟩) hu₁))
      rcases hless with hend | heq
      · exact absurd hend he
      · rwa [← heq]
  have hcard : s.card ≤ md.walkBound * (r.getD 0 + 1) := by
    have htypes : (insert t md.handles).card ≤ md.walkBound :=
      (Finset.card_insert_le t md.handles).trans (Nat.succ_le_succ md.card_handles_le)
    refine (List.toFinset_card_le _).trans ?_
    rw [List.length_product, Finset.length_toList, length_rooms]
    exact Nat.mul_le_mul_right _ htypes
  rw [spend_of_le hcard hwithin]
  rcases Nat.le_total n s.card with hle | hge
  · exact spend_of_le hle h
  · exact (spend_of_le hge hwithin).symm

/-! ## Which constructions end -/

theorem foldlM_ne_endless {sub : TypeHandle → Option Nat → Except HeapFailure (Option Nat)} :
    ∀ {parts : List TypeHandle}, (∀ u ∈ parts, ∀ r, sub u r ≠ .error .endless) →
      ∀ r, parts.foldlM (fun r u => sub u r) r ≠ .error .endless
  | [], _, r => nofun
  | u :: parts, hsub, r => by
    have hu := hsub u List.mem_cons_self r
    rw [List.foldlM_cons]
    cases hr : sub u r with
    | error e =>
      rw [hr] at hu
      exact hu
    | ok r₁ => exact foldlM_ne_endless (fun u hu => hsub u (List.mem_cons_of_mem _ hu)) r₁

theorem take_ne_endless : ∀ r, take r ≠ .error .endless
  | none => nofun
  | some 0 => nofun
  | some (_ + 1) => nofun

/-- Parts that are built within some depth each are built within a common one. -/
theorem exists_common_depth : ∀ {parts : List TypeHandle},
    (∀ u ∈ parts, ∃ n, ∀ r, spend md n u r ≠ .error .endless) → ∃ n, ∀ u ∈ parts, ∀ r, spend md n u r ≠ .error .endless
  | [], _ => ⟨0, by simp⟩
  | u :: parts, hdepth => by
    obtain ⟨n, hn⟩ := hdepth u List.mem_cons_self
    obtain ⟨m, hm⟩ := exists_common_depth fun v hv => hdepth v (List.mem_cons_of_mem u hv)
    refine ⟨max n m, List.forall_mem_cons.2 ⟨fun r => ?_, fun v hv r => ?_⟩⟩
    · rw [spend_of_le (Nat.le_max_left n m) (hn r)]
      exact hn r
    · rw [spend_of_le (Nat.le_max_right n m) (hm v hv r)]
      exact hm v hv r

/-- A type in which no structure holds itself is built within some depth, whatever the room. -/
theorem exists_depth (hmd : md.WellFormed) (hends : ∀ h, md.Ends h) (hacc : Acc (fun u t => md.Contains t u) t) :
    ∃ n, ∀ r, spend md n t r ≠ .error .endless := by
  induction hacc with
  | intro t _ ih =>
    cases hfields : md.instanceFields? t with
    | none => exact absurd (hends t) (Metadata.instanceFields?_eq_none_iff.1 hfields)
    | some fields =>
      obtain ⟨n, hn⟩ := exists_common_depth fun u hu => ih u ((Metadata.mem_parts hmd hfields).1 hu)
      refine ⟨n + 1, fun r => ?_⟩
      have hfold := foldlM_ne_endless hn r
      rw [spend]
      simp only [hfields]
      cases hr : (md.parts fields).foldlM (fun r u => spend md n u r) r with
      | error e =>
        rw [hr] at hfold
        exact hfold
      | ok r₁ => exact take_ne_endless r₁

theorem foldlM_none {sub : TypeHandle → Option Nat → Except HeapFailure (Option Nat)}
    (hsub : ∀ u, sub u none = .ok none ∨ sub u none = .error .endless) : ∀ parts : List TypeHandle,
    (parts.foldlM (fun r u => sub u r) none = .ok none ∧ ∀ u ∈ parts, sub u none = .ok none) ∨
      parts.foldlM (fun r u => sub u r) none = .error .endless
  | [] => .inl ⟨rfl, by simp⟩
  | u :: parts => by
    rw [List.foldlM_cons]
    rcases hsub u with hu | hu
    · rw [hu]
      rcases foldlM_none hsub parts with ⟨hfold, hall⟩ | hend
      · exact .inl ⟨hfold, List.forall_mem_cons.2 ⟨hu, hall⟩⟩
      · exact .inr hend
    · rw [hu]
      exact .inr rfl

/-- **Without a limit only a nesting that ends is built**, and nothing else can go wrong. -/
theorem spend_none (hmd : md.WellFormed) : ∀ (n : Nat) (t : TypeHandle),
    (spend md n t none = .ok none ∧ Acc (fun u t => md.Contains t u) t) ∨ spend md n t none = .error .endless
  | 0, _ => .inr rfl
  | n + 1, t => by
    rw [spend]
    cases hfields : md.instanceFields? t with
    | none => exact .inr rfl
    | some fields =>
      have hsub : ∀ u, spend md n u none = .ok none ∨ spend md n u none = .error .endless := fun u =>
        (spend_none hmd n u).imp And.left id
      rcases foldlM_none hsub (md.parts fields) with ⟨hfold, hall⟩ | hend
      · refine .inl ⟨by simp only [hfold]; rfl, .intro t fun u hu => ?_⟩
        have hok := hall u ((Metadata.mem_parts hmd hfields).2 hu)
        rcases spend_none hmd n u with ⟨-, hacc⟩ | hend
        · exact hacc
        · rw [hok] at hend
          cases hend
      · refine .inr ?_
        simp only [hend]
        rfl

/-- Structures that begin with a structure, and so on for ever, are never built, whatever the room. -/
theorem spend_firstPart {chain : Nat → TypeHandle} (hchain : ∀ i, md.firstPart? (chain i) = some (chain (i + 1))) :
    ∀ (n i : Nat) (r : Option Nat), spend md n (chain i) r = .error .endless
  | 0, _, _ => rfl
  | n + 1, i, r => by
    obtain ⟨fields, hfields, hhead⟩ := Option.bind_eq_some_iff.1 (hchain i)
    obtain ⟨rest, hparts⟩ := List.head?_eq_some_iff.1 hhead
    rw [spend]
    simp only [hfields, hparts, List.foldlM_cons, spend_firstPart hchain n (i + 1) r]
    rfl

/-! ## Operations that return -/

/-- **The operation comes to an end**, with a result or with a fault. -/
def Returns {α : Type} (x : HeapM α) (h : Heap) : Prop := (x.run h).1 ≠ .error .endless

section Returns

variable {α β : Type} {x : HeapM α} {f : α → HeapM β} {h : Heap}

theorem Spends.returns_iff {g : Option Nat → Except HeapFailure (Option Nat)} (hx : Spends x g) :
    Returns x h ↔ g h.room ≠ .error .endless := by
  rw [← hx h, Returns]
  rcases x.run h with ⟨e | a, h'⟩ <;> simp [outcome]

theorem Returns.bind (hx : Returns x h) (hf : ∀ a h', Returns (f a) h') : Returns (x >>= f) h := by
  unfold Returns at hx ⊢
  rw [Meets.run_bind]
  rcases hr : x.run h with ⟨e | a, h'⟩
  · rw [hr] at hx
    simpa using hx
  · exact hf a h'

/-- What goes on after an operation that does not return does not return. -/
theorem Returns.of_bind (hbind : Returns (x >>= f) h) : Returns x h := by
  intro hx
  refine hbind ?_
  rw [Meets.run_bind]
  rcases hr : x.run h with ⟨e | a, h'⟩
  · rw [hr] at hx
    cases hx
    rfl
  · rw [hr] at hx
    cases hx

end Returns

section

variable {type : TypeSymbol} {h : Heap}

theorem newInstance_spends (md : Metadata) (type : TypeSymbol) :
    Spends (newInstance md type) fun r => spend md (md.walkBound * (r.getD 0 + 1)) type.handle r := by
  intro h
  have hbound : nestingBound md h = md.walkBound * (h.room.getD 0 + 1) := by
    unfold nestingBound room
    cases h.limit with
    | none => rw [Option.getD_none, Nat.zero_sub]; rfl
    | some limit => rfl
  show outcome ((newInstanceWithin md (nestingBound md h) type).run h) = _
  rw [hbound]
  exact newInstanceWithin_spends _ type h

/-- **A construction that is given up never ends.** -/
theorem returns_newInstance_iff (hmd : md.WellFormed) :
    Returns (newInstance md type) h ↔ ∃ fuel, Returns (newInstanceWithin md fuel type) h := by
  rw [(newInstance_spends md type).returns_iff]
  simp only [(newInstanceWithin_spends _ type).returns_iff]
  constructor
  · exact fun hret => ⟨_, hret⟩
  · rintro ⟨fuel, hret⟩
    rwa [spend_bound hmd hret]

theorem returns_newInstance (hmd : md.WellFormed) (hends : ∀ h, md.Ends h) (ht : ¬ md.Recursive type.handle) (h : Heap) :
    Returns (newInstance md type) h := by
  obtain ⟨n, hn⟩ := exists_depth hmd hends (Metadata.acc_contains_iff.2 ht)
  rw [(newInstance_spends md type).returns_iff, spend_bound hmd (hn h.room)]
  exact hn h.room

theorem not_returns_newInstance (hmd : md.WellFormed) (ht : md.Recursive type.handle) (hl : h.limit = none) :
    ¬ Returns (newInstance md type) h := by
  have hroom : h.room = none := by rw [room, hl]; rfl
  rw [(newInstance_spends md type).returns_iff, hroom, not_not]
  rcases spend_none hmd _ type.handle with ⟨-, hacc⟩ | hend
  · exact absurd ht (Metadata.acc_contains_iff.1 hacc)
  · exact hend

theorem zeroOf_eq (md : Metadata) (type : TypeSymbol) : zeroOf md type =
    if type.kind = .struct then do return .object (some (← newInstance md type)) else pure type.kind.zero := by
  unfold zeroOf
  split
  · rename_i hs
    rw [if_pos hs]
  · rename_i hs
    rw [if_neg hs]

theorem returns_pure {α : Type} (a : α) (h : Heap) : Returns (pure a) h := nofun

theorem returns_zeroOf_iff :
    Returns (zeroOf md type) h ↔ (type.kind = .struct → Returns (newInstance md type) h) := by
  rw [zeroOf_eq]
  by_cases hs : type.kind = .struct
  · rw [if_pos hs]
    exact ⟨fun hret _ => hret.of_bind, fun hret => (hret hs).bind fun r => returns_pure _⟩
  · rw [if_neg hs]
    exact iff_of_true (returns_pure _ h) fun hk => absurd hk hs

theorem returns_fill (hzero : ∀ h, Returns (zeroOf md type) h) : ∀ (count : Nat) (items : Array Value) (h : Heap),
    Returns (fill md type count items) h
  | 0, items, h => returns_pure items h
  | count + 1, items, h => (hzero h).bind fun v => returns_fill hzero count (items.push v)

theorem returns_newArray_iff :
    (∀ n h, Returns (newArray md type n) h) ↔ ∀ h, Returns (zeroOf md type) h := by
  constructor
  · intro hret h
    have hfill : Returns (fill md type 1 #[]) h := (hret 1 h).of_bind
    exact hfill.of_bind
  · intro hzero n h
    refine (returns_fill hzero n #[] h).bind fun items h' => ?_
    exact (spends_allocate _).returns_iff.2 (take_ne_endless _)

end

open Metadata (built)

/-- **When default construction ends.** In a program whose bases come to an end, an instance of a type is constructed on
every heap, whatever its limit, exactly if no structure inside of it holds itself; likewise the zero of a type and an
array of it, for which nothing but a structure is constructed. Without a limit no other construction ends. One that
begins with structures inside of structures for ever ends under no limit, since nothing is allocated on the way. What is
given up would not end at any depth. -/
theorem construction_returns_iff {calls : List Metadata.Call} (hends : ∀ t, (built calls).Ends t) (type : TypeSymbol) :
    ((∀ h, Returns (newInstance (built calls) type) h) ↔ ¬ (built calls).Recursive type.handle) ∧
    ((∀ h, Returns (zeroOf (built calls) type) h) ↔ (type.kind = .struct → ¬ (built calls).Recursive type.handle)) ∧
    ((∀ n h, Returns (newArray (built calls) type n) h) ↔
      (type.kind = .struct → ¬ (built calls).Recursive type.handle)) ∧
    (∀ h, h.limit = none → (Returns (newInstance (built calls) type) h ↔ ¬ (built calls).Recursive type.handle)) ∧
    (∀ chain : Nat → TypeHandle, chain 0 = type.handle →
      (∀ i, (built calls).firstPart? (chain i) = some (chain (i + 1))) →
      ∀ h, ¬ Returns (newInstance (built calls) type) h) ∧
    ∀ h, Returns (newInstance (built calls) type) h ↔
      ∃ fuel, Returns (newInstanceWithin (built calls) fuel type) h := by
  have hmd := Metadata.wellFormed_built calls
  have hunlimited : ∀ h, h.limit = none →
      (Returns (newInstance (built calls) type) h ↔ ¬ (built calls).Recursive type.handle) := fun h hl =>
    ⟨fun hret ht => not_returns_newInstance hmd ht hl hret, fun ht => returns_newInstance hmd hends ht h⟩
  have hinstance : (∀ h, Returns (newInstance (built calls) type) h) ↔ ¬ (built calls).Recursive type.handle :=
    ⟨fun hret => (hunlimited {} rfl).1 (hret {}), returns_newInstance hmd hends⟩
  have hzero : (∀ h, Returns (zeroOf (built calls) type) h) ↔
      (type.kind = .struct → ¬ (built calls).Recursive type.handle) := by
    simp only [returns_zeroOf_iff]
    rw [forall_comm]
    exact imp_congr_right fun _ => hinstance
  refine ⟨hinstance, hzero, returns_newArray_iff.trans hzero, hunlimited, ?_, fun h => returns_newInstance_iff hmd⟩
  intro chain hchain hfirst h
  rw [(newInstance_spends _ type).returns_iff, not_not, ← hchain]
  exact spend_firstPart hfirst _ 0 h.room

/-! ## A line and a knot -/

/-- A line holds the points where it begins and where it ends. -/
def lineCalls : List Metadata.Call :=
  let type (row : Nat) : Token := .make Token.typeDef row
  [.defineField (type 32) "To" (type 31) false, .defineField (type 32) "From" (type 31) false,
   .defineType "Line" .struct none, .defineField (type 31) "X" (type 1) false, .defineType "Point" .struct none]

/-- A line is constructed on every heap. -/
theorem line_returns :
    (∀ t, (built lineCalls).Ends t) ∧ (built lineCalls).typeSymbol? ⟨32⟩ = some ⟨⟨32⟩, "Line", .struct, true⟩ ∧
    ∀ h, Returns (newInstance (built lineCalls) ⟨⟨32⟩, "Line", .struct, true⟩) h := by
  have hends : ∀ t, (built lineCalls).Ends t := (Metadata.ordered_of_rows (by decide +kernel)).ends
  have hmd := Metadata.wellFormed_built lineCalls
  obtain ⟨ofLine, hline, hlineParts⟩ := Option.map_eq_some_iff.1 (show ((built lineCalls).instanceFields? ⟨32⟩).map
    (built lineCalls).parts = some [⟨31⟩, ⟨31⟩] by decide +kernel)
  obtain ⟨ofPoint, hpoint, hpointParts⟩ := Option.map_eq_some_iff.1 (show ((built lineCalls).instanceFields? ⟨31⟩).map
    (built lineCalls).parts = some [] by decide +kernel)
  refine ⟨hends, by decide +kernel, (construction_returns_iff hends _).1.2 fun hrecursive => ?_⟩
  obtain ⟨u, hu, hu'⟩ := hrecursive.exists_contains
  rw [← Metadata.mem_parts hmd hline, hlineParts] at hu
  obtain rfl : u = ⟨31⟩ := by simpa using hu
  obtain ⟨v, hv, -⟩ := hu'.exists_contains
  rw [← Metadata.mem_parts hmd hpoint, hpointParts] at hv
  cases hv

/-- A structure with a field of its own type. -/
def knotCalls : List Metadata.Call :=
  [.defineField (.make Token.typeDef 31) "Next" (.make Token.typeDef 31) false, .defineType "Knot" .struct none]

/-- **A structure that holds itself is constructed on no heap**: not without a limit, and not where the limit leaves
room for no object at all. -/
theorem knot_never_returns :
    (∀ t, (built knotCalls).Ends t) ∧ (built knotCalls).typeSymbol? ⟨31⟩ = some ⟨⟨31⟩, "Knot", .struct, true⟩ ∧
    (∀ h, ¬ Returns (newInstance (built knotCalls) ⟨⟨31⟩, "Knot", .struct, true⟩) h) ∧
    ¬ Returns (zeroOf (built knotCalls) ⟨⟨31⟩, "Knot", .struct, true⟩) { limit := some 0 } ∧
    ¬ Returns (newArray (built knotCalls) ⟨⟨31⟩, "Knot", .struct, true⟩ 1) { limit := some 0 } := by
  have hknot : ∀ h, ¬ Returns (newInstance (built knotCalls) ⟨⟨31⟩, "Knot", .struct, true⟩) h := by
    intro h
    rw [(newInstance_spends _ _).returns_iff, not_not]
    have hfirst : (built knotCalls).firstPart? ⟨31⟩ = some ⟨31⟩ := by decide +kernel
    exact spend_firstPart (fun _ => hfirst) _ 0 h.room
  have hzero : ∀ h, ¬ Returns (zeroOf (built knotCalls) ⟨⟨31⟩, "Knot", .struct, true⟩) h := fun h hret =>
    hknot h (returns_zeroOf_iff.1 hret rfl)
  refine ⟨(Metadata.ordered_of_rows (by decide +kernel)).ends, by decide +kernel, hknot, hzero _, fun hret => ?_⟩
  have hfill := hret.of_bind
  exact hzero _ hfill.of_bind

end Heap

end ManagedCode
