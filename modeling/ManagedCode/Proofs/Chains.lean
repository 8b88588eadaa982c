import ManagedCode.Proofs.Handlers

/-!
# Pending exceptions

A raised exception filters the pending exceptions by the new handler, while a leave takes them off one by one until it
finds one that stays. Both come to the same: in every state that calls make of the empty one, handlers of earlier
exceptions contain the first offsets of handlers of later ones (`Arisen.chained`), and where handlers are nested, what
stays of such a list is its end.
-/

namespace ManagedCode

/-- Taking off what is not kept up to the first entry that is, where nothing that is not kept stands behind that. -/
theorem dropWhile_eq_filter {α : Type} {keep : α → Bool} {l : List α}
    (h : l.Pairwise fun a b => keep a = true → keep b = true) : (l.dropWhile fun a => !keep a) = l.filter keep := by
  induction l with
  | nil => rfl
  | cons a l ih =>
    obtain ⟨hhead, htail⟩ := List.pairwise_cons.1 h
    by_cases ha : keep a = true
    · have hall : l.filter keep = l := List.filter_eq_self.2 fun b hb => hhead b hb ha
      rw [List.dropWhile_cons_of_neg (by simp [ha]), List.filter_cons_of_pos ha, hall]
    · rw [List.dropWhile_cons_of_pos (by simp [ha]), List.filter_cons_of_neg ha, ih htail]

/-- **Handlers are nested**: two of them are apart, or one is within the other and starts behind it. -/
def RegionTable.HandlersNested (t : RegionTable) : Prop :=
  ∀ i j r s, i ≠ j → t.region? i = some r → t.region? j = some s → r.handler.Apart s.handler ∨
    r.handler.start ≠ s.handler.start ∧ (r.handler.Within s.handler ∨ s.handler.Within r.handler)

namespace Unwinding

variable {md : Metadata} {t : RegionTable} {u : Unwinding} {pc : Nat}

/-- The first offset of the handler of the later exception is in the handler of the earlier one. -/
def Encloses (t : RegionTable) (later earlier : PendingException) : Prop :=
  ∃ r, t.region? later.region = some r ∧ t.inHandler earlier.region r.handler.start = true

/-- **The states that calls make of the empty one**, at any offsets and whatever the calls give. -/
inductive Arisen (t : RegionTable) : Unwinding → Prop where
  | empty : Arisen t {}
  | dispatch {u : Unwinding} (md : Metadata) (e : GuestException) (thrown : Option TypeHandle) (pc start : Nat) :
      Arisen t u → Arisen t (u.dispatch md t e thrown pc start).2
  | leave {u : Unwinding} (pc target : Nat) : Arisen t u → Arisen t (u.leave t pc target).2
  | endFinally {u : Unwinding} (md : Metadata) (pc : Nat) : Arisen t u → Arisen t (u.endFinally md t pc).2

theorem dispatch_chained {e : GuestException} {thrown : Option TypeHandle} {start : Nat}
    (h : u.pending.Pairwise (Encloses t)) : (u.dispatch md t e thrown pc start).2.pending.Pairwise (Encloses t) := by
  unfold dispatch
  split
  · exact h
  · exact .nil
  · split
    · exact h
    · rename_i i r hr
      refine List.pairwise_cons.2 ⟨fun p hp => ⟨r, hr, ?_⟩, h.sublist List.filter_sublist⟩
      exact (List.mem_filter.1 hp).2

theorem pending_leave (t : RegionTable) (u : Unwinding) (pc target : Nat) : (u.leave t pc target).2.pending =
    u.pending.dropWhile fun p => !(t.inHandler p.region pc && t.inHandler p.region target) := by
  unfold leave
  dsimp only
  split <;> rfl

theorem pending_endLeave (t : RegionTable) (u : Unwinding) (pc : Nat) : (u.endLeave t pc).2.pending = u.pending := by
  unfold endLeave
  split
  · rfl
  · split
    · rfl
    · dsimp only
      split <;> rfl

/-- **Pending exceptions are nested.** -/
theorem Arisen.chained (h : Arisen t u) : u.pending.Pairwise (Encloses t) := by
  induction h with
  | empty => exact .nil
  | dispatch md e thrown pc start _ ih => exact dispatch_chained ih
  | leave pc target _ ih =>
    rw [pending_leave]
    exact ih.sublist (List.dropWhile_sublist _)
  | @endFinally u md pc _ ih =>
    cases hraise : u.reraises t pc with
    | false => rwa [endFinally_endLeave hraise, pending_endLeave]
    | true =>
      obtain ⟨p, ps, hp, -, heq⟩ := endFinally_reraises md hraise
      rw [hp] at ih
      rw [heq]
      exact dispatch_chained ih.of_cons

/-- Offsets in the handler of a later exception are in those of the earlier ones. -/
theorem Encloses.inHandler (ht : t.HandlersNested) {later earlier : PendingException}
    (h : Encloses t later earlier) (hpc : t.inHandler later.region pc = true) :
    t.inHandler earlier.region pc = true := by
  obtain ⟨r, hr, hstart⟩ := h
  obtain ⟨s, hs, hcontains⟩ := RegionTable.inHandler_iff.1 hstart
  obtain ⟨r', hr', hin⟩ := RegionTable.inHandler_iff.1 hpc
  cases hr.symm.trans hr'
  by_cases hsame : later.region = earlier.region
  · rwa [← hsame]
  · rw [Span.contains_iff] at hin hcontains
    have hown : r.handler.contains r.handler.start = true := Span.contains_iff.2 ⟨Nat.le_refl _, by omega⟩
    rcases ht _ _ r s hsame hr hs with hapart | ⟨hne, hwithin | hwithin⟩
    · have hfalse := hapart _ hown
      rw [Bool.eq_false_iff, Ne, Span.contains_iff] at hfalse
      exact absurd hcontains hfalse
    · exact RegionTable.inHandler_iff.2 ⟨s, hs, hwithin pc (Span.contains_iff.2 hin)⟩
    · -- both would start at the same offset
      have hback := Span.contains_iff.1 (hwithin s.handler.start (Span.contains_iff.2 ⟨Nat.le_refl _, by omega⟩))
      exact absurd (Nat.le_antisymm hback.1 hcontains.1) hne

/-- **Pending exceptions form a chain.** In every state that calls make of the empty one, the handler of an earlier
exception contains the first offset of the handler of any later one. So where handlers are nested, a leave keeps exactly
the exceptions whose handlers contain both the offset it comes from and the one that it goes to. -/
theorem pending_nested_chain (h : Arisen t u) : u.pending.Pairwise (Encloses t) ∧
    (t.HandlersNested → ∀ pc target, (u.leave t pc target).2.pending =
      u.pending.filter fun p => t.inHandler p.region pc && t.inHandler p.region target) := by
  refine ⟨h.chained, fun ht pc target => ?_⟩
  rw [pending_leave]
  refine dropWhile_eq_filter (h.chained.imp fun {later earlier} hencloses hkept => ?_)
  obtain ⟨hpc, htarget⟩ := Bool.and_eq_true_iff.1 hkept
  exact Bool.and_eq_true_iff.2 ⟨hencloses.inHandler ht hpc, hencloses.inHandler ht htarget⟩

/-! An exception inside of a finally handler that runs for another one, in the try block of a finally handler inside. -/

theorem handlersNested_nestedFinallies : nestedFinallies.HandlersNested := by
  intro i j r s hne hr hs
  rcases region?_nestedFinallies hr with ⟨rfl, rfl⟩ | ⟨rfl, rfl⟩ <;>
    rcases region?_nestedFinallies hs with ⟨rfl, rfl⟩ | ⟨rfl, rfl⟩
  · exact absurd rfl hne
  · exact .inr ⟨by decide, .inl (Span.within_of_le (by decide) (by decide))⟩
  · exact .inr ⟨by decide, .inr (Span.within_of_le (by decide) (by decide))⟩
  · exact absurd rfl hne

def outerPending : PendingException := ⟨⟨none, none, "outer"⟩, none, 5, 1⟩

def bothPending : Unwinding := ⟨[⟨⟨none, none, "inner"⟩, none, 13, 0⟩, outerPending], []⟩

theorem arisen_bothPending : Arisen nestedFinallies bothPending :=
  .dispatch .core ⟨none, none, "inner"⟩ none 13 0 (.dispatch .core ⟨none, none, "outer"⟩ none 5 0 .empty)

/-- A leave out of the inner handler keeps the exception of the outer one. -/
theorem leave_keeps_outer : Arisen nestedFinallies bothPending ∧ nestedFinallies.HandlersNested ∧
    bothPending.pending.Pairwise (Encloses nestedFinallies) ∧
    (bothPending.leave nestedFinallies 17 22).2.pending = [outerPending] := by
  obtain ⟨hchain, hleave⟩ := pending_nested_chain arisen_bothPending
  exact ⟨arisen_bothPending, handlersNested_nestedFinallies, hchain, hleave handlersNested_nestedFinallies 17 22⟩

end Unwinding

end ManagedCode
