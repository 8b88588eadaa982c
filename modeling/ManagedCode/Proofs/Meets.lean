import ManagedCode.Heap

/-!
# What a computation establishes

The heap, the analysis and the machine all compute with a state and may be interrupted, and what was done before an
interruption stays done. `Meets x s Q E` says of such a computation, run from `s`, that a result and the state it ends
in satisfy `Q`, and that an error and the state it leaves satisfy `E`. The rules below follow the text of a `do` block
one line at a time. `Maintains I x P` is the case of an invariant that holds before and, however `x` ends, after.
-/

namespace ManagedCode

variable {ε σ α β : Type}

/-- **From `s` the computation ends as described**: a result with its state by `Q`, an error with its state by `E`. -/
def Meets (x : ExceptT ε (StateM σ) α) (s : σ) (Q : α → σ → Prop) (E : ε → σ → Prop) : Prop :=
  match x.run s with
  | (.ok a, t) => Q a t
  | (.error e, t) => E e t

namespace Meets

variable {s : σ} {Q Q' : α → σ → Prop} {R : β → σ → Prop} {E E' : ε → σ → Prop}

theorem run_bind (x : ExceptT ε (StateM σ) α) (f : α → ExceptT ε (StateM σ) β) (s : σ) :
    (x >>= f).run s = match x.run s with
      | (.ok a, t) => (f a).run t
      | (.error e, t) => (.error e, t) := by
  show ExceptT.bindCont f (x.run s).1 (x.run s).2 = _
  rcases x.run s with ⟨_ | _, _⟩ <;> rfl

theorem get_bind {f : σ → ExceptT ε (StateM σ) β} (h : Meets (f s) s R E) :
    Meets ((get : ExceptT ε (StateM σ) σ) >>= f) s R E := h

theorem modify_bind {g : σ → σ} {f : PUnit → ExceptT ε (StateM σ) β} (h : Meets (f ⟨⟩) (g s) R E) :
    Meets ((modify g : ExceptT ε (StateM σ) PUnit) >>= f) s R E := h

theorem throw_bind {e : ε} {f : α → ExceptT ε (StateM σ) β} (h : E e s) :
    Meets ((throw e : ExceptT ε (StateM σ) α) >>= f) s R E := h

theorem pure {a : α} (h : Q a s) : Meets (pure a : ExceptT ε (StateM σ) α) s Q E := h

theorem bind {x : ExceptT ε (StateM σ) α} {f : α → ExceptT ε (StateM σ) β} (hx : Meets x s Q E)
    (hf : ∀ a t, Q a t → Meets (f a) t R E) : Meets (x >>= f) s R E := by
  unfold Meets at hx ⊢
  rw [run_bind]
  rcases hr : x.run s with ⟨e | a, t⟩
  · rw [hr] at hx; exact hx
  · rw [hr] at hx; exact hf a t hx

theorem set {t : σ} {Q : PUnit → σ → Prop} (h : Q ⟨⟩ t) : Meets (set t : ExceptT ε (StateM σ) PUnit) s Q E := h

theorem modify {f : σ → σ} {Q : PUnit → σ → Prop} (h : Q ⟨⟩ (f s)) :
    Meets (modify f : ExceptT ε (StateM σ) PUnit) s Q E := h

/-- The result of a pure step, which leaves the state alone. -/
theorem ofExcept {r : Except ε α} (hQ : ∀ a, r = .ok a → Q a s) (hE : ∀ e, r = .error e → E e s) :
    Meets (ExceptT.mk (Pure.pure r) : ExceptT ε (StateM σ) α) s Q E := by
  cases r with
  | ok a => exact hQ a rfl
  | error e => exact hE e rfl

/-- A pure step that succeeded. -/
theorem ofExcept_bind {r : Except ε α} {a : α} {f : α → ExceptT ε (StateM σ) β} (hr : r = .ok a)
    (h : Meets (f a) s R E) : Meets ((ExceptT.mk (Pure.pure r) : ExceptT ε (StateM σ) α) >>= f) s R E := by
  subst hr
  exact h

/-- A weaker description holds too. -/
theorem mono {x : ExceptT ε (StateM σ) α} (hx : Meets x s Q E) (hQ : ∀ a t, Q a t → Q' a t)
    (hE : ∀ e t, E e t → E' e t) : Meets x s Q' E' := by
  unfold Meets at hx ⊢
  rcases hr : x.run s with ⟨e | a, t⟩
  · rw [hr] at hx; exact hE e t hx
  · rw [hr] at hx; exact hQ a t hx

/-- What holds of a result that was given. -/
theorem of_ok {x : ExceptT ε (StateM σ) α} {a : α} {t : σ} (hx : Meets x s Q E) (h : x.run s = (.ok a, t)) : Q a t := by
  unfold Meets at hx
  rw [h] at hx
  exact hx

/-- What holds after an error that was raised. -/
theorem of_error {x : ExceptT ε (StateM σ) α} {e : ε} {t : σ} (hx : Meets x s Q E) (h : x.run s = (.error e, t)) :
    E e t := by
  unfold Meets at hx
  rw [h] at hx
  exact hx

/-- What is known of the result and what is known of an error may come from two descriptions. -/
theorem combine {x : ExceptT ε (StateM σ) α} (hx : Meets x s Q E') (hy : Meets x s Q' E) : Meets x s Q E := by
  unfold Meets at hx hy ⊢
  rcases hr : x.run s with ⟨e | a, t⟩
  · rw [hr] at hy; exact hy
  · rw [hr] at hx; exact hx

/-- What cannot fail gives a result, and that is as described. -/
theorem succeeds {x : ExceptT ε (StateM σ) α} (hx : Meets x s Q E)
    (hok : Meets x s (fun _ _ => True) fun _ _ => False) : ∃ a t, x.run s = (.ok a, t) ∧ Q a t := by
  unfold Meets at hx hok
  rcases hr : x.run s with ⟨e | a, t⟩
  · rw [hr] at hok; exact hok.elim
  · rw [hr] at hx; exact ⟨a, t, rfl, hx⟩

/-- What holds of the state, however the computation ended. -/
theorem state {x : ExceptT ε (StateM σ) α} {S : σ → Prop} (hx : Meets x s (fun _ t => S t) fun _ t => S t) :
    S (x.run s).2 := by
  unfold Meets at hx
  rcases hr : x.run s with ⟨_ | _, t⟩
  · rw [hr] at hx; exact hx
  · rw [hr] at hx; exact hx

/-- A line for every member of a list keeps an invariant, and does for each member what later lines do not undo. -/
theorem forM {xs : List β} {f : β → ExceptT ε (StateM σ) PUnit} {I : σ → Prop} {P : β → σ → Prop}
    (hf : ∀ b ∈ xs, ∀ t, I t → Meets (f b) t (fun _ t' => I t' ∧ P b t' ∧ ∀ c, P c t → P c t') E) (hs : I s) :
    Meets (xs.forM f) s (fun _ t => I t ∧ (∀ b ∈ xs, P b t) ∧ ∀ c, P c s → P c t) E := by
  induction xs generalizing s with
  | nil => exact Meets.pure ⟨hs, (fun _ hb => by cases hb), fun _ hc => hc⟩
  | cons b xs ih =>
    refine Meets.bind (hf b List.mem_cons_self s hs) fun _ t ⟨ht, hb, hk⟩ => ?_
    refine (ih (fun b hb => hf b (List.mem_cons_of_mem _ hb)) ht).mono (fun _ u ⟨hu, hall, hk'⟩ => ?_) fun _ _ h => h
    refine ⟨hu, fun c hc => ?_, fun c hc => hk' c (hk c hc)⟩
    rcases List.mem_cons.1 hc with rfl | hc
    · exact hk' c hb
    · exact hall c hc

end Meets

/-! ## Invariants -/

/-- **The computation maintains an invariant of the state**, also when it fails, and gives what `P` says. -/
def Maintains (I : σ → Prop) (x : ExceptT ε (StateM σ) α) (P : α → Prop) : Prop :=
  ∀ s, I s → Meets x s (fun a t => P a ∧ I t) fun _ t => I t

namespace Maintains

variable {I : σ → Prop} {P P' : α → Prop} {R : β → Prop} {x : ExceptT ε (StateM σ) α}
  {f : α → ExceptT ε (StateM σ) β}

theorem pure {a : α} (ha : P a) : Maintains I (Pure.pure a : ExceptT ε (StateM σ) α) P := fun _ hs => ⟨ha, hs⟩

theorem throw {e : ε} : Maintains I (MonadExcept.throw e : ExceptT ε (StateM σ) α) P := fun _ hs => hs

theorem bind (hx : Maintains I x P) (hf : ∀ a, P a → Maintains I (f a) R) : Maintains I (x >>= f) R :=
  fun s hs => Meets.bind (hx s hs) fun a t ⟨ha, ht⟩ => hf a ha t ht

theorem mono (hx : Maintains I x P) (hp : ∀ a, P a → P' a) : Maintains I x P' :=
  fun s hs => (hx s hs).mono (fun a _ ⟨ha, ht⟩ => ⟨hp a ha, ht⟩) fun _ _ he => he

theorem get_bind {f : σ → ExceptT ε (StateM σ) β} (hf : ∀ s, I s → Maintains I (f s) R) : Maintains I (get >>= f) R :=
  fun s hs => Meets.get_bind (hf s hs s hs)

theorem modify {g : σ → σ} (hg : ∀ s, I s → I (g s)) :
    Maintains I (modify g : ExceptT ε (StateM σ) PUnit) fun _ => True := fun s hs => ⟨trivial, hg s hs⟩

/-- A pure step leaves the state alone. -/
theorem ofExcept {r : Except ε α} :
    Maintains I (ExceptT.mk (Pure.pure r) : ExceptT ε (StateM σ) α) fun a => r = .ok a :=
  fun _ hs => Meets.ofExcept (fun _ ha => ⟨ha, hs⟩) fun _ _ => hs

theorem forM {xs : List β} {f : β → ExceptT ε (StateM σ) PUnit} (hf : ∀ b ∈ xs, Maintains I (f b) fun _ => True) :
    Maintains I (xs.forM f) fun _ => True := by
  intro s hs
  have hall : Meets (xs.forM f) s (fun _ t => I t ∧ _) fun _ t => I t :=
    Meets.forM (P := fun _ _ => True) (fun b hb t ht => (hf b hb t ht).mono
      (fun _ _ h => ⟨h.2, trivial, fun _ _ => trivial⟩) fun _ _ h => h) hs
  exact hall.mono (fun _ _ h => ⟨trivial, h.1⟩) fun _ _ h => h

theorem mapM {f : α → ExceptT ε (StateM σ) β} : ∀ {xs : List α}, (∀ a ∈ xs, Maintains I (f a) R) →
    Maintains I (xs.mapM f) fun bs => ∀ b ∈ bs, R b
  | [], _ => .pure fun b hb => by cases hb
  | a :: xs, hf => by
    rw [List.mapM_cons]
    refine (hf a List.mem_cons_self).bind fun b hb => ?_
    refine (mapM fun a ha => hf a (List.mem_cons_of_mem _ ha)).bind fun bs hbs => .pure fun c hc => ?_
    rcases List.mem_cons.1 hc with rfl | hc
    · exact hb
    · exact hbs c hc

/-- Where the computation leads from a state of the invariant, the invariant holds. -/
theorem run {s : σ} (hx : Maintains I x P) (hs : I s) : I (x.run s).2 :=
  ((hx s hs).mono (fun _ _ ht => ht.2) fun _ _ ht => ht).state

end Maintains

end ManagedCode
