import ManagedCode.Proofs.Sound

/-!
# What entering a method can do

A call is refused, runs a function of the host, fails on an argument, or starts an activation. `Machine.Enters` lists
these with the heap that each one leaves; whatever happens, the methods that were ready stay ready.
-/

namespace ManagedCode

/-- An activation that starts at the first instruction. -/
def Activation.fresh (method : MethodHandle) (frame : Frame) (top depth : Nat) : Activation :=
  { method, frame, top, pc := 0, depth }

namespace Machine

variable {m m' m'' : Machine} {symbol : MethodSymbol} {arguments : List Value}

/-- **A method may have been made ready**, and nothing else has changed but counts and the trace. -/
structure Readied (m : Machine) (symbol : MethodSymbol) (m' : Machine) : Prop where
  same : m' = { m with
    prepared := m'.prepared, metrics := m'.metrics, trace := m'.trace, lookups := m'.lookups, depth := m'.depth }
  sound : m.Sound → m'.Sound
  evolves : m.Evolves m'
  ready : ∀ k p, m'.prepared? k = some p → m.prepared? k = some p ∨
    (k = symbol.handle ∧ ∃ body analysis regions, p = .make symbol body analysis regions)

theorem Readied.counts (hp : m'.prepared = m.prepared) (h : m' = { m with
    prepared := m'.prepared, metrics := m'.metrics, trace := m'.trace, lookups := m'.lookups, depth := m'.depth }) :
    m.Readied symbol m' := by
  have hsame : m.SamePrograms m' := ⟨by rw [h], hp⟩
  exact ⟨h, hsame.sound, hsame.evolves, fun k p hk => .inl ((hsame.prepared? k).symm.trans hk)⟩

theorem Readied.trans (h : m.Readied symbol m') (h' : m'.Readied symbol m'') : m.Readied symbol m'' where
  same := by rw [h'.same, h.same]
  sound := fun hs => h'.sound (h.sound hs)
  evolves := h.evolves.trans h'.evolves
  ready := fun k p hk => (h'.ready k p hk).elim (h.ready k p) .inr

theorem Readied.heap (h : m.Readied symbol m') : m'.heap = m.heap := by rw [h.same]

theorem Readied.metadata (h : m.Readied symbol m') : m'.metadata = m.metadata := by rw [h.same]

theorem prepare_readied (m : Machine) (symbol : MethodSymbol) : m.Readied symbol (m.prepare symbol).2 := by
  have hp := prepare_prepares m symbol
  refine ⟨?_, fun hs => hp.sound hs, hp.evolves, fun k p hk => hp.ready_cases hk⟩
  generalize m.prepare symbol = r at hp
  cases hp <;> rfl

/-- **What can come of a call.** In each case `m₁` is the machine when the method has been made ready. -/
inductive Enters (m : Machine) (symbol : MethodSymbol) (arguments : List Value) : Control × Machine → Prop where
  | refused {m₁ : Machine} {a : Abort} : m.Readied symbol m₁ → Enters m symbol arguments (.ending (.error (.abort a)), m₁)
  | native {m₁ : Machine} {n : Native} : symbol.body = none → m.Readied symbol m₁ → m.native? symbol.handle = some n →
      Enters m symbol arguments (.ending ((n.run m.metadata arguments).run m.heap).1,
        { m₁ with heap := ((n.run m.metadata arguments).run m.heap).2 })
  /-- An argument does not fit its slot. -/
  | failed {m₁ : Machine} {p : Prepared} {t : Trap} {h : Heap} {depth : Nat} : m.Readied symbol m₁ →
      m₁.prepared? symbol.handle = some p →
      ((normalizeAll 0 p.argumentKinds arguments).run).run m.heap = (.error t, h) →
      Enters m symbol arguments (.ending (.error (({ m₁ with heap := h } : Machine).raise t).1),
        { (({ m₁ with heap := h } : Machine).raise t).2 with depth })
  | started {m₁ : Machine} {p : Prepared} {values : List Value} {h : Heap} {trace : Trace} : m.Readied symbol m₁ →
      m₁.prepared? symbol.handle = some p → symbol.body.isSome = true → arguments.length = p.layout.arguments →
      ((normalizeAll 0 p.argumentKinds arguments).run).run m.heap = (.ok values, h) →
      Enters m symbol arguments
        (.running (.fresh symbol.handle (.make ⟨m₁.nextFrame⟩ p.layout values p.localKinds) p.layout.stackBase m₁.depth),
          { m₁ with heap := h, nextFrame := m₁.nextFrame + 1, trace })

theorem enter_enters (m : Machine) (symbol : MethodSymbol) (arguments : List Value) :
    Enters m symbol arguments (m.enter symbol arguments) := by
  unfold enter deeper
  split
  · exact .refused (.counts rfl rfl)
  · have hdeep : m.Readied symbol { m with depth := m.depth + 1 } := .counts rfl rfl
    cases hb : symbol.body with
    | none =>
      dsimp only
      split
      · exact .refused (.counts rfl rfl)
      · unfold callNative
        cases hn : m.native? symbol.handle with
        | none =>
          rw [show ({ m with depth := m.depth + 1 } : Machine).native? symbol.handle = none from hn]
          exact .refused (.counts rfl rfl)
        | some n =>
          rw [show ({ m with depth := m.depth + 1 } : Machine).native? symbol.handle = some n from hn]
          have hback : m.Readied symbol { m with depth := m.depth + 1 - 1 } := .counts rfl rfl
          exact .native hb hback hn
    | some body =>
      dsimp only
      have hprep := prepare_readied { m with depth := m.depth + 1 } symbol
      rcases hp : ({ m with depth := m.depth + 1 } : Machine).prepare symbol with ⟨r, m₁⟩
      rw [hp] at hprep
      have hm₁ := hdeep.trans hprep
      cases r with
      | error e => exact .refused (hm₁.trans (.counts rfl rfl))
      | ok p =>
        have hready := (hp ▸ prepare_prepares _ symbol).prepared?_of_ok rfl
        dsimp only
        unfold newFrame
        by_cases hlen : arguments.length = p.layout.arguments
        · simp only [hlen, ne_eq, not_true_eq_false, if_false]
          unfold onHeap
          rw [hm₁.heap]
          dsimp only
          rcases hn : ((normalizeAll 0 p.argumentKinds arguments).run).run m.heap with ⟨t | values, h⟩
          · exact .failed hm₁ hready hn
          · exact @Enters.started m symbol arguments m₁ p values h _ hm₁ hready (by rw [hb]; rfl) hlen hn
        · simp only [hlen, ne_eq, not_false_eq_true, if_true]
          exact .refused (hm₁.trans (.counts rfl rfl))

/-- **A call leaves every method that was ready**, and starts at the first instruction of one that is. -/
theorem enter_sound (hs : m.Sound) (symbol : MethodSymbol) (arguments : List Value) :
    (m.enter symbol arguments).2.Sound ∧ m.Evolves (m.enter symbol arguments).2 ∧
      ∀ a, (m.enter symbol arguments).1 = .running a → ∃ p frame depth,
        (m.enter symbol arguments).2.prepared? symbol.handle = some p ∧
        a = .fresh symbol.handle frame p.layout.stackBase depth ∧ frame.layout = p.layout ∧
        frame.size = p.layout.total := by
  have hent := enter_enters m symbol arguments
  generalize m.enter symbol arguments = r at hent
  -- the machine that is left has the tables and the methods of `m₁`
  cases hent with
  | refused hr =>
    exact ⟨hr.sound hs, hr.evolves, fun a ha => by cases ha⟩
  | native hb hr hn =>
    exact ⟨hr.sound hs, ⟨hr.evolves.metadata, hr.evolves.prepared⟩, fun a ha => by cases ha⟩
  | @failed m₁ p t h depth hr hp hn =>
    have hsame : m₁.SamePrograms { (({ m₁ with heap := h } : Machine).raise t).2 with depth } := by
      cases t <;> exact ⟨rfl, rfl⟩
    exact ⟨hsame.sound (hr.sound hs), hr.evolves.trans hsame.evolves, fun a ha => by cases ha⟩
  | @started m₁ p values h trace hr hp hb hlen hn =>
    refine ⟨hr.sound hs, ⟨hr.evolves.metadata, hr.evolves.prepared⟩, fun a ha => ?_⟩
    cases ha
    exact ⟨p, _, _, hp, rfl, rfl, Frame.size_make ..⟩

/-- **A call that goes on in a frame** starts at an offset that was analyzed, with the height that was found for it. -/
theorem reenter_sound (hs : m.Sound) (symbol : MethodSymbol) (frame : Frame) (offset top : Nat) :
    (m.reenter symbol frame offset top).2.Sound ∧ m.Evolves (m.reenter symbol frame offset top).2 ∧
      ∀ a, (m.reenter symbol frame offset top).1 = .running a → ∃ p depth,
        (m.reenter symbol frame offset top).2.prepared? symbol.handle = some p ∧
        a = { Activation.fresh symbol.handle frame top depth with pc := offset } ∧ frame.layout = p.layout ∧
        p.layout.stackBase ≤ top ∧ p.analysis.depth? offset = some (top - p.layout.stackBase) := by
  have same : ∀ {m₁ : Machine} {o : Outcome}, m.Readied symbol m₁ → (m₁.leaveCall o).2.Sound ∧ m.Evolves (m₁.leaveCall o).2 := by
    intro m₁ o hr
    have hback : m₁.Readied symbol (m₁.leaveCall o).2 := .counts rfl rfl
    exact ⟨(hr.trans hback).sound hs, (hr.trans hback).evolves⟩
  have refused : ∀ {m₁ : Machine} {o : Outcome}, m.Readied symbol m₁ → (m₁.leaveCall o).2.Sound ∧
      m.Evolves (m₁.leaveCall o).2 ∧ ∀ a, (m₁.leaveCall o).1 = .running a → ∃ p depth,
        (m₁.leaveCall o).2.prepared? symbol.handle = some p ∧
        a = { Activation.fresh symbol.handle frame top depth with pc := offset } ∧ frame.layout = p.layout ∧
        p.layout.stackBase ≤ top ∧ p.analysis.depth? offset = some (top - p.layout.stackBase) :=
    fun hr => ⟨(same hr).1, (same hr).2, fun a ha => by cases ha⟩
  unfold reenter deeper
  split
  · exact ⟨hs, .refl m, fun a ha => by cases ha⟩
  · have hdeep : m.Readied symbol { m with depth := m.depth + 1 } := .counts rfl rfl
    have hprep := prepare_readied { m with depth := m.depth + 1 } symbol
    dsimp only
    rcases hp : ({ m with depth := m.depth + 1 } : Machine).prepare symbol with ⟨r, m₁⟩
    rw [hp] at hprep
    have hm₁ := hdeep.trans hprep
    cases r with
    | error e => exact refused hm₁
    | ok p =>
      have hready := (hp ▸ prepare_prepares _ symbol).prepared?_of_ok rfl
      dsimp only
      split
      · exact refused hm₁
      · rename_i hlayout
        split
        · exact refused hm₁
        · split
          · exact refused hm₁
          · rename_i htop
            have hact : m₁.Readied symbol (m₁.activate symbol p frame offset top).2 := .counts rfl rfl
            have hleft := hm₁.trans hact
            refine ⟨hleft.sound hs, hleft.evolves, fun a ha => ?_⟩
            cases ha
            refine ⟨p, _, hready, rfl, ?_, ?_, ?_⟩
            · exact Decidable.not_not.1 hlayout
            · omega
            · exact Decidable.not_not.1 fun hne => htop (.inr hne)

end Machine

end ManagedCode
