import ManagedCode.Proofs.Aborts
import ManagedCode.Proofs.Composed

/-!
# What observers do not influence

The settings, the trace and the count of triggers are the backdrop of a run: steps write to it, but what they do apart
from that depends on one thing in it, the limit on the depth of calls. A `Tie` is a relation between two backdrops that
every way to write to them keeps. Runs before backdrops that are tied do the same step by step, until a call is too
deep for the lower of the two limits (`step_akin`), and so they end the same (`run_akin`). Where the limits are equal,
observers cannot be told apart (`execute_observed`).
-/

namespace ManagedCode

/-- What a run writes for its observers, and the settings. -/
structure Backdrop where
  settings : Settings
  trace : Trace
  triggers : Nat

namespace Backdrop

variable (b : Backdrop) (count : Nat) (f : Trace → Trace)

def traced : Backdrop := { b with trace := f b.trace }

/-- With an instruction in the trace, if instructions are traced. -/
def announced : Backdrop := if b.settings.traceInstructions then b.traced f else b

/-- Whether one more backward jump reaches the threshold. -/
def reached : Bool := decide (0 < b.settings.osrThreshold ∧ b.settings.osrThreshold ≤ count + 1)

/-- After one more backward jump. -/
def polled : Backdrop :=
  { b with
    triggers := b.triggers + if b.reached count then 1 else 0
    trace := if b.reached count then f b.trace else b.trace }

/-- The count of backward jumps after one more. -/
def recount : Nat := if b.reached count then 0 else count + 1

end Backdrop

/-- **A relation between backdrops, and one between counts of backward jumps, that a run keeps**; `low` and `high` are
the limits on the depth of calls. -/
structure Tie where
  low : Nat
  high : Nat
  ordered : low ≤ high
  backdrops : Backdrop → Backdrop → Prop
  counts : Nat → Nat → Prop
  limits : ∀ {b b'}, backdrops b b' → b.settings.maxCallDepth = low ∧ b'.settings.maxCallDepth = high
  traced : ∀ {b b'} f, backdrops b b' → backdrops (b.traced f) (b'.traced f)
  announced : ∀ {b b'} f, backdrops b b' → backdrops (b.announced f) (b'.announced f)
  polled : ∀ {b b' n n'} f, backdrops b b' → counts n n' →
    backdrops (b.polled n f) (b'.polled n' f) ∧ counts (b.recount n) (b'.recount n')
  fresh : counts 0 0

variable {t : Tie}

/-! ## Machines before tied backdrops -/

namespace Machine

variable {α : Type} {m m' : Machine}

def backdrop (m : Machine) : Backdrop := ⟨m.settings, m.trace, m.metrics.osrTriggers⟩

/-- The machine before another backdrop. -/
def before (m : Machine) (b : Backdrop) : Machine :=
  { m with settings := b.settings, trace := b.trace, metrics := { m.metrics with osrTriggers := b.triggers } }

/-- The machines differ in their backdrops only, and these are tied. -/
def Akin (t : Tie) (m m' : Machine) : Prop := ∃ b, t.backdrops m.backdrop b ∧ m' = m.before b

theorem Akin.onHeap (h : m.Akin t m') (x : StateM Heap α) :
    (m'.onHeap x).1 = (m.onHeap x).1 ∧ (m.onHeap x).2.Akin t (m'.onHeap x).2 := by
  obtain ⟨b, hb, rfl⟩ := h
  exact ⟨rfl, b, hb, rfl⟩

theorem Akin.faultException (h : m.Akin t m') (k : FaultKind) (message : String) :
    (m'.faultException k message).1 = (m.faultException k message).1 ∧
      (m.faultException k message).2.Akin t (m'.faultException k message).2 := by
  obtain ⟨b, hb, rfl⟩ := h
  exact ⟨rfl, b, hb, rfl⟩

theorem Akin.raise (h : m.Akin t m') (e : Trap) :
    (m'.raise e).1 = (m.raise e).1 ∧ (m.raise e).2.Akin t (m'.raise e).2 := by
  cases e with
  | abort a => exact ⟨rfl, h⟩
  | thrown g => exact ⟨rfl, h⟩
  | fault k message =>
    obtain ⟨he, hm⟩ := h.faultException k message
    exact ⟨congrArg Failure.guest he, hm⟩

theorem Akin.prepare (h : m.Akin t m') (symbol : MethodSymbol) :
    (m'.prepare symbol).1 = (m.prepare symbol).1 ∧ (m.prepare symbol).2.Akin t (m'.prepare symbol).2 := by
  obtain ⟨b, hb, rfl⟩ := h
  have hready : (m.before b).prepared? symbol.handle = m.prepared? symbol.handle := rfl
  have htables : (m.before b).metadata = m.metadata := rfl
  unfold Machine.prepare
  rw [hready, htables]
  cases m.prepared? symbol.handle with
  | some p => exact ⟨rfl, b, hb, rfl⟩
  | none =>
    cases symbol.body with
    | none => exact ⟨rfl, b, hb, rfl⟩
    | some body =>
      rcases analyze m.metadata symbol with ⟨e | analysis, lookups⟩
      · exact ⟨rfl, b, hb, rfl⟩
      · dsimp only
        cases RegionTable.resolve m.metadata body.regions with
        | error e => exact ⟨rfl, b, hb, rfl⟩
        | ok regions => exact ⟨rfl, b, hb, rfl⟩

theorem Akin.newFrame (h : m.Akin t m') (p : Prepared) (arguments : List Value) :
    (m'.newFrame p arguments).1 = (m.newFrame p arguments).1 ∧
      (m.newFrame p arguments).2.Akin t (m'.newFrame p arguments).2 := by
  unfold Machine.newFrame
  split
  · exact ⟨rfl, h⟩
  · obtain ⟨hr, hm⟩ := h.onHeap (normalizeAll 0 p.argumentKinds arguments).run
    generalize m.onHeap (normalizeAll 0 p.argumentKinds arguments).run = r at hr hm
    generalize m'.onHeap (normalizeAll 0 p.argumentKinds arguments).run = r' at hr hm
    obtain ⟨r, m₁⟩ := r
    obtain ⟨r', m₁'⟩ := r'
    obtain rfl : r' = r := hr
    cases r' with
    | error e =>
      obtain ⟨he, hm'⟩ := Akin.raise hm e
      exact ⟨congrArg Except.error he, hm'⟩
    | ok values =>
      obtain ⟨b, hb, rfl⟩ := hm
      exact ⟨rfl, b, hb, rfl⟩

theorem Akin.callNative (h : m.Akin t m') (symbol : MethodSymbol) (arguments : List Value) :
    (m'.callNative symbol arguments).1 = (m.callNative symbol arguments).1 ∧
      (m.callNative symbol arguments).2.Akin t (m'.callNative symbol arguments).2 := by
  obtain ⟨b, hb, rfl⟩ := h
  have hnative : (m.before b).native? symbol.handle = m.native? symbol.handle := rfl
  unfold Machine.callNative
  rw [hnative]
  cases m.native? symbol.handle <;> exact ⟨rfl, b, hb, rfl⟩

theorem Akin.withDepth (h : m.Akin t m') (depth : Nat) : Akin t { m with depth } { m' with depth } := by
  obtain ⟨b, hb, rfl⟩ := h
  exact ⟨b, hb, rfl⟩

theorem Akin.depth (h : m.Akin t m') : m'.depth = m.depth := by
  obtain ⟨b, -, rfl⟩ := h
  rfl

theorem Akin.traced (h : m.Akin t m') (f : Trace → Trace) :
    Akin t { m with trace := f m.trace } { m' with trace := f m'.trace } := by
  obtain ⟨b, hb, rfl⟩ := h
  exact ⟨b.traced f, t.traced f hb, rfl⟩

end Machine

/-- The activations differ in their counts of backward jumps only, and these are tied. -/
def Activation.Akin (t : Tie) (a a' : Activation) : Prop :=
  ∃ n, t.counts a.backEdges n ∧ a' = { a with backEdges := n }

structure Workspace.Akin (t : Tie) (w w' : Workspace) : Prop where
  machine : w.machine.Akin t w'.machine
  activation : w.activation.Akin t w'.activation

/-! ## Instructions -/

namespace ExecM

variable {α : Type} {x : ExecM α}

/-- A backward jump changes nothing but its counts and the backdrop. -/
theorem countBackEdge_run (pc target : Nat) (w : Workspace) : (countBackEdge pc target).run w =
    (.ok (), ⟨({ w.machine with metrics.osrPolls := w.machine.metrics.osrPolls + 1 } : Machine).before
      (w.machine.backdrop.polled w.activation.backEdges fun t => t.message (w.activation.depth - 1)
        ["OSR threshold reached at ", Text.label pc, " -> ", Text.label target]),
      { w.activation with backEdges := w.machine.backdrop.recount w.activation.backEdges }⟩) := by
  show (if w.machine.backdrop.reached w.activation.backEdges then tracing _ else pure () : ExecM Unit).run
    ⟨{ w.machine with metrics := { w.machine.metrics with
        osrPolls := w.machine.metrics.osrPolls + 1
        osrTriggers :=
          w.machine.metrics.osrTriggers + if w.machine.backdrop.reached w.activation.backEdges then 1 else 0 } },
      { w.activation with backEdges := w.machine.backdrop.recount w.activation.backEdges }⟩ = _
  unfold Backdrop.polled
  cases w.machine.backdrop.reached w.activation.backEdges <;> rfl

theorem resolveMethod_run (token : Token) (w : Workspace) : (resolveMethod token).run w =
    (ofResolution (w.machine.metadata.resolveMethod token)).run
      ⟨{ w.machine with lookups := w.machine.lookups + 1 }, w.activation⟩ := rfl

/-- **What is composed does the same before tied backdrops.** -/
theorem Composed.akin (h : Composed true x) : ∀ {w w' : Workspace}, w.Akin t w' →
    (x.run w').1 = (x.run w).1 ∧ (x.run w).2.Akin t (x.run w').2 := by
  induction h with
  | pure a => exact fun h => ⟨rfl, h⟩
  | throw e => exact fun h => ⟨rfl, h⟩
  | @bind _ _ x f _ _ ihx ihf =>
    intro w w' h
    rw [Meets.run_bind, Meets.run_bind]
    obtain ⟨hr, hs⟩ := ihx h
    rcases hw : x.run w with ⟨r, v⟩
    rcases hw' : x.run w' with ⟨r', v'⟩
    rw [hw, hw'] at hr hs
    subst hr
    cases r' with
    | error e => exact ⟨rfl, hs⟩
    | ok a => exact ihf a hs
  | @activation _ f hf _ ih =>
    rintro w ⟨m', a'⟩ ⟨hm, n, hn, rfl⟩
    show ((f { w.activation with backEdges := n }).run _).1 = _ ∧
      Workspace.Akin t _ ((f { w.activation with backEdges := n }).run _).2
    rw [hf]
    exact ih w.activation ⟨hm, n, hn, rfl⟩
  | @machine _ f hf _ ih =>
    rintro w ⟨m', a'⟩ ⟨⟨b, hb, rfl⟩, ha⟩
    show ((f (w.machine.before b)).run _).1 = _ ∧ Workspace.Akin t _ ((f (w.machine.before b)).run _).2
    rw [hf w.machine (w.machine.before b) rfl rfl]
    exact ih w.machine ⟨⟨b, hb, rfl⟩, ha⟩
  | metadata =>
    rintro w ⟨m', a'⟩ ⟨⟨b, hb, rfl⟩, ha⟩
    exact ⟨rfl, ⟨b, hb, rfl⟩, ha⟩
  | @modifyActivation g hg =>
    rintro w ⟨m', a'⟩ ⟨hm, n, hn, rfl⟩
    refine ⟨rfl, hm, n, ?_, hg.count w.activation n⟩
    show t.counts (g w.activation).backEdges n
    rw [hg.same]
    exact hn
  | @modifyMetrics g _ hg =>
    rintro w ⟨m', a'⟩ ⟨⟨b, hb, rfl⟩, ha⟩
    have hkept : g w.machine.metrics = { g w.machine.metrics with osrTriggers := w.machine.metrics.osrTriggers } :=
      hg w.machine.metrics w.machine.metrics.osrTriggers
    refine ⟨rfl, ⟨b, ?_, ?_⟩, ha⟩
    · show t.backdrops ⟨_, _, (g w.machine.metrics).osrTriggers⟩ b
      rw [hkept]
      exact hb
    · show { w.machine.before b with metrics := g { w.machine.metrics with osrTriggers := b.triggers } } = _
      rw [hg]
      rfl
  | setPrepared _ h p =>
    rintro w ⟨m', a'⟩ ⟨⟨b, hb, rfl⟩, ha⟩
    exact ⟨rfl, ⟨b, hb, rfl⟩, ha⟩
  | tracing f =>
    rintro w ⟨m', a'⟩ ⟨hm, n, hn, rfl⟩
    exact ⟨rfl, hm.traced (f · (w.activation.depth - 1)), n, hn, rfl⟩
  | onHeapTrap x =>
    rintro w ⟨m', a'⟩ ⟨hm, ha⟩
    obtain ⟨hr, hm⟩ := hm.onHeap x.run
    exact ⟨hr, hm, ha⟩
  | resolveMethod token =>
    rintro w ⟨m', a'⟩ ⟨⟨b, hb, rfl⟩, ha⟩
    rw [resolveMethod_run, resolveMethod_run]
    show ((ExecM.ofResolution (w.machine.metadata.resolveMethod token)).run _).1 = _ ∧
      Workspace.Akin t _ ((ExecM.ofResolution (w.machine.metadata.resolveMethod token)).run _).2
    cases w.machine.metadata.resolveMethod token <;> exact ⟨rfl, ⟨b, hb, rfl⟩, ha⟩
  | countBackEdge _ pc target =>
    rintro w ⟨m', a'⟩ ⟨⟨b, hb, rfl⟩, n, hn, rfl⟩
    rw [countBackEdge_run, countBackEdge_run]
    obtain ⟨hb', hn'⟩ := t.polled (fun t => t.message (w.activation.depth - 1)
      ["OSR threshold reached at ", Text.label pc, " -> ", Text.label target]) hb hn
    exact ⟨rfl, ⟨_, hb', rfl⟩, _, hn', rfl⟩

end ExecM

/-! ## Steps -/

inductive Control.Akin (t : Tie) : Control → Control → Prop where
  | running {a a' : Activation} : a.Akin t a' → Akin t (.running a) (.running a')
  | ending (o : Outcome) : Akin t (.ending o) (.ending o)

structure Caller.Akin (t : Tie) (c c' : Caller) : Prop where
  activation : c.activation.Akin t c'.activation
  continuation : c'.continuation = c.continuation

/-- The runs are at the same place, before tied backdrops. -/
structure Execution.Akin (t : Tie) (x y : Execution) : Prop where
  machine : x.machine.Akin t y.machine
  control : x.control.Akin t y.control
  callers : List.Forall₂ (Caller.Akin t) x.callers y.callers

/-- The call is too deep for the lower limit only. -/
def Tie.Parts (t : Tie) (c : Control) : Prop :=
  t.low < t.high ∧ c = .ending (.error (.abort (.error (.stackOverflow t.low))))

namespace Machine

variable {m m' : Machine}

/-- A call does the same, or is too deep for the lower limit. -/
theorem Akin.deeper {f : Machine → Control × Machine} (h : m.Akin t m')
    (hf : ∀ {m m' : Machine}, m.Akin t m' → (f m).1.Akin t (f m').1 ∧ (f m).2.Akin t (f m').2) :
    ((m.deeper f).1.Akin t (m'.deeper f).1 ∧ (m.deeper f).2.Akin t (m'.deeper f).2) ∨ t.Parts (m.deeper f).1 := by
  have ⟨b, hb, hm⟩ := h
  obtain ⟨hlow, hhigh⟩ := t.limits hb
  have hlimit : m.settings.maxCallDepth = t.low := hlow
  have hlimit' : m'.settings.maxCallDepth = t.high := by rw [hm]; exact hhigh
  have hle := t.ordered
  unfold Machine.deeper
  rw [hlimit, hlimit', h.depth]
  by_cases hdeep : t.low < m.depth + 1
  · rw [if_pos hdeep]
    by_cases heq : t.low = t.high
    · rw [← heq, if_pos hdeep]
      exact .inl ⟨.ending _, h⟩
    · exact .inr ⟨by omega, rfl⟩
  · rw [if_neg hdeep, if_neg (by omega)]
    exact .inl (hf (h.withDepth _))

theorem Akin.leaveCall (h : m.Akin t m') (o : Outcome) :
    (m.leaveCall o).1.Akin t (m'.leaveCall o).1 ∧ (m.leaveCall o).2.Akin t (m'.leaveCall o).2 := by
  unfold Machine.leaveCall
  rw [h.depth]
  exact ⟨.ending o, h.withDepth _⟩

theorem Akin.activate (h : m.Akin t m') (symbol : MethodSymbol) (p : Prepared) (frame : Frame) (pc top : Nat) :
    (m.activate symbol p frame pc top).1.Akin t (m'.activate symbol p frame pc top).1 ∧
      (m.activate symbol p frame pc top).2.Akin t (m'.activate symbol p frame pc top).2 := by
  obtain ⟨b, hb, rfl⟩ := h
  exact ⟨.running ⟨0, t.fresh, rfl⟩, Akin.traced ⟨b, hb, rfl⟩ (·.entry (m.depth - 1) p.symbol.name "")⟩

theorem Akin.enter (h : m.Akin t m') (symbol : MethodSymbol) (arguments : List Value) :
    ((m.enter symbol arguments).1.Akin t (m'.enter symbol arguments).1 ∧
      (m.enter symbol arguments).2.Akin t (m'.enter symbol arguments).2) ∨ t.Parts (m.enter symbol arguments).1 := by
  refine h.deeper fun {m m'} h => ?_
  cases symbol.body with
  | none =>
    dsimp only
    split
    · exact h.leaveCall _
    · obtain ⟨ho, hm⟩ := h.callNative symbol arguments
      rw [ho]
      exact hm.leaveCall _
  | some body =>
    obtain ⟨hr, hm⟩ := h.prepare symbol
    generalize m.prepare symbol = r at hr hm
    generalize m'.prepare symbol = r' at hr hm
    obtain ⟨r, m₁⟩ := r
    obtain ⟨r', m₁'⟩ := r'
    obtain rfl : r' = r := hr
    cases r' with
    | error e => exact Akin.leaveCall hm _
    | ok p =>
      obtain ⟨hr, hm⟩ := Akin.newFrame hm p arguments
      dsimp only at hr hm ⊢
      generalize m₁.newFrame p arguments = r at hr hm
      generalize m₁'.newFrame p arguments = r' at hr hm
      obtain ⟨r, m₂⟩ := r
      obtain ⟨r', m₂'⟩ := r'
      obtain rfl : r' = r := hr
      cases r' with
      | error f => exact Akin.leaveCall hm _
      | ok frame => exact Akin.activate hm symbol p frame 0 _

end Machine

namespace Execution

variable {p : Prepared} {op : Opcode} {before : Nat} {callers callers' : List Caller} {w v : Workspace}
  {x y : Execution}

theorem finish_akin (h : w.Akin t v) (hc : List.Forall₂ (Caller.Akin t) callers callers') (o : Outcome) :
    (finish w callers o).Akin t (finish v callers' o) := by
  obtain ⟨m', a'⟩ := v
  obtain ⟨hm, n, -, rfl⟩ := h
  exact ⟨hm.withDepth _, .ending o, hc⟩

theorem traced_akin (h : w.Akin t v) (f : Trace → Nat → Trace) : (traced w f).Akin t (traced v f) := by
  obtain ⟨m', a'⟩ := v
  obtain ⟨hm, n, hn, rfl⟩ := h
  exact ⟨hm.traced (f · (w.activation.depth - 1)), n, hn, rfl⟩

theorem announced_eq (w : Workspace) (op : Opcode) : announced w op = ⟨w.machine.before (w.machine.backdrop.announced
    fun trace => trace.instruction (w.activation.depth - 1) w.activation.pc op.mnemonic), w.activation⟩ := by
  unfold announced Backdrop.announced Machine.backdrop
  dsimp only
  split <;> rfl

theorem announced_akin (h : w.Akin t v) (op : Opcode) : (announced w op).Akin t (announced v op) := by
  obtain ⟨m', a'⟩ := v
  obtain ⟨⟨b, hb, rfl⟩, n, hn, rfl⟩ := h
  rw [announced_eq, announced_eq]
  exact ⟨⟨_, t.announced _ hb, rfl⟩, n, hn, rfl⟩

/-- What is left after a trap that no handler is asked about. -/
theorem raised_akin (h : w.Akin t v) (hc : List.Forall₂ (Caller.Akin t) callers callers') (e : Trap) :
    (finish { w with machine := (w.machine.raise e).2 } callers (.error (w.machine.raise e).1)).Akin t
      (finish { v with machine := (v.machine.raise e).2 } callers' (.error (v.machine.raise e).1)) := by
  obtain ⟨he, hm⟩ := h.machine.raise e
  rw [he]
  exact finish_akin (w := { w with machine := (w.machine.raise e).2 })
    (v := { v with machine := (v.machine.raise e).2 }) ⟨hm, h.activation⟩ hc _

theorem proceed_akin {z : ExecM Unit} (hz : ExecM.Composed true z) (h : w.Akin t v)
    (hc : List.Forall₂ (Caller.Akin t) callers callers') : (proceed z w callers).Akin t (proceed z v callers') := by
  obtain ⟨hr, hs⟩ := hz.akin h
  unfold proceed
  rcases hw : z.run w with ⟨r, u⟩
  rcases hw' : z.run v with ⟨r', u'⟩
  rw [hw, hw'] at hr hs
  subst hr
  cases r' with
  | ok _ => exact ⟨hs.machine, .running hs.activation, hc⟩
  | error e => exact raised_akin hs hc e

theorem throwIn_akin (p : Prepared) (e : GuestException) (h : w.Akin t v)
    (hc : List.Forall₂ (Caller.Akin t) callers callers') :
    (throwIn p e w callers).Akin t (throwIn p e v callers') := by
  obtain ⟨hr, hs⟩ := (ExecM.Composed.dispatch p e).akin h
  unfold throwIn
  rcases hw : (ExecM.dispatch p e).run w with ⟨r, u⟩
  rcases hw' : (ExecM.dispatch p e).run v with ⟨r', u'⟩
  rw [hw, hw'] at hr hs
  subst hr
  cases r' with
  | ok r =>
    cases r with
    | none => exact ⟨hs.machine, .running hs.activation, hc⟩
    | some e' => exact finish_akin hs hc _
  | error e => exact raised_akin hs hc e

theorem settle_akin {r s : Except Trap Next × Workspace} (hr : s.1 = r.1) (h : r.2.Akin t s.2)
    (hc : List.Forall₂ (Caller.Akin t) callers callers') :
    (settle p op before callers r).Akin t (settle p op before callers' s) ∨
      t.Parts (settle p op before callers r).control := by
  obtain ⟨r, w⟩ := r
  obtain ⟨s, v⟩ := s
  obtain rfl : s = r := hr
  dsimp only at h
  have hnames : v.machine.names = w.machine.names := by
    obtain ⟨b, -, hb⟩ := h.machine
    rw [hb]
    rfl
  cases s with
  | ok n =>
    cases n with
    | advance => exact .inl (proceed_akin (.advance p op before) h hc)
    | jump target => exact .inl (proceed_akin (.jumpTo p op before target) h hc)
    | ret value => exact .inl (finish_akin (traced_akin h _) hc _)
    | propagate e =>
      simp only [settle, hnames]
      exact .inl (finish_akin (traced_akin h _) hc _)
    | invoke target arguments c =>
      refine (h.machine.enter target arguments).imp (fun ⟨hcontrol, hm⟩ => ?_) id
      exact ⟨hm, hcontrol, .cons ⟨h.activation, rfl⟩ hc⟩
  | error e =>
    cases e with
    | abort a =>
      cases a with
      | error e =>
        have hpc : v.activation.pc = w.activation.pc := by
          obtain ⟨n, -, hn⟩ := h.activation
          rw [hn]
        simp only [settle, hnames, hpc]
        exact .inl (finish_akin (traced_akin h _) hc _)
      | endless | crash => exact .inl (finish_akin h hc _)
    | thrown e => exact .inl (throwIn_akin p e h hc)
    | fault k message =>
      obtain ⟨he, hm⟩ := h.machine.faultException k message
      simp only [settle, he]
      exact .inl (throwIn_akin p _ ⟨hm, h.activation⟩ hc)

theorem current_akin (h : w.Akin t v) : current v = current w := by
  obtain ⟨m', a'⟩ := v
  obtain ⟨⟨b, -, rfl⟩, n, -, rfl⟩ := h
  rfl

theorem stepInstruction_akin (h : w.Akin t v) (hc : List.Forall₂ (Caller.Akin t) callers callers') :
    (stepInstruction w callers).Akin t (stepInstruction v callers') ∨
      t.Parts (stepInstruction w callers).control := by
  have hcurrent := current_akin h
  obtain ⟨m', a'⟩ := v
  obtain ⟨n, hn, rfl⟩ := h.activation
  unfold stepInstruction
  rw [hcurrent]
  cases current w with
  | error e => exact .inl (finish_akin h hc _)
  | ok r =>
    obtain ⟨hr, hs⟩ := (ExecM.Composed.instruction r.1 w.activation.pc r.2 fun _ => rfl).akin (announced_akin h r.2)
    exact settle_akin hr hs hc

theorem stepReturn_akin (h : w.Akin t v) (hc : List.Forall₂ (Caller.Akin t) callers callers') (c : Continuation)
    (o : Outcome) : (stepReturn w c o callers).Akin t (stepReturn v c o callers') ∨
      t.Parts (stepReturn w c o callers).control := by
  have htop : v.activation.top = w.activation.top := by
    obtain ⟨n, -, ha⟩ := h.activation
    rw [ha]
  unfold stepReturn
  rw [current_akin h, htop]
  cases current w with
  | error e =>
    cases o with
    | ok value => exact .inl (finish_akin h hc _)
    | error f => cases f <;> exact .inl (finish_akin h hc _)
  | ok r =>
    cases o with
    | ok value =>
      obtain ⟨hr, hs⟩ := (ExecM.Composed.continueWith c value).akin h
      exact settle_akin hr hs hc
    | error f =>
      cases f with
      | guest e => exact settle_akin (r := (_, w)) (s := (_, v)) rfl h hc
      | abort a => exact settle_akin (r := (_, w)) (s := (_, v)) rfl h hc

/-- **A step does the same**, unless a call is too deep for the lower limit. -/
theorem step_akin (h : x.Akin t y) : x.step.Akin t y.step ∨ t.Parts x.step.control := by
  rcases x with ⟨m, control, callers⟩
  rcases y with ⟨m', control', callers'⟩
  obtain ⟨hm, hcontrol, hcallers⟩ := h
  cases hcontrol with
  | @running a a' ha => exact stepInstruction_akin (w := ⟨m, a⟩) (v := ⟨m', a'⟩) ⟨hm, ha⟩ hcallers
  | ending o =>
    cases hcallers with
    | nil => exact .inl ⟨hm, .ending o, .nil⟩
    | @cons c c' callers callers' hc hcallers =>
      obtain ⟨a, c⟩ := c
      obtain ⟨a', c'⟩ := c'
      obtain ⟨ha, rfl⟩ := hc
      exact stepReturn_akin (w := ⟨m, a⟩) (v := ⟨m', a'⟩) ⟨hm, ha⟩ hcallers c' o

/-! ## Runs -/

/-- **Both runs end**, with the same outcome and before tied backdrops, or neither does within its steps. -/
inductive EndsAkin (t : Tie) : Option (Outcome × Machine) → Option (Outcome × Machine) → Prop where
  | ended {o : Outcome} {m m' : Machine} : m.Akin t m' → EndsAkin t (some (o, m)) (some (o, m'))
  | unfinished : EndsAkin t none none

theorem outcome?_akin (h : x.Akin t y) : y.outcome? = x.outcome? := by
  rcases x with ⟨m, control, callers⟩
  rcases y with ⟨m', control', callers'⟩
  obtain ⟨-, hcontrol, hcallers⟩ := h
  cases hcontrol with
  | running ha => rfl
  | ending o => cases hcallers <;> rfl

/-- **Runs end the same**, unless the one with the lower limit ends because of it. -/
theorem run_akin : ∀ (fuel : Nat) {x y : Execution}, x.Akin t y → EndsAkin t (x.run fuel) (y.run fuel) ∨
    (t.low < t.high ∧ ∃ m, x.EndsIn (.error (.abort (.error (.stackOverflow t.low))), m))
  | 0, _, _, _ => .inl .unfinished
  | fuel + 1, x, y, h => by
    rw [run, run, outcome?_akin h]
    cases x.outcome? with
    | some o => exact .inl (.ended h.machine)
    | none =>
      rcases step_akin h with hstep | ⟨hlt, hparts⟩
      · refine (run_akin fuel hstep).imp id ?_
        rintro ⟨hlt, m, hm⟩
        exact ⟨hlt, m, endsIn_step.1 hm⟩
      · obtain ⟨m, -, hm⟩ := GivenUp.endsIn (x := x.step) hparts
        exact .inr ⟨hlt, m, endsIn_step.1 hm⟩

end Execution

theorem Machine.Akin.start {m m' : Machine} (h : m.Akin t m') (symbol : MethodSymbol) (arguments : List Value) :
    (m.start symbol arguments).Akin t (m'.start symbol arguments) ∨ t.Parts (m.start symbol arguments).control :=
  (h.enter symbol arguments).imp (fun ⟨hcontrol, hm⟩ => ⟨hm, hcontrol, .nil⟩) id

/-! ## Observers -/

/-- Backdrops of any sort, with one limit on the depth of calls. -/
def Tie.observers (limit : Nat) : Tie where
  low := limit
  high := limit
  ordered := Nat.le_refl limit
  backdrops b b' := b.settings.maxCallDepth = limit ∧ b'.settings.maxCallDepth = limit
  counts _ _ := True
  limits h := h
  traced _ h := h
  announced f h := by
    unfold Backdrop.announced
    split <;> split <;> exact h
  polled _ h _ := ⟨h, trivial⟩
  fresh := trivial

/-- **Runs end the same whoever observes them.** -/
theorem Execution.run_observed {limit : Nat} {x y : Execution} (h : x.Akin (.observers limit) y) (fuel : Nat) :
    EndsAkin (.observers limit) (x.run fuel) (y.run fuel) := by
  rcases run_akin fuel h with h | ⟨hlt, -⟩
  · exact h
  · exact absurd hlt (Nat.lt_irrefl limit)

namespace Machine

/-- The machine with other observers: another threshold for backward jumps, another trace, and with instructions traced
or not. -/
def observed (m : Machine) (threshold : Nat) (instructions : Bool) (trace : Trace) : Machine :=
  { m with settings := { m.settings with osrThreshold := threshold, traceInstructions := instructions }, trace }

/-- All of the machine but what observers set and see: the threshold, whether instructions are traced, the trace and
the count of triggers. -/
def unobserved (m : Machine) : Machine :=
  { m.observed 0 false {} with metrics := { m.metrics with osrTriggers := 0 } }

theorem Akin.unobserved {limit : Nat} {m m' : Machine} (h : m.Akin (.observers limit) m') :
    m'.unobserved = m.unobserved := by
  obtain ⟨b, ⟨hl, hl'⟩, rfl⟩ := h
  have hlimit : b.settings.maxCallDepth = m.settings.maxCallDepth := hl'.trans hl.symm
  unfold Machine.unobserved Machine.observed Machine.before
  dsimp only
  rw [hlimit]

/-- What is left of the ends of two runs, but for their observers, is the same. -/
theorem unobserved_of_endsAkin {limit : Nat} {r r' : Option (Outcome × Machine)}
    (h : Execution.EndsAkin (.observers limit) r r') :
    r'.map (fun (o, m) => (o, m.unobserved)) = r.map fun (o, m) => (o, m.unobserved) := by
  cases h with
  | ended h => exact congrArg some (Prod.ext rfl h.unobserved)
  | unfinished => rfl

/-- **Observation does not change execution.** Whatever the threshold for backward jumps and the trace are, and whether
instructions are traced or not, a method has the same outcome on the same number of steps, and leaves the same machine:
the same heap, the same methods with the same code, and every count but that of triggers. -/
theorem execute_observed (m : Machine) (threshold : Nat) (instructions : Bool) (trace : Trace) (symbol : MethodSymbol)
    (arguments : List Value) (fuel : Nat) :
    ((m.observed threshold instructions trace).execute fuel symbol arguments).map (fun (o, m') => (o, m'.unobserved)) =
      (m.execute fuel symbol arguments).map fun (o, m') => (o, m'.unobserved) := by
  have hm : m.Akin (.observers m.settings.maxCallDepth) (m.observed threshold instructions trace) :=
    ⟨(m.observed threshold instructions trace).backdrop, ⟨rfl, rfl⟩, rfl⟩
  rcases hm.start symbol arguments with hstart | ⟨hlt, -⟩
  · exact unobserved_of_endsAkin (Execution.run_observed hstart fuel)
  · exact absurd hlt (Nat.lt_irrefl _)

end Machine

end ManagedCode
