import ManagedCode.Proofs.Heights
import ManagedCode.Proofs.Passing

/-!
# What a run keeps in order

Whatever the stacks hold, a run leaves the machine in order (`Machine.Orderly`), and the frames of its activations:
their values name fields of the tables, their arguments and locals fit their kinds, and the stack lies above these.
`Execution.Tidy` says this of a run, `Tidy.step` that a step keeps it; so it holds of every machine of a host that keeps
to the rules (`Machine.Maintained`).
-/

namespace ManagedCode

open ExecM (Delivers Ran)

/-- **An activation in order**: its values name fields of the tables, its arguments and locals hold what fits their
kinds, and its stack lies above them. -/
structure Activation.Tidy (md : Metadata) (p : Prepared) (a : Activation) : Prop where
  proper : a.frame.Proper md
  fitting : a.frame.Holds p.variableTypes
  low : p.layout.stackBase ≤ a.top

/-- An activation that waits is in order, and waits for a method of the tables. -/
def Caller.Tidy (m : Machine) (c : Caller) : Prop :=
  ∃ p site target, m.prepared? c.activation.method = some p ∧ p.HasSite m.metadata c.activation.pc site ∧
    site.Enters target c.continuation ∧ m.metadata.HasMethod target ∧ c.activation.Tidy m.metadata p

/-- **A run in order.** -/
structure Execution.Tidy (x : Execution) : Prop where
  orderly : x.machine.Orderly
  running : ∀ a, x.control = .running a → ∃ p, x.machine.prepared? a.method = some p ∧ a.Tidy x.machine.metadata p
  waiting : ∀ c ∈ x.callers, c.Tidy x.machine
  result : ∀ v, x.control = .ending (.ok (some v)) → v.Proper x.machine.metadata

section

variable {m m' : Machine} {md : Metadata} {p p' : Prepared} {a : Activation} {w : Workspace}

theorem Activation.Tidy.evolves (ha : a.Tidy md p) (he : p.Evolves p') : a.Tidy md p' where
  proper := ha.proper
  fitting := by
    rw [← p'.types_nil, he.types, p.types_nil]
    exact ha.fitting
  low := by
    rw [he.layout]
    exact ha.low

theorem Activation.Tidy.of_evolves (he : m.Evolves m') (hp : m.prepared? a.method = some p)
    (ha : a.Tidy m.metadata p) : ∃ p', m'.prepared? a.method = some p' ∧ a.Tidy m'.metadata p' := by
  obtain ⟨p', hp', hev⟩ := he.prepared _ p hp
  refine ⟨p', hp', ?_⟩
  rw [he.metadata]
  exact ha.evolves hev

theorem Caller.Tidy.evolves {c : Caller} (hc : c.Tidy m) (he : m.Evolves m') : c.Tidy m' := by
  obtain ⟨p, site, target, hp, hsite, hent, htarget, htidy⟩ := hc
  obtain ⟨p', hp', hev⟩ := he.prepared _ p hp
  refine ⟨p', site, target, hp', ?_⟩
  rw [he.metadata]
  exact ⟨hev.hasSite hsite, hent, htarget, htidy.evolves hev⟩

/-- The workspace of an activation in order is good. -/
theorem Activation.Tidy.good (ha : w.activation.Tidy w.machine.metadata p) (hm : w.machine.Orderly) :
    w.Good w.machine.metadata p := ⟨rfl, hm.heap, ha.proper, ha.fitting⟩

theorem Workspace.Good.tidy (hw : w.Good md p) (hlow : p.layout.stackBase ≤ w.activation.top) :
    w.activation.Tidy md p := ⟨hw.proper, hw.holds, hlow⟩

end

/-! ## What the parts of a step keep in order -/

namespace Workspace

variable {md : Metadata} {w w' : Workspace} {p : Prepared} {op : Opcode} {before dest : Nat} {ts : List StackType}

/-- An activation that goes on leaves the machine as it is, but for counts and the trace. -/
theorem Moved.machine (h : Moved p op before dest w w') :
    w'.machine = { w.machine with metrics := w'.machine.metrics, trace := w'.machine.trace } := by
  obtain ⟨w₁, w₂, n, he, hn, rfl⟩ := h
  show w₂.machine = { w.machine with metrics := w₂.machine.metrics, trace := w₂.machine.trace }
  rw [← he.machine]
  exact hn.machine

/-- Where an activation goes on, only slots of the stack above its new top have been cleared. -/
theorem Moved.frame (h : Moved p op before dest w w') :
    w'.activation.frame = w.activation.frame ∨ (p.layout.stackBase ≤ w'.activation.top ∧
      w'.activation.frame = w.activation.frame.clearRange w'.activation.top before) := by
  obtain ⟨w₁, w₂, n, he, hn, rfl⟩ := h
  show w₂.activation.frame = _ ∨ (_ ∧ w₂.activation.frame = w.activation.frame.clearRange w₂.activation.top before)
  rw [show (w₂.goTo dest n).activation.top = w₂.activation.top from rfl, hn.activation]
  unfold Effected at he
  split at he
  · subst he
    exact .inl rfl
  · obtain ⟨-, hlow, -, rfl⟩ := he
    refine .inr ⟨?_, rfl⟩
    show p.layout.stackBase ≤ before - _ + _
    omega

theorem Moved.proper (h : Moved p op before dest w w') (hw : w.activation.frame.Proper md) :
    w'.activation.frame.Proper md := by
  rcases h.frame with hf | ⟨-, hf⟩
  · rw [hf]
    exact hw
  · rw [hf]
    exact hw.clearRange _ _

theorem Moved.holds (h : Moved p op before dest w w') (hw : w.activation.frame.Holds ts)
    (hlen : p.layout.stackBase ≤ w'.activation.top → ts.length ≤ w'.activation.top) :
    w'.activation.frame.Holds ts := by
  rcases h.frame with hf | ⟨hlow, hf⟩
  · rw [hf]
    exact hw
  · rw [hf]
    exact hw.agree fun i hi => Frame.getElem?_clearRange_outside _ (.inl (Nat.lt_of_lt_of_le hi (hlen hlow)))

/-- **An activation that goes on stays in order.** -/
theorem Moved.tidy (h : Moved p op before dest w w') (hs : p.Sound md) (hw : w.activation.Tidy md p) :
    w'.activation.Tidy md p where
  proper := h.proper hw.proper
  fitting := h.holds hw.fitting fun hlow => by rw [hs.length_variables]; exact hlow
  low := by
    cases he : op.effect with
    | varying =>
      rw [h.top_varying he]
      exact hw.low
    | fixed pops pushes =>
      obtain ⟨hlow, htop⟩ := h.top_fixed he
      omega

theorem Moved.orderly (h : Moved p op before dest w w') (hm : w.machine.Orderly) : w'.machine.Orderly := by
  refine hm.withHeap h.goes.1 ?_ ?_
  · rw [h.machine]
  · rw [h.machine]
    exact hm.heap

theorem Entered.tidy {object : Option (Option Ref)} (he : Entered p object w w') (hw : w.Good md p) (hs : p.Sound md) :
    w'.activation.Tidy md p := by
  refine (he.good hw hs).tidy ?_
  have htop : w'.activation.top = p.layout.stackBase + if object.isSome then 1 else 0 := he.kept.top
  omega

end Workspace

theorem Execution.Leaves.orderly {m m' : Machine} (h : Leaves m m') (hm : m.Orderly) : m'.Orderly := by
  refine hm.withHeap h.samePrograms (by rw [h.machine]) ?_
  rcases h.heap with hh | ⟨k, message, hh⟩
  · rw [hh]
    exact hm.heap
  · rw [hh]
    exact hm.heap.newException k message

/-- The object of an exception is an object like any other. -/
theorem Trap.raised?_good {t : Trap} {w w₁ : Workspace} {e : GuestException} {md : Metadata} {p : Prepared}
    (h : t.raised? w = some (e, w₁)) (hw : w.Good md p) : w₁.Good md p ∧ (w.machine.Orderly → w₁.machine.Orderly) := by
  cases t with
  | abort a => cases h
  | thrown e' =>
    cases h
    exact ⟨hw, id⟩
  | fault k message =>
    cases h
    have hheap := hw.heap.newException k message
    rw [← hw.metadata] at hheap
    refine ⟨hw.sameFrame rfl (hw.metadata ▸ hheap) rfl, fun hm => ?_⟩
    exact hm.withHeap ⟨rfl, rfl⟩ rfl hheap

/-- **An instruction leaves the machine in order** if it leaves the heap typed. -/
theorem ExecM.Ran.orderly {md : Metadata} {p : Prepared} {next : Nat} {w : Workspace} {op : Opcode}
    {r : Except Trap Next × Workspace} (h : Ran md p next w op r) (hm : w.machine.Orderly)
    (hheap : r.2.machine.heap.Typed w.machine.metadata) : r.2.machine.Orderly := by
  obtain ⟨w₁, u, hg, hk⟩ := h.shifted
  have hsame := hk.samePrograms
  obtain ⟨n, hk⟩ := hk
  have hnatives : r.2.machine.natives = w₁.machine.natives := by
    rw [hk.machine]
    rfl
  refine hm.of_ready h.keeps.1.metadata (hnatives.trans (by rw [hg.machine])) hheap fun k q hq => .inl ?_
  rw [hsame.prepared?] at hq
  obtain ⟨p₀, hp₀, hev⟩ := hg.ready k q hq
  exact ⟨p₀, hp₀, hev.symbol⟩

namespace Execution

variable {w : Workspace} {p : Prepared} {op : Opcode} {next : Nat} {callers : List Caller} {y : Execution}

/-- A handler that is entered leaves the run in order. -/
theorem caught_tidy (dest : Nat) {t : Trap} {e : GuestException} {w w₁ w₂ : Workspace} {object : Option (Option Ref)}
    {u : Unwinding} (hp : p.Sound w.machine.metadata) (hm : w.machine.Orderly) (hw : w.Good w.machine.metadata p)
    (ht : t.raised? w = some (e, w₁)) (hent : Workspace.Entered p object (w₁.withUnwinding u) w₂) :
    w₂.machine.Orderly ∧ (w₂.goTo dest w₁.activation.backEdges).activation.Tidy w.machine.metadata p := by
  obtain ⟨hgood, horderly⟩ := Trap.raised?_good ht hw
  have htidy := hent.tidy (hgood.sameFrame rfl hgood.heap rfl) hp
  refine ⟨(horderly hm).withHeap ⟨hent.kept.metadata, hent.kept.prepared⟩ ?_ ?_, htidy.proper, htidy.fitting, htidy.low⟩
  · rw [hent.kept.machine]
    rfl
  · rw [hent.heap]
    exact (horderly hm).heap

/-- Control that comes to another offset of the method leaves the stack above arguments and locals. -/
theorem Travels.low {md : Metadata} {dest : Nat} {w' : Workspace} (h : Travels md p next w op dest w')
    (hlow : p.layout.stackBase ≤ w.activation.top) : p.layout.stackBase ≤ w'.activation.top := by
  cases h with
  | along _ _ _ _ hk =>
    rw [hk.top]
    exact hlow
  | @landed object _ _ _ _ hent =>
    have htop : w'.activation.top = p.layout.stackBase + if object.isSome then 1 else 0 := hent.kept.top
    omega

theorem Tidy.of_running {m : Machine} {a : Activation} (hm : m.Orderly)
    (ha : ∃ q, m.prepared? a.method = some q ∧ a.Tidy m.metadata q) (hw : ∀ c ∈ callers, c.Tidy m) :
    Tidy ⟨m, .running a, callers⟩ := by
  refine ⟨hm, fun a' hrun => ?_, hw, fun v hv => by cases hv⟩
  cases hrun
  exact ha

/-- A call of a method of the tables, on arguments that name fields of the tables, begins in order. -/
theorem Tidy.enter {m : Machine} {symbol : MethodSymbol} {arguments : List Value} (hm : m.Orderly) (hs : m.Sound)
    (hsymbol : m.metadata.HasMethod symbol) (hargs : ∀ v ∈ arguments, v.Proper m.metadata)
    (hw : ∀ c ∈ callers, c.Tidy m) :
    Tidy ⟨(m.enter symbol arguments).2, (m.enter symbol arguments).1, callers⟩ := by
  obtain ⟨horderly, hresult, hstart⟩ := (Machine.enter_enters m symbol arguments).orderly hm hs hsymbol hargs
  obtain ⟨-, hev, hfresh⟩ := Machine.enter_sound hs symbol arguments
  refine ⟨horderly, fun a hrun => ?_, fun c hc => (hw c hc).evolves hev, fun v hv => ?_⟩
  · obtain ⟨q, hq, -, -, hproper, hholds⟩ := hstart a hrun
    obtain ⟨q', frame, depth, hq', rfl, -⟩ := hfresh a hrun
    cases hq.symm.trans hq'
    refine ⟨q, hq, ?_, hholds, Nat.le_refl _⟩
    rw [hev.metadata]
    exact hproper
  · rw [hev.metadata]
    exact hresult v hv

/-- **What comes of an instruction is in order.** -/
theorem Settles.tidy {x : ExecM Next} {R : List StackType → List StackType → Prop}
    (hset : Settles p op w.activation.top callers (x.run w) y) (hs : w.machine.Sound)
    (ha : w.activation.Inside w.machine p) (hm : w.machine.Orderly) (htidy : w.activation.Tidy w.machine.metadata p)
    (hw : ∀ c ∈ callers, c.Tidy w.machine) (hn : p.code.nextOffset w.activation.pc = .ok next)
    (hran : Ran w.machine.metadata p next w op (x.run w))
    (hx : Delivers w.machine.metadata p R x (Next.Typed w.machine.metadata p)) (hev : w.machine.Evolves y.machine) :
    y.Tidy := by
  have hp := hs _ p ha.prepared
  have hgood := htidy.good hm
  have hmeets := hx w hgood
  obtain ⟨hevr, hsound, hmethod, hpc⟩ := hran.keeps
  have hwaiting : ∀ c ∈ callers, c.Tidy y.machine := fun c hc => (hw c hc).evolves hev
  have hready : w.machine.prepared? (x.run w).2.activation.method = some p := by
    rw [hmethod]
    exact ha.prepared
  generalize hrun : x.run w = r at hset hran hsound hevr hready hmethod hpc
  cases hset with
  | @ended r w₁ m o hl ho =>
    have hgood₁ : w₁.Good w.machine.metadata p := by
      cases r with
      | ok n => exact (hmeets.of_ok hrun).2.1
      | error t => exact hmeets.of_error hrun
    refine ⟨hl.orderly (hran.orderly hm hgood₁.heap), (fun a h => by cases h), hwaiting, fun v hv => ?_⟩
    cases ho (some v) (Control.ending.inj hv)
    rw [hev.metadata]
    exact (hmeets.of_ok hrun).1.proper v rfl
  | @moved n dest w₁ w₂ hgo hmoved =>
    obtain ⟨-, hgood₁, -⟩ := hmeets.of_ok hrun
    refine .of_running (hmoved.orderly (hran.orderly hm hgood₁.heap)) ?_ hwaiting
    refine Activation.Tidy.of_evolves hev ?_ (hmoved.tidy hp (hgood₁.tidy ((hgo.travels hran hn).low htidy.low)))
    rw [hmoved.goes.2.1]
    exact hready
  | called target arguments c w₁ =>
    obtain ⟨⟨htarget, hargs⟩, hgood₁, -⟩ := hmeets.of_ok hrun
    have hm₁ := hran.orderly hm hgood₁.heap
    rw [← hevr.metadata] at htarget hargs
    refine .enter hm₁ (hsound hs) htarget hargs fun c' hc' => ?_
    rcases List.mem_cons.1 hc' with rfl | hc'
    · obtain ⟨site, w₂, hsite, hent, -, hh, hk⟩ := hran.of_invoke
      refine Caller.Tidy.evolves (m := w.machine) ⟨p, site, target, hready, ?_, hent, ?_, ?_⟩ hevr
      · rw [show w₁.activation.pc = w.activation.pc from hpc]
        exact hsite
      · rw [← hevr.metadata]
        exact htarget
      · refine hgood₁.tidy ?_
        have htop : w₁.activation.top = w.activation.top - site.pops := hk.top
        have hlow := htidy.low
        omega
    · exact (hw c' hc').evolves hevr
  | @caught t e w₁ w₂ w₃ dest object u ht hd hent =>
    have hgood₁ := hmeets.of_error hrun
    have hm₁ := hran.orderly hm hgood₁.heap
    have hmd : w₁.machine.metadata = w.machine.metadata := hgood₁.metadata
    obtain ⟨horderly, htidy₃⟩ := caught_tidy dest (by rw [hmd]; exact hp) hm₁ (by rw [hmd]; exact hgood₁) ht hent
    rw [hmd] at htidy₃
    exact .of_running horderly
      (Activation.Tidy.of_evolves hev ((congrArg _ (caught_method ht hent)).trans hready) htidy₃) hwaiting

/-- The end of a call leaves the activation in order that waited for it. -/
theorem Handed.tidy {c : Continuation} {o : Outcome} {r : Except Trap Next × Workspace} (hr : Handed c w o r)
    (hp : p.Sound w.machine.metadata) (hm : w.machine.Orderly) (htidy : w.activation.Tidy w.machine.metadata p)
    (ho : ∀ v, o = .ok (some v) → v.Proper w.machine.metadata) : r.2.activation.Tidy w.machine.metadata p := by
  cases hr with
  | @pushed value v hv hlt =>
    have hproper : v.Proper w.machine.metadata := by
      cases c with
      | pushObject r =>
        cases hv
        trivial
      | returnResult => cases hv
      | pushResult m =>
        simp only [Continuation.pushed?] at hv
        split at hv
        · exact ho v (by rw [hv])
        · cases hv
    have hset := (htidy.good hm).set hproper (ExecM.fits_above hp.aligned htidy.low)
    exact ⟨hset.proper, hset.holds, Nat.le_succ_of_le htidy.low⟩
  | returned | dropped | refused | thrown | aborted => exact htidy

/-- **What comes of the end of a call is in order.** -/
theorem Settles.tidy_return {c : Continuation} {o : Outcome} {r : Except Trap Next × Workspace}
    (hset : Settles p op w.activation.top callers r y) (hr : Handed c w o r) (hs : w.machine.Sound)
    (hp : w.machine.prepared? w.activation.method = some p) (hm : w.machine.Orderly)
    (htidy : w.activation.Tidy w.machine.metadata p) (hw : ∀ c ∈ callers, c.Tidy w.machine)
    (ho : ∀ v, o = .ok (some v) → v.Proper w.machine.metadata) (hev : w.machine.Evolves y.machine) : y.Tidy := by
  have hsound := hs _ p hp
  have hwaiting : ∀ c ∈ callers, c.Tidy y.machine := fun c hc => (hw c hc).evolves hev
  obtain ⟨hmachine, hmethod, -⟩ := hr.keeps
  cases hset with
  | @ended r w₁ m o' hl ho' =>
    have hm₁ : w₁.machine.Orderly := by
      rw [show w₁.machine = w.machine from hmachine]
      exact hm
    refine ⟨hl.orderly hm₁, (fun a h => by cases h), hwaiting, fun v hv => ?_⟩
    cases ho' (some v) (Control.ending.inj hv)
    rw [hev.metadata]
    cases hr with
    | returned => exact ho v rfl
  | called target arguments c' w₁ => cases hr
  | @caught t e w₁ w₂ w₃ dest object u ht hd hent =>
    obtain rfl := hr.of_error
    obtain ⟨horderly, htidy₃⟩ := caught_tidy dest hsound hm (htidy.good hm) ht hent
    exact .of_running horderly
      (Activation.Tidy.of_evolves hev ((congrArg _ (caught_method ht hent)).trans hp) htidy₃) hwaiting
  | @moved n dest w₁ w₂ hgo hmoved =>
    have hm₁ : w₁.machine.Orderly := by
      rw [show w₁.machine = w.machine from hmachine]
      exact hm
    refine .of_running (hmoved.orderly hm₁) ?_ hwaiting
    refine Activation.Tidy.of_evolves hev ?_ (hmoved.tidy hsound (hr.tidy hsound hm htidy ho))
    rw [hmoved.goes.2.1, show w₁.activation.method = w.activation.method from hmethod]
    exact hp

variable {x : Execution}

/-- The machine is in order when the instruction is executed. -/
theorem Executing.orderly (h : x.Executing p op next w) (hm : x.machine.Orderly) : w.machine.Orderly := by
  refine hm.withHeap h.samePrograms ?_ ?_
  · rw [h.noted.machine]
  · rw [h.noted.machine]
    exact hm.heap

/-- The instruction delivers what its method hands on. -/
theorem Executing.delivers (h : x.Executing p op next w) (hn : x.Addressable) (hm : x.machine.Orderly) :
    Delivers w.machine.metadata p (p.Hands w.machine.metadata w.activation.pc op next)
      (ExecM.instruction p w.activation.pc op) (Next.Typed w.machine.metadata p) :=
  ExecM.hands_instruction (h.sound _ p h.inside.prepared) (h.orderly hm).tables h.inside.reachable
    (hn _ p ((h.samePrograms.prepared? _).symm.trans h.inside.prepared)) h.opcode h.next

theorem Executing.tidy (h : x.Executing p op next w) (hx : x.Tidy) : w.activation.Tidy w.machine.metadata p := by
  obtain ⟨q, hq, htidy⟩ := hx.running _ h.control
  cases h.inside.prepared.symm.trans ((h.samePrograms.prepared? _).trans hq)
  rw [h.samePrograms.metadata]
  exact htidy

/-- **One step leaves the run in order.** -/
theorem Tidy.step (hx : x.Tidy) (hin : x.Inside) (ha : x.Addressable) : x.step.Tidy := by
  have hev := (hin.step ha).2
  cases hin.steps ha with
  | @executes p _ _ w h =>
    exact h.settles.tidy h.sound h.inside (h.orderly hx.orderly) (h.tidy hx)
      (fun c hc => (hx.waiting c hc).evolves h.samePrograms.evolves) h.next h.ran (h.delivers ha hx.orderly)
      (h.keeps hin).2
  | @returns c callers _ _ _ _ h =>
    have hmem : ∀ c' ∈ c :: callers, c'.Tidy x.machine := h.callers ▸ hx.waiting
    obtain ⟨q, site, target, hq, -, -, -, htidy⟩ := hmem c List.mem_cons_self
    cases h.inside.activation.prepared.symm.trans hq
    exact h.settles.tidy_return (w := ⟨x.machine, c.activation⟩) h.handed hin.sound h.inside.activation.prepared
      hx.orderly htidy (fun c' hc' => hmem c' (List.mem_cons_of_mem _ hc'))
      (fun v hv => hx.result v (hv ▸ h.control)) hev
  | ended h =>
    rw [h]
    exact hx

/-- **A whole run stays in order.** -/
theorem Reaches.tidy (hr : x.Reaches Addressable y) (hin : x.Inside) (hx : x.Tidy) : y.Tidy := by
  induction hr with
  | refl => exact hx
  | step hr _ ih => exact ih.step (hr.inside hin).1 hr.holds

end Execution

namespace Machine

variable {m m' : Machine}

theorem Orderly.start (hm : m.Orderly) (hs : m.Sound) {symbol : MethodSymbol} {arguments : List Value}
    (hsymbol : m.metadata.HasMethod symbol) (hargs : ∀ v ∈ arguments, v.Proper m.metadata) :
    (m.start symbol arguments).Tidy :=
  .enter hm hs hsymbol hargs fun c hc => by cases hc

/-- Every host function keeps to the rules. -/
def Lawful (m : Machine) : Prop := ∀ k n, m.native? k = some n → n.Lawful m.metadata

/-- **The machines of a host that keeps to the rules.** It changes the heap by operations of the heap only, has lawful
functions, and calls methods of the tables on arguments that name fields of the tables. -/
inductive Maintained : Machine → Prop where
  | fresh {m : Machine} : m.prepared = [] → m.heap.Built m.metadata → m.Lawful → Maintained m
  | changed {m m' : Machine} : Maintained m → m.SamePrograms m' → m.heap.Becomes m.metadata m'.heap → m'.Lawful →
      Maintained m'
  | defined {m m' : Machine} : Maintained m → m.metadata.Defines m'.metadata → m'.prepared = m.prepared →
      m'.heap = m.heap → m'.Lawful → Maintained m'
  | prepared {m : Machine} {symbol : MethodSymbol} : Maintained m → m.metadata.HasMethod symbol →
      Maintained (m.prepare symbol).2
  | ran {m : Machine} {symbol : MethodSymbol} {arguments : List Value} {x : Execution} : Maintained m →
      m.metadata.HasMethod symbol → (∀ v ∈ arguments, v.Proper m.metadata) →
      (m.start symbol arguments).Reaches Execution.Addressable x → Maintained x.machine

theorem Maintained.reached (h : m.Maintained) : m.Reached := by
  induction h with
  | fresh hp => exact .fresh hp
  | changed _ hsame _ _ ih => exact .changed ih hsame
  | defined _ hdef hp _ _ ih => exact .defined ih hdef hp
  | prepared _ _ ih => exact .prepared _ ih
  | ran _ _ _ hr ih => exact .ran ih (.start _ _) hr

theorem Maintained.orderly (h : m.Maintained) : m.Orderly := by
  induction h with
  | fresh hp hheap hn =>
    refine ⟨hheap.isDefined.wellFormed, hheap.typed, hn, fun k p hk => ?_⟩
    rw [prepared?, hp] at hk
    cases hk
  | @changed m m' _ hsame hheap hn ih =>
    refine ⟨by rw [hsame.metadata]; exact ih.tables, ?_, hn, ?_⟩
    · rw [hsame.metadata]
      exact hheap.typed ih.tables ih.heap
    · intro k p hk
      rw [hsame.prepared?] at hk
      rw [hsame.metadata]
      exact ih.methods k p hk
  | @defined m m' _ hdef hp hheap hn ih =>
    refine ⟨hdef.wellFormed ih.tables, ?_, hn, fun k p hk => ?_⟩
    · rw [hheap]
      exact ih.heap.extends hdef.extends
    · rw [prepared?, hp] at hk
      obtain ⟨hmethod, hhandle⟩ := ih.methods k p hk
      exact ⟨hdef.extends.hasMethod hmethod, hhandle⟩
  | prepared _ hsymbol ih => exact ih.readied (prepare_readied _ _) hsymbol
  | ran hm hsymbol hargs hr ih =>
    have hs := hm.reached.sound
    exact (hr.tidy (Begins.inside (.start _ _) hs) (ih.start hs hsymbol hargs)).orderly

end Machine

end ManagedCode
