import ManagedCode.Proofs.Observers

/-!
# How deep calls nest

Every activation knows its depth, and the machine counts the calls that are nested. `Execution.Nested` ties the two to
the activations that there are: the count grows by one with a call, and falls by one whichever way the call ends. So it
never passes the limit, and is the same after a run as before it. The limit has one effect only: a call that is too deep
gives the run up. A run that is not given up for that reason is the same under every higher limit, step by step.
-/

namespace ManagedCode

/-! ## What stays at its depth -/

/-- The machines have the same settings and are nested equally deep. -/
structure Machine.Placed (m m' : Machine) : Prop where
  depth : m'.depth = m.depth
  settings : m'.settings = m.settings

/-- Nothing was called, and no call has ended. -/
structure Workspace.Placed (w w' : Workspace) : Prop where
  machine : w.machine.Placed w'.machine
  activation : w'.activation.depth = w.activation.depth

namespace Machine

variable {m m' m'' : Machine}

theorem Placed.refl (m : Machine) : m.Placed m := ⟨rfl, rfl⟩

theorem Placed.trans (h : m.Placed m') (h' : m'.Placed m'') : m.Placed m'' :=
  ⟨h'.depth.trans h.depth, h'.settings.trans h.settings⟩

theorem placed_raise (m : Machine) (t : Trap) : m.Placed (m.raise t).2 := by
  cases t <;> exact ⟨rfl, rfl⟩

theorem placed_prepare (m : Machine) (symbol : MethodSymbol) : m.Placed (m.prepare symbol).2 := by
  have hp := prepare_prepares m symbol
  generalize m.prepare symbol = r at hp
  cases hp <;> exact ⟨rfl, rfl⟩

theorem placed_newFrame (m : Machine) (p : Prepared) (arguments : List Value) :
    m.Placed (m.newFrame p arguments).2 := by
  unfold newFrame
  split
  · exact .refl m
  · have hheap : m.Placed (m.onHeap (normalizeAll 0 p.argumentKinds arguments).run).2 := ⟨rfl, rfl⟩
    dsimp only
    split
    · exact hheap.trans (placed_raise _ _)
    · exact ⟨rfl, rfl⟩

theorem placed_callNative (m : Machine) (symbol : MethodSymbol) (arguments : List Value) :
    m.Placed (m.callNative symbol arguments).2 := by
  unfold callNative
  split <;> exact ⟨rfl, rfl⟩

end Machine

theorem Workspace.Placed.trans {w w' w'' : Workspace} (h : w.Placed w') (h' : w'.Placed w'') : w.Placed w'' :=
  ⟨h.machine.trans h'.machine, h'.activation.trans h.activation⟩

theorem ExecM.Composed.placed {α : Type} {x : ExecM α} (h : Composed true x) :
    ∀ w : Workspace, w.Placed (x.run w).2 := by
  induction h with
  | @bind _ _ x f _ _ ihx ihf =>
    intro w
    have hx := ihx w
    rw [Meets.run_bind]
    rcases hr : x.run w with ⟨e | a, w'⟩
    · rw [hr] at hx
      exact hx
    · rw [hr] at hx
      exact hx.trans (ihf a w')
  | activation _ _ ih => exact fun w => ih w.activation w
  | machine _ _ ih => exact fun w => ih w.machine w
  | @modifyActivation g hg =>
    intro w
    refine ⟨.refl _, ?_⟩
    show (g w.activation).depth = w.activation.depth
    rw [hg.same]
  | resolveMethod token =>
    intro w
    rw [resolveMethod_run]
    cases w.machine.metadata.resolveMethod token <;> exact ⟨⟨rfl, rfl⟩, rfl⟩
  | countBackEdge _ pc target =>
    intro w
    rw [countBackEdge_run]
    exact ⟨⟨rfl, rfl⟩, rfl⟩
  | _ => exact fun w => ⟨⟨rfl, rfl⟩, rfl⟩

/-! ## Runs nest one call in the other -/

/-- The activations that wait are nested one in the other, the outermost right above `d`. -/
def Stacked (d : Nat) : List Caller → Prop
  | [] => True
  | c :: rest => c.activation.depth = d + rest.length + 1 ∧ Stacked d rest

namespace Execution

variable {d limit before : Nat} {p : Prepared} {op : Opcode} {callers : List Caller} {w : Workspace} {x y : Execution}
  {P : Execution → Prop}

/-- **How many calls are nested**: the activations that wait, and the one that runs. -/
def nesting (x : Execution) : Nat :=
  match x.control with
  | .running _ => x.callers.length + 1
  | .ending _ => x.callers.length

/-- **The calls of a run that began at depth `d`** are counted, and not more than the limit. -/
structure Nested (d limit : Nat) (x : Execution) : Prop where
  settings : x.machine.settings.maxCallDepth = limit
  depth : x.machine.depth = d + x.nesting
  bounded : x.nesting ≤ limit - d
  running : ∀ a, x.control = .running a → a.depth = d + x.callers.length + 1
  waiting : Stacked d x.callers

/-- The activation of a workspace is the innermost one, above `callers`. -/
structure Innermost (d limit : Nat) (callers : List Caller) (w : Workspace) : Prop where
  settings : w.machine.settings.maxCallDepth = limit
  machine : w.machine.depth = d + callers.length + 1
  activation : w.activation.depth = d + callers.length + 1
  bounded : callers.length + 1 ≤ limit - d
  waiting : Stacked d callers

theorem Innermost.placed {w' : Workspace} (h : Innermost d limit callers w) (hw : w.Placed w') :
    Innermost d limit callers w' where
  settings := by rw [hw.machine.settings, h.settings]
  machine := by rw [hw.machine.depth, h.machine]
  activation := by rw [hw.activation, h.activation]
  bounded := h.bounded
  waiting := h.waiting

theorem Innermost.goes_on (h : Innermost d limit callers w) :
    Nested d limit ⟨w.machine, .running w.activation, callers⟩ where
  settings := h.settings
  depth := h.machine
  bounded := h.bounded
  running := by
    intro a ha
    cases ha
    exact h.activation
  waiting := h.waiting

theorem Innermost.finish (h : Innermost d limit callers w) (o : Outcome) : (finish w callers o).Nested d limit where
  settings := h.settings
  depth := by
    show w.activation.depth - 1 = d + callers.length
    rw [h.activation]
    rfl
  bounded := Nat.le_of_succ_le h.bounded
  running := by
    intro a ha
    cases ha
  waiting := h.waiting

theorem Innermost.raised (h : Innermost d limit callers w) (t : Trap) (o : Outcome) :
    (Execution.finish { w with machine := (w.machine.raise t).2 } callers o).Nested d limit := by
  have hplaced : w.Placed { w with machine := (w.machine.raise t).2 } := ⟨w.machine.placed_raise t, rfl⟩
  exact (h.placed hplaced).finish o

theorem Innermost.traced (h : Innermost d limit callers w) (f : Trace → Nat → Trace) :
    Innermost d limit callers (traced w f) := h.placed ⟨⟨rfl, rfl⟩, rfl⟩

theorem placed_announced (w : Workspace) (op : Opcode) : w.Placed (announced w op) := by
  unfold announced
  split <;> exact ⟨⟨rfl, rfl⟩, rfl⟩

end Execution

/-- **A call is counted while it lasts.** -/
theorem Machine.enter_nested {d limit : Nat} {m : Machine} {callers : List Caller}
    (hlimit : m.settings.maxCallDepth = limit) (hdepth : m.depth = d + callers.length)
    (hbounded : callers.length ≤ limit - d) (hwaiting : Stacked d callers) (symbol : MethodSymbol)
    (arguments : List Value) :
    Execution.Nested d limit ⟨(m.enter symbol arguments).2, (m.enter symbol arguments).1, callers⟩ := by
  have left : ∀ {m' : Machine} (o : Outcome), ({ m with depth := m.depth + 1 } : Machine).Placed m' →
      Execution.Nested d limit ⟨(m'.leaveCall o).2, (m'.leaveCall o).1, callers⟩ := by
    intro m' o h
    refine ⟨?_, ?_, hbounded, (fun a ha => by cases ha), hwaiting⟩
    · show m'.settings.maxCallDepth = limit
      rw [h.settings, hlimit]
    · show m'.depth - 1 = d + callers.length
      rw [h.depth, ← hdepth]
      rfl
  unfold enter deeper
  split
  · exact ⟨hlimit, hdepth, hbounded, (fun a ha => by cases ha), hwaiting⟩
  · rename_i hroom
    split
    · split
      · exact left _ (.refl _)
      · exact left _ (placed_callNative _ symbol arguments)
    · have hp := placed_prepare { m with depth := m.depth + 1 } symbol
      dsimp only
      split
      · rename_i hr
        rw [hr] at hp
        exact left _ hp
      · rename_i p m₁ hr
        rw [hr] at hp
        have hf := hp.trans (placed_newFrame m₁ p arguments)
        split
        · rename_i hn
          rw [hn] at hf
          exact left _ hf
        · rename_i frame m₂ hn
          rw [hn] at hf
          have hm₂ : m₂.depth = d + callers.length + 1 := by rw [hf.depth, ← hdepth]
          refine ⟨?_, hm₂, ?_, ?_, hwaiting⟩
          · show m₂.settings.maxCallDepth = limit
            rw [hf.settings, hlimit]
          · show callers.length + 1 ≤ limit - d
            omega
          · intro a ha
            cases ha
            exact hm₂

namespace Execution

variable {d limit before : Nat} {p : Prepared} {op : Opcode} {callers : List Caller} {w : Workspace} {x y : Execution}
  {P : Execution → Prop}

theorem Innermost.proceed (h : Innermost d limit callers w) {z : ExecM Unit} (hz : ExecM.Composed true z) :
    (proceed z w callers).Nested d limit := by
  have hplaced := hz.placed w
  unfold Execution.proceed
  rcases hr : z.run w with ⟨t | _, v⟩
  · rw [hr] at hplaced
    exact (h.placed hplaced).raised t _
  · rw [hr] at hplaced
    exact (h.placed hplaced).goes_on

theorem Innermost.throwIn (h : Innermost d limit callers w) (p : Prepared) (e : GuestException) :
    (throwIn p e w callers).Nested d limit := by
  have hplaced := (ExecM.Composed.dispatch p e).placed w
  unfold Execution.throwIn
  rcases hr : (ExecM.dispatch p e).run w with ⟨t | r, v⟩
  · rw [hr] at hplaced
    exact (h.placed hplaced).raised t _
  · rw [hr] at hplaced
    cases r with
    | none => exact (h.placed hplaced).goes_on
    | some e' => exact (h.placed hplaced).finish _

theorem Innermost.settle {r : Except Trap Next × Workspace} (h : Innermost d limit callers r.2) :
    (settle p op before callers r).Nested d limit := by
  obtain ⟨r, w⟩ := r
  dsimp only at h
  cases r with
  | ok n =>
    cases n with
    | advance => exact h.proceed (.advance p op before)
    | jump target => exact h.proceed (.jumpTo p op before target)
    | ret value => exact (h.traced _).finish _
    | propagate e => exact (h.traced _).finish _
    | invoke target arguments c =>
      have hwaiting : Stacked d (⟨w.activation, c⟩ :: callers) := ⟨h.activation, h.waiting⟩
      exact Machine.enter_nested h.settings h.machine h.bounded hwaiting target arguments
  | error t =>
    cases t with
    | abort a =>
      cases a with
      | error e => exact (h.traced _).finish _
      | endless | crash => exact h.finish _
    | thrown e => exact h.throwIn p e
    | fault k message =>
      have hplaced : w.Placed { w with machine := (w.machine.faultException k message).2 } := ⟨⟨rfl, rfl⟩, rfl⟩
      exact (h.placed hplaced).throwIn p _

/-- The activation that runs, or takes the end of a call, is the innermost one. -/
theorem Nested.innermost (h : x.Nested d limit) : (∀ a, x.control = .running a →
      Innermost d limit x.callers ⟨x.machine, a⟩) ∧
    ∀ o c rest, x.control = .ending o → x.callers = c :: rest → Innermost d limit rest ⟨x.machine, c.activation⟩ := by
  obtain ⟨m, control, callers⟩ := x
  obtain ⟨hsettings, hdepth, hbounded, hrunning, hwaiting⟩ := h
  constructor
  · rintro a rfl
    exact ⟨hsettings, hdepth, hrunning a rfl, hbounded, hwaiting⟩
  · rintro o c rest rfl rfl
    exact ⟨hsettings, hdepth, hwaiting.1, hbounded, hwaiting.2⟩

/-- **A step keeps the count of calls right.** -/
theorem Nested.step (h : x.Nested d limit) : x.step.Nested d limit := by
  obtain ⟨hrunning, hending⟩ := h.innermost
  cases hc : x.control with
  | running a =>
    have ha := hrunning a hc
    rw [Execution.step, hc]
    show (stepInstruction ⟨x.machine, a⟩ x.callers).Nested d limit
    unfold stepInstruction
    split
    · exact ha.finish _
    · rename_i p op _
      have hinstruction := (ExecM.Composed.instruction p a.pc op fun _ => rfl).placed (announced ⟨x.machine, a⟩ op)
      exact ((ha.placed (placed_announced _ op)).placed hinstruction).settle
  | ending o =>
    cases hcallers : x.callers with
    | nil =>
      rw [Execution.step, hc, hcallers]
      exact h
    | cons c rest =>
      have ha := hending o c rest hc hcallers
      rw [Execution.step, hc, hcallers]
      show (stepReturn ⟨x.machine, c.activation⟩ c.continuation o rest).Nested d limit
      unfold stepReturn
      split
      · split <;> exact ha.finish _
      · dsimp only
        split
        · exact (ha.placed ((ExecM.Composed.continueWith c.continuation _).placed _)).settle
        · exact ha.settle (r := (_, _))
        · exact ha.settle (r := (_, _))

theorem Reaches.nested (h : x.Reaches P y) (hx : x.Nested d limit) : y.Nested d limit := by
  induction h with
  | refl => exact hx
  | step _ _ ih => exact ih.step

/-- **A run ends at the depth where it began.** -/
theorem Nested.depth_of_run {o : Outcome} {m : Machine} : ∀ {fuel : Nat} {x : Execution}, x.Nested d limit →
    x.run fuel = some (o, m) → m.depth = d
  | 0, _, _, h => by cases h
  | fuel + 1, x, hx, h => by
    rw [run] at h
    cases ho : x.outcome? with
    | none =>
      rw [ho] at h
      exact depth_of_run hx.step h
    | some o' =>
      rw [ho] at h
      cases h
      unfold outcome? at ho
      split at ho
      · rename_i hcontrol hcallers
        rw [hx.depth, nesting, hcontrol, hcallers]
        rfl
      · cases ho

/-- A call that the next step asks for finds the count of calls as the run has it. -/
theorem Nested.asked (h : x.Nested d limit) {a : Activation} {r : Except Trap Next × Workspace}
    (he : x.Executes a p op r) : r.2.machine.depth = d + x.nesting ∧ r.2.machine.settings.maxCallDepth = limit := by
  have ha := h.innermost.1 a he.control
  have hplaced := (ExecM.Composed.instruction p a.pc op fun _ => rfl).placed (announced ⟨x.machine, a⟩ op)
  rw [he.result] at hplaced
  have hr := (ha.placed (placed_announced _ op)).placed hplaced
  have hnesting : x.nesting = x.callers.length + 1 := by rw [nesting, he.control]
  exact ⟨by rw [hr.machine, hnesting]; rfl, hr.settings⟩

end Execution

/-! ## Limits -/

/-- The outcome of a run that was given up because calls nested too deep. -/
abbrev tooDeep (limit : Nat) : Outcome := .error (.abort (.error (.stackOverflow limit)))

/-- Backdrops that are the same but for the limit. -/
def Tie.lifted (low high : Nat) (h : low ≤ high) : Tie where
  low
  high
  ordered := h
  backdrops b b' := b.settings.maxCallDepth = low ∧
    b' = { b with settings := { b.settings with maxCallDepth := high } }
  counts n n' := n' = n
  limits := by
    rintro b _ ⟨hlow, rfl⟩
    exact ⟨hlow, rfl⟩
  traced := by
    rintro b _ f ⟨hlow, rfl⟩
    exact ⟨hlow, rfl⟩
  announced := by
    rintro b _ f ⟨hlow, rfl⟩
    unfold Backdrop.announced
    split
    · exact ⟨hlow, rfl⟩
    · exact ⟨hlow, rfl⟩
  polled := by
    rintro b _ n _ f ⟨hlow, rfl⟩ rfl
    exact ⟨⟨hlow, rfl⟩, rfl⟩
  fresh := rfl

namespace Machine

variable {m : Machine} {limit : Nat} {symbol : MethodSymbol} {arguments : List Value}

/-- The machine with another limit on the depth of calls. -/
def withLimit (m : Machine) (limit : Nat) : Machine :=
  { m with settings := { m.settings with maxCallDepth := limit } }

theorem Akin.withLimit {low high : Nat} {h : low ≤ high} {m m' : Machine} (hm : m.Akin (.lifted low high h) m') :
    m' = m.withLimit high := by
  obtain ⟨b, ⟨-, rfl⟩, rfl⟩ := hm
  rfl

/-- **A higher limit does not change a run** that is not given up because of the lower one. -/
theorem execute_withLimit (hle : m.settings.maxCallDepth ≤ limit)
    (hdeep : ∀ fuel m', m.execute fuel symbol arguments ≠ some (tooDeep m.settings.maxCallDepth, m')) (fuel : Nat) :
    (m.withLimit limit).execute fuel symbol arguments =
      (m.execute fuel symbol arguments).map fun (o, m') => (o, m'.withLimit limit) := by
  have hm : m.Akin (.lifted m.settings.maxCallDepth limit hle) (m.withLimit limit) :=
    ⟨(m.withLimit limit).backdrop, ⟨rfl, rfl⟩, rfl⟩
  have notDeep : ∀ m', ¬ (m.start symbol arguments).EndsIn (tooDeep m.settings.maxCallDepth, m') := by
    rintro m' ⟨fuel, h⟩
    exact hdeep fuel m' h
  have hends : Execution.EndsAkin (.lifted m.settings.maxCallDepth limit hle) (m.execute fuel symbol arguments)
      ((m.withLimit limit).execute fuel symbol arguments) := by
    rcases hm.start symbol arguments with hstart | ⟨-, hparts⟩
    · rcases Execution.run_akin fuel hstart with h | ⟨-, m', h⟩
      · exact h
      · exact absurd h (notDeep m')
    · obtain ⟨m', -, h⟩ := Execution.GivenUp.endsIn (x := m.start symbol arguments) hparts
      exact absurd h (notDeep m')
  generalize m.execute fuel symbol arguments = r at hends ⊢
  generalize (m.withLimit limit).execute fuel symbol arguments = r' at hends ⊢
  cases hends with
  | ended h => exact congrArg some (Prod.ext rfl h.withLimit)
  | unfinished => rfl

theorem start_nested (m : Machine) (symbol : MethodSymbol) (arguments : List Value) :
    (m.start symbol arguments).Nested m.depth m.settings.maxCallDepth := by
  have hnone : Stacked m.depth [] := trivial
  exact enter_nested rfl rfl (Nat.zero_le _) hnone symbol arguments

theorem enter_tooDeep (h : m.settings.maxCallDepth ≤ m.depth) (symbol : MethodSymbol) (arguments : List Value) :
    m.enter symbol arguments = (.ending (tooDeep m.settings.maxCallDepth), m) := by
  rw [enter, deeper, if_pos (Nat.lt_succ_of_le h)]

/-- **The depth limit only ever turns a run into a stack overflow.** While a method runs, the machine counts the calls
that are nested, and they are not more than the limit leaves room for. One call more, of a method or of a function of
the host, finds room, or is refused and leaves the machine as it is; so does the first call. However the run ends, the
count is what it was before. And a run that does not end in the overflow of its limit has the same outcome and the same
effects under every higher limit. -/
theorem depth_limit_only_overflows (m : Machine) (symbol : MethodSymbol) (arguments : List Value) :
    (∀ P x, (m.start symbol arguments).Reaches P x →
      x.machine.depth = m.depth + x.nesting ∧ x.nesting ≤ m.settings.maxCallDepth - m.depth ∧
      ∀ a p op target values c w, x.Executes a p op (.ok (.invoke target values c), w) →
        x.nesting + 1 ≤ m.settings.maxCallDepth - m.depth ∨
          w.machine.enter target values = (.ending (tooDeep m.settings.maxCallDepth), w.machine)) ∧
    (1 ≤ m.settings.maxCallDepth - m.depth ∨
      m.enter symbol arguments = (.ending (tooDeep m.settings.maxCallDepth), m)) ∧
    (∀ fuel o m', m.execute fuel symbol arguments = some (o, m') → m'.depth = m.depth) ∧
    ∀ limit ≥ m.settings.maxCallDepth,
      (∀ fuel m', m.execute fuel symbol arguments ≠ some (tooDeep m.settings.maxCallDepth, m')) →
      ∀ fuel, (m.withLimit limit).execute fuel symbol arguments =
        (m.execute fuel symbol arguments).map fun (o, m') => (o, m'.withLimit limit) := by
  refine ⟨fun P x hx => ?_, ?_, fun fuel o m' h => ?_, fun limit hle hdeep fuel => execute_withLimit hle hdeep fuel⟩
  · have hn := hx.nested (m.start_nested symbol arguments)
    refine ⟨hn.depth, hn.bounded, fun a p op target values c w he => ?_⟩
    obtain ⟨hdepth, hlimit⟩ := hn.asked he
    dsimp only at hdepth hlimit
    by_cases hroom : x.nesting + 1 ≤ m.settings.maxCallDepth - m.depth
    · exact .inl hroom
    · rw [← hlimit]
      exact .inr (enter_tooDeep (by omega) target values)
  · by_cases hroom : 1 ≤ m.settings.maxCallDepth - m.depth
    · exact .inl hroom
    · exact .inr (enter_tooDeep (by omega) symbol arguments)
  · exact (m.start_nested symbol arguments).depth_of_run h

/-- A machine on the core tables with room for two calls. -/
def shallow : Machine := .make .core none { maxCallDepth := 2 } {}

/-- The run of `throwsObject` starts with the call of a constructor, which is a function of the host. -/
theorem shallow_calls : ∃ a p op target values c w,
    (shallow.start throwsObject []).Executes a p op (.ok (.invoke target values c), w) := by
  have h : (shallow.start throwsObject []).running?.bind (fun a =>
      ((shallow.start throwsObject []).machine.prepared? a.method).map fun p => (p.code.opcodeAt a.pc,
        ((ExecM.instruction p a.pc .newobj).run
          (Execution.announced ⟨(shallow.start throwsObject []).machine, a⟩ .newobj)).1.toOption.any Next.isCall)) =
      some (.ok .newobj, true) := by decide +kernel
  obtain ⟨a, ha, h⟩ := Option.bind_eq_some_iff.1 h
  obtain ⟨p, hp, h⟩ := Option.map_eq_some_iff.1 h
  obtain ⟨hop, hcall⟩ := Prod.mk.inj h
  generalize hr : (ExecM.instruction p a.pc .newobj).run _ = r at hcall
  obtain ⟨t | n, w⟩ := r
  · cases hcall
  · cases n with
    | invoke target values c =>
      exact ⟨a, p, .newobj, target, values, c, w, Execution.running?_eq_some.1 ha, hp, hop, hr⟩
    | _ => cases hcall

theorem shallow_ends : ∃ o m', shallow.execute 9 throwsObject [] = some (o, m') ∧ o ≠ tooDeep 2 := by
  have h : (shallow.execute 9 throwsObject []).map (·.1.isOk) = some true := by decide +kernel
  obtain ⟨⟨o, m'⟩, hr, hok⟩ := Option.map_eq_some_iff.1 h
  cases o with
  | ok v => exact ⟨.ok v, m', hr, fun ho => by cases ho⟩
  | error f => cases hok

/-- `throwsObject` calls one function of the host. With room for two calls it ends at the depth where it began, and as
it does with room for more. -/
theorem throwsObject_nests_two : (shallow.start throwsObject []).nesting ≤ 2 ∧
    (∃ a p op target values c w,
      (shallow.start throwsObject []).Executes a p op (.ok (.invoke target values c), w) ∧
      ((shallow.start throwsObject []).nesting + 1 ≤ 2 ∨
        w.machine.enter target values = (.ending (tooDeep 2), w.machine))) ∧
    (∃ o m', shallow.execute 9 throwsObject [] = some (o, m') ∧ m'.depth = 0) ∧
    ∀ fuel, (shallow.withLimit 5).execute fuel throwsObject [] =
      (shallow.execute fuel throwsObject []).map fun (o, m') => (o, m'.withLimit 5) := by
  obtain ⟨hrun, -, hdepth, hlimits⟩ := shallow.depth_limit_only_overflows throwsObject []
  obtain ⟨-, hle, hroom⟩ := hrun (fun _ => True) (shallow.start throwsObject []) (.refl trivial)
  obtain ⟨a, p, op, target, values, c, w, he⟩ := shallow_calls
  obtain ⟨o, m', hends, hdeep⟩ := shallow_ends
  refine ⟨hle, ⟨a, p, op, target, values, c, w, he, hroom a p op target values c w he⟩,
    ⟨o, m', hends, hdepth 9 o m' hends⟩, hlimits 5 (by decide) ?_⟩
  intro fuel m'' hfuel
  have hsame := Execution.EndsIn.unique (x := shallow.start throwsObject []) ⟨9, hends⟩ ⟨fuel, hfuel⟩
  exact hdeep (congrArg Prod.fst hsame)

end Machine

end ManagedCode
