import ManagedCode.Proofs.Inside

/-!
# The analysis and the machine agree on the height of the stack

The analysis visits an offset once, with the stack of whichever path came first. If some assignment of heights agrees
with every edge (`Analysis.Leveled`), then the height that it noted for an offset is the assigned one, and so is the
height of the stack whenever an activation comes there: along an edge the machine moves the top as the table says, or
as the signatures of the called methods say, and handlers are entered with their exception or with nothing.

`Execution.Level` is the invariant of a run. An activation that waits is lower by what its call has popped.
-/

namespace ManagedCode

/-- How a call by a signature changes the height of the stack. -/
def Signature.change (s : Signature) : Int := (if s.result.isSome then 1 else 0) - s.arity

namespace Analysis

variable {cx : Context} {a : MethodAnalysis} {D : Nat → Nat} {pc next : Nat} {op : Opcode} {st st' : List StackType}

/-- **How the instruction `op` at `pc` changes the height of the stack**: by its row of the table, or by the signature
of what it calls. -/
def Context.change? (cx : Context) (pc : Nat) (op : Opcode) : Option Int :=
  match op.effect.delta?, op.action with
  | some d, _ => some d
  | none, .callSite .newobj => callee.map fun m => 1 - m.signature.parameters.length
  | none, .callSite .call | none, .callSite .callvirt => callee.map fun m => m.signature.change
  | none, .callIndirect => token.bind fun t => (cx.metadata.resolveSignature t).toOption.map fun s => s.change - 1
  | none, _ => none
where
  token : Option Token := (cx.code.token pc).toOption
  callee : Option MethodSymbol := token.bind fun t => (cx.metadata.resolveMethod t).toOption

/-- **The height of the stack does not depend on the path**: `D` is `0` at the start, `1` where a handler takes an
exception and `0` where one does not, `0` where a leave or a throw leads, and along every other edge it changes as the
instruction says. -/
structure Leveled (cx : Context) (a : MethodAnalysis) (D : Nat → Nat) : Prop where
  entry : ∀ e ∈ entries cx.regions, D e.1 = e.2.length
  emptied : ∀ pc stack, Flows cx a pc stack → ∀ v : Visit cx a pc stack, ∀ s ∈ v.successors, s.empties = true →
    D s.offset = 0
  edge : ∀ pc stack, Flows cx a pc stack → ∀ v : Visit cx a pc stack, ∀ s ∈ v.successors, s.empties = false →
    ∀ d, cx.change? pc v.op = some d → (D s.offset : Int) = D pc + d

open TypeM

/-! ## What a visit does to the height -/

theorem Context.call_length {max : Nat} {s : Signature} {e : Effect}
    (h : (Context.act.call pc (TypeM.push max pc) s).run st = .ok (e, st')) :
    e = {} ∧ (st'.length : Int) = st.length + s.change := by
  unfold Context.act.call at h
  obtain ⟨_, st₁, hp, hrest⟩ := bind_ok h
  obtain ⟨ts, hlen, rfl⟩ := popMany_ok hp
  unfold Signature.change
  cases hr : s.result with
  | none =>
    simp only [hr] at hrest
    cases hrest
    refine ⟨rfl, ?_⟩
    simp only [List.length_append, hlen, Option.isSome_none, Bool.false_eq_true, if_false]
    omega
  | some k =>
    simp only [hr] at hrest
    obtain ⟨_, st₂, hpush, hlast⟩ := bind_ok hrest
    obtain ⟨-, rfl⟩ := push_ok hpush
    cases hlast
    refine ⟨rfl, ?_⟩
    simp only [List.length_append, List.length_cons, hlen, Option.isSome_some, if_true]
    omega

theorem Context.callee_eq {t : Token} {m : MethodSymbol} (ht : cx.code.token pc = .ok t)
    (hm : cx.metadata.resolveMethod t = .ok m) : Context.change?.callee cx pc = some m := by
  simp only [Context.change?.callee, Context.change?.token, ht, Except.toOption, Option.bind_some, hm]

/-- Without a fixed effect, an instruction hands on the empty stack, or it is a call. -/
theorem Context.act_varying {e : Effect} (h : (cx.act pc op next).run st = .ok (e, st'))
    (hv : op.effect.delta? = none) : (op.endsBlock = true ∧ ∀ s ∈ e.jumps, s.empties = true) ∨
    (e.jumps = [] ∧ ∃ d, cx.change? pc op = some d ∧ (st'.length : Int) = st.length + d) := by
  have called : ∀ {push : StackType → TypeM Unit}, push = TypeM.push cx.maxStack pc →
      (do let m ← cx.operandMethod pc
          act.call pc push m.signature : TypeM Effect).run st = .ok (e, st') →
      e.jumps = [] ∧ ∃ m, change?.callee cx pc = some m ∧ (st'.length : Int) = st.length + m.signature.change := by
    rintro _ rfl h
    obtain ⟨m, st₁, hm, hcall⟩ := bind_ok h
    obtain ⟨t, ht, hr, rfl⟩ := operandMethod_ok hm
    obtain ⟨rfl, hlen⟩ := call_length hcall
    exact ⟨rfl, m, callee_eq ht hr, hlen⟩
  have stops : ∀ {d : Defect} {st : List StackType},
      (do let s ← get
          if !s.isEmpty then TypeM.fail pc d
          return {} : TypeM Effect).run st = .ok (e, st') → ∀ s ∈ e.jumps, s.empties = true := by
    intro d st h s hs
    obtain ⟨_, st₁, -, h⟩ := bind_ok h
    split at h
    · cases h
    · cases h; cases hs
  have leaves : (do set ([] : List StackType)
                    let target ← TypeM.liftCode (cx.code.branchTarget pc)
                    return ({ jumps := [⟨target, true⟩] } : Effect) : TypeM Effect).run st = .ok (e, st') →
      ∀ s ∈ e.jumps, s.empties = true := by
    intro h s hs
    obtain ⟨_, st₁, -, h⟩ := bind_ok h
    obtain ⟨target, st₂, -, h⟩ := bind_ok h
    cases h
    rw [List.mem_singleton.1 hs]
  unfold act at h
  cases op with
  | jmp => exact .inl ⟨rfl, stops h⟩
  | ret =>
    simp only [Opcode.action] at h
    split at h
    · obtain ⟨_, st₁, -, h⟩ := bind_ok h
      exact .inl ⟨rfl, stops h⟩
    · exact .inl ⟨rfl, stops h⟩
  | leave => exact .inl ⟨rfl, leaves h⟩
  | leaveS => exact .inl ⟨rfl, leaves h⟩
  | endfinally =>
    obtain ⟨_, st₁, -, h⟩ := bind_ok h
    cases h
    exact .inl ⟨rfl, fun s hs => by cases hs⟩
  | call =>
    obtain ⟨hj, m, hm, hlen⟩ := called rfl h
    refine .inr ⟨hj, m.signature.change, ?_, hlen⟩
    show (change?.callee cx pc).map _ = _
    rw [hm]
    rfl
  | callvirt =>
    obtain ⟨hj, m, hm, hlen⟩ := called rfl h
    refine .inr ⟨hj, m.signature.change, ?_, hlen⟩
    show (change?.callee cx pc).map _ = _
    rw [hm]
    rfl
  | newobj =>
    obtain ⟨m, st₁, hm, hrest⟩ := bind_ok h
    obtain ⟨t, ht, hr, rfl⟩ := operandMethod_ok hm
    obtain ⟨_, st₂, hp, hlast⟩ := bind_ok hrest
    obtain ⟨ts, hlen, rfl⟩ := popMany_ok hp
    obtain ⟨_, st₃, hpush, hlast⟩ := bind_ok hlast
    obtain ⟨-, rfl⟩ := push_ok hpush
    cases hlast
    refine .inr ⟨rfl, 1 - m.signature.parameters.length, ?_, ?_⟩
    · show (change?.callee cx pc).map _ = _
      rw [callee_eq ht hr]
      rfl
    · simp only [List.length_append, List.length_cons, hlen]
      omega
  | calli =>
    obtain ⟨t, st₁, ht, hrest⟩ := bind_ok h
    obtain ⟨htoken, rfl⟩ := liftCode_ok ht
    obtain ⟨s, st₂, hs, hrest⟩ := bind_ok hrest
    obtain ⟨hsig, rfl⟩ := liftResolution_ok hs
    obtain ⟨_, st₃, hp, hcall⟩ := bind_ok hrest
    obtain ⟨rfl, hlen⟩ := call_length hcall
    have hpop := pop_ok hp
    refine .inr ⟨rfl, s.change - 1, ?_, ?_⟩
    · show (change?.token cx pc).bind _ = _
      rw [change?.token, htoken]
      show (cx.metadata.resolveSignature t).toOption.map _ = _
      rw [hsig]
      rfl
    · rw [hpop, List.length_cons]
      omega
  | cachedCall => cases h
  | _ => cases hv

/-- **The visit of an offset changes the height as the instruction says**, wherever its stack is handed on. -/
theorem Visit.length_after {stack : List StackType} (v : Visit cx a pc stack) {s : Successor} (hs : s ∈ v.successors)
    (he : s.empties = false) :
    ∃ d, cx.change? pc v.op = some d ∧ (v.after.length : Int) = stack.length + d := by
  cases hd : v.op.effect.delta? with
  | some d =>
    have hc := v.effect
    simp only [checkEffect, hd] at hc
    refine ⟨d, by simp only [Context.change?, hd], ?_⟩
    split at hc
    · assumption
    · cases hc
  | none =>
    obtain ⟨next, e, -, hact, -, hends, hfalls⟩ := Context.transfer_ok v.transfer
    rcases Context.act_varying hact hd with ⟨hb, hj⟩ | ⟨-, d, hd, hlen⟩
    · rw [hends hb] at hs
      rw [hj s hs] at he
      cases he
    · exact ⟨d, hd, hlen⟩

/-- **Every stack that flows to an offset has the assigned height.** -/
theorem Leveled.length_eq (h : Leveled cx a D) {stack : List StackType} (hf : Flows cx a pc stack) :
    stack.length = D pc := by
  induction hf with
  | entry hm => exact (h.entry _ hm).symm
  | @edge pc stack next hf v hn ih =>
    cases he : next.empties with
    | true =>
      rw [h.emptied _ _ hf v next hn he]
      rfl
    | false =>
      obtain ⟨d, hd, hlen⟩ := v.length_after hn he
      have := h.edge _ _ hf v next hn he d hd
      simp only [Bool.false_eq_true, if_false]
      omega

/-- Heights that every flowing stack has are the same on every path. -/
theorem Leveled.of_flows (h : ∀ pc stack, Flows cx a pc stack → stack.length = D pc) : Leveled cx a D where
  entry := fun e he => (h e.1 e.2 (.entry he)).symm
  emptied := by
    intro pc stack hf v s hs he
    have hnext := h _ _ (hf.edge v hs)
    rw [he] at hnext
    exact hnext.symm
  edge := by
    intro pc stack hf v s hs he d hd
    have hpc := h _ _ hf
    have hnext := h _ _ (hf.edge v hs)
    obtain ⟨d', hd', hlen⟩ := v.length_after hs he
    cases hd.symm.trans hd'
    simp only [he, Bool.false_eq_true, if_false] at hnext
    omega

theorem Leveled.depth?_eq (h : Leveled cx a D) (ha : Accepted cx a) (hr : a.isReachable pc = true) :
    a.depth? pc = some (D pc) := by
  obtain ⟨stack, hf, v, -⟩ := ha.visited pc hr
  rw [v.depth, h.length_eq hf]

end Analysis

/-! ## Heights of call sites -/

namespace CallSite

/-- How many values the end of a call pushes, if it is the end of the method that the site names. -/
def pushes : CallSite → Nat
  | call m | callvirt m => if m.signature.result.isSome then 1 else 0
  | newobj _ _ => 1
  | jmp _ => 0

end CallSite

namespace Opcode

theorem effect_callSite (op : Opcode) {k : CallKind} (h : op.action = .callSite k) : op.effect = .varying := by
  cases op <;> first | rfl | cases h

theorem effect_plain (op : Opcode) (ht : op.action.isTransfer = false) (hi : op.action ≠ .callIndirect) :
    ∃ pops pushes, op.effect = .fixed pops pushes := by
  cases op <;> first | exact ⟨_, _, rfl⟩ | exact absurd rfl hi | cases ht

end Opcode

namespace Prepared

variable {md : Metadata} {p p' : Prepared} {D : Nat → Nat} {pc q next : Nat} {op : Opcode}

/-- The height of the stack of a method does not depend on the path. -/
def Leveled (md : Metadata) (p : Prepared) (D : Nat → Nat) : Prop := Analysis.Leveled (p.context md) p.analysis D

theorem Evolves.leveled (h : p.Evolves p') (hl : p'.Leveled md D) : p.Leveled md D := by
  unfold Leveled
  rw [← h.context, ← h.analysis]
  exact hl

theorem HasSite.change {site : CallSite} (h : p.HasSite md pc site) (hk : site.kind ≠ .jmp) :
    ∃ op, p.declared.opcodeAt pc = .ok op ∧
      (p.context md).change? pc op = some ((site.pushes : Int) - site.pops) := by
  obtain ⟨op, hop, hact⟩ := h.opcode
  obtain ⟨t, ht, hn⟩ := h.names
  obtain ⟨b, hm⟩ := hn.method
  refine ⟨op, hop, ?_⟩
  have hcallee : Analysis.Context.change?.callee (p.context md) pc = some { site.method with body := b } :=
    Analysis.Context.callee_eq ht hm
  have hvarying : op.effect.delta? = none := by rw [op.effect_callSite hact]; rfl
  unfold Analysis.Context.change?
  rw [hvarying, hact]
  cases site with
  | jmp m => exact absurd rfl hk
  | newobj m type =>
    show (Analysis.Context.change?.callee _ _).map _ = _
    rw [hcallee]
    rfl
  | call m =>
    show (Analysis.Context.change?.callee _ _).map _ = _
    rw [hcallee]
    show some m.signature.change = _
    rw [Signature.change, CallSite.pushes, CallSite.pops]
    cases m.signature.result.isSome <;> rfl
  | callvirt m =>
    show (Analysis.Context.change?.callee _ _).map _ = _
    rw [hcallee]
    show some m.signature.change = _
    rw [Signature.change, CallSite.pushes, CallSite.pops]
    cases m.signature.result.isSome <;> rfl

namespace Leveled

theorem start (h : p.Leveled md D) : D 0 = 0 := h.entry (0, []) List.mem_cons_self

/-- A handler is entered with its exception, and the target of a leave with nothing. -/
theorem landed {catches : Bool} (h : p.Leveled md D) (hl : p.Lands md q catches) : D q = if catches then 1 else 0 := by
  rcases hl.place with hm | ⟨rfl, source, he⟩
  · rw [h.entry _ hm]
    cases catches <;> rfl
  · obtain ⟨stack, hf, v, hv⟩ := he.visit
    exact h.emptied _ _ hf v _ hv rfl

theorem along (h : p.Leveled md D) (he : p.Edge md pc ⟨q, false⟩) (hop : p.declared.opcodeAt pc = .ok op) {d : Int}
    (hd : (p.context md).change? pc op = some d) : (D q : Int) = D pc + d := by
  obtain ⟨stack, hf, v, hv⟩ := he.visit
  have hvop : v.op = op := Except.ok.inj (v.opcode.symm.trans hop)
  exact h.edge _ _ hf v _ hv rfl d (hvop ▸ hd)

end Leveled

end Prepared

/-! ## The invariant of a run -/

/-- The activation, if it is one of the method `h`, has the height that `D` assigns to its offset. -/
def Activation.Level (m : Machine) (h : MethodHandle) (D : Nat → Nat) (a : Activation) : Prop :=
  ∃ p, m.prepared? a.method = some p ∧ (a.method = h → a.top = p.layout.stackBase + D a.pc)

/-- The activation that waits, if it is one of the method `h`, is lower by what its call has popped. -/
def Caller.Level (m : Machine) (h : MethodHandle) (D : Nat → Nat) (c : Caller) : Prop :=
  ∃ p site target, m.prepared? c.activation.method = some p ∧ p.HasSite m.metadata c.activation.pc site ∧
    site.Enters target c.continuation ∧
    (c.activation.method = h → c.activation.top + site.pops = p.layout.stackBase + D c.activation.pc)

/-- **Every activation of the method `h` has the height that `D` assigns.** -/
structure Execution.Level (h : MethodHandle) (D : Nat → Nat) (x : Execution) : Prop where
  running : ∀ a, x.control = .running a → a.Level x.machine h D
  waiting : ∀ c ∈ x.callers, c.Level x.machine h D

/-- Where a virtual call entered another method than the one it names, that method has a result exactly when the named
one has. -/
def Caller.KeepsResult (m : Machine) (c : Caller) : Prop :=
  ∀ p declared target, m.prepared? c.activation.method = some p →
    p.HasSite m.metadata c.activation.pc (.callvirt declared) → c.continuation = .pushResult target →
    target.signature.result.isSome = declared.signature.result.isSome

/-- **Every override that was entered by a virtual call has a result exactly when the declared method has.** -/
def Execution.KeepsResults (x : Execution) : Prop := ∀ c ∈ x.callers, c.KeepsResult x.machine

section

variable {m m' : Machine} {h : MethodHandle} {D : Nat → Nat}

theorem Caller.Level.evolves {c : Caller} (hc : c.Level m h D) (he : m.Evolves m') : c.Level m' h D := by
  obtain ⟨p, site, target, hp, hs, ht, htop⟩ := hc
  obtain ⟨p', hp', hev⟩ := he.prepared _ p hp
  refine ⟨p', site, target, hp', ?_, ht, ?_⟩
  · rw [he.metadata]
    exact hev.hasSite hs
  · rw [hev.layout]
    exact htop

theorem Activation.Level.of_evolves {a : Activation} {p : Prepared} (he : m.Evolves m')
    (hp : m.prepared? a.method = some p) (htop : a.method = h → a.top = p.layout.stackBase + D a.pc) :
    a.Level m' h D := by
  obtain ⟨p', hp', hev⟩ := he.prepared _ p hp
  exact ⟨p', hp', by rw [hev.layout]; exact htop⟩

end

namespace Workspace

variable {w w' : Workspace} {p : Prepared} {op : Opcode} {before dest : Nat}

/-- Where an activation goes on, its top is moved by the fixed effect of the instruction, if it has one. -/
theorem Moved.top_fixed {pops pushes : Nat} (h : Moved p op before dest w w') (he : op.effect = .fixed pops pushes) :
    p.layout.stackBase + pops ≤ before ∧ w'.activation.top = before - pops + pushes := by
  obtain ⟨w₁, w₂, n, heff, hn, rfl⟩ := h
  simp only [Effected, he] at heff
  obtain ⟨-, hlow, -, rfl⟩ := heff
  refine ⟨hlow, ?_⟩
  show w₂.activation.top = _
  rw [hn.activation]
  rfl

theorem Moved.top_varying (h : Moved p op before dest w w') (he : op.effect = .varying) :
    w'.activation.top = w.activation.top := by
  obtain ⟨w₁, w₂, n, heff, hn, rfl⟩ := h
  simp only [Effected, he] at heff
  subst heff
  show w₂.activation.top = _
  rw [hn.activation]

end Workspace

namespace Execution

variable {x : Execution} {h : MethodHandle} {D : Nat → Nat} {w : Workspace} {p : Prepared} {op : Opcode}
  {next before : Nat} {callers : List Caller} {r : Except Trap Next × Workspace} {y : Execution}

/-- An activation that starts has nothing on its stack. -/
theorem Level.enter {m : Machine} (hs : m.Sound) (symbol : MethodSymbol) (arguments : List Value)
    (hD : ∀ p, (m.enter symbol arguments).2.prepared? h = some p →
      p.Leveled (m.enter symbol arguments).2.metadata D) :
    ∀ a, (m.enter symbol arguments).1 = .running a → a.Level (m.enter symbol arguments).2 h D := by
  intro a ha
  obtain ⟨-, -, hstart⟩ := Machine.enter_sound hs symbol arguments
  obtain ⟨p, frame, depth, hp, rfl, -⟩ := hstart a ha
  refine ⟨p, hp, fun hm => ?_⟩
  have h0 := (hD p (hm ▸ hp)).start
  show p.layout.stackBase = p.layout.stackBase + D 0
  rw [h0, Nat.add_zero]

/-- A handler that is entered has its exception on the stack, or nothing. -/
theorem caught_level {t : Trap} {e : GuestException} {w w₁ w₂ : Workspace} {dest : Nat} {object : Option (Option Ref)}
    {u : Unwinding} {p' : Prepared} (hs : w.machine.Sound) (hev : p.Evolves p')
    (ha : w.activation.Inside w.machine p') (ht : t.raised? w = some (e, w₁))
    (hd : w₁.activation.unwinding.dispatch w₁.machine.metadata p.regions e (w₁.machine.heap.typeOf? e.object)
      w₁.activation.pc 0 = (.ok (.resume dest object), u))
    (hent : Workspace.Entered p object (w₁.withUnwinding u) w₂)
    (hD : ∀ q, w₂.machine.prepared? h = some q → q.Leveled w₂.machine.metadata D) :
    (w₂.goTo dest w₁.activation.backEdges).activation.Level w₂.machine h D := by
  obtain ⟨-, hev₂, hland, hin⟩ := caught_inside hs hev ha ht hd hent
  refine ⟨p', hin.prepared, fun hm => ?_⟩
  have hl := hD p' (hm ▸ hin.prepared)
  rw [hev₂.metadata] at hl
  have htop : w₂.activation.top = p.layout.stackBase + if object.isSome then 1 else 0 := hent.kept.top
  show w₂.activation.top = p'.layout.stackBase + D dest
  rw [htop, hl.landed hland, hev.layout]

/-- Control that comes to another offset of the method finds the stack at the height of that offset. -/
theorem Travels.top {md : Metadata} {dest : Nat} {w₁ w₂ : Workspace} (h : Travels md p next w op dest w₁)
    (hm : Workspace.Moved p op w.activation.top dest w₁ w₂) (hD : p.Leveled md D)
    (htop : w.activation.top = p.layout.stackBase + D w.activation.pc) :
    w₂.activation.top = p.layout.stackBase + D dest := by
  cases h with
  | along hd hplain hi he hk =>
    obtain ⟨pops, pushes, heff⟩ := op.effect_plain hplain hi
    have hchange : (p.context md).change? w.activation.pc op = some ((pushes : Int) - pops) := by
      simp only [Analysis.Context.change?, heff, StackEffect.delta?]
    have hdelta := hD.along he hd.opcode hchange
    obtain ⟨hlow, htop₂⟩ := hm.top_fixed heff
    rw [htop₂]
    omega
  | landed heff hland hl hent =>
    rw [hm.top_varying heff, hD.landed hland]
    exact hent.kept.top

/-- **What comes of an instruction has the assigned heights.** -/
theorem Settles.level (hset : Settles p op w.activation.top callers r y) (hs : w.machine.Sound)
    (ha : w.activation.Inside w.machine p) (hw : ∀ c ∈ callers, c.Level w.machine h D)
    (hn : p.code.nextOffset w.activation.pc = .ok next) (hran : ExecM.Ran w.machine.metadata p next w op r)
    (hev : w.machine.Evolves y.machine) (hD : ∀ q, y.machine.prepared? h = some q → q.Leveled y.machine.metadata D)
    (htop : w.activation.method = h → w.activation.top = p.layout.stackBase + D w.activation.pc) : y.Level h D := by
  obtain ⟨hevr, hsound, hmethod, hpc⟩ := hran.keeps
  have hwaiting : ∀ c ∈ callers, c.Level y.machine h D := fun c hc => (hw c hc).evolves hev
  have hleveled : w.activation.method = h → p.Leveled w.machine.metadata D := by
    intro hm
    obtain ⟨p', hp', hp⟩ := hev.prepared _ p ha.prepared
    rw [← hev.metadata]
    exact hp.leveled (hD p' (hm ▸ hp'))
  cases hset with
  | ended hl _ => exact ⟨(fun a h => by cases h), hwaiting⟩
  | @moved n dest w₁ w₂ hgo hm =>
    obtain ⟨-, hmethod₂, hpc₂, -⟩ := hm.goes
    have hmethod₂ := hmethod₂.trans hmethod
    refine ⟨fun a hrun => ?_, hwaiting⟩
    cases hrun
    refine Activation.Level.of_evolves hev (by rw [hmethod₂]; exact ha.prepared) fun hh => ?_
    have hh := hmethod₂.symm.trans hh
    rw [hpc₂]
    exact (hgo.travels hran hn).top hm (hleveled hh) (htop hh)
  | called target arguments c w₁ =>
    obtain ⟨site, w₂, hsite, hent, -, hh, hk⟩ := hran.of_invoke
    refine ⟨Level.enter (hsound hs) target arguments hD, fun c' hc' => ?_⟩
    rcases List.mem_cons.1 hc' with rfl | hc'
    · refine Caller.Level.evolves (m := w.machine) ⟨p, site, target, ?_, ?_, hent, fun hm => ?_⟩ hev
      · exact (congrArg _ hmethod).trans ha.prepared
      · rw [hpc]
        exact hsite
      · have htop := htop (hmethod.symm.trans hm)
        have htop₁ : w₁.activation.top = w.activation.top - site.pops := hk.top
        show w₁.activation.top + site.pops = _
        rw [hpc, htop₁]
        omega
    · exact hwaiting c' hc'
  | @caught t e w₁ w₂ w₃ dest object u ht hd hent =>
    obtain ⟨p', hp', hin⟩ := trapped_inside hran (Trap.raised?_some ht).1 ha
    refine ⟨fun a hrun => ?_, hwaiting⟩
    cases hrun
    exact caught_level (hsound hs) hp' hin ht hd hent hD

/-- The end of a call pushes what the call site says. -/
theorem Handed.top {c : Continuation} {o : Outcome} {site : CallSite} {target : MethodSymbol} {n : Next}
    {w' : Workspace} (hr : Handed c w o (.ok n, w')) (hent : site.Enters target c) (hn : n = .advance)
    (hkeep : ∀ declared t, site = .callvirt declared → c = .pushResult t →
      t.signature.result.isSome = declared.signature.result.isSome) :
    site.kind ≠ .jmp ∧ w'.activation.top = w.activation.top + site.pushes := by
  have pushed : ∀ {m : MethodSymbol} {value : Option Value} {v : Value},
      (Continuation.pushResult m).pushed? value = some v → m.signature.result.isSome = true := by
    intro m value v hv
    by_cases hm : m.signature.result.isSome = true
    · exact hm
    · simp only [Continuation.pushed?, hm] at hv
      cases hv
  cases hr with
  | returned hc => cases hn
  | dropped hc hm =>
    subst hc
    cases hent with
    | call m => exact ⟨CallKind.noConfusion, by rw [CallSite.pushes, hm]; rfl⟩
    | callvirt declared target =>
      have := hkeep declared target rfl rfl
      rw [hm] at this
      exact ⟨CallKind.noConfusion, by rw [CallSite.pushes, ← this]; rfl⟩
  | pushed hv hlt =>
    cases hent with
    | call m => exact ⟨CallKind.noConfusion, by rw [CallSite.pushes, pushed hv]; rfl⟩
    | callvirt declared target =>
      have := hkeep declared target rfl rfl
      rw [pushed hv] at this
      exact ⟨CallKind.noConfusion, by rw [CallSite.pushes, ← this]; rfl⟩
    | newobj m type r => exact ⟨CallKind.noConfusion, rfl⟩
    | jmp m => cases hv

/-- The instruction of a call site has no fixed effect, whether it was patched or not. -/
theorem effect_of_site {md : Metadata} {site : CallSite} {pc : Nat} (hs : p.Sound md) (hsite : p.HasSite md pc site)
    (hop : p.code.opcodeAt pc = .ok op) : op.effect = .varying := by
  obtain ⟨op₀, next, hd⟩ := hs.declares hsite.reachable
  rcases hs.reads hsite.reachable hd with hagree | ⟨i, site', -, -, hc⟩
  · obtain ⟨op₁, hop₁, hact⟩ := hsite.opcode
    cases hd.opcode.symm.trans hop₁
    have hread := Code.opcodeAt_agree hd.opcode hagree (Code.nextOffset_bounds hd.next hd.opcode).1
    cases hop.symm.trans hread
    exact op.effect_callSite hact
  · cases hop.symm.trans hc.opcode
    rfl

/-- **What comes of the end of a call has the assigned heights.** -/
theorem Settles.level_return {c : Continuation} {o : Outcome} (hset : Settles p op w.activation.top callers r y)
    (hr : Handed c w o r) (hs : w.machine.Sound) (ha : w.activation.Inside w.machine p)
    (hop : p.code.opcodeAt w.activation.pc = .ok op) (hw : ∀ c ∈ callers, c.Level w.machine h D)
    (hc : Caller.Level w.machine h D ⟨w.activation, c⟩)
    (hkeep : ∀ value, o = .ok value → Caller.KeepsResult w.machine ⟨w.activation, c⟩)
    (hev : w.machine.Evolves y.machine) (hD : ∀ q, y.machine.prepared? h = some q → q.Leveled y.machine.metadata D) :
    y.Level h D := by
  have hwaiting : ∀ c ∈ callers, c.Level y.machine h D := fun c hc => (hw c hc).evolves hev
  obtain ⟨p₀, site, target, hp₀, hsite, hent, htop⟩ := hc
  dsimp only at hp₀ hsite hent htop
  cases ha.prepared.symm.trans hp₀
  have hsound := hs _ p ha.prepared
  cases hset with
  | ended hl _ => exact ⟨(fun a h => by cases h), hwaiting⟩
  | called target arguments c' w₁ => cases hr
  | @caught t e w₁ w₂ w₃ dest object u ht hd hentered =>
    obtain rfl := hr.of_error
    refine ⟨fun a hrun => ?_, hwaiting⟩
    cases hrun
    exact caught_level hs (.refl p) ha ht hd hentered hD
  | @moved n dest w₁ w₂ hgo hm =>
    obtain ⟨-, hmethod₂, hpc₂, -⟩ := hm.goes
    obtain ⟨-, hmethod, -, -⟩ := hr.keeps
    obtain ⟨hadvance, hc, ⟨value, ho⟩, hto⟩ := hr.goes hgo
    obtain ⟨hkind, htop₁⟩ := hr.top hent hadvance fun declared t hs hc =>
      hkeep value ho p declared t ha.prepared (hs ▸ hsite) hc
    refine ⟨fun a hrun => ?_, hwaiting⟩
    cases hrun
    have hmethod₂ := hmethod₂.trans hmethod
    refine Activation.Level.of_evolves hev (by rw [hmethod₂]; exact ha.prepared) fun hh => ?_
    have hh := hmethod₂.symm.trans hh
    have hleveled : p.Leveled w.machine.metadata D := by
      obtain ⟨p', hp', hp⟩ := hev.prepared _ p ha.prepared
      rw [← hev.metadata]
      exact hp.leveled (hD p' (hh ▸ hp'))
    obtain ⟨op₀, hop₀, hchange⟩ := hsite.change hkind
    have hdelta := hleveled.along (edge_of_site hsound hsite hent hc hto) hop₀ hchange
    have htop := htop hh
    rw [hpc₂, hm.top_varying (effect_of_site hsound hsite hop), htop₁]
    omega

/-- **One step keeps the assigned heights.** -/
theorem Level.step (hx : x.Level h D) (hin : x.Inside) (ha : x.Addressable)
    (hk : ∀ value c rest, x.control = .ending (.ok value) → x.callers = c :: rest → c.KeepsResult x.machine)
    (hD : ∀ q, x.step.machine.prepared? h = some q → q.Leveled x.step.machine.metadata D) : x.step.Level h D := by
  have hev := (hin.step ha).2
  cases hin.steps ha with
  | @executes p _ _ w h =>
    refine h.settles.level h.sound h.inside (fun c hc => (hx.waiting c hc).evolves h.samePrograms.evolves) h.next h.ran
      (h.keeps hin).2 hD ?_
    obtain ⟨p₀, hp₀, htop⟩ := hx.running _ h.control
    cases h.inside.prepared.symm.trans ((h.samePrograms.prepared? _).trans hp₀)
    exact htop
  | @returns c callers _ _ _ _ h =>
    refine h.settles.level_return (w := ⟨x.machine, c.activation⟩) h.handed hin.sound h.inside.activation h.opcode
      (fun c' hc' => hx.waiting c' ?_) (hx.waiting c ?_) (fun value ho => ?_) hev hD
    · exact h.callers ▸ List.mem_cons_of_mem _ hc'
    · exact h.callers ▸ List.mem_cons_self
    · exact hk value c callers (ho ▸ h.control) h.callers
  | ended h =>
    rw [h]
    exact hx

/-- **A whole run keeps the assigned heights.** -/
theorem Reaches.level {y : Execution} (hr : x.Reaches (fun z => z.Addressable ∧ z.KeepsResults) y) (hin : x.Inside)
    (hx : (∀ q, x.machine.prepared? h = some q → q.Leveled x.machine.metadata D) → x.Level h D)
    (hD : ∀ q, y.machine.prepared? h = some q → q.Leveled y.machine.metadata D) : y.Level h D := by
  induction hr with
  | refl => exact hx hD
  | @step y hr _ ih =>
    obtain ⟨hiny, -⟩ := (hr.mono fun _ hz => hz.1).inside hin
    obtain ⟨ha, hk⟩ := hr.holds
    have hev := (hiny.step ha).2
    -- what is assigned at the end was assigned before
    refine Level.step (ih fun q hq => ?_) hiny ha (fun _ c _ _ hc => hk c (by rw [hc]; exact List.mem_cons_self)) hD
    obtain ⟨q', hq', hp⟩ := hev.prepared _ q hq
    rw [← hev.metadata]
    exact hp.leveled (hD q' hq')

end Execution

theorem Machine.Begins.level {m : Machine} {x : Execution} {h : MethodHandle} {D : Nat → Nat} (hb : m.Begins x)
    (hs : m.Sound) (hD : ∀ q, x.machine.prepared? h = some q → q.Leveled x.machine.metadata D) : x.Level h D := by
  cases hb with
  | start symbol arguments => exact ⟨Execution.Level.enter hs symbol arguments hD, fun c hc => by cases hc⟩
  | restart symbol frame offset top =>
    refine ⟨fun a ha => ?_, fun c hc => by cases hc⟩
    obtain ⟨hs', -, hrun⟩ := reenter_sound hs symbol frame offset top
    obtain ⟨p, depth, hp, rfl, -, htop, hdepth⟩ := hrun a ha
    refine ⟨p, hp, fun hm => ?_⟩
    have hreach : p.analysis.isReachable offset = true := by
      rw [MethodAnalysis.isReachable, hdepth]
      rfl
    have heq := (hD p (hm ▸ hp)).depth?_eq (hs' _ p hp).accepted hreach
    rw [hdepth, Option.some.injEq] at heq
    show top = p.layout.stackBase + D offset
    omega

/-- **The analysis and the machine agree on the height of the stack.** Let the height of the stack of a method not
depend on the path, and let every override that a virtual call enters have a result exactly when the declared method
has. Then, whatever the host did before and wherever a run has come to, an activation of the method that runs has the
height that the analysis noted for its offset. -/
theorem Execution.height_eq_depth {m : Machine} {x₀ x : Execution} {h : MethodHandle} {p : Prepared} {D : Nat → Nat}
    (hm : m.Reached) (hb : m.Begins x₀) (hx : x₀.Reaches (fun y => y.Addressable ∧ y.KeepsResults) x)
    (hp : x.machine.prepared? h = some p) (hD : p.Leveled x.machine.metadata D) :
    ∀ a, x.control = .running a → a.method = h →
      p.layout.stackBase ≤ a.top ∧ p.analysis.depth? a.pc = some (a.top - p.layout.stackBase) := by
  intro a ha hmethod
  have hin := hb.inside hm.sound
  have hall : ∀ q, x.machine.prepared? h = some q → q.Leveled x.machine.metadata D := by
    intro q hq
    cases hp.symm.trans hq
    exact hD
  have hlevel := hx.level hin (hb.level hm.sound) hall
  obtain ⟨hinx, -⟩ := (hx.mono fun _ hz => hz.1).inside hin
  obtain ⟨q, hq⟩ := hinx.running a ha
  cases hp.symm.trans (hmethod ▸ hq.prepared)
  obtain ⟨q, hq', htop⟩ := hlevel.running a ha
  cases hp.symm.trans (hmethod ▸ hq')
  have htop := htop hmethod
  have hdepth := hD.depth?_eq (hinx.sound _ p hp).accepted hq.reachable
  refine ⟨by omega, ?_⟩
  rw [hdepth, htop, Nat.add_sub_cancel_left]

/-! ## The run that constructs, throws and catches -/

/-- The stacks that flow through `throwsObject`. -/
def throwsObjectFlow : List (Nat × List StackType) := [(0, []), (5, [.object]), (6, [.object]), (7, []), (9, [])]

theorem throwsObject_flows {a : MethodAnalysis} {pc : Nat} {stack : List StackType}
    (hf : Analysis.Flows (Analysis.contextOf .core throwsObject (throwsObject.body.getD default)) a pc stack) :
    (pc, stack) ∈ throwsObjectFlow :=
  hf.mem_of_closed (by decide +kernel) (by decide +kernel)

theorem throwsObjectRun_keepsResults {i : Nat} (hi : i ≤ 3) : (throwsObjectRun i).KeepsResults := by
  have hall : ∀ j < 4, (throwsObjectRun j).callers.all (fun c => match c.continuation with
      | .pushResult _ => false
      | _ => true) = true := by decide +kernel
  intro c hc p declared target _ _ ht
  have := List.all_eq_true.1 (hall i (by omega)) c hc
  rw [ht] at this
  cases this

theorem throwsObjectRun_prepared : ∃ p, (throwsObjectRun 3).machine.prepared? ⟨3⟩ = some p ∧ p.symbol = throwsObject := by
  have h : ((throwsObjectRun 3).machine.prepared? ⟨3⟩).map (·.symbol) = some throwsObject := by decide +kernel
  obtain ⟨p, hp, hs⟩ := Option.map_eq_some_iff.1 h
  exact ⟨p, hp, hs⟩

theorem throwsObjectRun_metadata : (throwsObjectRun 3).machine.metadata = .core := by
  have hs : (Machine.make .core none {} {}).Sound := (Machine.Reached.fresh rfl).sound
  have hr : (throwsObjectRun 0).Reaches Execution.Addressable (throwsObjectRun 3) :=
    throwsObjectRun_reaches 3 fun _ hi => throwsObjectRun_addressable hi
  have hrun := (hr.inside (throwsObjectRun_begins.inside hs)).2
  exact hrun.metadata.trans (throwsObjectRun_begins.metadata hs)

/-- In the handler there is one value on the stack, the exception, as the analysis noted. -/
theorem Execution.throwsObject_height_in_handler : ∃ a p, (throwsObjectRun 3).control = .running a ∧ a.pc = 6 ∧
    (throwsObjectRun 3).machine.prepared? a.method = some p ∧
    p.analysis.depth? 6 = some (a.top - p.layout.stackBase) := by
  have hr : (throwsObjectRun 0).Reaches (fun y => y.Addressable ∧ y.KeepsResults) (throwsObjectRun 3) :=
    throwsObjectRun_reaches 3 fun _ hi => ⟨throwsObjectRun_addressable hi, throwsObjectRun_keepsResults hi⟩
  obtain ⟨a, hc, hpc, hmethod⟩ := throwsObjectRun_three
  obtain ⟨p, hp, hsymbol⟩ := throwsObjectRun_prepared
  have hD : p.Leveled (throwsObjectRun 3).machine.metadata fun pc => if pc = 5 ∨ pc = 6 then 1 else 0 := by
    refine Analysis.Leveled.of_flows fun pc stack hf => ?_
    rw [throwsObjectRun_metadata, Prepared.context, Prepared.body, hsymbol] at hf
    have hlen : ∀ e ∈ throwsObjectFlow, e.2.length = if e.1 = 5 ∨ e.1 = 6 then 1 else 0 := by decide
    exact hlen _ (throwsObject_flows hf)
  obtain ⟨-, hdepth⟩ := Execution.height_eq_depth (.fresh rfl) throwsObjectRun_begins hr hp hD a hc hmethod
  exact ⟨a, p, hc, hpc, hmethod ▸ hp, hpc ▸ hdepth⟩

end ManagedCode
