import ManagedCode.Proofs.Caching
import ManagedCode.Proofs.Storage

/-!
# Execution without a cache

`Machine.executeAfresh` is the machine that keeps nothing: at every step it makes the method of the activation ready
from the tables, and a call resolves its token whenever it is executed; no code is ever overwritten. A step of the
machine with its cache and a step of this one lead from runs that are alike to runs that are alike (`step_alike`), so
whole runs end alike, however many methods were ready and call sites resolved before.
-/

namespace ManagedCode

/-! ## The machine without a cache -/

namespace ExecM

/-- A call that resolves its token whenever it is executed. -/
def callAfresh (p : Prepared) (pc : Nat) (kind : CallKind) : ExecM Next := do
  let token ← ofEngine (p.code.token pc)
  let site ← resolveSite kind token
  invoke p site

/-- Executes an instruction; a call leaves the code as it is. -/
def instructionAfresh (p : Prepared) (pc : Nat) (op : Opcode) : ExecM Next :=
  match op.action with
  | .callSite kind => callAfresh p pc kind
  | _ => instruction p pc op

end ExecM

/-- Calls a method, which is analyzed on the spot. -/
def Machine.enterAfresh (m : Machine) (symbol : MethodSymbol) (arguments : List Value) : Control × Machine :=
  match symbol.body with
  | none => m.enter symbol arguments
  | some _ =>
    m.deeper fun m =>
      match Prepared.build m.metadata symbol with
      | .error e => m.leaveCall (.error (.abort (.error e)))
      | .ok p =>
        match m.newFrame p arguments with
        | (.error f, m) => m.leaveCall (.error f)
        | (.ok frame, m) => m.activate symbol p frame 0 p.layout.stackBase

namespace Execution

/-- The method that an activation executes, as the tables have it, with the instruction at its offset. -/
def currentAfresh (w : Workspace) : Except EngineError (Prepared × Opcode) :=
  match w.machine.metadata.methodSymbol? w.activation.method with
  | none => .error (.invalidState w.activation.pc (.noBody w.activation.method.text))
  | some symbol => do
    let p ← Prepared.build w.machine.metadata symbol
    return (p, ← p.code.opcodeAt w.activation.pc)

/-- Acts on what an instruction asks for; a method that is called is analyzed on the spot. -/
def settleAfresh (p : Prepared) (op : Opcode) (before : Nat) (callers : List Caller) :
    Except Trap Next × Workspace → Execution
  | (.ok (.invoke method arguments continuation), w) =>
    let (control, m) := w.machine.enterAfresh method arguments
    { machine := m, control, callers := ⟨w.activation, continuation⟩ :: callers }
  | r => settle p op before callers r

def stepAfresh (x : Execution) : Execution :=
  match x.control, x.callers with
  | .running a, callers =>
    match currentAfresh ⟨x.machine, a⟩ with
    | .error e => finish ⟨x.machine, a⟩ callers (.error (.abort (.error e)))
    | .ok (p, op) =>
      settleAfresh p op a.top callers ((ExecM.instructionAfresh p a.pc op).run (announced ⟨x.machine, a⟩ op))
  | .ending o, c :: callers =>
    match currentAfresh ⟨x.machine, c.activation⟩ with
    | .error e => finish ⟨x.machine, c.activation⟩ callers (.error (.abort (.error e)))
    | .ok (p, op) => settle p op c.activation.top callers (handed c.continuation ⟨x.machine, c.activation⟩ o)
  | .ending _, [] => x

def runAfresh : (fuel : Nat) → Execution → Option (Outcome × Machine)
  | 0, _ => none
  | fuel + 1, x =>
    match x.outcome? with
    | some o => some (o, x.machine)
    | none => runAfresh fuel x.stepAfresh

end Execution

def Machine.executeAfresh (fuel : Nat) (m : Machine) (symbol : MethodSymbol) (arguments : List Value) :
    Option (Outcome × Machine) :=
  let (control, m) := m.enterAfresh symbol arguments
  ({ machine := m, control, callers := [] } : Execution).runAfresh fuel

/-! ## Methods that the tables know -/

namespace Metadata

variable {md : Metadata}

/-- The method is the one that the tables have under its handle, or has no body. -/
def Knows (md : Metadata) (s : MethodSymbol) : Prop := s.body = none ∨ md.methodSymbol? s.handle = some s

/-- No method of the tables has more code than 32 bits can address. -/
def Addressable (md : Metadata) : Prop := ∀ s b, md.Lists s → s.body = some b → b.code.size ≤ 2 ^ 32

theorem WellFormed.knows (h : md.WellFormed) {s : MethodSymbol} (hs : md.Lists s) : md.Knows s := by
  obtain ⟨k, hk⟩ := hs
  have hm : md.methodOf k = .ok s := by rw [methodOf, hk]
  obtain ⟨-, rfl⟩ := h.hasMethod_of_handle hm
  exact .inr hk

end Metadata

namespace Machine

variable {m m' : Machine} {symbol : MethodSymbol} {p : Prepared} {k : MethodHandle}

/-- A method that is ready is what the tables make of it. -/
theorem Exact.build (h : m.Exact m.metadata.Knows) (hp : m.prepared? k = some p) :
    m.metadata.methodSymbol? k = some p.symbol ∧ Prepared.build m.metadata p.symbol = .ok p.pristine := by
  obtain ⟨hexact, hknows, rfl⟩ := h.methods k p hp
  refine ⟨?_, hexact.built⟩
  rcases hknows with hb | hknows
  · have hbuilt := hexact.built
    rw [Prepared.build, hb] at hbuilt
    cases hbuilt
  · exact hknows

theorem Exact.addressable (h : m.Exact m.metadata.Knows) (hmd : m.metadata.Addressable) : m.Addressable := by
  intro k p hp
  obtain ⟨hsymbol, -⟩ := h.build hp
  rw [Prepared.declared, Prepared.body]
  cases hb : p.symbol.body with
  | none => exact Nat.zero_le _
  | some b => exact hmd p.symbol b ⟨k, hsymbol⟩ hb

/-! ## Entering a method -/

/-- **Making a method ready gives what the tables make of it**, but for resolved call sites. -/
theorem Exact.prepare_pristine (h : m.Exact m.metadata.Knows) (hs : m.metadata.Knows symbol) (hb : symbol.body ≠ none) :
    (m.prepare symbol).1.map Prepared.pristine = Prepared.build m.metadata symbol := by
  have hsymbol : m.metadata.methodSymbol? symbol.handle = some symbol := hs.resolve_left hb
  cases hp : m.prepared? symbol.handle with
  | some p =>
    obtain ⟨hp', hbuilt⟩ := h.build hp
    cases hsymbol.symm.trans hp'
    rw [prepare_ready hp, hbuilt]
    rfl
  | none =>
    rw [(prepare_fresh hp).1]
    cases hq : Prepared.build m.metadata symbol with
    | error e => rfl
    | ok q => exact congrArg Except.ok (Prepared.build_ok hq).2.1

theorem alike_prepare (m : Machine) (symbol : MethodSymbol) : m.Alike (m.prepare symbol).2 := by
  unfold prepare
  split
  · exact .refl m
  · split
    · exact .refl m
    · dsimp only
      split
      · exact { Alike.refl m with }
      · split
        · exact { Alike.refl m with }
        · exact { Alike.refl m with }

theorem Alike.onHeap {α : Type} (h : m.Alike m') (x : StateM Heap α) :
    (m'.onHeap x).1 = (m.onHeap x).1 ∧ (m.onHeap x).2.Alike (m'.onHeap x).2 := by
  unfold Machine.onHeap
  rw [h.heap]
  exact ⟨rfl, { h with heap := rfl }⟩

theorem Alike.leaveCall (h : m.Alike m') (o : Outcome) : (m'.leaveCall o).1 = (m.leaveCall o).1 ∧
    (m.leaveCall o).2.Alike (m'.leaveCall o).2 := by
  rw [Machine.leaveCall, Machine.leaveCall, h.depth]
  exact ⟨rfl, { h with depth := rfl }⟩

theorem Alike.newFrame (h : m.Alike m') (p : Prepared) (arguments : List Value) :
    (m'.newFrame p arguments).1 = (m.newFrame p arguments).1 ∧
      (m.newFrame p arguments).2.Alike (m'.newFrame p arguments).2 := by
  unfold Machine.newFrame
  split
  · exact ⟨rfl, h⟩
  · obtain ⟨hr, hm⟩ := h.onHeap (normalizeAll 0 p.argumentKinds arguments).run
    generalize m.onHeap (normalizeAll 0 p.argumentKinds arguments).run = r at hr hm
    generalize m'.onHeap (normalizeAll 0 p.argumentKinds arguments).run = r' at hr hm
    obtain ⟨r, m₁⟩ := r
    obtain ⟨r', m₁'⟩ := r'
    dsimp only at hr hm ⊢
    subst hr
    cases r' with
    | error t =>
      obtain ⟨hf, ht⟩ := hm.raise t
      exact ⟨congrArg Except.error hf, ht⟩
    | ok values =>
      dsimp only
      rw [hm.nextFrame]
      exact ⟨rfl, { hm with nextFrame := rfl }⟩

theorem Alike.callNative (h : m.Alike m') (symbol : MethodSymbol) (arguments : List Value) :
    (m'.callNative symbol arguments).1 = (m.callNative symbol arguments).1 ∧
      (m.callNative symbol arguments).2.Alike (m'.callNative symbol arguments).2 := by
  unfold Machine.callNative native?
  rw [h.natives, h.metadata]
  split
  · exact ⟨rfl, h⟩
  · exact h.onHeap _

theorem Alike.activate (h : m.Alike m') (symbol : MethodSymbol) (p : Prepared) (frame : Frame) (pc top : Nat) :
    (m'.activate symbol p frame pc top).1 = (m.activate symbol p frame pc top).1 ∧
      (m.activate symbol p frame pc top).2.Alike (m'.activate symbol p frame pc top).2 := by
  unfold Machine.activate
  rw [h.depth]
  exact ⟨rfl, { h with depth := rfl, trace := h.trace.line _ _ _ }⟩

theorem Alike.deeper (h : m.Alike m') {f g : Machine → Control × Machine}
    (hfg : ∀ m₁ m₁', m₁.Alike m₁' → m.Untouched m₁ → (g m₁').1 = (f m₁).1 ∧ (f m₁).2.Alike (g m₁').2) :
    (m'.deeper g).1 = (m.deeper f).1 ∧ (m.deeper f).2.Alike (m'.deeper g).2 := by
  unfold Machine.deeper
  rw [h.settings, h.depth]
  split
  · exact ⟨rfl, h⟩
  · exact hfg _ _ { h with settings := rfl, depth := rfl } ⟨rfl, rfl, rfl⟩

/-- **A call does the same without a cache.** -/
theorem Alike.enterAfresh (h : m.Alike m') (he : m.Exact m.metadata.Knows) (hs : m.metadata.Knows symbol)
    (arguments : List Value) : (m'.enterAfresh symbol arguments).1 = (m.enter symbol arguments).1 ∧
      (m.enter symbol arguments).2.Alike (m'.enterAfresh symbol arguments).2 := by
  unfold Machine.enterAfresh Machine.enter
  cases hb : symbol.body with
  | none =>
    refine h.deeper fun m₁ m₁' hdeep _ => ?_
    dsimp only
    split
    · exact hdeep.leaveCall _
    · obtain ⟨ho, hn⟩ := hdeep.callNative symbol arguments
      rw [ho]
      exact hn.leaveCall _
  | some b =>
    refine h.deeper fun m₁ m₁' hdeep hu => ?_
    have he' := he.untouched hu
    rw [← hu.metadata] at he' hs
    have hbuild := he'.prepare_pristine hs (by rw [hb]; nofun)
    -- the cached side may have made the method ready, the other side analyzes it and keeps nothing
    have hprep := (alike_prepare m₁ symbol).symm.trans hdeep
    rw [hdeep.metadata, ← hbuild]
    rcases hq : m₁.prepare symbol with ⟨e | p, m₂⟩ <;> rw [hq] at hprep
    · exact hprep.leaveCall _
    · obtain ⟨hf, hm⟩ := hprep.newFrame p arguments
      have hpristine : m₁'.newFrame p.pristine arguments = m₁'.newFrame p arguments := rfl
      dsimp only [Except.map] at hf hm ⊢
      rw [hpristine]
      rcases hr : m₂.newFrame p arguments with ⟨f, m₃⟩
      rcases hr' : m₁'.newFrame p arguments with ⟨f', m₃'⟩
      rw [hr, hr'] at hf hm
      cases hf
      cases f with
      | error f => exact hm.leaveCall _
      | ok frame => exact hm.activate symbol p frame 0 p.layout.stackBase

end Machine

/-! ## Steps -/

namespace ExecM

variable {p : Prepared} {pc next : Nat} {op : Opcode}

theorem callAfresh_run {t : Token} (ht : p.code.token pc = .ok t) (kind : CallKind) (w : Workspace) :
    (callAfresh p pc kind).run w = (callOf p (CallSite.ofToken w.machine.metadata kind t)).run w.lookedUp := by
  unfold callAfresh
  rw [ht]
  show (resolveSite kind t >>= _).run w = _
  rw [Meets.run_bind, resolveSite_run]
  cases CallSite.ofToken w.machine.metadata kind t with
  | error e => rfl
  | ok site => rfl

theorem callOf_pristine (p : Prepared) (r : Except ResolutionError CallSite) : callOf p.pristine r = callOf p r := by
  cases r with
  | error e => rfl
  | ok site => cases site <;> rfl

theorem instructionAfresh_plain (h : ∀ k, op.action ≠ .callSite k) :
    instructionAfresh p pc op = instruction p pc op := by
  unfold instructionAfresh
  split
  · rename_i kind hact
    exact absurd hact (h kind)
  · rfl

theorem instructionAfresh_call (kind : CallKind) : instructionAfresh p pc kind.opcode = callAfresh p pc kind := by
  cases kind <;> rfl

/-- **An instruction does the same without a cache**; it is the declared one, which may be named differently. -/
theorem Executes.alike {K : MethodSymbol → Prop} {md : Metadata} {m m' : Machine} {a : Activation}
    (h : Executes K p pc next op (Execution.announced ⟨m, a⟩ op)) (hs : p.Sound md)
    (hr : p.analysis.isReachable pc = true) (hm : m.Alike m') : ∃ op₀, p.Declares pc op₀ next ∧
      Execution.SameEffect op op₀ ∧
      ((instructionAfresh p.pristine pc op₀).run (Execution.announced ⟨m', a⟩ op₀)).1 =
        ((instruction p pc op).run (Execution.announced ⟨m, a⟩ op)).1 ∧
      ((instruction p pc op).run (Execution.announced ⟨m, a⟩ op)).2.Alike
        ((instructionAfresh p.pristine pc op₀).run (Execution.announced ⟨m', a⟩ op₀)).2 := by
  have hannounced := fun op₀ => Execution.announced_alike (w := ⟨m, a⟩) (v := ⟨m', a⟩) ⟨hm, rfl⟩ op op₀
  cases h with
  | plain hd ha hcall hcached =>
    refine ⟨op, hd, .inl rfl, ?_⟩
    rw [instructionAfresh_plain hcall, ← instruction_pristine hd ha hcall hcached]
    exact (blind_instruction (hd.reads ha) (hs.annotated hr hd) hcall hcached).alike _ _ (hannounced op)
  | @call kind t w₁ hd ht heffect halike _ hrun =>
    refine ⟨kind.opcode, hd, heffect, ?_⟩
    have hv := hannounced kind.opcode
    have hcode : p.pristine.code = p.declared := rfl
    rw [← hcode] at ht
    rw [hrun, instructionAfresh_call, callAfresh_run ht, callOf_pristine, hv.machine.metadata]
    -- both sides now make the same call; resolving the token only counted a lookup
    refine (blind_callOf p _).alike w₁ _ ((halike.symm.trans hv).trans ?_)
    exact ⟨{ Machine.Alike.refl _ with }, rfl⟩

end ExecM

namespace Execution

variable {x y : Execution} {p : Prepared} {op op' : Opcode} {before : Nat} {callers : List Caller}

theorem handed_alike {w v : Workspace} (h : w.Alike v) (c : Continuation) (o : Outcome) :
    (handed c v o).1 = (handed c w o).1 ∧ (handed c w o).2.Alike (handed c v o).2 := by
  cases o with
  | ok value => exact (ExecM.blind_continueWith c value).alike w v h
  | error f => cases f <;> exact ⟨rfl, h⟩

theorem settleAfresh_eq {r : Except Trap Next × Workspace}
    (hr : ∀ target arguments c, r.1 ≠ .ok (.invoke target arguments c)) :
    settleAfresh p op before callers r = settle p op before callers r := by
  unfold settleAfresh
  split
  · exact absurd rfl (hr _ _ _)
  · rfl

/-- **What follows an instruction is the same without a cache.** -/
theorem settleAfresh_alike {r r' : Except Trap Next × Workspace} (hr : r'.1 = r.1) (hw : r.2.Alike r'.2)
    (ho : SameEffect op op')
    (hnext : p.declared.nextOffset r.2.activation.pc = p.code.nextOffset r.2.activation.pc)
    (he : r.2.machine.Exact r.2.machine.metadata.Knows)
    (hk : ∀ target arguments c, r.1 = .ok (.invoke target arguments c) → r.2.machine.metadata.Knows target) :
    (settle p op before callers r).Alike (settleAfresh p.pristine op' before callers r') := by
  obtain ⟨r, w⟩ := r
  obtain ⟨r', v⟩ := r'
  dsimp only at hr hw hnext he hk
  subst hr
  by_cases hask : ∃ target arguments c, r' = .ok (.invoke target arguments c)
  · obtain ⟨target, arguments, c, rfl⟩ := hask
    obtain ⟨hcontrol, hmachine⟩ := hw.machine.enterAfresh he (hk target arguments c rfl) arguments
    exact ⟨hmachine, hcontrol, by simp only [settle, settleAfresh, hw.activation]⟩
  · have hno : ∀ target arguments c, r' ≠ .ok (.invoke target arguments c) :=
      fun target arguments c h => hask ⟨target, arguments, c, h⟩
    rw [settleAfresh_eq (r := (r', v)) hno]
    exact settle_alike rfl ho hnext hw hno

theorem currentAfresh_ok {m m' : Machine} {a : Activation} (hmd : m'.metadata = m.metadata)
    (he : m.Exact m.metadata.Knows) (hp : m.prepared? a.method = some p) (hop : p.declared.opcodeAt a.pc = .ok op) :
    currentAfresh ⟨m', a⟩ = .ok (p.pristine, op) := by
  obtain ⟨hsymbol, hbuilt⟩ := he.build hp
  have hop' : p.pristine.code.opcodeAt a.pc = .ok op := hop
  unfold currentAfresh
  dsimp only
  rw [hmd, hsymbol]
  dsimp only
  rw [hbuilt]
  show (do return (p.pristine, ← p.pristine.code.opcodeAt a.pc) : Except EngineError (Prepared × Opcode)) = _
  rw [hop']
  rfl

/-- **A run whose cache is in order**: it is inside analyzed code, every method that is ready is what the tables make
of it, and the tables are well formed and of a size that can be addressed. -/
structure Regular (x : Execution) : Prop where
  inside : x.Inside
  exact : x.machine.Exact x.machine.metadata.Knows
  tables : x.machine.metadata.WellFormed
  small : x.machine.metadata.Addressable

theorem Regular.addressable (h : x.Regular) : x.Addressable := h.exact.addressable h.small

theorem Regular.step (h : x.Regular) : x.step.Regular := by
  obtain ⟨hin, hev⟩ := h.inside.step h.addressable
  have hexact := step_exact h.inside h.addressable h.exact fun _ hs => h.tables.knows hs
  rw [← hev.metadata] at hexact
  exact ⟨hin, hexact, by rw [hev.metadata]; exact h.tables, by rw [hev.metadata]; exact h.small⟩

/-- **A step does the same without a cache.** -/
theorem step_alike (hx : x.Regular) (h : x.Alike y) : x.step.Alike y.stepAfresh := by
  rcases x with ⟨m, control, callers⟩
  rcases y with ⟨m', control', callers'⟩
  obtain ⟨hm, hcontrol, hcallers⟩ := h
  dsimp only at hm hcontrol hcallers
  subst hcontrol hcallers
  have hs := hx.inside.sound
  cases control' with
  | running a =>
    obtain ⟨p, hp⟩ := hx.inside.running a rfl
    obtain ⟨op, hop⟩ := hp.readable hs
    obtain ⟨next, hnext, hex, hran⟩ := announced_executes hs hx.addressable hp hx.exact hop.opcode
    obtain ⟨hexact, hlists⟩ := executes_exact hs hp hx.exact hex hran
    obtain ⟨op₀, hd, heffect, hr, hw⟩ := hex.alike (hs _ p hp.prepared) hp.reachable hm
    obtain ⟨hev, -, -, hpc⟩ := hran.keeps
    have hnoted := announced_noted ⟨m, a⟩ op
    have hmd := hev.metadata.trans hnoted.samePrograms.metadata
    rw [hnoted.activation] at hpc
    show (stepInstruction ⟨m, a⟩ callers').Alike (match currentAfresh ⟨m', a⟩ with
      | .error e => finish ⟨m', a⟩ callers' (.error (.abort (.error e)))
      | .ok (p, op) => settleAfresh p op a.top callers' ((ExecM.instructionAfresh p a.pc op).run (announced ⟨m', a⟩ op)))
    rw [stepInstruction_eq (w := ⟨m, a⟩) hp.prepared hop.opcode, currentAfresh_ok hm.metadata hx.exact hp.prepared hd.opcode]
    refine settleAfresh_alike hr hw heffect ?_ ?_ fun target arguments c hask => ?_
    · rw [hpc, hnext, hd.next]
    · rw [hmd]
      exact hexact
    · rw [hmd]
      exact hx.tables.knows (hlists target arguments c hask)
  | ending o =>
    cases callers' with
    | nil => exact ⟨hm, rfl, rfl⟩
    | cons c callers =>
      obtain ⟨p, hc⟩ := hx.inside.waiting c List.mem_cons_self
      obtain ⟨op, hop⟩ := hc.activation.readable hs
      -- the site of a waiting caller may have been overwritten since the call began, so its opcode is read again
      obtain ⟨next, hnext, hex, -⟩ := announced_executes hs hx.addressable hc.activation hx.exact hop.opcode
      obtain ⟨op₀, hd, heffect, -⟩ := hex.alike (hs _ p hc.activation.prepared) hc.activation.reachable hm
      obtain ⟨hr, hw⟩ := handed_alike (w := ⟨m, c.activation⟩) (v := ⟨m', c.activation⟩) ⟨hm, rfl⟩ c.continuation o
      obtain ⟨-, -, hpc, -⟩ := (handed_handed c.continuation ⟨m, c.activation⟩ o).keeps
      have hno := handed_ne_invoke c.continuation ⟨m, c.activation⟩ o
      show (stepReturn ⟨m, c.activation⟩ c.continuation o callers).Alike (match currentAfresh ⟨m', c.activation⟩ with
        | .error e => finish ⟨m', c.activation⟩ callers (.error (.abort (.error e)))
        | .ok (p, op) => settle p op c.activation.top callers (handed c.continuation ⟨m', c.activation⟩ o))
      rw [stepReturn_eq (w := ⟨m, c.activation⟩) hc.activation.prepared hop.opcode,
        currentAfresh_ok hm.metadata hx.exact hc.activation.prepared hd.opcode]
      generalize handed c.continuation ⟨m, c.activation⟩ o = r at hr hw hpc hno
      generalize handed c.continuation ⟨m', c.activation⟩ o = r' at hr hw
      obtain ⟨r, w⟩ := r
      obtain ⟨r', v⟩ := r'
      dsimp only at hr hw hpc hno
      subst hr
      refine settle_alike rfl heffect ?_ hw hno
      show p.declared.nextOffset w.activation.pc = p.code.nextOffset w.activation.pc
      rw [hpc, hnext, hd.next]

end Execution

/-! ## Runs -/

/-- **Both runs end**, with the same outcome and on machines that are alike, or neither does within its steps. -/
inductive EndsAlike : Option (Outcome × Machine) → Option (Outcome × Machine) → Prop where
  | ended {o : Outcome} {m m' : Machine} : m.Alike m' → EndsAlike (some (o, m)) (some (o, m'))
  | unfinished : EndsAlike none none

theorem EndsAlike.symm {r r' : Option (Outcome × Machine)} (h : EndsAlike r r') : EndsAlike r' r := by
  cases h with
  | ended hm => exact .ended hm.symm
  | unfinished => exact .unfinished

theorem EndsAlike.trans {r r' r'' : Option (Outcome × Machine)} (h : EndsAlike r r') (h' : EndsAlike r' r'') :
    EndsAlike r r'' := by
  cases h with
  | ended hm =>
    cases h' with
    | ended hm' => exact .ended (hm.trans hm')
  | unfinished => exact h'

/-- **A run ends as it does without a cache.** -/
theorem Execution.run_alike : ∀ (fuel : Nat) {x y : Execution}, x.Regular → x.Alike y →
    EndsAlike (x.run fuel) (y.runAfresh fuel)
  | 0, _, _, _, _ => .unfinished
  | fuel + 1, x, y, hx, h => by
    have ho : y.outcome? = x.outcome? := by rw [outcome?, outcome?, h.control, h.callers]
    rw [run, runAfresh, ho]
    cases x.outcome? with
    | some o => exact .ended h.machine
    | none => exact run_alike fuel hx.step (step_alike hx h)

namespace Machine

variable {m m' : Machine} {symbol : MethodSymbol}

theorem Used.regular (hm : m.Used m.metadata.Knows) (ht : m.metadata.WellFormed) (hsize : m.metadata.Addressable)
    (hs : m.metadata.Knows symbol) (arguments : List Value) : (m.start symbol arguments).Regular := by
  have hsound := hm.reached.sound
  have hin := (Begins.start (m := m) symbol arguments).inside hsound
  have hmd := (Begins.start (m := m) symbol arguments).metadata hsound
  have hexact : (m.start symbol arguments).machine.Exact m.metadata.Knows :=
    (hm.exact fun _ h => ht.knows h).enter hs arguments
  rw [← hmd] at hexact ht hsize
  exact ⟨hin, hexact, ht, hsize⟩

theorem Used.execute_alike (hm : m.Used m.metadata.Knows) (ht : m.metadata.WellFormed)
    (hsize : m.metadata.Addressable) (hs : m.metadata.Knows symbol) (h : m.Alike m') (arguments : List Value)
    (fuel : Nat) : EndsAlike (m.execute fuel symbol arguments) (m'.executeAfresh fuel symbol arguments) := by
  obtain ⟨hcontrol, hmachine⟩ := h.enterAfresh (hm.exact fun _ h => ht.knows h) hs arguments
  exact Execution.run_alike fuel (hm.regular ht hsize hs arguments) ⟨hmachine, hcontrol, rfl⟩

/-- **The cache cannot be seen.** Take two machines on the same tables that are alike: they have the same heap and host
functions, and differ in the methods that a host has made ready, in the call sites that it has had resolved, and in
counts. A method has the same outcome on both, and leaves them alike; and so it does on the machine without a cache. -/
theorem execute_ignores_cache (hm : m.Used m.metadata.Knows) (hm' : m'.Used m'.metadata.Knows) (h : m.Alike m')
    (ht : m.metadata.Defined) (hsize : m.metadata.Addressable) (hs : m.metadata.Knows symbol) (arguments : List Value)
    (fuel : Nat) : EndsAlike (m.execute fuel symbol arguments) (m'.execute fuel symbol arguments) ∧
      EndsAlike (m.execute fuel symbol arguments) (m.executeAfresh fuel symbol arguments) := by
  have hfirst := fun {n : Machine} (hn : m.Alike n) => hm.execute_alike ht.wellFormed hsize hs hn arguments fuel
  rw [← h.metadata] at ht hsize hs
  have hsecond := hm'.execute_alike ht.wellFormed hsize hs (.refl m') arguments fuel
  exact ⟨(hfirst h).trans hsecond.symm, hfirst (.refl m)⟩

end Machine

/-! ## A method on a machine that knows its call site -/

/-- The core tables with `throwsObject`. -/
def throwsObjectTables : Metadata :=
  let declared := (Metadata.core.declareMethod Core.object.token throwsObject.name throwsObject.signature false).2
  (declared.defineBody throwsObject.handle.token (throwsObject.body.getD default)).toOption.getD declared

theorem throwsObjectTables_defined : throwsObjectTables.Defined := by
  have hdeclared : Metadata.Defined (Metadata.core.declareMethod Core.object.token throwsObject.name
    throwsObject.signature false).2 := .defines .core (.method ..)
  unfold throwsObjectTables
  dsimp only
  generalize (Metadata.core.declareMethod _ _ _ _).2 = md at hdeclared
  cases hb : md.defineBody throwsObject.handle.token (throwsObject.body.getD default) with
  | ok md' => exact .defines hdeclared (.body hb)
  | error e => exact hdeclared

theorem throwsObjectTables_knows : throwsObjectTables.Knows throwsObject := .inr (by decide +kernel)

theorem Metadata.addressable_of_all {md : Metadata}
    (h : md.methods.toList.all (fun s => (s.body.map (·.code.size)).getD 0 ≤ 2 ^ 32) = true) : md.Addressable := by
  rintro s b ⟨k, hk⟩ hb
  have hmem : s ∈ md.methods.toList := by
    unfold methodSymbol? at hk
    split at hk
    · cases hk
    · exact List.mem_of_getElem? (by rw [Array.getElem?_toList]; exact hk)
  have := List.all_eq_true.1 h s hmem
  simpa [hb] using this

/-- The machine on which the first instruction of `throwsObject` was executed. -/
def throwsObjectCached : Machine :=
  ((Machine.make throwsObjectTables none {} {}).start throwsObject []).step.machine

/-- A step of a method on a fresh machine can be made by a host. -/
theorem Machine.used_step {md : Metadata} {symbol : MethodSymbol} (ht : md.Defined) (hsize : md.Addressable)
    (hs : md.Knows symbol) {m : Machine} (hm : m = ((Machine.make md none {} {}).start symbol []).step.machine) :
    m.metadata = md ∧ m.Used md.Knows := by
  have hfresh : (Machine.make md none {} {}).Used md.Knows := .fresh rfl rfl
  have hregular := Used.regular (m := Machine.make md none {} {}) hfresh ht.wellFormed hsize hs []
  have hr := Execution.Reaches.step (.refl hregular.addressable) hregular.step.addressable
  have hstart := (Begins.start (m := Machine.make md none {} {}) symbol []).metadata hfresh.reached.sound
  rw [hm]
  exact ⟨(hr.inside hregular.inside).2.metadata.trans hstart, .executed hfresh hs hr⟩

/-- With the call site resolved, with no method ready and without a cache, `throwsObject` ends alike. -/
theorem Machine.throwsObject_ignores_cache : throwsObjectCached.metrics.callSiteResolutions = 1 ∧
    (throwsObjectCached.execute 9 throwsObject []).isSome = true ∧
    EndsAlike (throwsObjectCached.execute 9 throwsObject [])
      (({ throwsObjectCached with prepared := [], metrics := {} } : Machine).execute 9 throwsObject []) ∧
    EndsAlike (throwsObjectCached.execute 9 throwsObject []) (throwsObjectCached.executeAfresh 9 throwsObject []) := by
  have hsize : throwsObjectTables.Addressable := Metadata.addressable_of_all (by decide +kernel)
  obtain ⟨hmd, hused⟩ := used_step throwsObjectTables_defined hsize throwsObjectTables_knows (Eq.refl throwsObjectCached)
  refine ⟨by decide +kernel, by decide +kernel, ?_⟩
  have hdefined := throwsObjectTables_defined
  have hknows := throwsObjectTables_knows
  generalize throwsObjectCached = m at hmd hused ⊢
  rw [← hmd] at hused hsize hdefined hknows
  have hfresh : ({ m with prepared := [], metrics := {} } : Machine).Used m.metadata.Knows := .fresh rfl rfl
  have halike : m.Alike { m with prepared := [], metrics := {} } := { Machine.Alike.refl m with }
  exact execute_ignores_cache hused hfresh halike hdefined hsize hknows [] 9

end ManagedCode
