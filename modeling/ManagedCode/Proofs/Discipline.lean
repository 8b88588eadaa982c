import ManagedCode.Proofs.Inside
import ManagedCode.Proofs.Passing
import ManagedCode.Proofs.Writes

/-!
# Frames stay in order

A frame holds the arguments, the locals and the evaluation stack of one activation in one row of slots, and every
instruction writes into that row. `Activation.Disciplined` says what no instruction upsets: the stack lies between the
locals and the end of the frame, nothing is left above its top, and an argument or local holds what its kind made. A
step keeps this (`Disciplined.step`), from whatever the machine holds and whatever host functions do, so a run does.
-/

namespace ManagedCode

/-! ## Machines -/

namespace Machine

variable {m m' m'' : Machine}

/-- In every method that is ready, each argument and local has a kind. -/
def Framed (m : Machine) : Prop := ∀ h p, m.prepared? h = some p → p.Framed

theorem Sound.framed (h : m.Sound) : m.Framed := fun k p hp => (h k p hp).framed

/-- The methods that were ready still are, and if all of them were framed, they are. -/
structure Upholds (m m' : Machine) : Prop where
  evolves : m.Evolves m'
  framed : m.Framed → m'.Framed

namespace Upholds

theorem trans (h : m.Upholds m') (h' : m'.Upholds m'') : m.Upholds m'' :=
  ⟨h.evolves.trans h'.evolves, fun hm => h'.framed (h.framed hm)⟩

theorem of_programs (h : m.SamePrograms m') : m.Upholds m' :=
  ⟨h.evolves, fun hm k p hp => hm k p ((h.prepared? k).symm.trans hp)⟩

theorem refl (m : Machine) : m.Upholds m := of_programs ⟨rfl, rfl⟩

/-- The code of a method was patched. -/
theorem set {h : MethodHandle} {p q : Prepared} (hp : m.prepared? h = some p) (he : p.Evolves q)
    (hmetadata : m'.metadata = m.metadata) (hprepared : m'.prepared = insertEntry h q m.prepared) : m.Upholds m' where
  evolves := .set hmetadata hprepared fun p' hp' => by
    cases hp.symm.trans hp'
    exact he
  framed := by
    intro hm k r hr
    rw [prepared?, hprepared, lookup_insertEntry] at hr
    by_cases hk : k == h
    · rw [if_pos hk] at hr
      cases hr
      exact he.framed (hm h p hp)
    · rw [if_neg hk] at hr
      exact hm k r hr

theorem of_readied {symbol : MethodSymbol} (h : m.Readied symbol m') : m.Upholds m' where
  evolves := h.evolves
  framed := by
    intro hm k p hp
    rcases h.ready k p hp with hk | ⟨-, body, analysis, regions, rfl⟩
    · exact hm k p hk
    · exact Prepared.framed_make symbol body analysis regions

end Upholds

end Machine

/-! ## Activations -/

namespace Activation

variable {p p' : Prepared} {a a' : Activation} {op : Opcode} {limit limit' before : Nat}

/-- **An activation in order.** Its frame has the slots of its method's layout and its stack lies among them; the slots
from `limit` on are null; and an argument or local holds what its kind made, a local maybe still its zero. -/
structure Disciplined (p : Prepared) (limit : Nat) (a : Activation) : Prop where
  layout : a.frame.layout = p.layout
  size : a.frame.size = p.layout.total
  low : p.layout.stackBase ≤ a.top
  high : a.top ≤ p.layout.total
  above : ∀ (i : Nat) v, limit ≤ i → a.frame.slots[i]? = some v → v = .null
  typed : ∀ (i : Nat) k v, p.kinds[i]? = some k → a.frame.slots[i]? = some v →
    k.Made v ∨ (p.layout.arguments ≤ i ∧ v = k.zero)

/-- **The activation is in order once the effect of its instruction is applied**, which began with the top at
`before`. -/
def Due (p : Prepared) (op : Opcode) (before : Nat) (a : Activation) : Prop :=
  match op.effect with
  | .varying => a.Disciplined p a.top
  | .fixed pops pushes => a.top = before → a.Disciplined p (max before (before - pops + pushes))

namespace Disciplined

theorem mono (h : a.Disciplined p limit) (hl : limit ≤ limit') : a.Disciplined p limit' :=
  { h with above := fun i v hi hv => h.above i v (Nat.le_trans hl hi) hv }

/-- Only the frame and the top matter. -/
theorem congr (h : a.Disciplined p limit) (hf : a'.frame = a.frame) (ht : a'.top = a.top) : a'.Disciplined p limit := by
  obtain ⟨hlayout, hsize, hlow, hhigh, habove, htyped⟩ := h
  exact ⟨hf ▸ hlayout, hf ▸ hsize, ht ▸ hlow, ht ▸ hhigh, hf ▸ habove, hf ▸ htyped⟩

theorem evolves (h : a.Disciplined p limit) (he : p.Evolves p') : a.Disciplined p' limit := by
  obtain ⟨hlayout, hsize, hlow, hhigh, habove, htyped⟩ := h
  rw [← he.layout] at hlayout hsize hlow hhigh htyped
  rw [← he.kinds] at htyped
  exact ⟨hlayout, hsize, hlow, hhigh, habove, htyped⟩

theorem wrote (h : a.Disciplined p a.top) (hw : a.Wrote p limit a') : a'.Disciplined p (max a.top limit) where
  layout := hw.frame.layout.trans h.layout
  size := hw.frame.size.trans h.size
  low := by
    rw [hw.same]
    exact h.low
  high := by
    rw [hw.same]
    exact h.high
  above := by
    intro i v hi hv
    have hlow := h.low
    rw [hw.above i (by omega) (by omega)] at hv
    exact h.above i v (by omega) hv
  typed := fun i k v hk hv => (hw.typed i k v hk hv).elim (h.typed i k v hk) .inl

/-- A value moves to the top of the stack. -/
theorem push (h : a.Disciplined p a.top) (hp : p.Framed) (hlt : a.top < a.frame.size) (v : Value) :
    ({ a with frame := a.frame.set a.top v, top := a.top + 1 } : Activation).Disciplined p (a.top + 1) := by
  have hw : a.Wrote p (a.top + 1) { a with frame := a.frame.set a.top v } := .result hp h.low (by omega) v
  have hd : ({ a with frame := a.frame.set a.top v } : Activation).Disciplined p (a.top + 1) :=
    (h.wrote hw).mono (by omega)
  have hsize := h.size
  exact ⟨hd.layout, hd.size, Nat.le_succ_of_le h.low, by show a.top + 1 ≤ _; omega, hd.above, hd.typed⟩

/-- The slots of the stack from `start` on lose their values, and the stack ends there. -/
theorem cut {f : Frame} (start stop : Nat) (h : a.Disciplined p limit) (hp : p.Framed)
    (hframe : Workspace.SameFrame a.frame f) (hlow : p.layout.stackBase ≤ start) (hhigh : start ≤ p.layout.total)
    (hl : limit ≤ max start stop) (hin : ∀ (i : Nat) v, start ≤ i → i < stop → f.slots[i]? = some v → v = .null)
    (hout : ∀ i, i < start ∨ stop ≤ i → f.slots[i]? = a.frame.slots[i]?) :
    ({ a with frame := f, top := start } : Activation).Disciplined p start where
  layout := hframe.layout.trans h.layout
  size := hframe.size.trans h.size
  low := hlow
  high := hhigh
  above := by
    intro i v hi hv
    by_cases hs : i < stop
    · exact hin i v hi hs hv
    · have hv : f.slots[i]? = some v := hv
      rw [hout i (.inr (by omega))] at hv
      exact h.above i v (by omega) hv
  typed := by
    intro i k v hk hv
    have hi := hp.lt_stackBase hk
    have hv : f.slots[i]? = some v := hv
    rw [hout i (.inl (by omega))] at hv
    exact h.typed i k v hk hv

theorem due (h : a.Disciplined p a.top) (op : Opcode) : a.Due p op a.top := by
  unfold Due
  split
  · exact h
  · exact fun _ => h.mono (by omega)

end Disciplined

end Activation

/-! ## What the parts of a step keep in order -/

namespace Workspace

variable {p : Prepared} {op : Opcode} {before dest : Nat} {w w' : Workspace}

/-- **Where control goes on, the frame is in order.** -/
theorem Moved.disciplined (h : Moved p op before dest w w') (hp : p.Framed) (hw : w.activation.Due p op before) :
    w'.activation.Disciplined p w'.activation.top := by
  obtain ⟨w₁, w₂, n, he, hn, rfl⟩ := h
  have hact : w₂.activation = w₁.activation := hn.activation
  suffices hd : w₁.activation.Disciplined p w₁.activation.top by
    rw [← hact] at hd
    exact hd.congr rfl rfl
  unfold Effected at he
  unfold Activation.Due at hw
  split at he
  · rename_i heff
    rw [heff] at hw
    rw [he]
    exact hw
  · rename_i pops pushes heff
    rw [heff] at hw
    obtain ⟨htop, hlow, hsize, rfl⟩ := he
    have hd := hw htop
    rw [hd.size] at hsize
    have hcut := hd.cut (before - pops + pushes) before hp (Frame.sameFrame_clearRange ..) (by omega) hsize (by omega)
      (fun _ _ hi hs hv => Frame.eq_null_of_clearRange hi hs hv) fun _ hi => Frame.getElem?_clearRange_outside _ hi
    exact hcut

/-- **A handler, or the target of a leave, finds the frame in order.** -/
theorem Entered.disciplined {object : Option (Option Ref)} (h : Entered p object w w') (hp : p.Framed)
    (hw : w.activation.Disciplined p w.activation.top) : w'.activation.Disciplined p w'.activation.top := by
  have htop : w'.activation.top = p.layout.stackBase + if object.isSome then 1 else 0 := h.kept.top
  have hsize : w'.activation.frame.size = p.layout.total := h.kept.frame.size.trans hw.size
  refine ⟨h.kept.frame.layout.trans hw.layout, hsize, by omega, ?_, ?_, ?_⟩
  · have hlow := hw.low
    have hhigh := hw.high
    rw [htop]
    cases ho : object with
    | none => exact Nat.le_trans hlow hhigh
    | some r =>
      have hlt := (Array.getElem?_eq_some_iff.1 (h.pushed r ho)).1
      rw [← hsize]
      exact hlt
  · intro i v hi hv
    rw [htop] at hi
    rcases h.above i v hi hv with hn | ⟨hle, hv'⟩
    · exact hn
    · exact hw.above i v hle hv'
  · intro i k v hk hv
    rw [h.below i (hp.lt_stackBase hk)] at hv
    exact hw.typed i k v hk hv

end Workspace

/-! ## Transfers of control -/

/-- The machine has the methods of `m`, and the activation is one of the method `h`. -/
structure Workspace.Within (m : Machine) (h : MethodHandle) (w : Workspace) : Prop where
  programs : m.SamePrograms w.machine
  method : w.activation.method = h

namespace ExecM

variable {α β : Type} {m : Machine} {h : MethodHandle} {p : Prepared} {pc : Nat} {op : Opcode}

/-- **A computation that leaves the frame in order**, unless it is aborted. -/
def Orders (m : Machine) (h : MethodHandle) (p : Prepared) (x : ExecM α) : Prop :=
  ∀ w : Workspace, w.Within m h → w.activation.Disciplined p w.activation.top → Meets x w
    (fun _ w' => w'.Within m h ∧ w'.activation.Disciplined p w'.activation.top)
    fun t w' => w'.Within m h ∧ (t.isAbort = true ∨ w'.activation.Disciplined p w'.activation.top)

namespace Orders

variable {x : ExecM α} {f : α → ExecM β}

theorem bind (hx : Orders m h p x) (hf : ∀ b, Orders m h p (f b)) : Orders m h p (x >>= f) :=
  fun w hw hd => Meets.bind (hx w hw hd) fun b w' ⟨hw', hd'⟩ => hf b w' hw' hd'

theorem of_looks {P : Activation → α → Prop} (hx : ∀ a, Looks m a x (P a)) : Orders m h p x := by
  intro w hw hd
  have hsame : ∀ {w' : Workspace}, w'.At m w.activation →
      w'.Within m h ∧ w'.activation.Disciplined p w'.activation.top := by
    intro w' hw'
    rw [hw'.activation]
    exact ⟨⟨hw'.programs, by rw [hw'.activation]; exact hw.method⟩, hd⟩
  exact (hx w.activation w ⟨rfl, hw.programs⟩).mono (fun _ _ h => hsame h.2)
    fun _ _ h => ⟨(hsame h).1, .inr (hsame h).2⟩

theorem pure (b : α) : Orders m h p (Pure.pure b) := of_looks (P := fun _ _ => True) fun _ => .pure trivial

theorem throw (t : Trap) : Orders m h p (MonadExcept.throw t : ExecM α) :=
  of_looks (P := fun _ _ => True) fun _ => .throw

end Orders

section

variable (hp : p.Framed)
include hp

theorem orders_pop : Orders m h p (pop p) := by
  intro w hw hd
  refine pop_meets.mono ?_ fun _ _ ⟨_, ha, heq⟩ => ⟨heq.symm ▸ hw, .inl ha⟩
  rintro v _ ⟨hlow, -, rfl⟩
  have hhigh := hd.high
  have hcut := hd.cut (w.activation.top - 1) w.activation.top hp
    (Frame.sameFrame_set w.activation.frame (w.activation.top - 1) .null) (by omega) (by omega) (by omega)
    (fun i u hi hs hu => by
      obtain rfl : i = w.activation.top - 1 := by omega
      exact Frame.eq_of_set_self hu)
    fun i hi => Array.getElem?_setIfInBounds_ne (by omega)
  exact ⟨⟨hw.programs, hw.method⟩, hcut⟩

theorem orders_popArguments (count : Nat) : Orders m h p (popArguments p count) := by
  intro w hw hd
  refine (popArguments_meets count).mono ?_ fun _ _ ⟨_, ha, hk⟩ =>
    ⟨⟨⟨hk.metadata.trans hw.programs.metadata, hk.prepared.trans hw.programs.prepared⟩, hk.method.trans hw.method⟩,
      .inl ha⟩
  rintro vs _ ⟨-, hcount, -, rfl⟩
  have hlow := hd.low
  have hhigh := hd.high
  have hcut := hd.cut (w.activation.top - count) w.activation.top hp
    (Frame.sameFrame_clearFrom count (w.activation.top - count) w.activation.frame) (by omega) (by omega) (by omega)
    (fun i u hi hs hu => Frame.eq_null_of_clearFrom _ _ _ hi (by omega) hu)
    fun i hi => Frame.getElem?_clearFrom_outside _ _ _ (by omega)
  exact ⟨⟨hw.programs, hw.method⟩, hcut⟩

theorem orders_ret : Orders m h p (ret p) := by
  have hlast : ∀ v : Option Value, Orders m h p (do
      let a ← activation
      if a.top ≠ p.layout.stackBase then fail (.invalidProgram a.pc .returnWithOperands)
      else return .ret v : ExecM Next) := by
    intro v
    refine .bind (.of_looks fun _ => looks_activation) fun a => ?_
    split
    · exact .throw _
    · exact .pure _
  unfold ret
  cases p.symbol.signature.result with
  | none => exact hlast none
  | some k =>
    exact .bind (orders_pop hp) fun v => .bind (.of_looks fun _ => looks_activation) fun a =>
      .bind (.of_looks fun _ => looks_normalize _ k v) fun u => hlast (some u)

omit hp in
theorem looks_virtualTarget {a : Activation} (target : MethodSymbol) (arguments : List Value) :
    Looks m a (virtualTarget target arguments) fun _ => True := by
  unfold virtualTarget
  split
  · exact .throw
  · refine looks_machine.bind fun m' _ => ?_
    split
    · exact looks_metadata.bind fun _ _ => (looks_ofAbort _).mono fun _ _ => trivial
    · exact .pure trivial
  · exact .pure trivial

/-- **A call takes its arguments from the stack**, and faults with the stack in order. -/
theorem orders_invoke (site : CallSite) : Orders m h p (invoke p site) := by
  refine .bind (.of_looks fun _ => looks_modifyMetrics _) fun _ => ?_
  cases site with
  | call target => exact .bind (orders_popArguments hp _) fun _ => .pure _
  | callvirt target =>
    exact .bind (orders_popArguments hp _) fun arguments =>
      .bind (.of_looks fun _ => looks_virtualTarget target arguments) fun _ => .pure _
  | newobj target type =>
    exact .bind (orders_popArguments hp _) fun _ => .bind (.of_looks fun _ => looks_metadata) fun _ =>
      .bind (.of_looks fun _ => looks_onHeap _) fun _ => .pure _
  | jmp target =>
    refine .bind (.of_looks fun _ => looks_activation) fun a => .bind ?_ fun _ => .pure _
    exact .of_looks fun _ => Maintains.mapM fun slot _ => (looks_ofEngine (a.frame.get slot)).mono fun _ _ => trivial

end

end ExecM

/-- The methods that were ready still are, and the activation is one of the same method. -/
structure Workspace.Remains (w w' : Workspace) : Prop where
  upholds : w.machine.Upholds w'.machine
  method : w'.activation.method = w.activation.method

namespace Workspace

variable {w w' w'' : Workspace}

theorem Remains.trans (h : w.Remains w') (h' : w'.Remains w'') : w.Remains w'' :=
  ⟨h.upholds.trans h'.upholds, h'.method.trans h.method⟩

theorem Within.remains (h : w'.Within w.machine w.activation.method) : w.Remains w' :=
  ⟨.of_programs h.programs, h.method⟩

theorem Kept.within (h : w.Kept w') : w'.Within w.machine w.activation.method := ⟨h.samePrograms, h.method⟩

theorem Shifted.within {u : Unwinding} (h : (w.withUnwinding u).Shifted w') :
    w'.Within w.machine w.activation.method := by
  refine ⟨h.samePrograms, ?_⟩
  obtain ⟨n, hk⟩ := h
  exact hk.method

theorem Entered.within {p : Prepared} {object : Option (Option Ref)} {u : Unwinding}
    (h : Entered p object (w.withUnwinding u) w') : w'.Within w.machine w.activation.method :=
  Shifted.within ⟨_, h.kept⟩

end Workspace

namespace ExecM

variable {p : Prepared} {pc : Nat} {op : Opcode} {w : Workspace}

/-- **What an instruction leaves**: a frame that is in order once the effect of the instruction is applied, and one that
is in order at once where it calls or raises an exception. -/
structure Behaves (p : Prepared) (op : Opcode) (w : Workspace) (r : Except Trap Next × Workspace) : Prop where
  remains : w.Remains r.2
  due : ∀ n, r.1 = .ok n → r.2.activation.Due p op w.activation.top
  calls : ∀ target arguments c, r.1 = .ok (.invoke target arguments c) →
    r.2.activation.Disciplined p r.2.activation.top
  raises : ∀ t, r.1 = .error t → t.isAbort = true ∨ r.2.activation.Disciplined p r.2.activation.top

/-- An instruction whose effect varies applies it itself. -/
theorem Behaves.of_varying {x : ExecM Next} (he : op.effect = .varying) (hx : Meets x w
    (fun _ w' => w.Remains w' ∧ w'.activation.Disciplined p w'.activation.top)
    fun t w' => w.Remains w' ∧ (t.isAbort = true ∨ w'.activation.Disciplined p w'.activation.top)) :
    Behaves p op w (x.run w) := by
  rcases hr : x.run w with ⟨t | n, w'⟩
  · obtain ⟨hw, hd⟩ := hx.of_error hr
    exact ⟨hw, (fun n hn => by cases hn), (fun _ _ _ hn => by cases hn), fun t' ht => by cases ht; exact hd⟩
  · obtain ⟨hw, hd⟩ := hx.of_ok hr
    refine ⟨hw, fun n' _ => ?_, fun _ _ _ _ => hd, fun t ht => by cases ht⟩
    unfold Activation.Due
    rw [he]
    exact hd

theorem Behaves.of_orders {x : ExecM Next} (he : op.effect = .varying)
    (hx : Orders w.machine w.activation.method p x) (hd : w.activation.Disciplined p w.activation.top) :
    Behaves p op w (x.run w) :=
  .of_varying he ((hx w ⟨⟨rfl, rfl⟩, rfl⟩ hd).mono (fun _ _ ⟨hw, hd'⟩ => ⟨hw.remains, hd'⟩)
    fun _ _ ⟨hw, hd'⟩ => ⟨hw.remains, hd'⟩)

section

variable (hp : p.Framed) (hd : w.activation.Disciplined p w.activation.top)
include hp hd

/-- Instructions that are no transfers write what the table accounts for. -/
theorem plain_behaves (hplain : op.action.isTransfer = false) : Behaves p op w ((instruction p pc op).run w) := by
  have hx := instruction_wrote hp pc w hplain
  rcases hr : (instruction p pc op).run w with ⟨t | n, w'⟩
  · have hw' := hx.of_error hr
    refine ⟨⟨.of_programs hw'.programs, congrArg _ hw'.activation⟩, (fun n hn => by cases hn),
      (fun _ _ _ hn => by cases hn), fun t _ => .inr ?_⟩
    rw [hw'.activation]
    exact hd
  · obtain ⟨hstays, hwrote, hsame⟩ := hx.of_ok hr
    have hmethod : w'.activation.method = w.activation.method := by rw [hwrote.same]
    refine ⟨⟨.of_programs hsame, hmethod⟩, fun _ _ => ?_, (fun _ _ _ hn => by cases hn; cases hstays),
      fun t ht => by cases ht⟩
    have hdue := hd.wrote hwrote
    have htop : w'.activation.top = w.activation.top := by rw [hwrote.same]
    unfold Activation.Due
    split
    · rename_i he
      have hlimit : op.limit w.activation.top = 0 := by rw [Opcode.limit, he]
      rw [hlimit] at hdue
      rw [htop]
      exact hdue.mono (by omega)
    · rename_i pops pushes he
      rw [Opcode.limit_fixed he] at hdue
      exact fun _ => hdue

theorem leave_behaves (he : op.effect = .varying) : Behaves p op w ((leave p pc).run w) := by
  refine .of_varying he (leave_enters.mono ?_ ?_)
  · rintro n w' ⟨target, dest, u, -, -, -, hent⟩
    exact ⟨hent.within.remains, hent.disciplined hp (hd.congr rfl rfl)⟩
  · rintro t w' ⟨e, -, rfl, rfl⟩
    exact ⟨⟨.refl _, rfl⟩, .inl rfl⟩

theorem endFinally_behaves (he : op.effect = .varying) : Behaves p op w ((endFinally p pc).run w) := by
  refine .of_varying he (endFinally_meets.mono ?_ fun t w' ⟨_, ha, _, u, hk⟩ => ⟨hk.within.remains, .inl ha⟩)
  rintro n w' ⟨u, ⟨dest, object, -, -, hent⟩ | ⟨e, -, rfl⟩⟩
  · exact ⟨hent.within.remains, hent.disciplined hp (hd.congr rfl rfl)⟩
  · exact ⟨⟨.of_programs ⟨rfl, rfl⟩, rfl⟩, hd.congr rfl rfl⟩

omit hp hd in
/-- A call site is added to its method, or nothing happens. -/
theorem installSite_meets (hm : w.machine.prepared? w.activation.method = some p) (site : CallSite) :
    Meets (installSite p pc site) w (fun _ w' => w.machine.Upholds w'.machine ∧ w'.activation = w.activation)
      fun t w' => t.isAbort = true ∧ w' = w := by
  unfold installSite
  refine ofEngine_bind (fun next _ => ofEngine_bind (fun bytes _ => ofEngine_bind (fun code _ => ?_) ?_) ?_) ?_
  · refine ⟨.set hm (q := { p with code, callSites := p.callSites.push site }) ?_ rfl rfl, rfl⟩
    exact ⟨rfl, #[site], by simp⟩
  · exact fun e _ => ⟨rfl, rfl⟩
  · exact fun e _ => ⟨rfl, rfl⟩
  · exact fun e _ => ⟨rfl, rfl⟩

omit hp hd in
theorem looks_resolveSite {m : Machine} {a : Activation} (kind : CallKind) (t : Token) :
    Looks m a (resolveSite kind t) fun _ => True := by
  refine (looks_resolveMethod t).bind fun target _ => ?_
  cases kind with
  | newobj => exact looks_metadata.bind fun _ _ => (looks_ofResolution _).bind fun _ _ => .pure trivial
  | _ => exact .pure trivial

theorem callSite_behaves (he : op.effect = .varying) (hm : w.machine.prepared? w.activation.method = some p)
    (kind : CallKind) : Behaves p op w ((callSite p pc kind).run w) := by
  refine .of_varying he ?_
  unfold callSite
  refine ofEngine_bind (fun t _ => ?_) fun e _ => ⟨⟨.refl _, rfl⟩, .inl rfl⟩
  have hsite := looks_resolveSite (m := w.machine) (a := w.activation) kind t w ⟨rfl, rfl, rfl⟩
  refine Meets.bind (hsite.mono (fun _ _ h => h) fun t' w₁ hw₁ => ?_) fun site w₁ ⟨_, hw₁⟩ => ?_
  · exact ⟨⟨.of_programs hw₁.programs, congrArg _ hw₁.activation⟩, .inr (by rw [hw₁.activation]; exact hd)⟩
  · have hm₁ : w₁.machine.prepared? w₁.activation.method = some p := by
      rw [hw₁.activation, hw₁.programs.prepared?]
      exact hm
    have hremains : w.Remains w₁ := ⟨.of_programs hw₁.programs, congrArg _ hw₁.activation⟩
    refine Meets.bind ((installSite_meets hm₁ site).mono (fun _ _ h => h) fun t' w₂ ⟨ha, hw₂⟩ => ?_) ?_
    · exact ⟨hw₂.symm ▸ hremains, .inl ha⟩
    · rintro _ w₂ ⟨hup, hact⟩
      have hremains₂ : w.Remains w₂ := hremains.trans ⟨hup, congrArg _ hact⟩
      have hd₂ : w₂.activation.Disciplined p w₂.activation.top := by
        rw [hact, hw₁.activation]
        exact hd
      have hinvoke := orders_invoke (m := w₂.machine) (h := w₂.activation.method) hp site w₂ ⟨⟨rfl, rfl⟩, rfl⟩ hd₂
      exact hinvoke.mono (fun _ _ ⟨hw, hd'⟩ => ⟨hremains₂.trans hw.remains, hd'⟩) fun _ _ ⟨hw, hd'⟩ =>
        ⟨hremains₂.trans hw.remains, hd'⟩

/-- **Every instruction leaves a frame that is in order once its effect is applied.** -/
theorem instruction_behaves (hm : w.machine.prepared? w.activation.method = some p) :
    Behaves p op w ((instruction p pc op).run w) := by
  cases ht : op.action.isTransfer with
  | false => exact plain_behaves hp hd ht
  | true =>
    have he := op.effect_transfer ht
    unfold instruction
    cases hact : op.action with
    | ret => exact .of_orders he (orders_ret hp) hd
    | leave => exact leave_behaves hp hd he
    | endFinally => exact endFinally_behaves hp hd he
    | callSite kind => exact callSite_behaves hp hd he hm kind
    | cachedCall =>
      refine .of_orders he ?_ hd
      refine .bind (.of_looks fun _ => looks_ofEngine _) fun i => ?_
      split
      · exact orders_invoke hp _
      · exact .throw _
    | _ => rw [hact] at ht; cases ht

end

end ExecM

/-! ## Entering a method -/

namespace Machine

/-- The arguments that a method is entered with were made by the kinds of their slots. -/
theorem normalizeAll_made : ∀ (slot : Nat) (ks : List Kind) (vs : List Value), ks.length = vs.length →
    Maintains (fun _ : Heap => True) (normalizeAll slot ks vs) (List.Forall₂ Kind.Made ks)
  | _, [], [], _ => .pure .nil
  | slot, k :: ks, v :: vs, hlen => by
    unfold normalizeAll
    refine (HeapTrapM.normalize_made slot k v).bind fun w hw => ?_
    exact (normalizeAll_made (slot + 1) ks vs (Nat.succ.inj hlen)).bind fun ws hws => .pure (.cons hw hws)

end Machine

namespace Activation

variable {p : Prepared} {values : List Value}

/-- **A method starts with its frame in order**: its arguments were narrowed, its locals are zero, and its stack is
empty. -/
theorem Disciplined.fresh (hp : p.Framed) (hv : List.Forall₂ Kind.Made p.argumentKinds values) (h : MethodHandle)
    (id : FrameId) (depth : Nat) : (Activation.fresh h (.make id p.layout values p.localKinds) p.layout.stackBase
      depth).Disciplined p p.layout.stackBase := by
  have hvalues : values.length = p.layout.arguments := by rw [← hv.length_eq, hp.arguments]
  have hslots : (Frame.make id p.layout values p.localKinds).slots = _ := Frame.slots_make hvalues hp.locals
  have hbase : (values ++ p.localKinds.map Kind.zero).length = p.layout.stackBase := by
    rw [List.length_append, List.length_map, hvalues, hp.locals, Layout.stackBase]
  refine ⟨rfl, Frame.size_make .., Nat.le_refl _, Nat.le_add_right _ _, fun i v hi hiv => ?_, fun i k v hk hiv => ?_⟩
  · replace hiv : (Frame.make id p.layout values p.localKinds).slots[i]? = some v := hiv
    rw [hslots, List.getElem?_toArray, List.getElem?_append_right (by omega)] at hiv
    exact List.eq_of_mem_replicate (List.mem_of_getElem? hiv)
  · replace hiv : (Frame.make id p.layout values p.localKinds).slots[i]? = some v := hiv
    have hi := hp.lt_stackBase hk
    rw [hslots, List.getElem?_toArray, List.getElem?_append_left (by omega)] at hiv
    by_cases hlt : i < p.layout.arguments
    · rw [List.getElem?_append_left (by omega)] at hiv
      rw [hp.kinds_argument i hlt] at hk
      obtain ⟨hi₁, rfl⟩ := List.getElem?_eq_some_iff.1 hk
      obtain ⟨hi₂, rfl⟩ := List.getElem?_eq_some_iff.1 hiv
      exact .inl (hv.get hi₁ hi₂)
    · obtain ⟨j, rfl⟩ : ∃ j, i = p.layout.localBase + j := ⟨i - p.layout.arguments, by rw [Layout.localBase]; omega⟩
      rw [hp.kinds_local j] at hk
      rw [List.getElem?_append_right (by rw [hvalues]; exact Nat.le_add_right _ _), hvalues, Layout.localBase,
        Nat.add_sub_cancel_left, List.getElem?_map, hk] at hiv
      cases hiv
      exact .inr ⟨Nat.le_add_right _ _, rfl⟩

end Activation

/-- The activation belongs to a method that is ready, and is in order. -/
def Activation.InOrder (m : Machine) (a : Activation) : Prop :=
  ∃ p, m.prepared? a.method = some p ∧ a.Disciplined p a.top

theorem Activation.InOrder.evolves {m m' : Machine} {a : Activation} (h : a.InOrder m) (he : m.Evolves m') :
    a.InOrder m' := by
  obtain ⟨p, hp, hd⟩ := h
  obtain ⟨p', hp', hev⟩ := he.prepared _ p hp
  exact ⟨p', hp', hd.evolves hev⟩

namespace Machine

variable {m : Machine}

theorem enter_inOrder (hm : m.Framed) (symbol : MethodSymbol) (arguments : List Value) :
    m.Upholds (m.enter symbol arguments).2 ∧
      ∀ a, (m.enter symbol arguments).1 = .running a → a.InOrder (m.enter symbol arguments).2 := by
  have hent := enter_enters m symbol arguments
  generalize m.enter symbol arguments = r at hent
  cases hent with
  | refused hr => exact ⟨.of_readied hr, fun a ha => by cases ha⟩
  | native _ hr _ => exact ⟨(Upholds.of_readied hr).trans (.of_programs ⟨rfl, rfl⟩), fun a ha => by cases ha⟩
  | @failed m₁ p t h depth hr _ _ =>
    refine ⟨(Upholds.of_readied hr).trans (.of_programs ?_), fun a ha => by cases ha⟩
    cases t <;> exact ⟨rfl, rfl⟩
  | @started m₁ p values h trace hr hp _ hlen hn =>
    have hup := Upholds.of_readied hr
    have hframed := hup.framed hm _ p hp
    have hvalues := (normalizeAll_made 0 p.argumentKinds arguments (hframed.arguments.trans hlen.symm) m.heap
      trivial).of_ok hn
    refine ⟨hup.trans (.of_programs ⟨rfl, rfl⟩), fun a ha => ?_⟩
    cases ha
    exact ⟨p, hp, .fresh hframed hvalues.1 _ _ _⟩

end Machine

/-! ## Runs -/

/-- **A run in which every frame is in order.** -/
structure Execution.Disciplined (x : Execution) : Prop where
  framed : x.machine.Framed
  running : ∀ a, x.control = .running a → a.InOrder x.machine
  waiting : ∀ c ∈ x.callers, c.activation.InOrder x.machine

namespace Execution

variable {x y : Execution} {w : Workspace} {p : Prepared} {op : Opcode} {before : Nat} {callers : List Caller}
  {r : Except Trap Next × Workspace}

/-- **What comes of an instruction, or of the end of a call, is in order** if it behaves. -/
theorem Settles.disciplined (hset : Settles p op w.activation.top callers r y) (hm : w.machine.Framed)
    (hp : w.machine.prepared? w.activation.method = some p) (hr : ExecM.Behaves p op w r)
    (hw : ∀ c ∈ callers, c.activation.InOrder w.machine) : y.Disciplined := by
  have hframed := hm _ p hp
  have hup := hr.remains.upholds
  -- the method of the activation may have got a call site
  have inOrder : ∀ {a : Activation} {m : Machine}, a.Disciplined p a.top → a.method = w.activation.method →
      w.machine.Evolves m → a.InOrder m := by
    intro a m hd hmethod he
    obtain ⟨p', hp', hev⟩ := he.prepared _ p hp
    exact ⟨p', by rw [hmethod]; exact hp', hd.evolves hev⟩
  have going : ∀ {m : Machine} {a : Activation}, w.machine.Upholds m → a.method = w.activation.method →
      a.Disciplined p a.top → Disciplined ⟨m, .running a, callers⟩ := by
    intro m a hu hmethod hd
    refine ⟨hu.framed hm, fun a' ha => ?_, fun c hc => (hw c hc).evolves hu.evolves⟩
    cases ha
    exact inOrder hd hmethod hu.evolves
  cases hset with
  | ended hl _ =>
    have hu := hup.trans (.of_programs hl.samePrograms)
    exact ⟨hu.framed hm, (fun a ha => by cases ha), fun c hc => (hw c hc).evolves hu.evolves⟩
  | @moved n dest w₁ w₂ _ hmoved =>
    obtain ⟨hsame, hmethod, -, -⟩ := hmoved.goes
    exact going (hup.trans (.of_programs hsame)) (hmethod.trans hr.remains.method)
      (hmoved.disciplined hframed (hr.due n rfl))
  | called target arguments c w₁ =>
    obtain ⟨hu, hstart⟩ := Machine.enter_inOrder (hup.framed hm) target arguments
    have hu := hup.trans hu
    refine ⟨hu.framed hm, hstart, fun c' hc' => ?_⟩
    rcases List.mem_cons.1 hc' with rfl | hc'
    · exact inOrder (hr.calls target arguments c rfl) hr.remains.method hu.evolves
    · exact (hw c' hc').evolves hu.evolves
  | @caught t e w₁ w₂ w₃ dest object u ht _ hent =>
    obtain ⟨hab, -, hact⟩ := Trap.raised?_some ht
    have hd : w₂.activation.Disciplined p w₂.activation.top := by
      rw [hact]
      exact (hr.raises t rfl).resolve_left (by rw [hab]; exact Bool.false_ne_true)
    have hd₃ := hent.disciplined hframed (hd.congr rfl rfl)
    exact going (hup.trans (.of_programs (caught_samePrograms ht hent)))
      ((caught_method ht hent).trans hr.remains.method) (hd₃.congr rfl rfl)

/-- The end of a call finds the frame of the activation that waited for it in order, and pushes at most one value. -/
theorem Handed.behaves {c : Continuation} {o : Outcome} (h : Handed c w o r) (hp : p.Framed)
    (hd : w.activation.Disciplined p w.activation.top) (op : Opcode) : ExecM.Behaves p op w r := by
  cases h with
  | @pushed value v _ hlt =>
    refine ⟨⟨.refl _, rfl⟩, fun _ _ => ?_, (fun _ _ _ hn => by cases hn), fun t ht => by cases ht⟩
    unfold Activation.Due
    split
    · exact hd.push hp hlt v
    · intro htop
      have htop : w.activation.top + 1 = w.activation.top := htop
      omega
  | refused ha => exact ⟨⟨.refl _, rfl⟩, (fun n hn => by cases hn), (fun _ _ _ hn => by cases hn), fun _ _ => .inr hd⟩
  | _ => exact ⟨⟨.refl _, rfl⟩, (fun _ _ => hd.due op), (fun _ _ _ _ => hd), fun _ _ => .inr hd⟩

/-- **The activation `a` that runs executes the instruction `op` of its method**, which gives `r`. -/
structure Executes (x : Execution) (a : Activation) (p : Prepared) (op : Opcode) (r : Except Trap Next × Workspace) :
    Prop where
  control : x.control = .running a
  prepared : x.machine.prepared? a.method = some p
  opcode : p.code.opcodeAt a.pc = .ok op
  result : (ExecM.instruction p a.pc op).run (announced ⟨x.machine, a⟩ op) = r

/-- **The activation that waited in `c` takes the end of its call**, with the instruction `op`, and makes `r` of it. -/
structure Resumes (x : Execution) (c : Caller) (p : Prepared) (op : Opcode) (r : Except Trap Next × Workspace) :
    Prop where
  control : ∃ o rest, x.control = .ending o ∧ x.callers = c :: rest ∧
    handed c.continuation ⟨x.machine, c.activation⟩ o = r
  prepared : x.machine.prepared? c.activation.method = some p
  opcode : p.code.opcodeAt c.activation.pc = .ok op

theorem Executes.step_eq {a : Activation} (h : x.Executes a p op r) : x.step = settle p op a.top x.callers r := by
  rw [step, h.control, ← h.result]
  exact stepInstruction_eq (w := ⟨x.machine, a⟩) h.prepared h.opcode x.callers

theorem Resumes.step_eq {c : Caller} (h : x.Resumes c p op r) :
    ∃ rest, x.callers = c :: rest ∧ x.step = settle p op c.activation.top rest r := by
  obtain ⟨o, rest, hcontrol, hcallers, rfl⟩ := h.control
  refine ⟨rest, hcallers, ?_⟩
  rw [step, hcontrol, hcallers]
  exact stepReturn_eq (w := ⟨x.machine, c.activation⟩) h.prepared h.opcode c.continuation o rest

theorem Executes.settles {a : Activation} (h : x.Executes a p op r) : Settles p op a.top x.callers r x.step := by
  rw [h.step_eq]
  exact settle_settles r

theorem Resumes.settles {c : Caller} (h : x.Resumes c p op r) :
    ∃ rest, x.callers = c :: rest ∧ Settles p op c.activation.top rest r x.step := by
  obtain ⟨rest, hcallers, hstep⟩ := h.step_eq
  exact ⟨rest, hcallers, hstep ▸ settle_settles r⟩

/-- An instruction that is executed behaves; it was announced before, which changes no method. -/
theorem Executes.behaves {a : Activation} (h : x.Executes a p op r) (hx : x.Disciplined) :
    ∃ w, w.activation = a ∧ x.machine.SamePrograms w.machine ∧ ExecM.Behaves p op w r := by
  obtain ⟨q, hq, hd⟩ := hx.running a h.control
  cases h.prepared.symm.trans hq
  have hnoted := announced_noted ⟨x.machine, a⟩ op
  have hsame := hnoted.samePrograms
  have hresult := h.result
  have hact : (announced ⟨x.machine, a⟩ op).activation = a := hnoted.activation
  generalize announced ⟨x.machine, a⟩ op = w at hsame hresult hact
  subst hact hresult
  exact ⟨w, rfl, hsame, ExecM.instruction_behaves (hx.framed _ p hq) hd ((hsame.prepared? _).trans hq)⟩

/-- So does the end of a call. -/
theorem Resumes.behaves {c : Caller} (h : x.Resumes c p op r) (hx : x.Disciplined) :
    ExecM.Behaves p op ⟨x.machine, c.activation⟩ r := by
  obtain ⟨o, rest, -, hcallers, rfl⟩ := h.control
  obtain ⟨q, hq, hd⟩ := hx.waiting c (hcallers ▸ List.mem_cons_self)
  cases h.prepared.symm.trans hq
  exact (handed_handed _ _ o).behaves (hx.framed _ p hq) hd op

/-- **One step leaves every frame in order.** -/
theorem Disciplined.step (h : x.Disciplined) : x.step.Disciplined := by
  have finishes : ∀ {a : Activation} {rest : List Caller} {o : Outcome}, (∀ c ∈ rest, c.activation.InOrder x.machine) →
      (finish ⟨x.machine, a⟩ rest o).Disciplined := fun hrest => ⟨h.framed, (fun a ha => by cases ha), hrest⟩
  cases hcontrol : x.control with
  | running a =>
    obtain ⟨p, hp, -⟩ := h.running a hcontrol
    cases ho : p.code.opcodeAt a.pc with
    | error e =>
      have hc : current ⟨x.machine, a⟩ = .error e := by simp only [current, hp, ho]
      rw [Execution.step, hcontrol]
      show (stepInstruction _ _).Disciplined
      rw [stepInstruction, hc]
      exact finishes h.waiting
    | ok op =>
      have hexecutes : x.Executes a p op _ := ⟨hcontrol, hp, ho, rfl⟩
      obtain ⟨w, rfl, hsame, hbehaves⟩ := hexecutes.behaves h
      refine hexecutes.settles.disciplined ((Machine.Upholds.of_programs hsame).framed h.framed)
        ((hsame.prepared? _).trans hp) hbehaves ?_
      exact fun c hc => (h.waiting c hc).evolves hsame.evolves
  | ending o =>
    cases hcallers : x.callers with
    | nil =>
      rw [Execution.step, hcontrol, hcallers]
      exact h
    | cons c rest =>
      obtain ⟨p, hp, -⟩ := h.waiting c (hcallers ▸ List.mem_cons_self)
      have hrest : ∀ c' ∈ rest, c'.activation.InOrder x.machine :=
        fun c' hc' => h.waiting c' (hcallers ▸ List.mem_cons_of_mem _ hc')
      cases ho : p.code.opcodeAt c.activation.pc with
      | error e =>
        have hc : current ⟨x.machine, c.activation⟩ = .error e := by simp only [current, hp, ho]
        rw [Execution.step, hcontrol, hcallers]
        show (stepReturn _ _ _ _).Disciplined
        rw [stepReturn, hc]
        dsimp only
        split <;> exact finishes hrest
      | ok op =>
        have hresumes : x.Resumes c p op _ := ⟨⟨o, rest, hcontrol, hcallers, rfl⟩, hp, ho⟩
        obtain ⟨rest', hrest', hset⟩ := hresumes.settles
        cases hcallers.symm.trans hrest'
        exact hset.disciplined (w := ⟨x.machine, c.activation⟩) h.framed hp (hresumes.behaves h) hrest

theorem disciplined_start {m : Machine} (hm : m.Framed) (symbol : MethodSymbol) (arguments : List Value) :
    (m.start symbol arguments).Disciplined := by
  obtain ⟨hu, hstart⟩ := Machine.enter_inOrder hm symbol arguments
  exact ⟨hu.framed hm, hstart, fun c hc => by cases hc⟩

/-- **A whole run leaves every frame in order.** -/
theorem Reaches.disciplined {P : Execution → Prop} (h : x.Reaches P y) (hx : x.Disciplined) : y.Disciplined := by
  induction h with
  | refl => exact hx
  | step _ _ ih => exact ih.step

end Execution

/-! ## What the invariant gives for arguments and locals -/

namespace Activation.Disciplined

variable {p : Prepared} {a : Activation} {limit i : Nat} {k : Kind}

/-- An argument or local has its slot. -/
theorem slot (h : a.Disciplined p limit) (hp : p.Framed) (hk : p.kinds[i]? = some k) :
    ∃ v, a.frame.slots[i]? = some v ∧ (k.Made v ∨ (p.layout.arguments ≤ i ∧ v = k.zero)) := by
  have hlt : i < a.frame.slots.size := by
    have hsize : a.frame.slots.size = p.layout.total := h.size
    rw [hsize, Layout.total]
    exact Nat.lt_of_lt_of_le (hp.lt_stackBase hk) (Nat.le_add_right _ _)
  exact ⟨_, Array.getElem?_eq_getElem hlt, h.typed i k _ hk (Array.getElem?_eq_getElem hlt)⟩

theorem holds (h : a.Disciplined p limit) (hp : p.Framed) (hk : p.kinds[i]? = some k) :
    ∃ v, a.frame.slots[i]? = some v ∧ k.Holds v := by
  obtain ⟨v, hv, hmade | ⟨-, hzero⟩⟩ := h.slot hp hk
  · exact ⟨v, hv, .inr hmade⟩
  · exact ⟨v, hv, .inl hzero⟩

end Activation.Disciplined

/-- **Typed slots keep their kind.** Whatever the host did with the machine before, and wherever a run of a method has
come to: an argument of the activation that runs holds what its kind made of some value, and a local that or the zero of
its kind. So a slot of a short integer kind holds a number inside the bounds of its kind. -/
theorem Execution.slots_keep_kinds {m : Machine} (hm : m.Reached) (symbol : MethodSymbol) (arguments : List Value)
    {P : Execution → Prop} {x : Execution} (hx : (m.start symbol arguments).Reaches P x) {a : Activation}
    (ha : x.control = .running a) : ∃ p, x.machine.prepared? a.method = some p ∧
      (∀ (i : Nat) k, p.argumentKinds[i]? = some k → ∃ v u, a.frame.slots[i]? = some v ∧ k.coerce u = some v) ∧
      (∀ (j : Nat) k, p.localKinds[j]? = some k → ∃ v, a.frame.slots[p.layout.localBase + j]? = some v ∧
        (v = k.zero ∨ ∃ u, k.coerce u = some v)) ∧
      ∀ (i : Nat) k lo hi, (p.argumentKinds ++ p.localKinds)[i]? = some k → k.range? = some (lo, hi) →
        ∃ n : BitVec 32, a.frame.slots[i]? = some (.int32 n) ∧ lo ≤ n.toInt ∧ n.toInt ≤ hi := by
  have hd := hx.disciplined (disciplined_start hm.sound.framed symbol arguments)
  obtain ⟨p, hp, hact⟩ := hd.running a ha
  have hframed := hd.framed _ p hp
  refine ⟨p, hp, fun i k hk => ?_, fun j k hk => ?_, fun i k lo hi hk hr => ?_⟩
  · have hi : i < p.layout.arguments := by
      rw [← hframed.arguments]
      exact (List.getElem?_eq_some_iff.1 hk).1
    rw [← hframed.kinds_argument i hi] at hk
    obtain ⟨v, hv, ⟨u, hu⟩ | ⟨hle, -⟩⟩ := hact.slot hframed hk
    · exact ⟨v, u, hv, hu⟩
    · omega
  · rw [← hframed.kinds_local j] at hk
    exact hact.holds hframed hk
  · obtain ⟨v, hv, hholds⟩ := hact.holds hframed hk
    obtain ⟨n, rfl, hbounds⟩ := hholds.in_range hr
    exact ⟨n, hv, hbounds⟩

/-- A method that stores 300 into a local of eight bits, as an integer of 64:
`ldloca.s 0`, `ldc.i4 300`, `conv.i8`, `stind.i8`, `ret`. -/
def storesWide : MethodSymbol where
  handle := ⟨3⟩
  name := "storesWide"
  declaring := Core.object
  signature := { parameters := [.char] }
  isVirtual := false
  body := some { code := #[0x12, 0, 0x20, 44, 1, 0, 0, 0x6A, 0x55, 0x2A], maxStack := 2, locals := [.i1] }

/-- The run of `storesWide` on the core tables, on a number that is no character, after the store. -/
def storesWideRun : Execution :=
  Nat.repeat Execution.step 4 ((Machine.make .core none {} {}).start storesWide [.int32 70000])

/-- The argument was narrowed to a character and the local to eight bits, as the bounds of their kinds demand. -/
theorem Execution.storesWide_keeps_kinds : ∃ a, storesWideRun.control = .running a ∧ a.pc = 9 ∧
    ∃ n k : BitVec 32, a.frame.slots[0]? = some (.int32 n) ∧ (0 ≤ n.toInt ∧ n.toInt ≤ 65535) ∧
      a.frame.slots[1]? = some (.int32 k) ∧ -128 ≤ k.toInt ∧ k.toInt ≤ 127 := by
  have hrun : storesWideRun.running?.map (fun a =>
      (a.pc, (storesWideRun.machine.prepared? a.method).map fun p => (p.argumentKinds, p.localKinds))) =
      some (9, some ([.char], [.i1])) := by decide +kernel
  obtain ⟨a, ha, hrun⟩ := Option.map_eq_some_iff.1 hrun
  simp only [Prod.mk.injEq, Option.map_eq_some_iff] at hrun
  obtain ⟨hpc, p, hp, hkinds⟩ := hrun
  have hc := Execution.running?_eq_some.1 ha
  obtain ⟨p', hp', -, -, hbounds⟩ := Execution.slots_keep_kinds (m := Machine.make .core none {} {}) (.fresh rfl)
    storesWide [.int32 70000] (P := fun _ => True) (Reaches.repeat 4 fun _ _ => trivial) hc
  cases hp.symm.trans hp'
  have hall : p.argumentKinds ++ p.localKinds = [.char, .i1] := by rw [hkinds.1, hkinds.2]; rfl
  rw [hall] at hbounds
  obtain ⟨n, hn, hn'⟩ := hbounds 0 .char 0 65535 rfl rfl
  obtain ⟨k, hk, hk'⟩ := hbounds 1 .i1 (-128) 127 rfl rfl
  exact ⟨a, hc, hpc, n, k, hn, hn', hk, hk'⟩

end ManagedCode
