import ManagedCode.Machine.Monad
import ManagedCode.Proofs.Meets

/-!
# What caches, counts and the trace do not influence

Two machines are alike when they differ at most in the methods that are ready, in their counts and in the names of
instructions in the trace. `Blind x` says of a computation that it does the same on both, leaving them alike, and that it
neither makes a method ready nor resolves a call site.
-/

namespace ManagedCode

namespace Trace

variable {t t' : Trace}

/-- All that was written, whether it has reached the sink or not. -/
def written (t : Trace) : String := t.delivered ++ t.buffer

/-- The text of a line. -/
def lineText (indent : Nat) (pieces : List String) : String :=
  String.join (List.replicate (2 * indent) " " ++ pieces ++ ["\n"])

/-- **Texts that differ in the names of instructions only**, in the lines that report the execution of one. -/
inductive SameText : String → String → Prop where
  | refl (s : String) : SameText s s
  | renamed (before after : String) (indent pc : Nat) (op op' : Opcode) :
      SameText (before ++ lineText indent [Text.label pc, ": ", op.mnemonic] ++ after)
        (before ++ lineText indent [Text.label pc, ": ", op'.mnemonic] ++ after)
  | trans {s s' s'' : String} : SameText s s' → SameText s' s'' → SameText s s''

namespace SameText

variable {s s' : String}

theorem symm (h : SameText s s') : SameText s' s := by
  induction h with
  | refl s => exact .refl s
  | renamed before after indent pc op op' => exact .renamed before after indent pc op' op
  | trans _ _ ih ih' => exact .trans ih' ih

theorem append (h : SameText s s') (text : String) : SameText (s ++ text) (s' ++ text) := by
  induction h with
  | refl s => exact .refl _
  | renamed before after indent pc op op' =>
    simp only [String.append_assoc]
    have := SameText.renamed before (after ++ text) indent pc op op'
    simpa only [String.append_assoc] using this
  | trans _ _ ih ih' => exact .trans ih ih'

theorem instruction (h : SameText s s') (indent pc : Nat) (op op' : Opcode) :
    SameText (s ++ lineText indent [Text.label pc, ": ", op.mnemonic])
      (s' ++ lineText indent [Text.label pc, ": ", op'.mnemonic]) := by
  refine .trans (h.append _) ?_
  have := SameText.renamed s' "" indent pc op op'
  simpa only [String.append_empty] using this

end SameText

/-- The traces differ in the names of instructions only. When text reaches the sink may differ as well. -/
structure Alike (t t' : Trace) : Prop where
  enabled : t'.enabled = t.enabled
  pending : t'.pending = t.pending
  interval : t'.interval = t.interval
  counts : t'.counts = t.counts
  text : SameText t.written t'.written

theorem Alike.refl (t : Trace) : t.Alike t := ⟨rfl, rfl, rfl, rfl, .refl _⟩

theorem Alike.symm (h : t.Alike t') : t'.Alike t :=
  ⟨h.enabled.symm, h.pending.symm, h.interval.symm, h.counts.symm, h.text.symm⟩

theorem Alike.trans {t'' : Trace} (h : t.Alike t') (h' : t'.Alike t'') : t.Alike t'' :=
  ⟨h'.enabled.trans h.enabled, h'.pending.trans h.pending, h'.interval.trans h.interval, h'.counts.trans h.counts,
    h.text.trans h'.text⟩

theorem write_same (t : Trace) (s : String) :
    (t.write s).written = t.written ++ s ∧
      t.write s = { t with delivered := (t.write s).delivered, buffer := (t.write s).buffer } := by
  unfold write drain written
  split
  · split
    · exact ⟨by simp, rfl⟩
    · exact ⟨by simp, rfl⟩
  · split
    · rename_i hfits hlarge
      -- a piece as large as the buffer fits only into an empty one
      have hempty : t.buffer = "" := by
        rw [← String.utf8ByteSize_eq_zero_iff]
        unfold capacity at hfits hlarge
        omega
      exact ⟨by simp [hempty], rfl⟩
    · exact ⟨by simp [String.append_assoc], rfl⟩

theorem foldl_write_same : ∀ (pieces : List String) (t : Trace),
    (pieces.foldl write t).written = t.written ++ String.join pieces ∧ pieces.foldl write t =
      { t with delivered := (pieces.foldl write t).delivered, buffer := (pieces.foldl write t).buffer }
  | [], t => ⟨by simp, rfl⟩
  | s :: pieces, t => by
    obtain ⟨hw, hs⟩ := write_same t s
    obtain ⟨hw', hs'⟩ := foldl_write_same pieces (t.write s)
    rw [List.foldl_cons]
    refine ⟨by rw [hw', hw, String.join_cons, String.append_assoc], ?_⟩
    rw [hs', hs]

/-- A line is written at the end of the text; all else that it changes does not depend on its pieces. -/
theorem line_same (t : Trace) (e : TraceEvent) (indent : Nat) (pieces : List String) (h : t.enabled = true) :
    (t.line e indent pieces).written = t.written ++ lineText indent pieces ∧
      t.line e indent pieces = { t with
        counts := t.counts.map fun (f, n) => if f = e then (f, n + 1) else (f, n)
        pending := if t.interval ≤ t.pending + 1 then 0 else t.pending + 1
        delivered := (t.line e indent pieces).delivered
        buffer := (t.line e indent pieces).buffer } := by
  obtain ⟨hw, hs⟩ := foldl_write_same (List.replicate (2 * indent) " " ++ pieces ++ ["\n"]) t
  unfold line
  rw [if_pos h]
  generalize List.foldl write t _ = u at hw hs
  dsimp only
  have hpending : u.pending = t.pending := by rw [hs]
  have hinterval : u.interval = t.interval := by rw [hs]
  have hcounts : u.counts = t.counts := by rw [hs]
  rw [hpending, hinterval, hcounts]
  split
  · refine ⟨?_, by rw [hs]; rfl⟩
    show u.delivered ++ u.buffer ++ "" = _
    rw [String.append_empty]
    exact hw
  · exact ⟨hw, by rw [hs]⟩

/-- Lines that differ in the names of instructions only leave the traces alike. -/
theorem Alike.lines (h : t.Alike t') (e : TraceEvent) {indent : Nat} {pieces pieces' : List String}
    (ht : SameText t.written t'.written →
      SameText (t.written ++ lineText indent pieces) (t'.written ++ lineText indent pieces')) :
    (t.line e indent pieces).Alike (t'.line e indent pieces') := by
  cases he : t.enabled with
  | false =>
    have he' : t'.enabled = false := h.enabled.trans he
    have hsame : t.line e indent pieces = t := by rw [line, he]; rfl
    have hsame' : t'.line e indent pieces' = t' := by rw [line, he']; rfl
    rw [hsame, hsame']
    exact h
  | true =>
    obtain ⟨hw, hs⟩ := line_same t e indent pieces he
    obtain ⟨hw', hs'⟩ := line_same t' e indent pieces' (h.enabled.trans he)
    refine ⟨?_, ?_, ?_, ?_, ?_⟩
    · rw [hs, hs']
      exact h.enabled
    · rw [hs, hs']
      show (if t'.interval ≤ t'.pending + 1 then _ else _) = if t.interval ≤ t.pending + 1 then _ else _
      rw [h.interval, h.pending]
    · rw [hs, hs']
      exact h.interval
    · rw [hs, hs']
      show t'.counts.map _ = t.counts.map _
      rw [h.counts]
    · rw [hw, hw']
      exact ht h.text

theorem Alike.line (h : t.Alike t') (e : TraceEvent) (indent : Nat) (pieces : List String) :
    (t.line e indent pieces).Alike (t'.line e indent pieces) := h.lines e fun ht => ht.append _

theorem Alike.instruction (h : t.Alike t') (indent pc : Nat) (op op' : Opcode) :
    (t.instruction indent pc op.mnemonic).Alike (t'.instruction indent pc op'.mnemonic) :=
  h.lines _ fun ht => ht.instruction indent pc op op'

end Trace

/-! ## Machines -/

/-- **The machines differ at most in the methods that are ready, in counts and in the names of instructions in the
trace.** -/
structure Machine.Alike (m m' : Machine) : Prop where
  metadata : m'.metadata = m.metadata
  heap : m'.heap = m.heap
  natives : m'.natives = m.natives
  settings : m'.settings = m.settings
  depth : m'.depth = m.depth
  nextFrame : m'.nextFrame = m.nextFrame
  trace : m.trace.Alike m'.trace

namespace Machine

variable {m m' m'' : Machine}

theorem Alike.refl (m : Machine) : m.Alike m := ⟨rfl, rfl, rfl, rfl, rfl, rfl, .refl _⟩

theorem Alike.symm (h : m.Alike m') : m'.Alike m :=
  ⟨h.metadata.symm, h.heap.symm, h.natives.symm, h.settings.symm, h.depth.symm, h.nextFrame.symm, h.trace.symm⟩

theorem Alike.trans (h : m.Alike m') (h' : m'.Alike m'') : m.Alike m'' :=
  ⟨h'.metadata.trans h.metadata, h'.heap.trans h.heap, h'.natives.trans h.natives, h'.settings.trans h.settings,
    h'.depth.trans h.depth, h'.nextFrame.trans h.nextFrame, h.trace.trans h'.trace⟩

end Machine

/-- Nothing was defined, no method was made ready, and no call site was resolved. -/
structure Machine.Untouched (m m' : Machine) : Prop where
  metadata : m'.metadata = m.metadata
  prepared : m'.prepared = m.prepared
  resolutions : m'.metrics.callSiteResolutions = m.metrics.callSiteResolutions

theorem Machine.Untouched.refl (m : Machine) : m.Untouched m := ⟨rfl, rfl, rfl⟩

theorem Machine.Untouched.trans {m m' m'' : Machine} (h : m.Untouched m') (h' : m'.Untouched m'') : m.Untouched m'' :=
  ⟨h'.metadata.trans h.metadata, h'.prepared.trans h.prepared, h'.resolutions.trans h.resolutions⟩

/-- The machines are alike, and the activations are the same. -/
structure Workspace.Alike (w v : Workspace) : Prop where
  machine : w.machine.Alike v.machine
  activation : v.activation = w.activation

theorem Workspace.Alike.refl (w : Workspace) : w.Alike w := ⟨.refl _, rfl⟩

theorem Workspace.Alike.symm {w v : Workspace} (h : w.Alike v) : v.Alike w := ⟨h.machine.symm, h.activation.symm⟩

theorem Workspace.Alike.trans {w v u : Workspace} (h : w.Alike v) (h' : v.Alike u) : w.Alike u :=
  ⟨h.machine.trans h'.machine, h'.activation.trans h.activation⟩

namespace ExecM

variable {α β : Type}

/-- **A computation that is not influenced by caches, counts and the trace**, makes no method ready and resolves no call
site. -/
structure Blind (x : ExecM α) : Prop where
  alike : ∀ w v : Workspace, w.Alike v → (x.run v).1 = (x.run w).1 ∧ (x.run w).2.Alike (x.run v).2
  untouched : ∀ w : Workspace, w.machine.Untouched (x.run w).2.machine

namespace Blind

variable {x : ExecM α} {f : α → ExecM β}

theorem pure (a : α) : Blind (pure a) := ⟨fun _ _ h => ⟨rfl, h⟩, fun _ => .refl _⟩

theorem throw (t : Trap) : Blind (throw t : ExecM α) := ⟨fun _ _ h => ⟨rfl, h⟩, fun _ => .refl _⟩

/-- Only what the first computation can give matters for the second. -/
theorem bind_of (hx : Blind x) (hf : ∀ w a w', x.run w = (.ok a, w') → Blind (f a)) : Blind (x >>= f) where
  alike := by
    intro w v h
    rw [Meets.run_bind, Meets.run_bind]
    obtain ⟨hr, hs⟩ := hx.alike w v h
    rcases hw : x.run w with ⟨r, w'⟩
    rcases hv : x.run v with ⟨r', v'⟩
    rw [hw, hv] at hr hs
    subst hr
    cases r' with
    | error t => exact ⟨rfl, hs⟩
    | ok a => exact (hf w a w' hw).alike w' v' hs
  untouched := by
    intro w
    rw [Meets.run_bind]
    have hs := hx.untouched w
    rcases hw : x.run w with ⟨r, w'⟩
    rw [hw] at hs
    cases r with
    | error t => exact hs
    | ok a => exact hs.trans ((hf w a w' hw).untouched w')

theorem bind (hx : Blind x) (hf : ∀ a, Blind (f a)) : Blind (x >>= f) := hx.bind_of fun _ a _ _ => hf a

/-- A change of the workspace that keeps machines alike. -/
theorem modify {g : Workspace → Workspace} (ha : ∀ w v : Workspace, w.Alike v → (g w).Alike (g v))
    (hu : ∀ w : Workspace, w.machine.Untouched (g w).machine) : Blind (modify g : ExecM PUnit) :=
  ⟨fun w v h => ⟨rfl, ha w v h⟩, hu⟩

theorem ofEngine (r : Except EngineError α) : Blind (ofEngine r) := by
  cases r with
  | ok a => exact .pure a
  | error e => exact .throw _

theorem ofResolution (r : Except ResolutionError α) : Blind (ofResolution r) := by
  cases r with
  | ok a => exact .pure a
  | error e => exact .throw _

theorem ofAbort (r : Except Abort α) : Blind (ofAbort r) := by
  cases r with
  | ok a => exact .pure a
  | error a => exact .throw _

theorem activation : Blind activation := ⟨fun _ _ h => ⟨congrArg Except.ok h.activation, h⟩, fun _ => .refl _⟩

theorem metadata : Blind metadata := ⟨fun _ _ h => ⟨congrArg Except.ok h.machine.metadata, h⟩, fun _ => .refl _⟩

/-- A look at the machine, of which nothing is used that may differ. -/
theorem machine {f : Machine → ExecM β} (hf : ∀ m m' : Machine, m.Alike m' → f m' = f m) (hb : ∀ m, Blind (f m)) :
    Blind (machine >>= f) where
  alike := by
    intro w v h
    obtain ⟨hr, hs⟩ := (hb w.machine).alike w v h
    show ((f v.machine).run v).1 = ((f w.machine).run w).1 ∧ ((f w.machine).run w).2.Alike ((f v.machine).run v).2
    rw [hf _ _ h.machine]
    exact ⟨hr, hs⟩
  untouched := fun w => (hb w.machine).untouched w

theorem modifyActivation (g : Activation → Activation) : Blind (modifyActivation g) :=
  .modify (fun w v h => ⟨h.machine, by show g v.activation = g w.activation; rw [h.activation]⟩) fun _ => .refl _

/-- Any count but that of resolved call sites may change. -/
theorem modifyMetrics {g : Metrics → Metrics} (hg : ∀ m, (g m).callSiteResolutions = m.callSiteResolutions) :
    Blind (modifyMetrics g) :=
  .modify (fun _ _ h => ⟨{ h.machine with }, h.activation⟩) fun _ => ⟨rfl, rfl, hg _⟩

theorem tracing {f : Trace → Nat → Trace} (hf : ∀ t t' n, t.Alike t' → (f t n).Alike (f t' n)) :
    Blind (tracing f) := by
  refine .modify (fun w v h => ⟨{ h.machine with trace := ?_ }, h.activation⟩) fun w => ⟨rfl, rfl, rfl⟩
  show (f w.machine.trace (w.activation.depth - 1)).Alike (f v.machine.trace (v.activation.depth - 1))
  rw [h.activation]
  exact hf _ _ _ h.machine.trace

theorem onHeapTrap (x : HeapTrapM α) : Blind (onHeapTrap x) where
  alike := by
    intro w v h
    show (x.run v.machine.heap).1 = (x.run w.machine.heap).1 ∧ Workspace.Alike
      ⟨{ w.machine with heap := (x.run w.machine.heap).2 }, w.activation⟩
      ⟨{ v.machine with heap := (x.run v.machine.heap).2 }, v.activation⟩
    rw [h.machine.heap]
    exact ⟨rfl, { h.machine with heap := rfl }, h.activation⟩
  untouched := fun _ => ⟨rfl, rfl, rfl⟩

theorem resolveMethod (t : Token) : Blind (resolveMethod t) := by
  refine .bind ⟨fun w v h => ⟨?_, { h.machine with }, h.activation⟩, fun _ => ⟨rfl, rfl, rfl⟩⟩ fun r => .ofResolution r
  show Except.ok (v.machine.metadata.resolveMethod t) = Except.ok (w.machine.metadata.resolveMethod t)
  rw [h.machine.metadata]

theorem put (slot : Nat) (v : Value) : Blind (put slot v) :=
  .bind .activation fun _ => .bind (.ofEngine _) fun _ => .modifyActivation _

theorem copySlot (source target : Nat) : Blind (copySlot source target) :=
  .bind .activation fun _ => .bind (.ofEngine _) fun _ => .modifyActivation _

end Blind

end ExecM

end ManagedCode
