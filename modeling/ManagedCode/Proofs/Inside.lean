import ManagedCode.Proofs.Entering
import ManagedCode.Proofs.Instructions

/-!
# Execution stays inside analyzed code

`Execution.Inside` is the invariant of a run: every method that is ready is sound, the activation that runs is at an
offset that was analyzed, and every activation that waits is at a call site of its own. One step keeps it
(`Inside.step`), so a whole run does (`Reaches.inside`), over any history of the machine (`Machine.Reached`).
-/

namespace ManagedCode

namespace Machine

variable {m m' : Machine}

/-- No method that is ready has more code than 32 bits can address. The number of a call site is an operand of 32
bits, so a larger method could have more call sites than can be told apart. -/
def Addressable (m : Machine) : Prop := ∀ h p, m.prepared? h = some p → p.declared.size ≤ 2 ^ 32

end Machine

/-- **The activation is at an analyzed offset** of its method. -/
structure Activation.Inside (m : Machine) (p : Prepared) (a : Activation) : Prop where
  prepared : m.prepared? a.method = some p
  reachable : p.analysis.isReachable a.pc = true
  leads : p.Leads m.metadata a.unwinding

/-- **The activation waits at a call site**, for a method that the site enters. -/
structure Caller.Inside (m : Machine) (p : Prepared) (c : Caller) : Prop where
  activation : c.activation.Inside m p
  site : ∃ site target, p.HasSite m.metadata c.activation.pc site ∧ site.Enters target c.continuation

/-- **The run is inside analyzed code.** -/
structure Execution.Inside (x : Execution) : Prop where
  sound : x.machine.Sound
  running : ∀ a, x.control = .running a → ∃ p, a.Inside x.machine p
  waiting : ∀ c ∈ x.callers, ∃ p, c.Inside x.machine p

section

variable {m m' : Machine} {p : Prepared}

theorem Activation.Inside.evolves {a : Activation} (h : a.Inside m p) (he : m.Evolves m') :
    ∃ p', p.Evolves p' ∧ a.Inside m' p' := by
  obtain ⟨p', hp', hev⟩ := he.prepared _ p h.prepared
  refine ⟨p', hev, hp', ?_, ?_⟩
  · rw [hev.analysis]; exact h.reachable
  · rw [he.metadata]; exact hev.leads h.leads

theorem Caller.Inside.evolves {c : Caller} (h : c.Inside m p) (he : m.Evolves m') :
    ∃ p', p.Evolves p' ∧ c.Inside m' p' := by
  obtain ⟨p', hev, ha⟩ := h.activation.evolves he
  obtain ⟨site, target, hs, ht⟩ := h.site
  exact ⟨p', hev, ha, site, target, by rw [he.metadata]; exact hev.hasSite hs, ht⟩

end

/-! ## What the parts of a step do to methods and offsets -/

namespace Workspace

variable {w w' : Workspace} {p : Prepared} {u : Unwinding}

theorem Kept.samePrograms (h : w.Kept w') : w.machine.SamePrograms w'.machine := ⟨h.metadata, h.prepared⟩

theorem Shifted.samePrograms (h : (w.withUnwinding u).Shifted w') : w.machine.SamePrograms w'.machine := by
  obtain ⟨n, hk⟩ := h
  exact ⟨hk.metadata, hk.prepared⟩

theorem Noted.samePrograms (h : w.Noted w') : w.machine.SamePrograms w'.machine := h.kept.samePrograms

/-- An activation that goes on does so in its method, at the given offset. -/
theorem Moved.goes {op : Opcode} {before dest : Nat} (h : Moved p op before dest w w') :
    w.machine.SamePrograms w'.machine ∧ w'.activation.method = w.activation.method ∧ w'.activation.pc = dest ∧
      w'.activation.unwinding = w.activation.unwinding := by
  obtain ⟨w₁, w₂, n, he, hn, rfl⟩ := h
  have hk := he.shifted.trans hn.kept
  exact ⟨⟨hk.metadata, hk.prepared⟩, hk.method, rfl, hk.unwinding⟩

end Workspace

theorem Trap.raised?_some {t : Trap} {w w₁ : Workspace} {e : GuestException} (h : t.raised? w = some (e, w₁)) :
    t.isAbort = false ∧ w.machine.SamePrograms w₁.machine ∧ w₁.activation = w.activation := by
  cases t with
  | abort a => cases h
  | thrown e' => cases h; exact ⟨rfl, ⟨rfl, rfl⟩, rfl⟩
  | fault k message => cases h; exact ⟨rfl, ⟨rfl, rfl⟩, rfl⟩

theorem Execution.Leaves.samePrograms {m m' : Machine} (h : Leaves m m') : m.SamePrograms m' :=
  ⟨by rw [h.machine], by rw [h.machine]⟩

/-- An activation that is at another analyzed offset of its method is inside. -/
theorem Activation.Inside.moved {m m' : Machine} {p : Prepared} {a a' : Activation} (h : a.Inside m p)
    (hm : m.Evolves m') (hmethod : a'.method = a.method) (hr : p.analysis.isReachable a'.pc = true)
    (hl : p.Leads m.metadata a'.unwinding) : ∃ p', p.Evolves p' ∧ a'.Inside m' p' := by
  obtain ⟨p', hp', hev⟩ := hm.prepared _ p h.prepared
  refine ⟨p', hev, hmethod ▸ hp', ?_, ?_⟩
  · rw [hev.analysis]; exact hr
  · rw [hm.metadata]; exact hev.leads hl

/-- The first instruction of a method was analyzed. -/
theorem Activation.Inside.fresh {m : Machine} {p : Prepared} {h : MethodHandle} (hs : m.Sound)
    (hp : m.prepared? h = some p) (frame : Frame) (depth : Nat) :
    (Activation.fresh h frame p.layout.stackBase depth).Inside m p where
  prepared := hp
  reachable := (hs h p hp).accepted.entered (0, []) List.mem_cons_self
  leads := fun l hl => by cases hl

/-- The offset of the activation was analyzed, and its instruction is `op` and can be read. -/
structure Activation.Readable (m : Machine) (p : Prepared) (op : Opcode) (a : Activation) : Prop where
  prepared : m.prepared? a.method = some p
  reachable : p.analysis.isReachable a.pc = true
  opcode : p.code.opcodeAt a.pc = .ok op
  next : ∃ next, p.code.nextOffset a.pc = .ok next

theorem Activation.Inside.readable {m : Machine} {p : Prepared} {a : Activation} (h : a.Inside m p) (hs : m.Sound) :
    ∃ op, a.Readable m p op := by
  have hp := hs _ p h.prepared
  obtain ⟨op₀, next, hd⟩ := hp.declares h.reachable
  obtain ⟨op, hreads⟩ := hp.readable h.reachable hd
  exact ⟨op, h.prepared, h.reachable, hreads.opcode, next, hreads.next⟩

/-- Whatever an instruction does, call sites may be resolved, and then nothing changes but slots, the heap, counts, the
height of the stack and the state of exception handling. -/
theorem ExecM.Ran.shifted {md : Metadata} {p : Prepared} {next : Nat} {w : Workspace} {op : Opcode}
    {r : Except Trap Next × Workspace} (h : Ran md p next w op r) :
    ∃ w₁ u, w.Grown w₁ ∧ (w₁.withUnwinding u).Shifted r.2 := by
  cases h with
  | plain _ _ _ _ _ hk => exact ⟨w, w.activation.unwinding, .refl w, hk.shifted⟩
  | landed _ _ _ he => exact ⟨w, _, .refl w, _, he.kept⟩
  | @called site target arguments c w₁ w' _ _ hg _ hk => exact ⟨w₁, w₁.activation.unwinding, hg, _, hk⟩
  | left _ hk => exact ⟨w, _, .refl w, hk⟩
  | trapped _ _ hg hk => exact ⟨_, _, hg, hk⟩

/-- **What a run of an instruction leaves**: the methods that were ready, and the method and offset of the
activation. -/
theorem ExecM.Ran.keeps {md : Metadata} {p : Prepared} {next : Nat} {w : Workspace} {op : Opcode}
    {r : Except Trap Next × Workspace} (h : Ran md p next w op r) : w.machine.Evolves r.2.machine ∧
      (w.machine.Sound → r.2.machine.Sound) ∧ r.2.activation.method = w.activation.method ∧
      r.2.activation.pc = w.activation.pc := by
  obtain ⟨w₁, u, hg, hk⟩ := h.shifted
  have hsame := hk.samePrograms
  obtain ⟨n, hk⟩ := hk
  refine ⟨hg.evolves.trans hsame.evolves, fun hs => hsame.sound (hg.sound hs), ?_, ?_⟩
  · have hmethod : r.2.activation.method = w₁.activation.method := hk.method
    rw [hmethod, hg.activation]
  · have hpc : r.2.activation.pc = w₁.activation.pc := hk.pc
    rw [hpc, hg.activation]

namespace Execution

variable {x : Execution}

theorem Inside.callers {m m' : Machine} {callers : List Caller} (h : ∀ c ∈ callers, ∃ p, c.Inside m p)
    (he : m.Evolves m') : ∀ c ∈ callers, ∃ p, c.Inside m' p := by
  intro c hc
  obtain ⟨p, hp⟩ := h c hc
  obtain ⟨p', -, hp'⟩ := hp.evolves he
  exact ⟨p', hp'⟩

/-- The activations of a run after something that keeps methods. -/
theorem Inside.of_running {m : Machine} {y : Execution} {a : Activation} {p : Prepared}
    (hs : y.machine.Sound) (he : m.Evolves y.machine) (hc : y.control = .running a) (ha : a.Inside y.machine p)
    (hw : ∀ c ∈ y.callers, ∃ q, c.Inside m q) : y.Inside where
  sound := hs
  running := by
    intro a' ha'
    rw [hc] at ha'
    cases ha'
    exact ⟨p, ha⟩
  waiting := Inside.callers hw he

variable {w : Workspace} {p : Prepared} {op : Opcode} {next before : Nat} {callers : List Caller}
  {r : Except Trap Next × Workspace} {y : Execution}

/-- A handler that is entered is one of the method whose instruction raised the exception. -/
theorem caught_method {t : Trap} {e : GuestException} {w w₁ w₂ : Workspace} {object : Option (Option Ref)}
    {u : Unwinding} (ht : t.raised? w = some (e, w₁)) (hent : Workspace.Entered p object (w₁.withUnwinding u) w₂) :
    w₂.activation.method = w.activation.method := by
  obtain ⟨-, -, hact⟩ := Trap.raised?_some ht
  have hmethod : w₂.activation.method = w₁.activation.method := hent.kept.method
  rw [hmethod, hact]

theorem caught_samePrograms {t : Trap} {e : GuestException} {w w₁ w₂ : Workspace} {object : Option (Option Ref)}
    {u : Unwinding} (ht : t.raised? w = some (e, w₁)) (hent : Workspace.Entered p object (w₁.withUnwinding u) w₂) :
    w.machine.SamePrograms w₂.machine := by
  obtain ⟨-, hsame, -⟩ := Trap.raised?_some ht
  exact ⟨hent.kept.metadata.trans hsame.metadata, hent.kept.prepared.trans hsame.prepared⟩

/-- A handler that is entered was analyzed. The method may have grown since its instruction was read. -/
theorem caught_inside {t : Trap} {e : GuestException} {w w₁ w₂ : Workspace} {dest : Nat} {object : Option (Option Ref)}
    {u : Unwinding} {p' : Prepared} (hs : w.machine.Sound) (hev : p.Evolves p')
    (ha : w.activation.Inside w.machine p') (ht : t.raised? w = some (e, w₁))
    (hd : w₁.activation.unwinding.dispatch w₁.machine.metadata p.regions e (w₁.machine.heap.typeOf? e.object)
      w₁.activation.pc 0 = (.ok (.resume dest object), u))
    (hent : Workspace.Entered p object (w₁.withUnwinding u) w₂) :
    w₂.machine.Sound ∧ w.machine.Evolves w₂.machine ∧ p'.Lands w.machine.metadata dest object.isSome ∧
      (w₂.goTo dest w₁.activation.backEdges).activation.Inside w₂.machine p' := by
  obtain ⟨-, -, hact⟩ := Trap.raised?_some ht
  have hsame₂ := caught_samePrograms ht hent
  rw [hact, ← hev.regions] at hd
  obtain ⟨hh, hl⟩ := Unwinding.dispatch_lands ha.leads hd
  have hland := (hs _ p' ha.prepared).lands_handler hh
  refine ⟨hsame₂.sound hs, hsame₂.evolves, hland, ?_, hland.reachable, ?_⟩
  · show w₂.machine.prepared? w₂.activation.method = some p'
    rw [caught_method ht hent, hsame₂.prepared?]
    exact ha.prepared
  · have hu : w₂.activation.unwinding = u := hent.kept.unwinding
    show p'.Leads w₂.machine.metadata w₂.activation.unwinding
    rw [hu, hsame₂.metadata]
    exact hl

/-- Control goes where the instruction says. -/
theorem Goes.target {n : Next} {q dest : Nat} (h : Goes p w n dest) (hn : p.code.nextOffset w.activation.pc = .ok next)
    (hq : n = .advance ∧ q = next ∨ n = .jump q) : q = dest := by
  rcases h with ⟨rfl, hto⟩ | rfl
  · rcases hq with ⟨-, rfl⟩ | hq
    · rw [hn] at hto
      exact Except.ok.inj hto
    · cases hq
  · rcases hq with ⟨hq, -⟩ | hq
    · cases hq
    · exact (Next.jump.inj hq).symm

/-- **How control comes to another offset of its method**: along an edge of the code, by an instruction that is no
transfer, or into a handler or to the target of a leave. -/
inductive Travels (md : Metadata) (p : Prepared) (next : Nat) (w : Workspace) (op : Opcode) (dest : Nat)
    (w' : Workspace) : Prop where
  | along : p.Declares w.activation.pc op next → op.action.isTransfer = false → op.action ≠ .callIndirect →
      p.Edge md w.activation.pc ⟨dest, false⟩ → w.Kept w' → Travels md p next w op dest w'
  | landed {object : Option (Option Ref)} {u : Unwinding} : op.effect = .varying → p.Lands md dest object.isSome →
      p.Leads md u → Workspace.Entered p object (w.withUnwinding u) w' → Travels md p next w op dest w'

/-- An instruction after which the activation goes on asked for no call and did not end it. -/
theorem Goes.travels {md : Metadata} {n : Next} {dest : Nat} {w' : Workspace} (hgo : Goes p w' n dest)
    (hran : ExecM.Ran md p next w op (.ok n, w')) (hn : p.code.nextOffset w.activation.pc = .ok next) :
    Travels md p next w op dest w' := by
  have hpc : w'.activation.pc = w.activation.pc := hran.keeps.2.2.2
  cases hran with
  | plain hd hplain hi hq he hk =>
    have hdest := hgo.target (by rw [hpc]; exact hn) hq
    exact .along hd hplain hi (hdest ▸ he) hk
  | landed heff hland hl hent =>
    rcases hgo with ⟨h, -⟩ | h
    · cases h
    · cases h
      exact .landed heff hland hl hent
  | called => rcases hgo with ⟨h, -⟩ | h <;> cases h
  | left hleft =>
    rcases hleft with ⟨v, rfl⟩ | ⟨e, rfl⟩
    · rcases hgo with ⟨h, -⟩ | h <;> cases h
    · rcases hgo with ⟨h, -⟩ | h <;> cases h

/-- Either way it comes to an analyzed offset, and the state of exception handling leads to analyzed handlers. -/
theorem Travels.inside {md : Metadata} {dest : Nat} {w' : Workspace} (h : Travels md p next w op dest w')
    (hl : p.Leads md w.activation.unwinding) :
    p.analysis.isReachable dest = true ∧ p.Leads md w'.activation.unwinding := by
  cases h with
  | along _ _ _ he hk =>
    refine ⟨he.reachable, ?_⟩
    rw [hk.unwinding]
    exact hl
  | @landed object u _ hland hl' hent =>
    have hu : w'.activation.unwinding = u := hent.kept.unwinding
    refine ⟨hland.reachable, ?_⟩
    rw [hu]
    exact hl'

/-- An instruction that raised an exception left its activation where it was. -/
theorem trapped_inside {md : Metadata} {t : Trap} {w' : Workspace} (h : ExecM.Ran md p next w op (.error t, w'))
    (ht : t.isAbort = false) (ha : w.activation.Inside w.machine p) :
    ∃ p', p.Evolves p' ∧ w'.activation.Inside w'.machine p' := by
  obtain ⟨hev, -, hmethod, hpc⟩ := h.keeps
  cases h with
  | @trapped _ u w₁ _ ho hab hg hk =>
    have hu : w'.activation.unwinding = w.activation.unwinding := by
      rcases hab with hab | rfl
      · rw [ht] at hab
        cases hab
      · obtain ⟨n, hk⟩ := hk
        exact hk.unwinding
    exact ha.moved hev hmethod (hpc ▸ ha.reachable) (hu ▸ ha.leads)

/-- **What comes of an analyzed instruction is inside analyzed code.** -/
theorem Settles.inside (hset : Settles p op before callers r y) (hs : w.machine.Sound)
    (ha : w.activation.Inside w.machine p) (hw : ∀ c ∈ callers, ∃ q, c.Inside w.machine q)
    (hn : p.code.nextOffset w.activation.pc = .ok next) (hran : ExecM.Ran w.machine.metadata p next w op r) :
    y.Inside ∧ w.machine.Evolves y.machine := by
  obtain ⟨hev, hsound, hmethod, hpc⟩ := hran.keeps
  have hsound := hsound hs
  cases hset with
  | ended hl _ =>
    have hsame := hl.samePrograms
    refine ⟨⟨hsame.sound hsound, (fun a h => by cases h), ?_⟩, hev.trans hsame.evolves⟩
    exact Inside.callers hw (hev.trans hsame.evolves)
  | @moved n dest w₁ w₂ hgo hm =>
    obtain ⟨hsame, hmethod₂, hpc₂, hu₂⟩ := hm.goes
    have hev₂ := hev.trans hsame.evolves
    have hto := (hgo.travels hran hn).inside ha.leads
    rw [← hpc₂, ← hu₂] at hto
    obtain ⟨p', -, hin⟩ := ha.moved hev₂ (hmethod₂.trans hmethod) hto.1 hto.2
    exact ⟨.of_running (hsame.sound hsound) hev₂ rfl hin hw, hev₂⟩
  | called target arguments c w₁ =>
    obtain ⟨site, w₂, hsite, hent, hg, hh, hk⟩ := hran.of_invoke
    have hu : w₁.activation.unwinding = w₂.activation.unwinding := hk.unwinding
    have hpc₁ : w₁.activation.pc = w.activation.pc := hpc
    obtain ⟨hsound', hev', hstart⟩ := Machine.enter_sound hsound target arguments
    have hev₂ := hev.trans hev'
    obtain ⟨p', hp', hin⟩ := ha.moved hev₂ hmethod (hpc₁ ▸ ha.reachable) (by rw [hu, hg.activation]; exact ha.leads)
    have hcaller : Caller.Inside (w₁.machine.enter target arguments).2 p' ⟨w₁.activation, c⟩ := by
      refine ⟨hin, site, target, ?_, hent⟩
      rw [hev₂.metadata, hpc₁]
      exact hp'.hasSite hsite
    refine ⟨⟨hsound', ?_, ?_⟩, hev₂⟩
    · intro a hrun
      obtain ⟨q, frame, depth, hq, rfl, -, -⟩ := hstart a hrun
      exact ⟨q, .fresh hsound' hq frame depth⟩
    · intro c' hc'
      rcases List.mem_cons.1 hc' with rfl | hc'
      · exact ⟨p', hcaller⟩
      · exact Inside.callers hw hev₂ c' hc'
  | @caught t e w₁ w₂ w₃ dest object u ht hd hent =>
    obtain ⟨p', hp', hin⟩ := trapped_inside hran (Trap.raised?_some ht).1 ha
    obtain ⟨hsound₃, hev₃, -, hin₃⟩ := caught_inside hsound hp' hin ht hd hent
    exact ⟨.of_running hsound₃ (hev.trans hev₃) rfl hin₃ hw, hev.trans hev₃⟩

/-- Control may come back to a call site, unless it is a jump to another method. -/
theorem edge_of_site {site : CallSite} {target : MethodSymbol} {c : Continuation} {pc : Nat} {md : Metadata}
    (hs : p.Sound md) (hsite : p.HasSite md pc site) (hent : site.Enters target c) (hc : c ≠ .returnResult)
    (hn : p.code.nextOffset pc = .ok next) : p.Edge md pc ⟨next, false⟩ := by
  obtain ⟨op, next', hd⟩ := hs.declares hsite.reachable
  obtain ⟨op', hreads⟩ := hs.readable hsite.reachable hd
  cases hn.symm.trans hreads.next
  obtain ⟨op₀, hop, hact⟩ := hsite.opcode
  cases hd.opcode.symm.trans hop
  refine hs.edge_next hsite.reachable hd ?_
  rw [Opcode.endsBlock_eq, hact]
  cases hent with
  | call m => rfl
  | callvirt m target => rfl
  | newobj m type r => rfl
  | jmp m => exact absurd rfl hc

/-- The end of a call leaves the machine and the place of the activation as they were. -/
theorem Handed.keeps {c : Continuation} {o : Outcome} (h : Handed c w o r) : r.2.machine = w.machine ∧
    r.2.activation.method = w.activation.method ∧ r.2.activation.pc = w.activation.pc ∧
    r.2.activation.unwinding = w.activation.unwinding := by
  cases h <;> exact ⟨rfl, rfl, rfl, rfl⟩

/-- An exception that comes of it is raised where the activation waited. -/
theorem Handed.of_error {c : Continuation} {o : Outcome} {t : Trap} {w' : Workspace}
    (h : Handed c w o (.error t, w')) : w' = w := by
  cases h <;> rfl

/-- An activation that goes on then does so behind the call, which has not failed and was no jump. -/
theorem Handed.goes {c : Continuation} {o : Outcome} {n : Next} {dest : Nat} {w' : Workspace}
    (h : Handed c w o (.ok n, w')) (hgo : Goes p w' n dest) :
    n = .advance ∧ c ≠ .returnResult ∧ (∃ value, o = .ok value) ∧ p.code.nextOffset w.activation.pc = .ok dest := by
  obtain ⟨-, -, hpc, -⟩ := h.keeps
  have hadvance : n = .advance ∧ c ≠ .returnResult ∧ ∃ value, o = .ok value := by
    cases h with
    | returned hc => rcases hgo with ⟨h, -⟩ | h <;> cases h
    | dropped hc => exact ⟨rfl, by rw [hc]; exact Continuation.noConfusion, _, rfl⟩
    | pushed hv =>
      refine ⟨rfl, ?_, _, rfl⟩
      rintro rfl
      cases hv
  obtain ⟨rfl, hc, ho⟩ := hadvance
  refine ⟨rfl, hc, ho, ?_⟩
  rcases hgo with ⟨-, hto⟩ | hto
  · rw [← hpc]
    exact hto
  · cases hto

/-- **What comes of the end of a call is inside analyzed code.** -/
theorem Settles.inside_return {c : Continuation} {o : Outcome} (hset : Settles p op before callers r y)
    (hr : Handed c w o r) (hs : w.machine.Sound) (ha : Caller.Inside w.machine p ⟨w.activation, c⟩)
    (hw : ∀ c ∈ callers, ∃ q, c.Inside w.machine q) : y.Inside ∧ w.machine.Evolves y.machine := by
  obtain ⟨hmachine, hmethod, hpc, hu⟩ := hr.keeps
  have hin := ha.activation
  cases hset with
  | ended hl _ =>
    have hsame := hl.samePrograms
    rw [hmachine] at hsame
    exact ⟨⟨hsame.sound hs, (fun a h => by cases h), Inside.callers hw hsame.evolves⟩, hsame.evolves⟩
  | called target arguments c' w₁ => cases hr
  | @caught t e w₁ w₂ w₃ dest object u ht hd hent =>
    obtain rfl := hr.of_error
    obtain ⟨hsound, hev, -, hin'⟩ := caught_inside hs (.refl p) hin ht hd hent
    exact ⟨.of_running hsound hev rfl hin' hw, hev⟩
  | @moved n dest w₁ w₂ hgo hm =>
    obtain ⟨hsame, hmethod₂, hpc₂, hu₂⟩ := hm.goes
    rw [hmachine] at hsame
    obtain ⟨site, target, hsite, hent⟩ := ha.site
    obtain ⟨-, hc, -, hto⟩ := hr.goes hgo
    have hedge := edge_of_site (hs _ p hin.prepared) hsite hent hc hto
    have hleads : p.Leads w.machine.metadata w₂.activation.unwinding := by
      rw [hu₂, hu]
      exact hin.leads
    obtain ⟨p', -, hin'⟩ := hin.moved hsame.evolves (hmethod₂.trans hmethod) (hpc₂ ▸ hedge.reachable) hleads
    exact ⟨.of_running (hsame.sound hs) hsame.evolves rfl hin' hw, hsame.evolves⟩

/-! ## Runs -/

/-- The instruction of an activation inside analyzed code, when the trace has it. -/
theorem announced_ran {m : Machine} {a : Activation} (hs : m.Sound) (hn : m.Addressable) (ha : a.Inside m p)
    (hop : p.code.opcodeAt a.pc = .ok op) : (announced ⟨m, a⟩ op).activation.Inside (announced ⟨m, a⟩ op).machine p ∧
      ∃ next, p.code.nextOffset a.pc = .ok next ∧
        ExecM.Ran m.metadata p next (announced ⟨m, a⟩ op) op ((ExecM.instruction p a.pc op).run (announced ⟨m, a⟩ op)) := by
  have hnoted := announced_noted ⟨m, a⟩ op
  have hsame := hnoted.samePrograms
  have hact : (announced ⟨m, a⟩ op).activation = a := hnoted.activation
  generalize announced ⟨m, a⟩ op = w at hnoted hsame hact
  have ha' : w.activation.Inside w.machine p := by
    rw [hact]
    exact ⟨(hsame.prepared? _).trans ha.prepared, ha.reachable, by rw [hsame.metadata]; exact ha.leads⟩
  obtain ⟨next, hnext, hran⟩ := ExecM.instruction_ran (w := w) (hsame.sound hs _ p ha'.prepared) rfl ha'.prepared
    (hn _ p ha.prepared) ha'.reachable ha'.leads (by rw [hact]; exact hop)
  rw [hact] at hnext hran
  rw [show w.machine.metadata = m.metadata from hsame.metadata] at hran
  exact ⟨ha', next, hnext, hran⟩

/-- **The step executes an instruction that was analyzed**, `op` of the method `p`, in the workspace `w`. -/
structure Executing (x : Execution) (p : Prepared) (op : Opcode) (next : Nat) (w : Workspace) : Prop where
  control : x.control = .running w.activation
  noted : Workspace.Noted ⟨x.machine, w.activation⟩ w
  sound : w.machine.Sound
  inside : w.activation.Inside w.machine p
  opcode : p.code.opcodeAt w.activation.pc = .ok op
  ran : ExecM.Ran w.machine.metadata p next w op ((ExecM.instruction p w.activation.pc op).run w)
  settles : Settles p op w.activation.top x.callers ((ExecM.instruction p w.activation.pc op).run w) x.step
  next : p.code.nextOffset w.activation.pc = .ok next

/-- **The step gives the end `o` of a call to the activation that waited for it** in `c`, at an instruction that was
analyzed; the activation makes `r` of it. -/
structure Returning (x : Execution) (c : Caller) (callers : List Caller) (o : Outcome) (p : Prepared) (op : Opcode)
    (r : Except Trap Next × Workspace) : Prop where
  control : x.control = .ending o
  inside : c.Inside x.machine p
  opcode : p.code.opcodeAt c.activation.pc = .ok op
  handed : Handed c.continuation ⟨x.machine, c.activation⟩ o r
  settles : Settles p op c.activation.top callers r x.step
  callers : x.callers = c :: callers

theorem Executing.samePrograms (h : x.Executing p op next w) : x.machine.SamePrograms w.machine := h.noted.samePrograms

theorem Inside.executing {a : Activation} (h : x.Inside) (hn : x.machine.Addressable) (hc : x.control = .running a) :
    ∃ p op next w, w.activation = a ∧ x.Executing p op next w := by
  obtain ⟨p, ha⟩ := h.running a hc
  obtain ⟨op, hop⟩ := ha.readable h.sound
  obtain ⟨ha', next, hnext, hran⟩ := announced_ran h.sound hn ha hop.opcode
  have hset : Settles p op a.top x.callers ((ExecM.instruction p a.pc op).run (announced ⟨x.machine, a⟩ op)) x.step := by
    rw [Execution.step, hc]
    exact stepInstruction_settles (w := ⟨x.machine, a⟩) ha.prepared hop.opcode x.callers
  have hnoted := announced_noted ⟨x.machine, a⟩ op
  have hact : (announced ⟨x.machine, a⟩ op).activation = a := hnoted.activation
  have hmd : (announced ⟨x.machine, a⟩ op).machine.metadata = x.machine.metadata := hnoted.samePrograms.metadata
  refine ⟨p, op, next, _, hact, ?_, ?_, hnoted.samePrograms.sound h.sound, ha', ?_, ?_, ?_, ?_⟩
  all_goals rw [hact]
  · exact hc
  · exact hnoted
  · exact hop.opcode
  · rw [hmd]
    exact hran
  · exact hset
  · exact hnext

theorem Inside.returning {o : Outcome} {c : Caller} {callers : List Caller} (h : x.Inside) (ho : x.control = .ending o)
    (hc : x.callers = c :: callers) : ∃ p op r, x.Returning c callers o p op r := by
  obtain ⟨p, hin⟩ := h.waiting c (hc ▸ List.mem_cons_self)
  obtain ⟨op, hop⟩ := hin.activation.readable h.sound
  refine ⟨p, op, _, ho, hin, hop.opcode, handed_handed _ _ o, ?_, hc⟩
  rw [Execution.step, ho, hc]
  exact stepReturn_settles (w := ⟨x.machine, c.activation⟩) hin.activation.prepared hop.opcode c.continuation o callers

/-- **What a step of a run inside analyzed code is.** -/
inductive Steps (x : Execution) : Prop where
  | executes {p : Prepared} {op : Opcode} {next : Nat} {w : Workspace} : x.Executing p op next w → Steps x
  | returns {c : Caller} {callers : List Caller} {o : Outcome} {p : Prepared} {op : Opcode}
      {r : Except Trap Next × Workspace} : x.Returning c callers o p op r → Steps x
  /-- The call of the host has ended. -/
  | ended : x.step = x → Steps x

/-- The list is complete. -/
theorem Inside.steps (h : x.Inside) (hn : x.machine.Addressable) : x.Steps := by
  cases hcontrol : x.control with
  | running a =>
    obtain ⟨p, op, next, w, -, hx⟩ := h.executing hn hcontrol
    exact .executes hx
  | ending o =>
    cases hcallers : x.callers with
    | nil => exact .ended (by rw [Execution.step, hcontrol, hcallers])
    | cons c callers =>
      obtain ⟨p, op, r, hx⟩ := h.returning hcontrol hcallers
      exact .returns hx

theorem Executing.keeps (h : x.Executing p op next w) (hin : x.Inside) :
    x.step.Inside ∧ w.machine.Evolves x.step.machine :=
  h.settles.inside h.sound h.inside (Inside.callers hin.waiting h.samePrograms.evolves) h.next h.ran

/-- **One step stays inside analyzed code.** -/
theorem Inside.step (h : x.Inside) (hn : x.machine.Addressable) :
    x.step.Inside ∧ x.machine.Evolves x.step.machine := by
  cases h.steps hn with
  | executes hx =>
    obtain ⟨hin, hev⟩ := hx.keeps h
    exact ⟨hin, hx.samePrograms.evolves.trans hev⟩
  | @returns c _ _ _ _ _ hx =>
    refine hx.settles.inside_return (w := ⟨x.machine, c.activation⟩) hx.handed h.sound hx.inside fun c' hc' => ?_
    exact h.waiting c' (hx.callers ▸ List.mem_cons_of_mem _ hc')
  | ended hstep =>
    rw [hstep]
    exact ⟨h, .refl _⟩

/-- **A run** along which `P` holds. -/
inductive Reaches (P : Execution → Prop) (x : Execution) : Execution → Prop where
  | refl : P x → Reaches P x x
  | step {y : Execution} : Reaches P x y → P y.step → Reaches P x y.step

/-- The code of every method that is ready can be addressed. -/
def Addressable (x : Execution) : Prop := x.machine.Addressable

variable {P Q : Execution → Prop}

theorem Reaches.holds {y : Execution} (h : x.Reaches P y) : P y := by
  cases h with
  | refl hx => exact hx
  | step _ hy => exact hy

theorem Reaches.mono {y : Execution} (h : x.Reaches P y) (hP : ∀ z, P z → Q z) : x.Reaches Q y := by
  induction h with
  | refl hx => exact .refl (hP _ hx)
  | step _ hy ih => exact .step ih (hP _ hy)

theorem Reaches.repeat (n : Nat) (h : ∀ i ≤ n, P (i.repeat Execution.step x)) :
    x.Reaches P (n.repeat Execution.step x) := by
  induction n with
  | zero => exact .refl (h 0 (Nat.le_refl 0))
  | succ n ih => exact .step (ih fun i hi => h i (Nat.le_succ_of_le hi)) (h (n + 1) (Nat.le_refl _))

/-- **A run stays inside analyzed code.** -/
theorem Reaches.inside {y : Execution} (h : x.Reaches Addressable y) (hx : x.Inside) :
    y.Inside ∧ x.machine.Evolves y.machine := by
  induction h with
  | refl => exact ⟨hx, .refl _⟩
  | step h _ ih =>
    obtain ⟨hin, hev⟩ := ih
    obtain ⟨hin', hev'⟩ := hin.step h.holds
    exact ⟨hin', hev.trans hev'⟩

end Execution

namespace Machine

variable {m : Machine}

/-- The runs that the host can begin: a call of a method, or one that goes on in a frame. -/
inductive Begins (m : Machine) : Execution → Prop where
  | start (symbol : MethodSymbol) (arguments : List Value) : Begins m (m.start symbol arguments)
  | restart (symbol : MethodSymbol) (frame : Frame) (offset top : Nat) : Begins m (m.restart symbol frame offset top)

/-- **The machines that a host can bring about.** It begins with no method ready; it makes methods ready and runs them,
may stop a run anywhere, defines more of the program, and does with all else as it likes. -/
inductive Reached : Machine → Prop where
  | fresh {m : Machine} : m.prepared = [] → Reached m
  | changed {m m' : Machine} : Reached m → m.SamePrograms m' → Reached m'
  | defined {m m' : Machine} : Reached m → m.metadata.Defines m'.metadata → m'.prepared = m.prepared → Reached m'
  | prepared {m : Machine} (symbol : MethodSymbol) : Reached m → Reached (m.prepare symbol).2
  | ran {m : Machine} {x y : Execution} : Reached m → m.Begins x → x.Reaches Execution.Addressable y →
      Reached y.machine

theorem Begins.inside {x : Execution} (h : m.Begins x) (hs : m.Sound) : x.Inside := by
  cases h with
  | start symbol arguments =>
    obtain ⟨hs', -, hrun⟩ := enter_sound hs symbol arguments
    refine ⟨hs', fun a ha => ?_, fun c hc => by cases hc⟩
    obtain ⟨p, frame, depth, hp, rfl, -⟩ := hrun a ha
    exact ⟨p, .fresh hs' hp frame depth⟩
  | restart symbol frame offset top =>
    obtain ⟨hs', -, hrun⟩ := reenter_sound hs symbol frame offset top
    refine ⟨hs', fun a ha => ?_, fun c hc => by cases hc⟩
    obtain ⟨p, depth, hp, rfl, -, -, hdepth⟩ := hrun a ha
    refine ⟨p, hp, ?_, fun l hl => by cases hl⟩
    show (p.analysis.depth? offset).isSome = true
    rw [hdepth]
    rfl

theorem Begins.metadata {x : Execution} (h : m.Begins x) (hs : m.Sound) : x.machine.metadata = m.metadata := by
  cases h with
  | start symbol arguments => exact (enter_sound hs symbol arguments).2.1.metadata
  | restart symbol frame offset top => exact (reenter_sound hs symbol frame offset top).2.1.metadata

/-- **Whatever the host did, every method that is ready is sound.** -/
theorem Reached.sound (h : m.Reached) : m.Sound := by
  induction h with
  | fresh hp =>
    intro k p hk
    rw [prepared?, hp] at hk
    cases hk
  | changed _ hsame ih => exact hsame.sound ih
  | defined _ hdef hp ih =>
    intro k p hk
    rw [prepared?, hp] at hk
    exact (ih k p hk).extends hdef.extends
  | prepared symbol _ ih => exact (prepare_readied _ symbol).sound ih
  | ran _ hb hr ih => exact (hr.inside (hb.inside ih)).1.sound

end Machine

/-! ## What the invariant gives -/

/-- The instruction of an activation inside analyzed code is executed without a report of missing analysis. -/
theorem Activation.Inside.executes {m : Machine} {p : Prepared} {a : Activation} {op : Opcode} {w w' : Workspace}
    {e : EngineError} (h : a.Inside m p) (hs : m.Sound) (hn : m.Addressable) (hop : p.code.opcodeAt a.pc = .ok op)
    (hw : Workspace.Noted ⟨m, a⟩ w) (hrun : (ExecM.instruction p a.pc op).run w = (.error (.ofError e), w')) :
    e.isUnanalyzed = false := by
  have hsame := hw.samePrograms
  have hact : w.activation = a := hw.activation
  have hp : w.machine.prepared? w.activation.method = some p := by
    rw [hact, hsame.prepared?]
    exact h.prepared
  obtain ⟨next, -, hran⟩ := ExecM.instruction_ran (hsame.sound hs _ p hp) rfl hp (hn _ p h.prepared)
    (by rw [hact]; exact h.reachable) (by rw [hact, hsame.metadata]; exact h.leads) (by rw [hact]; exact hop)
  rw [hact, hrun] at hran
  cases hran with
  | trapped ho =>
    cases he : e.isUnanalyzed with
    | false => rfl
    | true =>
      rw [Trap.ofError, Trap.isOrdinary, he] at ho
      cases ho

/-- **Execution stays inside analyzed code.** Whatever the host did with the machine before, and wherever a run of it
has come to: the offset of the activation that runs is one that the analysis reached, its instruction and the next
offset can be read, and executing it never reports a truncated or unknown instruction or one without operand types; and
the activations that wait are at such offsets too. -/
theorem Execution.stays_inside_analyzed_code {m : Machine} {x₀ x : Execution} (hm : m.Reached) (hb : m.Begins x₀)
    (hx : x₀.Reaches Addressable x) :
    (∀ a, x.control = .running a → ∃ p op, a.Readable x.machine p op ∧ ∀ w e w', Workspace.Noted ⟨x.machine, a⟩ w →
      (ExecM.instruction p a.pc op).run w = (.error (.ofError e), w') → e.isUnanalyzed = false) ∧
    ∀ c ∈ x.callers, ∃ p op, c.activation.Readable x.machine p op := by
  obtain ⟨hin, -⟩ := hx.inside (hb.inside hm.sound)
  refine ⟨fun a ha => ?_, fun c hc => ?_⟩
  · obtain ⟨p, hp⟩ := hin.running a ha
    obtain ⟨op, hop⟩ := hp.readable hin.sound
    exact ⟨p, op, hop, fun w e w' hw hrun => hp.executes hin.sound hx.holds hop.opcode hw hrun⟩
  · obtain ⟨p, hp⟩ := hin.waiting c hc
    obtain ⟨op, hop⟩ := hp.activation.readable hin.sound
    exact ⟨p, op, hop⟩

/-! ## A run that constructs, throws and catches -/

/-- A method that throws a fresh object and catches it:
`newobj`, `throw`, and a handler of `pop` and `leave.s` to the final `ret`. -/
def throwsObject : MethodSymbol where
  handle := ⟨3⟩
  name := "throwsObject"
  declaring := Core.object
  signature := {}
  isVirtual := false
  body :=
    some {
      code := #[0x73, 1, 0, 0, 6, 0x7A, 0x26, 0xDE, 0, 0x2A]
      maxStack := 1
      regions := [⟨⟨0, 6⟩, ⟨6, 3⟩, .catchType Core.object.token⟩] }

/-- The run of `throwsObject` on the core tables, after a number of steps. -/
def throwsObjectRun (steps : Nat) : Execution :=
  steps.repeat Execution.step ((Machine.make .core none {} {}).start throwsObject [])

theorem Machine.addressable_of_all {m : Machine} (h : m.prepared.all (fun e => e.2.declared.size ≤ 2 ^ 32) = true) :
    m.Addressable := by
  intro k p hp
  unfold prepared? at hp
  generalize m.prepared = l at h hp
  induction l with
  | nil => cases hp
  | cons e l ih =>
    rw [List.all_cons, Bool.and_eq_true, decide_eq_true_eq] at h
    rw [List.lookup_cons] at hp
    split at hp
    · cases hp; exact h.1
    · exact ih h.2 hp

theorem throwsObjectRun_reaches {P : Execution → Prop} (n : Nat) (h : ∀ i ≤ n, P (throwsObjectRun i)) :
    (throwsObjectRun 0).Reaches P (throwsObjectRun n) := by
  rw [throwsObjectRun, throwsObjectRun, Nat.repeat]
  exact .repeat n h

theorem throwsObjectRun_addressable {i : Nat} (hi : i ≤ 3) : (throwsObjectRun i).Addressable := by
  have hall : ∀ j < 4, (throwsObjectRun j).machine.prepared.all
      (fun e => decide (e.2.declared.size ≤ 2 ^ 32)) = true := by decide +kernel
  exact Machine.addressable_of_all (hall i (by omega))

theorem throwsObjectRun_begins : (Machine.make .core none {} {}).Begins (throwsObjectRun 0) := by
  rw [throwsObjectRun, Nat.repeat]
  exact .start throwsObject []

/-- After three steps the exception is caught. -/
theorem throwsObjectRun_three : ∃ a, (throwsObjectRun 3).control = .running a ∧ a.pc = 6 ∧ a.method = ⟨3⟩ := by
  have h : (throwsObjectRun 3).running?.map (fun a => (a.pc, a.method)) = some (6, ⟨3⟩) := by decide +kernel
  obtain ⟨a, ha, h⟩ := Option.map_eq_some_iff.1 h
  exact ⟨a, Execution.running?_eq_some.1 ha, Prod.mk.inj h⟩

/-- In the handler the run is at an offset that the analysis reached, and its instruction can be read. -/
theorem Execution.throwsObject_readable_in_handler : ∃ a, (throwsObjectRun 3).control = .running a ∧ a.pc = 6 ∧
    ∃ p op, a.Readable (throwsObjectRun 3).machine p op := by
  have hr : (throwsObjectRun 0).Reaches Addressable (throwsObjectRun 3) :=
    throwsObjectRun_reaches 3 fun _ hi => throwsObjectRun_addressable hi
  have h := Execution.stays_inside_analyzed_code (.fresh rfl) throwsObjectRun_begins hr
  obtain ⟨a, hc, hpc, -⟩ := throwsObjectRun_three
  obtain ⟨p, op, hop, -⟩ := h.1 a hc
  exact ⟨a, hc, hpc, p, op, hop⟩

end ManagedCode
