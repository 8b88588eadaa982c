import ManagedCode.Proofs.Transfers

/-!
# What a call does

The first execution of a call site resolves it and overwrites the instruction; later executions find the site by its
number. Both then take the arguments from the stack and ask for the method to be entered (`Invokes`), with what the
activation will do with the result.
-/

namespace ManagedCode

namespace CallSite

/-- How many values a call takes from the stack. -/
def pops : CallSite → Nat
  | call m | callvirt m => m.signature.arity
  | newobj m _ => m.signature.parameters.length
  | jmp _ => 0

/-- The method that a call enters, and what the caller does with its end. A virtual call may enter another method than
the one it names. -/
inductive Enters : CallSite → MethodSymbol → Continuation → Prop where
  | call (m : MethodSymbol) : Enters (.call m) m (.pushResult m)
  | callvirt (m target : MethodSymbol) : Enters (.callvirt m) target (.pushResult target)
  | newobj (m : MethodSymbol) (type : TypeSymbol) (r : Ref) : Enters (.newobj m type) m (.pushObject r)
  | jmp (m : MethodSymbol) : Enters (.jmp m) m .returnResult

/-- The call site that an instruction makes of its token. -/
def ofToken (md : Metadata) (kind : CallKind) (t : Token) : Except ResolutionError CallSite := do
  let m ← md.resolveMethod t
  match kind with
  | .call => return .call m
  | .callvirt => return .callvirt m
  | .newobj => return .newobj m (← md.typeOf m.declaring)
  | .jmp => return .jmp m

theorem ofToken_ok {md : Metadata} {kind : CallKind} {t : Token} {site : CallSite} (h : ofToken md kind t = .ok site) :
    site.kind = kind ∧ md.resolveMethod t = .ok site.method ∧
      ∀ m type, site = .newobj m type → md.typeOf m.declaring = .ok type := by
  unfold ofToken at h
  cases hm : md.resolveMethod t with
  | error e => rw [hm] at h; cases h
  | ok m =>
    rw [hm] at h
    cases kind with
    | newobj =>
      simp only [bind, Except.bind] at h
      cases htype : md.typeOf m.declaring with
      | error e => rw [htype] at h; cases h
      | ok type =>
        rw [htype] at h
        cases h
        exact ⟨rfl, rfl, fun _ _ heq => by cases heq; exact htype⟩
    | _ => cases h; exact ⟨rfl, rfl, fun _ _ heq => by cases heq⟩

theorem ofToken_names {md : Metadata} {kind : CallKind} {t : Token} {site : CallSite}
    (h : ofToken md kind t = .ok site) : site.kind = kind ∧ site.Names md t := by
  obtain ⟨hkind, hm, htype⟩ := ofToken_ok h
  exact ⟨hkind, ⟨site.method.body, hm⟩, htype⟩

end CallSite

/-- The workspace after a call site has been resolved. -/
def Workspace.withSite (w : Workspace) (p : Prepared) (pc : Nat) (site : CallSite) : Workspace :=
  { w with machine := w.machine.setPrepared w.activation.method (p.withSite pc site) }

/-- The workspace after a lookup. -/
def Workspace.lookedUp (w : Workspace) : Workspace :=
  { w with machine := { w.machine with lookups := w.machine.lookups + 1 } }

/-- The workspace with one more resolved call site counted. -/
def Workspace.counted (w : Workspace) : Workspace :=
  { w with machine := { w.machine with
      metrics := { w.machine.metrics with callSiteResolutions := w.machine.metrics.callSiteResolutions + 1 } } }

/-- The workspace after a token was resolved, with the call site that it names, if it names one. -/
def Workspace.resolved (w : Workspace) (p : Prepared) (pc : Nat) : Except ResolutionError CallSite → Workspace
  | .ok site => (w.lookedUp.withSite p pc site).counted
  | .error _ => w.lookedUp

namespace ExecM

variable {p : Prepared} {pc next : Nat} {op : Opcode} {w w' : Workspace} {site : CallSite} {n : Next}

/-- **A call is asked for**: its arguments have left the stack. -/
structure Invokes (p : Prepared) (site : CallSite) (w : Workspace) (n : Next) (w' : Workspace) : Prop where
  asks : ∃ target arguments c, n = .invoke target arguments c ∧ site.Enters target c
  height : site.pops = 0 ∨ p.layout.stackBase + site.pops ≤ w.activation.top
  kept : (w.withTop (w.activation.top - site.pops)).Kept w'

theorem Invokes.of_kept (h : w.Kept w') {w'' : Workspace} (hi : Invokes p site w' n w'') : Invokes p site w n w'' where
  asks := hi.asks
  height := h.top ▸ hi.height
  kept := by
    have := hi.kept
    rw [h.top] at this
    exact (h.withTop _).trans this

theorem calm_virtualTarget (m : MethodSymbol) (arguments : List Value) : Calm (virtualTarget m arguments) := by
  unfold virtualTarget
  split
  · exact quiet_fault _ _
  · refine .machine (fun m m' ha => by rw [ha.heap]) fun _ => ?_
    split
    · exact calm_metadata.next fun _ => calm_resolveVirtual _ _ _
    · exact .pure trivial
  · exact .pure trivial

theorem calm_arguments (f : Frame) : ∀ slots : List Nat, Calm (slots.mapM fun slot => ofEngine (f.get slot))
  | [] => .pure trivial
  | slot :: slots => by
    rw [List.mapM_cons]
    exact (calm_get f slot).next fun _ => (calm_arguments f slots).next fun _ => .pure trivial

theorem popArguments_kept (count : Nat) : Meets (popArguments p count) w
    (fun _ w' => (count = 0 ∨ p.layout.stackBase + count ≤ w.activation.top) ∧
      (w.withTop (w.activation.top - count)).Kept w')
    fun t w' => t.isOrdinary = true ∧ w.Shifted w' := by
  refine (popArguments_meets count).mono ?_ fun t w' ⟨ho, _, hk⟩ => ⟨ho, hk.shifted⟩
  rintro vs _ ⟨-, hc, -, rfl⟩
  exact ⟨hc, rfl, rfl, Frame.sameFrame_clearFrom ..⟩

/-- **What the invocation of a call site does.** -/
theorem invoke_meets (site : CallSite) : Meets (invoke p site) w (Invokes p site w)
    fun t w' => t.isOrdinary = true ∧ w.Shifted w' := by
  unfold invoke
  refine Meets.bind (Q := fun _ w' => w.Kept w') ⟨rfl, rfl, .refl _⟩ ?_
  intro _ w₁ hk
  have errors : ∀ {w₂ : Workspace} {t : Trap} {w₃ : Workspace}, w.Shifted w₂ → t.isOrdinary = true ∧ w₂.Kept w₃ →
      t.isOrdinary = true ∧ w.Shifted w₃ := fun hs ht => ⟨ht.1, hs.trans ht.2.shifted⟩
  have popped : ∀ {count : Nat} {w₂ : Workspace}, (w₁.withTop (w₁.activation.top - count)).Kept w₂ →
      (w.withTop (w.activation.top - count)).Kept w₂ := by
    intro count w₂ hw
    rw [hk.top] at hw
    exact (hk.withTop _).trans hw
  have pops : ∀ count, Meets (popArguments p count) w₁
      (fun _ w' => (count = 0 ∨ p.layout.stackBase + count ≤ w.activation.top) ∧
        (w.withTop (w.activation.top - count)).Kept w') fun t w' => t.isOrdinary = true ∧ w.Shifted w' := by
    intro count
    refine (popArguments_kept count).mono (fun _ _ ⟨hc, hw⟩ => ⟨hk.top ▸ hc, popped hw⟩) fun t w' ⟨ho, hs⟩ => ?_
    exact ⟨ho, hk.shifted.trans hs⟩
  cases site with
  | call m =>
    refine Meets.bind (pops _) fun arguments w₂ ⟨hc, hw⟩ => ?_
    exact ⟨⟨m, arguments, _, rfl, .call m⟩, hc, hw⟩
  | callvirt m =>
    refine Meets.bind (pops _) fun arguments w₂ ⟨hc, hw⟩ => ?_
    refine Meets.bind (((calm_virtualTarget m arguments).meets w₂).mono (fun _ _ h => h.2) fun _ _ h => errors ⟨_, hw⟩ h) ?_
    intro target w₃ hw₃
    exact ⟨⟨target, arguments, _, rfl, .callvirt m target⟩, hc, hw.trans hw₃⟩
  | newobj m type =>
    refine Meets.bind (pops _) fun arguments w₂ ⟨hc, hw⟩ => metadata_bind ?_
    refine Meets.bind (((calm_onHeap _).meets w₂).mono (fun _ _ h => h.2) fun _ _ h => errors ⟨_, hw⟩ h) ?_
    intro r w₃ hw₃
    exact ⟨⟨m, _, _, rfl, .newobj m type r⟩, hc, hw.trans hw₃⟩
  | jmp m =>
    refine activation_bind (Meets.bind (((calm_arguments _ _).meets w₁).mono (fun _ _ h => h.2) fun _ _ h =>
      errors hk.shifted h) ?_)
    intro arguments w₂ hw₂
    exact ⟨⟨m, arguments, _, rfl, .jmp m⟩, .inl rfl, hk.trans hw₂⟩

/-! ## The first execution -/

/-- Resolving a call site is one lookup. -/
theorem resolveSite_run (kind : CallKind) (t : Token) (w : Workspace) :
    (resolveSite kind t).run w = (ofResolution (CallSite.ofToken w.machine.metadata kind t)).run w.lookedUp := by
  have hresolve : (resolveMethod t).run w = (ofResolution (w.machine.metadata.resolveMethod t)).run w.lookedUp := rfl
  unfold resolveSite CallSite.ofToken
  rw [Meets.run_bind, hresolve]
  cases w.machine.metadata.resolveMethod t with
  | error e => rfl
  | ok m =>
    cases kind with
    | newobj =>
      show ((metadata >>= fun md => ofResolution (md.typeOf m.declaring)) >>= _).run w.lookedUp = _
      simp only [bind, Except.bind]
      show ((ofResolution (w.machine.metadata.typeOf m.declaring)) >>= _).run w.lookedUp = _
      rw [Meets.run_bind]
      cases w.machine.metadata.typeOf m.declaring with
      | error e => rfl
      | ok type => rfl
    | _ => rfl

theorem installSite_run (h : Reads p pc op next) (hnext : next = pc + 5) (site : CallSite) (w : Workspace) :
    (installSite p pc site).run w = (.ok (), (w.withSite p pc site).counted) := by
  have hbytes : Code.cachedCall p.callSites.size (next - pc) = .ok (Code.cachedBytes p.callSites.size) := by
    rw [show next - pc = patchLength by rw [hnext, Nat.add_sub_cancel_left]; rfl]
    exact Code.cachedCall_patchLength _
  have hpatch : p.code.patch pc (Code.cachedBytes p.callSites.size) =
      .ok (p.code.write pc (Code.cachedBytes p.callSites.size)) := by
    have hb := (Code.nextOffset_bounds h.next h.opcode).2
    rw [Code.patch, if_neg]
    rw [Code.length_cachedBytes]
    rintro (he | hlt)
    · exact Bool.false_ne_true he
    · omega
  unfold installSite
  rw [h.next]
  show (ofEngine (Code.cachedCall p.callSites.size (next - pc)) >>= _).run w = _
  rw [hbytes]
  show (ofEngine (p.code.patch pc (Code.cachedBytes p.callSites.size)) >>= _).run w = _
  rw [hpatch]
  rfl

/-- Calls what a token was resolved to. -/
def callOf (p : Prepared) (r : Except ResolutionError CallSite) : ExecM Next := do
  let site ← ofResolution r
  invoke p site

/-- **The first execution of a call site**: it is resolved, the method gets it, and it is called. -/
theorem callSite_run {t : Token} (h : Reads p pc op next) (hnext : next = pc + 5) (ht : p.code.token pc = .ok t)
    (kind : CallKind) (w : Workspace) : (callSite p pc kind).run w =
      (callOf p (CallSite.ofToken w.machine.metadata kind t)).run
        (w.resolved p pc (CallSite.ofToken w.machine.metadata kind t)) := by
  unfold callSite
  rw [ht]
  show (resolveSite kind t >>= _).run w = _
  rw [Meets.run_bind, resolveSite_run]
  cases CallSite.ofToken w.machine.metadata kind t with
  | error e => rfl
  | ok site =>
    show (installSite p pc site >>= _).run w.lookedUp = _
    rw [Meets.run_bind, installSite_run h hnext]
    rfl

/-- What the first execution of a call site does to its activation. -/
theorem callSite_meets (h : Reads p pc op next) {kind : CallKind} (ha : op.action = .callSite kind)
    (hnext : next = pc + 5) : Meets (callSite p pc kind) w
    (fun n w' => ∃ site t, site.kind = kind ∧ p.code.token pc = .ok t ∧ site.Names w.machine.metadata t ∧
      Invokes p site (w.withSite p pc site) n w')
    fun e w' => e.isOrdinary = true ∧ (w.Kept w' ∨ ∃ site t, site.kind = kind ∧ p.code.token pc = .ok t ∧
      site.Names w.machine.metadata t ∧ (w.withSite p pc site).Shifted w') := by
  obtain ⟨t, ht⟩ := Code.token_ok h.next h.opcode (op.size?_of_width? (by rw [ha]; rfl))
  unfold Meets
  rw [callSite_run h hnext ht]
  cases hr : CallSite.ofToken w.machine.metadata kind t with
  | error e => exact ⟨rfl, .inl ⟨rfl, rfl, .refl _⟩⟩
  | ok site =>
    obtain ⟨hkind, hnames⟩ := CallSite.ofToken_names hr
    have hk : (w.withSite p pc site).Kept (w.resolved p pc (.ok site)) := ⟨rfl, rfl, .refl _⟩
    have hi := invoke_meets (p := p) (w := w.resolved p pc (.ok site)) site
    refine hi.mono (fun n w' hi => ⟨site, t, hkind, ht, hnames, hi.of_kept hk⟩) fun e w' he => ?_
    exact ⟨he.1, .inr ⟨site, t, hkind, ht, hnames, hk.shifted.trans he.2⟩⟩

/-- **A later execution of a call site** finds it by its number. -/
theorem cachedCall_meets {i : Nat} (h : p.CachedAt pc i next) (hs : p.callSites[i]? = some site) (hi : i < 2 ^ 32) :
    Meets (cachedCall p pc) w (Invokes p site w) fun t w' => t.isOrdinary = true ∧ w.Shifted w' := by
  unfold cachedCall
  rw [h.operand, Nat.mod_eq_of_lt hi]
  refine ofEngine_ok ?_
  simp only [hs]
  exact invoke_meets site

end ExecM

end ManagedCode
