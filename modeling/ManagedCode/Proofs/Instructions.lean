import ManagedCode.Proofs.Steps

/-!
# What an analyzed instruction does

`Ran` lists what the instruction at a reachable offset of a sound method can ask for. Control that stays in the
activation follows an edge of the analysis, or lands in a handler or at the target of a leave; a call comes from the
call site that the instruction names; and a trap is never the report of an offset that was not analyzed.
-/

namespace ManagedCode

open Analysis (Flows Successor Visit)

namespace Opcode

theorem effect_leave (op : Opcode) (h : op.action = .leave) : op.effect = .varying := by
  cases op <;> first | rfl | cases h

theorem effect_endFinally (op : Opcode) (h : op.action = .endFinally) : op.effect = .varying := by
  cases op <;> first | rfl | cases h

end Opcode

namespace Prepared

variable {md : Metadata} {p p' : Prepared} {pc next : Nat} {op : Opcode}

/-- **An edge of the analysis**: the visit of `pc` handed on to the successor. -/
structure Edge (md : Metadata) (p : Prepared) (pc : Nat) (s : Successor) : Prop where
  visit : ∃ stack, Flows (p.context md) p.analysis pc stack ∧
    ∃ v : Visit (p.context md) p.analysis pc stack, s ∈ v.successors
  reachable : p.analysis.isReachable s.offset = true

/-- The target of a leave that was analyzed. -/
def LeftTo (md : Metadata) (p : Prepared) (q : Nat) : Prop := ∃ pc, p.Edge md pc ⟨q, true⟩

/-- **Control may enter at `q` from outside of the flow of the code**: at a handler, on an exception if the handler
catches one, or at the target of a leave. -/
structure Lands (md : Metadata) (p : Prepared) (q : Nat) (catches : Bool) : Prop where
  place : (q, if catches then [StackType.object] else []) ∈ Analysis.entries p.body.regions ∨
    (catches = false ∧ p.LeftTo md q)
  reachable : p.analysis.isReachable q = true

/-- Every leave that is under way leads to a target that was analyzed. -/
def Leads (md : Metadata) (p : Prepared) (u : Unwinding) : Prop := u.Leads p.regions (p.LeftTo md)

theorem Evolves.edge {s : Successor} (h : p.Evolves p') (he : p.Edge md pc s) : p'.Edge md pc s where
  visit := by rw [h.context, h.analysis]; exact he.visit
  reachable := by rw [h.analysis]; exact he.reachable

theorem Evolves.leads {u : Unwinding} (h : p.Evolves p') (hu : p.Leads md u) : p'.Leads md u := by
  intro l hl
  rw [h.regions]
  obtain ⟨⟨source, he⟩, hq⟩ := hu l hl
  exact ⟨⟨source, h.edge he⟩, hq⟩

namespace Sound

/-- Where a handler starts, control may land. -/
theorem lands_handler {catches : Bool} (h : p.Sound md) (hs : p.regions.StartsHandler pc catches) :
    p.Lands md pc catches := by
  have hmem : (pc, if catches then [StackType.object] else []) ∈ Analysis.entries p.body.regions := by
    obtain ⟨i, r, hr, rfl, hk⟩ := hs
    have hrm : r ∈ p.body.regions := by
      rw [← h.regions]
      unfold RegionTable.region? at hr
      obtain ⟨e, he, rfl⟩ := Option.map_eq_some_iff.1 hr
      exact List.mem_map_of_mem (List.mem_of_getElem? he)
    unfold Analysis.entries
    refine List.mem_cons_of_mem _ (List.mem_flatMap.2 ⟨r, hrm, ?_⟩)
    cases catches with
    | true =>
      cases hkind : r.kind with
      | catchType t => exact List.mem_singleton.2 rfl
      | _ => simp [Region.isCatch, hkind] at hk
    | false =>
      cases hkind : r.kind with
      | finallyBlock => exact List.mem_singleton.2 rfl
      | _ => simp [Region.isFinally, hkind] at hk
  exact ⟨.inl hmem, h.accepted.entered _ hmem⟩

/-- What the analysis found at a reachable offset: the declared instruction, with its successors. -/
theorem visited (h : p.Sound md) (hr : p.analysis.isReachable pc = true) (hd : p.Declares pc op next) :
    ∃ stack after effect, ∃ v : Visit (p.context md) p.analysis pc stack, v.op = op ∧
      ((p.context md).act pc op next).run stack = .ok (effect, after) ∧ v.types = effect.operands ∧
      (op.endsBlock = true → v.successors = effect.jumps) ∧
      (op.endsBlock = false → v.successors = effect.jumps ++ [⟨next, false⟩]) ∧
      ∀ s ∈ v.successors, p.Edge md pc s := by
  obtain ⟨stack, hf, v, hv⟩ := h.visit hr
  have hop : v.op = op := Except.ok.inj (v.opcode.symm.trans hd.opcode)
  obtain ⟨next', effect, hnext, hact, htypes, hends, hfalls⟩ := Analysis.Context.transfer_ok v.transfer
  cases hd.next.symm.trans hnext
  rw [hop] at hact hends hfalls
  exact ⟨stack, v.after, effect, v, hop, hact, htypes, hends, hfalls, fun s hm => ⟨⟨stack, hf, v, hm⟩, hv s hm⟩⟩

/-- Control may come to the instruction after one that does not end its block. -/
theorem edge_next (h : p.Sound md) (hr : p.analysis.isReachable pc = true) (hd : p.Declares pc op next)
    (hb : op.endsBlock = false) : p.Edge md pc ⟨next, false⟩ := by
  obtain ⟨stack, after, effect, v, -, -, -, -, hfalls, hedge⟩ := h.visited hr hd
  exact hedge _ (by rw [hfalls hb]; simp)

/-- An instruction whose behavior depends on operand types has them. -/
theorem annotated (h : p.Sound md) (hr : p.analysis.isReachable pc = true) (hd : p.Declares pc op next)
    (hu : op.action.usesTypes = true) : (p.analysis.operandTypes? pc).isSome = true := by
  obtain ⟨stack, after, effect, v, -, hact, htypes, -⟩ := h.visited hr hd
  rw [v.operands, htypes]
  exact Analysis.Context.act_annotated hact hu

/-- No analysis accepts a cached call that was declared. -/
theorem ne_cachedCall (h : p.Sound md) (hr : p.analysis.isReachable pc = true) (hd : p.Declares pc op next) :
    op.action ≠ .cachedCall := by
  intro hact
  obtain ⟨stack, after, effect, v, -, hrun, -⟩ := h.visited hr hd
  simp only [Analysis.Context.act, hact] at hrun
  cases hrun

theorem lands_left (hq : p.LeftTo md pc) : p.Lands md pc false := by
  obtain ⟨source, he⟩ := hq
  exact ⟨.inr ⟨rfl, source, he⟩, he.reachable⟩

end Sound

end Prepared

/-- Call sites may have been resolved; all else is as before. -/
structure Workspace.Grown (w w' : Workspace) : Prop where
  activation : w'.activation = w.activation
  machine : w'.machine = { w.machine with prepared := w'.machine.prepared }
  sound : w.machine.Sound → w'.machine.Sound
  evolves : w.machine.Evolves w'.machine
  ready : ∀ k q, w'.machine.prepared? k = some q → ∃ p, w.machine.prepared? k = some p ∧ p.Evolves q

theorem Workspace.Grown.refl (w : Workspace) : w.Grown w := ⟨rfl, rfl, id, .refl _, fun _ q hq => ⟨q, hq, .refl q⟩⟩

namespace ExecM

variable {md : Metadata} {p : Prepared} {w : Workspace} {op : Opcode} {next : Nat}

/-- **What the instruction at an analyzed offset can ask for.** The instruction is `op` as the code reads now, and
`next` is the offset after it. -/
inductive Ran (md : Metadata) (p : Prepared) (next : Nat) (w : Workspace) (op : Opcode) :
    Except Trap Next × Workspace → Prop where
  /-- An instruction that is no transfer goes on along an edge. -/
  | plain {n : Next} {q : Nat} {w' : Workspace} : p.Declares w.activation.pc op next → op.action.isTransfer = false →
      op.action ≠ .callIndirect → (n = .advance ∧ q = next ∨ n = .jump q) → p.Edge md w.activation.pc ⟨q, false⟩ → w.Kept w' →
      Ran md p next w op (.ok n, w')
  /-- A leave or the end of a finally handler enters a handler or the target of a leave. -/
  | landed {q : Nat} {object : Option (Option Ref)} {u : Unwinding} {w' : Workspace} : op.effect = .varying →
      p.Lands md q object.isSome → p.Leads md u → Workspace.Entered p object (w.withUnwinding u) w' →
      Ran md p next w op (.ok (.jump q), w')
  | called {site : CallSite} {target : MethodSymbol} {arguments : List Value} {c : Continuation} {w₁ w' : Workspace} :
      p.HasSite md w.activation.pc site → site.Enters target c → w.Grown w₁ →
      (site.pops = 0 ∨ p.layout.stackBase + site.pops ≤ w.activation.top) →
      (w₁.withTop (w.activation.top - site.pops)).Kept w' → Ran md p next w op (.ok (.invoke target arguments c), w')
  /-- The activation ends. -/
  | left {n : Next} {u : Unwinding} {w' : Workspace} : (∃ v, n = .ret v) ∨ (∃ e, n = .propagate e) →
      (w.withUnwinding u).Shifted w' → Ran md p next w op (.ok n, w')
  /-- A trap that handlers may take leaves the state of exception handling alone. -/
  | trapped {t : Trap} {u : Unwinding} {w₁ w' : Workspace} : t.isOrdinary = true →
      t.isAbort = true ∨ u = w.activation.unwinding → w.Grown w₁ → (w₁.withUnwinding u).Shifted w' →
      Ran md p next w op (.error t, w')

/-- A description of the results and of the traps of an instruction describes its run. -/
theorem Ran.of_meets {x : ExecM Next} {Q : Next → Workspace → Prop} {E : Trap → Workspace → Prop} (hx : Meets x w Q E)
    (hQ : ∀ n w', Q n w' → Ran md p next w op (.ok n, w')) (hE : ∀ t w', E t w' → Ran md p next w op (.error t, w')) :
    Ran md p next w op (x.run w) := by
  unfold Meets at hx
  rcases hr : x.run w with ⟨t | n, w'⟩
  · rw [hr] at hx
    exact hE t w' hx
  · rw [hr] at hx
    exact hQ n w' hx

/-- **An instruction that asks for a call** is at a call site, whose operands it has taken. -/
theorem Ran.of_invoke {target : MethodSymbol} {arguments : List Value} {c : Continuation} {w' : Workspace}
    (h : Ran md p next w op (.ok (.invoke target arguments c), w')) :
    ∃ site w₁, p.HasSite md w.activation.pc site ∧ site.Enters target c ∧ w.Grown w₁ ∧
      (site.pops = 0 ∨ p.layout.stackBase + site.pops ≤ w.activation.top) ∧
      (w₁.withTop (w.activation.top - site.pops)).Kept w' := by
  cases h with
  | called hsite hent hg hheight hk => exact ⟨_, _, hsite, hent, hg, hheight, hk⟩
  | plain _ _ _ hq => rcases hq with ⟨h, -⟩ | h <;> cases h
  | left hleft => rcases hleft with ⟨v, h⟩ | ⟨e, h⟩ <;> cases h

theorem Ran.trapped_kept {t : Trap} {w' : Workspace} (ho : t.isOrdinary = true) (hk : w.Shifted w') :
    Ran md p next w op (.error t, w') := .trapped ho (.inr rfl) (.refl w) hk

/-! ## Instructions that are no transfers -/

section

variable (hs : p.Sound md) (hr : p.analysis.isReachable w.activation.pc = true)
  (hd : p.Declares w.activation.pc op next)
include hs hr hd

/-- Where control follows the code, it follows an edge. -/
theorem edge_of_follows (ha : p.declared.AgreeOn p.code w.activation.pc next) {n : Next}
    (hf : Follows p w.activation.pc op n) : ∃ q, (n = .advance ∧ q = next ∨ n = .jump q) ∧
      p.Edge md w.activation.pc ⟨q, false⟩ := by
  obtain ⟨stack, after, effect, v, -, hact, -, hends, hfalls, hedge⟩ := hs.visited hr hd
  have jumps : ∀ s ∈ effect.jumps, s ∈ v.successors := by
    intro s hm
    cases hb : op.endsBlock with
    | true => rw [hends hb]; exact hm
    | false => rw [hfalls hb]; exact List.mem_append_left _ hm
  rcases hf with ⟨hb, rfl⟩ | ⟨hact', target, ht, rfl⟩ | ⟨hact', targets, target, ht, hm, rfl⟩
  · exact ⟨next, .inl ⟨rfl, rfl⟩, hedge _ (by rw [hfalls hb]; simp)⟩
  · obtain ⟨target', ht', hj⟩ := Analysis.Context.act_branch hact hact'
    rw [Code.branchTarget_agree hd.next ha hd.opcode] at ht
    cases ht.symm.trans ht'
    exact ⟨target, .inr rfl, hedge _ (jumps _ (by rw [hj]; simp))⟩
  · obtain ⟨targets', ht', hj⟩ := Analysis.Context.act_switch hact hact'
    rw [Code.switchTargets_agree hd.next ha hd.opcode (op.size?_switch hact')] at ht
    cases ht.symm.trans ht'
    exact ⟨target, .inr rfl, hedge _ (jumps _ (by rw [hj]; exact List.mem_map_of_mem hm))⟩

theorem plain_ran (ha : p.declared.AgreeOn p.code w.activation.pc next) (hplain : op.action.isTransfer = false) :
    Ran md p next w op ((instruction p w.activation.pc op).run w) := by
  have hreads := hd.reads ha
  by_cases hi : op.action = .callIndirect
  · simp only [instruction, hi]
    exact .trapped_kept rfl (Workspace.Kept.refl w).shifted
  · refine Ran.of_meets ((quiet_instruction hreads (hs.annotated hr hd) hplain).meets w) (fun n w' ⟨hf, hk⟩ => ?_) fun t w' ⟨ho, hk⟩ =>
      .trapped_kept ho hk.shifted
    obtain ⟨q, hq, he⟩ := edge_of_follows hs hr hd ha hf
    exact .plain hd hplain hi hq he hk

/-! ## Transfers -/

theorem leave_ran (ha : p.declared.AgreeOn p.code w.activation.pc next) (hact : op.action = .leave)
    (hl : p.Leads md w.activation.unwinding) : Ran md p next w op ((leave p w.activation.pc).run w) := by
  have hreads := hd.reads ha
  refine Ran.of_meets (leave_meets hreads) ?_ fun t w' ⟨ho, hk⟩ => .trapped_kept ho hk.shifted
  rintro n w' ⟨target, dest, u, ht, hu, rfl, hent⟩
  have htarget : p.LeftTo md target := by
    obtain ⟨stack, after, effect, v, -, hrun, -, hends, -, hedge⟩ := hs.visited hr hd
    obtain ⟨target', ht', hj⟩ := Analysis.Context.act_leave hrun hact
    rw [Code.branchTarget_agree hd.next ha hd.opcode] at ht
    cases ht.symm.trans ht'
    have hb : op.endsBlock = true := by
      rw [op.endsBlock_eq, hact]
      rfl
    exact ⟨w.activation.pc, hedge _ (by rw [hends hb, hj]; simp)⟩
  obtain ⟨hto, hleads⟩ := Unwinding.leave_lands hl htarget hu
  refine .landed (op.effect_leave hact) ?_ hleads hent
  rcases hto with rfl | hto
  · exact Prepared.Sound.lands_left htarget
  · exact hs.lands_handler hto

omit hr hd in
theorem endFinally_ran (hact : op.action = .endFinally)
    (hl : p.Leads md w.activation.unwinding) : Ran md p next w op ((endFinally p w.activation.pc).run w) := by
  refine Ran.of_meets endFinally_meets ?_ fun t w' ⟨ho, ha, _, u, hk⟩ => .trapped ho (.inl ha) (.refl w) hk
  rintro n w' ⟨u, ⟨dest, object, hu, rfl, hent⟩ | ⟨e, rfl, rfl⟩⟩
  · obtain ⟨hto, hleads⟩ := Unwinding.endFinally_lands hl hu
    refine .landed (op.effect_endFinally hact) ?_ hleads hent
    rcases hto with hto | ⟨rfl, hto⟩
    · exact hs.lands_handler hto
    · exact Prepared.Sound.lands_left hto
  · exact .left (.inr ⟨e, rfl⟩) (Workspace.Kept.shifted (.refl _))

/-- A call site that is resolved makes the method grow. -/
theorem grown_withSite {site : CallSite} {t : Token} (ha : p.declared.AgreeOn p.code w.activation.pc next)
    (hp : w.machine.prepared? w.activation.method = some p) (hmd : md = w.machine.metadata)
    (hact : op.action = .callSite site.kind) (ht : p.code.token w.activation.pc = .ok t) (hn : site.Names md t) :
    w.Grown (w.withSite p w.activation.pc site) ∧ p.HasSite md w.activation.pc site := by
  subst hmd
  have hop := Code.opcodeAt_agree hd.opcode ha (Code.nextOffset_bounds hd.next hd.opcode).1
  rw [Code.token_agree hd.next ha hd.opcode (op.size?_of_width? (by rw [hact]; rfl))] at ht
  refine ⟨⟨rfl, rfl, fun hsound => ?_, ?_, fun k q hq => ?_⟩, hr, ⟨op, hd.opcode, hact⟩, t, ht, hn⟩
  · exact hsound.set rfl rfl (hs.install hr hd hop hact ht hn)
  · refine .set rfl rfl fun q hq => ?_
    cases hp.symm.trans hq
    exact p.evolves_withSite _ site
  · rw [Machine.prepared?, Workspace.withSite, Machine.setPrepared, lookup_insertEntry] at hq
    by_cases hk : k == w.activation.method
    · rw [if_pos hk] at hq
      cases hq
      rw [eq_of_beq hk]
      exact ⟨p, hp, p.evolves_withSite _ site⟩
    · rw [if_neg hk] at hq
      exact ⟨q, hq, .refl q⟩

theorem callSite_ran {kind : CallKind} (ha : p.declared.AgreeOn p.code w.activation.pc next)
    (hp : w.machine.prepared? w.activation.method = some p) (hmd : md = w.machine.metadata)
    (hact : op.action = .callSite kind) : Ran md p next w op ((callSite p w.activation.pc kind).run w) := by
  have hreads := hd.reads ha
  refine Ran.of_meets (callSite_meets hreads hact (hd.next_callSite hact)) ?_ ?_
  · rintro n w' ⟨site, t, rfl, ht, hn, ⟨⟨target, arguments, c, rfl, hent⟩, hh, hk⟩⟩
    rw [← hmd] at hn
    obtain ⟨hg, hsite⟩ := grown_withSite hs hr hd ha hp hmd hact ht hn
    exact .called hsite hent hg hh hk
  · rintro e w' ⟨ho, hk | ⟨site, t, rfl, ht, hn, hk⟩⟩
    · exact .trapped_kept ho hk.shifted
    · rw [← hmd] at hn
      exact .trapped ho (.inr rfl) (grown_withSite hs hr hd ha hp hmd hact ht hn).1 hk

end

/-- **The instruction at an analyzed offset**, whether it reads as declared or as a cached call. -/
theorem instruction_ran (hs : p.Sound md) (hmd : md = w.machine.metadata)
    (hp : w.machine.prepared? w.activation.method = some p) (hsize : p.declared.size ≤ 2 ^ 32)
    (hr : p.analysis.isReachable w.activation.pc = true) (hl : p.Leads md w.activation.unwinding)
    (hop : p.code.opcodeAt w.activation.pc = .ok op) :
    ∃ next, p.code.nextOffset w.activation.pc = .ok next ∧
      Ran md p next w op ((instruction p w.activation.pc op).run w) := by
  obtain ⟨op₀, next, hd⟩ := hs.declares hr
  rcases hs.reads hr hd with ha | ⟨i, site, hsite, hhas, hc⟩
  · -- the bytes are the declared ones
    cases hop.symm.trans (Code.opcodeAt_agree hd.opcode ha (Code.nextOffset_bounds hd.next hd.opcode).1)
    refine ⟨next, Code.nextOffset_agree hd.next ha, ?_⟩
    cases hact : op.action with
    | ret =>
      have hret : instruction p w.activation.pc op = ret p := by rw [instruction, hact]
      rw [hret]
      refine Ran.of_meets ret_meets ?_ fun t w' ⟨ho, hk⟩ => .trapped_kept ho hk
      rintro n w' ⟨⟨v, rfl, -⟩, hk⟩
      exact .left (.inl ⟨v, rfl⟩) hk
    | leave =>
      have hleave : instruction p w.activation.pc op = leave p w.activation.pc := by rw [instruction, hact]
      rw [hleave]
      exact leave_ran hs hr hd ha hact hl
    | endFinally =>
      have hend : instruction p w.activation.pc op = endFinally p w.activation.pc := by rw [instruction, hact]
      rw [hend]
      exact endFinally_ran hs hact hl
    | callSite kind =>
      have hcall : instruction p w.activation.pc op = callSite p w.activation.pc kind := by rw [instruction, hact]
      rw [hcall]
      exact callSite_ran hs hr hd ha hp hmd hact
    | cachedCall => exact absurd hact (hs.ne_cachedCall hr hd)
    | _ => exact plain_ran hs hr hd ha (by rw [hact]; rfl)
  · -- the bytes are a cached call
    cases hop.symm.trans hc.opcode
    refine ⟨next, hc.next, ?_⟩
    have hi : i < 2 ^ 32 :=
      Nat.lt_of_lt_of_le (Array.getElem?_eq_some_iff.1 hsite).1 (Nat.le_trans hs.size_le hsize)
    refine Ran.of_meets (cachedCall_meets hc hsite hi) ?_ fun t w' ⟨ho, hk⟩ => .trapped_kept ho hk
    rintro n w' ⟨⟨target, arguments, c, rfl, hent⟩, hh, hk⟩
    exact .called hhas hent (.refl w) hh hk

end ExecM

end ManagedCode
