import ManagedCode.Proofs.Entering
import ManagedCode.Proofs.Instructions
import ManagedCode.Proofs.Stacks
import Mathlib.Data.List.Forall2

/-!
# What is passed from one stack to another

A return narrows its value to the kind that the signature names; a handler finds its exception, or nothing, above the
variables; a call takes its arguments from the stack and leaves what lies below them; and the frame of a method that is
entered holds arguments that fit their kinds and zeros for its locals. With these, every instruction of a method that is
ready keeps the workspace good (`hands_instruction`), whatever the stack held.
-/

namespace ManagedCode

/-- **The types that an instruction leaves**: those that the analysis went on with, or what a call site leaves of them
when it has popped its arguments. -/
def Prepared.Hands (md : Metadata) (p : Prepared) (pc : Nat) (op : Opcode) (next : Nat) (st st' : List StackType) :
    Prop :=
  (op.action.isTransfer = false ∧ p.Acts md pc op next st st') ∨
    ∃ site, p.HasSite md pc site ∧ st' = st.drop site.pops

theorem CallSite.Names.hasMethod {md : Metadata} {t : Token} {site : CallSite} (h : site.Names md t)
    (hmd : md.WellFormed) : md.HasMethod site.method := by
  obtain ⟨b, hb⟩ := h.method
  obtain ⟨b', hb'⟩ := hmd.hasMethod hb
  exact ⟨b', hb'⟩

/-- What a call takes from the stack depends on its instruction and its signature only. -/
theorem CallSite.pops_eq_signature (site : CallSite) : site.pops = match site.kind with
    | .call | .callvirt => site.method.signature.arity
    | .newobj => site.method.signature.parameters.length
    | .jmp => 0 := by
  cases site <;> rfl

/-- The sites of one instruction are of one kind and name one method, which may have been given a body in between. -/
theorem Prepared.HasSite.same {md : Metadata} {p : Prepared} {pc : Nat} {site site' : CallSite}
    (h : p.HasSite md pc site) (h' : p.HasSite md pc site') : site'.kind = site.kind ∧
      site'.method.handle = site.method.handle ∧ site'.method.signature = site.method.signature := by
  obtain ⟨op, hop, hact⟩ := h.opcode
  obtain ⟨op', hop', hact'⟩ := h'.opcode
  obtain ⟨t, ht, hn⟩ := h.names
  obtain ⟨t', ht', hn'⟩ := h'.names
  cases hop.symm.trans hop'
  cases ht.symm.trans ht'
  obtain ⟨b, hm⟩ := hn.method
  obtain ⟨b', hm'⟩ := hn'.method
  have hmethod := Except.ok.inj (hm'.symm.trans hm)
  have hhandle := congrArg MethodSymbol.handle hmethod
  have hsignature := congrArg MethodSymbol.signature hmethod
  exact ⟨Action.callSite.inj (hact'.symm.trans hact), hhandle, hsignature⟩

/-- The sites of one instruction pop the same number of values. -/
theorem Prepared.HasSite.pops_eq {md : Metadata} {p : Prepared} {pc : Nat} {site site' : CallSite}
    (h : p.HasSite md pc site) (h' : p.HasSite md pc site') : site'.pops = site.pops := by
  obtain ⟨hkind, -, hsignature⟩ := h.same h'
  rw [site.pops_eq_signature, site'.pops_eq_signature, hsignature, hkind]

namespace Workspace

variable {md : Metadata} {p : Prepared} {w w' : Workspace} {object : Option (Option Ref)}

/-- A handler that is entered has a good workspace. -/
theorem Entered.good (he : Entered p object w w') (hw : w.Good md p) (hs : p.Sound md) : w'.Good md p where
  metadata := he.kept.metadata.trans hw.metadata
  heap := by rw [he.heap]; exact hw.heap
  proper := by
    intro i v hv
    rcases he.slots i v hv with hv | ⟨r, rfl⟩
    · exact hw.proper i v hv
    · trivial
  holds := hw.holds.agree fun i hi => he.below i (by rw [← hs.length_variables]; exact hi)

/-- **A handler finds its exception**, or nothing. -/
theorem Entered.holds (he : Entered p object w w') (hw : w.Good md p) (hs : p.Sound md) :
    w'.activation.frame.Holds (p.types (if object.isSome then [.object] else [])) := by
  have hvariables := (he.good hw hs).holds
  cases object with
  | none =>
    show w'.activation.frame.Holds (p.types [])
    rw [p.types_nil]
    exact hvariables
  | some r =>
    show w'.activation.frame.Holds (p.types [.object])
    rw [p.types_cons, p.types_nil]
    refine hvariables.snoc (v := .object r) ?_ (.inl rfl)
    rw [hs.length_variables]
    exact he.pushed r rfl

end Workspace

namespace ExecM

variable {md : Metadata} {p : Prepared} {pc next : Nat} {op : Opcode} {α β : Type} {P : α → Prop} {Q : β → Prop}

/-- The computation keeps the workspace good, and nothing is said of the stack. -/
abbrev Preserves (md : Metadata) (p : Prepared) (x : ExecM α) (P : α → Prop) : Prop :=
  Delivers md p (fun _ _ => False) x P

theorem preserves_modifyActivation {f : Activation → Activation} (hf : ∀ a, a.frame.Proper md → (f a).frame.Proper md)
    (hh : ∀ a, a.frame.Holds p.variableTypes → (f a).frame.Holds p.variableTypes) :
    Preserves md p (modifyActivation f) fun _ => True := by
  intro w hw
  exact ⟨trivial, ⟨hw.metadata, hw.heap, hf _ hw.proper, hh _ hw.holds⟩, fun _ _ hR => hR.elim⟩

theorem preserves_setUnwinding (unwinding : Unwinding) :
    Preserves md p (modifyActivation fun a => { a with unwinding }) fun _ => True :=
  preserves_modifyActivation (fun _ h => h) fun _ h => h

section

variable (hs : p.Sound md)
include hs

/-! ## Returns -/

theorem preserves_pop : Preserves md p (pop p) fun v => v.Proper md := by
  intro w hw
  refine pop_meets.mono ?_ fun _ w' h => h.2.2 ▸ hw
  rintro v _ ⟨hle, hv, rfl⟩
  have hset := hw.set (v := .null) trivial (fits_above hs.aligned (show p.layout.stackBase ≤ w.activation.top - 1 by omega))
  exact ⟨hw.proper _ v hv, ⟨hset.metadata, hset.heap, hset.proper, hset.holds⟩, fun _ _ hR => hR.elim⟩

/-- **A return gives what the signature says.** -/
theorem preserves_ret : Preserves md p (ret p) (Next.Typed md p) := by
  have last : ∀ value : Option Value, p.Returns md value → Preserves md p (do
      let a ← activation
      if a.top ≠ p.layout.stackBase then fail (.invalidProgram a.pc .returnWithOperands)
      else return .ret value : ExecM Next) (Next.Typed md p) := by
    intro value hvalue
    refine .after computes_activation fun a _ => ?_
    split
    · exact .throw
    · exact .pure hvalue fun _ _ hR => hR.elim
  unfold ret
  cases hr : p.symbol.signature.result with
  | none =>
    exact last none ⟨by rw [hr]; rfl, (fun v hv => by cases hv), fun v k hv => by cases hv⟩
  | some k =>
    refine (preserves_pop hs).bind fun v hv => .after computes_activation fun a _ => ?_
    refine .after (computes_normalize a.top k hv) fun u ⟨hu, hfits⟩ => ?_
    refine .after (Computes.pure (P := fun value => value = some u) rfl) ?_
    rintro _ rfl
    refine last (some u) ⟨by rw [hr]; rfl, fun v hv => ?_, fun v k' hv hk => ?_⟩
    · cases hv; exact hu
    · cases hv
      cases hr.symm.trans hk
      exact hfits

/-! ## Handlers -/

theorem enterHandler_good {w : Workspace} (pc : Nat) (object : Option (Option Ref)) (hw : w.Good md p) :
    Meets (enterHandler p pc object) w (fun _ w' => w'.Good md p) fun _ w' => w'.Good md p := by
  unfold enterHandler
  refine Meets.bind (resetStack_meets.mono (fun _ _ h => h) fun _ _ h => h.elim) ?_
  rintro _ w₁ ⟨hreset, -⟩
  have hgood := hreset.good hw hs
  have htop : w₁.activation.top = p.layout.stackBase := hreset.kept.top
  cases object with
  | none =>
    dsimp only
    split
    · exact hgood.sameFrame rfl hgood.heap rfl
    · exact hgood
  | some r =>
    refine Meets.bind ((push_meets (.object r)).mono (fun _ _ h => h) fun t w' h => h.2.2 ▸ hgood) ?_
    rintro _ _ ⟨-, rfl⟩
    have hset := hgood.set (v := .object r) trivial (fits_above hs.aligned (Nat.le_of_eq htop.symm))
    exact hset.sameFrame rfl hset.heap rfl

theorem preserves_enterHandler (pc : Nat) (object : Option (Option Ref)) :
    Preserves md p (enterHandler p pc object) fun _ => True :=
  fun _ hw => (enterHandler_good hs pc object hw).mono (fun _ _ h => ⟨trivial, h, fun _ _ hR => hR.elim⟩) fun _ _ h => h

theorem preserves_leave (pc : Nat) : Preserves md p (leave p pc) (Next.Typed md p) := by
  refine .after (computes_ofEngine _) fun target _ => ?_
  have hreset : Preserves md p (resetStack p) fun _ => True := by
    refine preserves_modifyActivation (fun a h => h.clearRange _ _) fun a h => h.agree fun i hi => ?_
    exact Frame.getElem?_clearRange_outside _ (.inl (by rw [← hs.length_variables]; exact hi))
  refine hreset.bind fun _ _ => .after computes_activation fun a _ => ?_
  dsimp only
  refine (preserves_setUnwinding _).bind fun _ _ => ?_
  split
  · exact (preserves_enterHandler hs _ none).bind fun _ _ => .pure trivial fun _ _ hR => hR.elim
  · exact .pure trivial fun _ _ hR => hR.elim

theorem preserves_endFinally (pc : Nat) : Preserves md p (endFinally p pc) (Next.Typed md p) := by
  refine .after computes_activation fun a _ => .after computes_metadata fun _ _ => ?_
  dsimp only
  refine (preserves_setUnwinding _).bind fun _ _ => ?_
  refine .after (computes_ofAbort _) fun transfer _ => ?_
  cases transfer with
  | resume target object =>
    exact (preserves_enterHandler hs target object).bind fun _ _ => .pure trivial fun _ _ hR => hR.elim
  | propagate e => exact .pure trivial fun _ _ hR => hR.elim

/-! ## Calls -/

/-- The values that are taken from the stack leave what lies below them. -/
theorem takeSlots_good : ∀ (count slot : Nat) (w : Workspace), p.layout.stackBase ≤ slot → w.Good md p →
    Meets (takeSlots slot count) w (fun vs w' => (∀ v ∈ vs, v.Proper md) ∧ w'.Good md p ∧
      w'.activation.top = w.activation.top ∧
      ∀ i, i < slot → w'.activation.frame.slots[i]? = w.activation.frame.slots[i]?) fun _ w' => w'.Good md p
  | 0, _, w, _, hw => ⟨(fun v hv => by cases hv), hw, rfl, fun _ _ => rfl⟩
  | count + 1, slot, w, hslot, hw => by
    have hset := hw.set (v := .null) trivial (fits_above hs.aligned hslot)
    unfold takeSlots
    refine activation_bind (take_meets _ (fun v hv => ?_) fun _ _ _ => hw)
    refine Meets.bind (Q := fun _ w' => w' = w.withFrame (w.activation.frame.set slot .null)) rfl ?_
    rintro _ _ rfl
    refine Meets.bind (takeSlots_good count (slot + 1) _ (by omega) hset) ?_
    rintro vs w' ⟨hvs, hw', htop, hbelow⟩
    refine ⟨fun u hu => ?_, hw', htop, fun i hi => ?_⟩
    · rcases List.mem_cons.1 hu with rfl | hu
      · exact hw.proper slot u hv
      · exact hvs u hu
    · exact (hbelow i (by omega)).trans (Array.getElem?_setIfInBounds_ne (by omega))

/-- **A call takes its arguments and leaves the rest of the stack.** -/
theorem delivers_popArguments (count : Nat) :
    Delivers md p (fun st st' => st' = st.drop count) (popArguments p count) fun vs => ∀ v ∈ vs, v.Proper md := by
  cases count with
  | zero =>
    refine .pure (fun v hv => by cases hv) fun st st' h => ?_
    rw [h]
    exact List.drop_suffix 0 st
  | succ n =>
    intro w hw
    unfold popArguments
    refine Meets.bind ((stackSlot_meets n).mono (fun _ _ h => h) fun _ _ h => h.2.2 ▸ hw) ?_
    rintro _ w ⟨hle, rfl, rfl⟩
    refine Meets.bind (takeSlots_good hs (n + 1) _ w (by omega) hw) ?_
    rintro vs w' ⟨hvs, hw', htop', hbelow⟩
    refine ⟨hvs, hw'.sameFrame rfl hw'.heap rfl, fun st st' h htop hst => ?_⟩
    subst h
    refine (Prepared.holds_suffix hst (List.drop_suffix _ st)).agree fun i hi => hbelow i ?_
    rw [hs.aligned.length_types, List.length_drop] at hi
    omega

omit hs in
theorem computes_virtualTarget (hmd : md.WellFormed) {m : MethodSymbol} (hm : md.HasMethod m)
    (arguments : List Value) : Computes md p (virtualTarget m arguments) md.HasMethod := by
  unfold virtualTarget
  split
  · exact .throw
  · refine computes_machine.bind fun _ _ => ?_
    split
    · refine computes_metadata.bind ?_
      rintro _ rfl
      exact (computes_ofAbort _).mono fun target ht => hmd.hasMethod_of_virtual ht
    · exact .pure hm
  · exact .pure hm

omit hs in
theorem computes_arguments {f : Frame} (hf : f.Proper md) : ∀ slots : List Nat,
    Computes md p (slots.mapM fun slot => ofEngine (f.get slot)) fun vs => ∀ v ∈ vs, v.Proper md
  | [] => .pure fun v hv => by cases hv
  | slot :: slots => by
    rw [List.mapM_cons]
    refine (computes_ofEngine _).bind fun v hv => (computes_arguments hf slots).bind fun vs hvs => .pure ?_
    intro u hu
    rcases List.mem_cons.1 hu with rfl | hu
    · exact hf slot u (Frame.get_ok hv)
    · exact hvs u hu

/-- **A call names a method of the tables**, and its arguments are proper. -/
theorem delivers_invoke (hmd : md.WellFormed) {site : CallSite} (hm : md.HasMethod site.method) :
    Delivers md p (fun st st' => st' = st.drop site.pops) (invoke p site) (Next.Typed md p) := by
  refine .after (computes_modifyMetrics _) fun _ _ => ?_
  cases site with
  | call m => exact (delivers_popArguments hs _).before fun arguments hargs => .pure ⟨hm, hargs⟩
  | callvirt m =>
    refine (delivers_popArguments hs _).before fun arguments hargs => ?_
    exact (computes_virtualTarget hmd hm arguments).bind fun target ht => .pure ⟨ht, hargs⟩
  | newobj m type =>
    refine (delivers_popArguments hs _).before fun arguments hargs => computes_metadata.bind ?_
    rintro _ rfl
    refine (computes_onHeap (Heap.keeps_newInstance hmd type)).bind fun r _ => .pure ⟨hm, fun v hv => ?_⟩
    rcases List.mem_cons.1 hv with rfl | hv
    · trivial
    · exact hargs v hv
  | jmp m =>
    refine .after computes_activation fun a ha => .after (computes_arguments ha _) fun arguments hargs => ?_
    refine .pure ⟨hm, hargs⟩ fun st st' h => ?_
    rw [h]
    exact List.drop_suffix 0 st

omit hs in
theorem computes_resolveSite (kind : CallKind) (t : Token) :
    Computes md p (resolveSite kind t) fun site => site.kind = kind ∧ site.Names md t := by
  refine (computes_resolveMethod t).bind fun m hm => ?_
  cases kind with
  | call => exact .pure ⟨rfl, ⟨m.body, hm⟩, fun _ _ h => by cases h⟩
  | callvirt => exact .pure ⟨rfl, ⟨m.body, hm⟩, fun _ _ h => by cases h⟩
  | jmp => exact .pure ⟨rfl, ⟨m.body, hm⟩, fun _ _ h => by cases h⟩
  | newobj =>
    refine computes_metadata.bind ?_
    rintro _ rfl
    refine (computes_ofResolution _).bind fun type htype => .pure ⟨rfl, ⟨m.body, hm⟩, fun m' type' h => ?_⟩
    cases h
    exact htype

omit hs in
/-- Resolving a call site changes no stack. -/
theorem computes_installSite (pc : Nat) (site : CallSite) : Computes md p (installSite p pc site) fun _ => True := by
  refine (computes_ofEngine _).bind fun _ _ => (computes_ofEngine _).bind fun _ _ => ?_
  refine (computes_ofEngine _).bind fun _ _ => computes_activation.bind fun _ _ => ?_
  refine Computes.bind (P := fun _ => True) ?_ fun _ _ => computes_modifyMetrics _
  exact computes_noted fun _ => ⟨rfl, rfl, rfl⟩

variable (hmd : md.WellFormed)
include hmd

/-- The site of the instruction is the one whose arguments are popped. -/
theorem hands_invoke {site : CallSite} (hsite : p.HasSite md pc site) (ht : op.action.isTransfer = true) :
    Delivers md p (p.Hands md pc op next) (invoke p site) (Next.Typed md p) := by
  obtain ⟨t, -, hn⟩ := hsite.names
  refine (delivers_invoke hs hmd (hn.hasMethod hmd)).connect ?_
  rintro st st' (⟨hplain, -⟩ | ⟨site', hsite', rfl⟩)
  · rw [ht] at hplain
    cases hplain
  · rw [hsite.pops_eq hsite']

variable (hr : p.analysis.isReachable pc = true) (hd : p.Declares pc op next)
include hr hd

theorem hands_callSite {kind : CallKind} (ha : p.declared.AgreeOn p.code pc next) (hact : op.action = .callSite kind) :
    Delivers md p (p.Hands md pc op next) (callSite p pc kind) (Next.Typed md p) := by
  refine .after (computes_ofEngine _) fun t ht => .after (computes_resolveSite kind t) ?_
  rintro site ⟨rfl, hn⟩
  rw [Code.token_agree hd.next ha hd.opcode (op.size?_of_width? (by rw [hact]; rfl))] at ht
  refine .after (computes_installSite pc site) fun _ _ => ?_
  exact hands_invoke hs hmd ⟨hr, ⟨op, hd.opcode, hact⟩, t, ht, hn⟩ (by rw [hact]; rfl)

/-- **The instruction at an analyzed offset keeps the workspace good** and leaves the types that it should, where it
reads as declared. -/
theorem hands_declared (ha : p.declared.AgreeOn p.code pc next) :
    Delivers md p (p.Hands md pc op next) (instruction p pc op) (Next.Typed md p) := by
  -- a transfer that is no call has no call site
  have silent : ∀ {x : ExecM Next}, op.action.isTransfer = true → (∀ kind, op.action ≠ .callSite kind) →
      Preserves md p x (Next.Typed md p) → Delivers md p (p.Hands md pc op next) x (Next.Typed md p) := by
    intro x ht hcall hx
    refine hx.connect ?_
    rintro st st' (⟨hplain, -⟩ | ⟨site, hsite, -⟩)
    · rw [ht] at hplain
      cases hplain
    · obtain ⟨op', hop', hact'⟩ := hsite.opcode
      cases hd.opcode.symm.trans hop'
      exact hcall _ hact'
  cases ht : op.action.isTransfer with
  | false =>
    refine (acting_instruction hs hmd hd ha ht).connect ?_
    rintro st st' (⟨-, hacts⟩ | ⟨site, hsite, -⟩)
    · exact hacts
    · obtain ⟨op', hop', hact'⟩ := hsite.opcode
      cases hd.opcode.symm.trans hop'
      rw [hact'] at ht
      cases ht
  | true =>
    cases hact : op.action with
    | ret =>
      have hret : instruction p pc op = ret p := by rw [instruction, hact]
      rw [hret]
      exact silent ht (by simp [hact]) (preserves_ret hs)
    | leave =>
      have hleave : instruction p pc op = leave p pc := by rw [instruction, hact]
      rw [hleave]
      exact silent ht (by simp [hact]) (preserves_leave hs pc)
    | endFinally =>
      have hend : instruction p pc op = endFinally p pc := by rw [instruction, hact]
      rw [hend]
      exact silent ht (by simp [hact]) (preserves_endFinally hs pc)
    | callSite kind =>
      have hcall : instruction p pc op = callSite p pc kind := by rw [instruction, hact]
      rw [hcall]
      exact hands_callSite hs hmd hr hd ha hact
    | cachedCall =>
      -- no analysis accepts a cached call that was declared
      obtain ⟨stack, after, effect, v, -, hrun, -⟩ := hs.visited hr hd
      simp only [Analysis.Context.act, hact] at hrun
      cases hrun
    | _ => rw [hact] at ht; cases ht

omit hr hd in
theorem hands_cachedCall {i : Nat} {site : CallSite} (hc : p.CachedAt pc i next) (hi : i < 2 ^ 32)
    (hsite : p.callSites[i]? = some site) (hhas : p.HasSite md pc site) :
    Delivers md p (p.Hands md pc .cachedCall next) (instruction p pc .cachedCall) (Next.Typed md p) := by
  have hcall : instruction p pc .cachedCall = cachedCall p pc := rfl
  rw [hcall]
  refine .after (computes_ofEngine _) fun index hindex => ?_
  rw [hc.operand, Nat.mod_eq_of_lt hi] at hindex
  cases hindex
  simp only [hsite]
  exact hands_invoke hs hmd hhas rfl

omit hd in
/-- **Every instruction at an analyzed offset keeps the workspace good**, whether it reads as declared or as a cached
call, and leaves the types that it should. -/
theorem hands_instruction (hsize : p.declared.size ≤ 2 ^ 32) (hop : p.code.opcodeAt pc = .ok op)
    (hnext : p.code.nextOffset pc = .ok next) :
    Delivers md p (p.Hands md pc op next) (instruction p pc op) (Next.Typed md p) := by
  obtain ⟨op₀, next₀, hd⟩ := hs.declares hr
  rcases hs.reads hr hd with ha | ⟨i, site, hsite, hhas, hc⟩
  · cases hop.symm.trans (Code.opcodeAt_agree hd.opcode ha (Code.nextOffset_bounds hd.next hd.opcode).1)
    cases hnext.symm.trans (Code.nextOffset_agree hd.next ha)
    exact hands_declared hs hmd hr hd ha
  · cases hop.symm.trans hc.opcode
    have hi : i < 2 ^ 32 :=
      Nat.lt_of_lt_of_le (Array.getElem?_eq_some_iff.1 hsite).1 (Nat.le_trans hs.size_le hsize)
    cases hnext.symm.trans hc.next
    exact hands_cachedCall hs hmd hc hi hsite hhas

end

end ExecM

/-! ## Entering a method -/

namespace Machine

variable {md : Metadata}

/-- Arguments are narrowed to the kinds of their slots. -/
theorem keeps_normalizeAll : ∀ (slot : Nat) (kinds : List Kind) (vs : List Value), (∀ v ∈ vs, v.Proper md) →
    Heap.Keeps md (normalizeAll slot kinds vs) fun ws => (∀ w ∈ ws, w.Proper md) ∧
      (vs.length = kinds.length → List.Forall₂ Value.Fits ws (kinds.map (·.stackType)))
  | slot, k :: kinds, v :: vs, hvs => by
    unfold normalizeAll
    refine (HeapTrapM.keeps_normalize slot k (hvs v List.mem_cons_self)).bind fun w ⟨hw, hfits⟩ => ?_
    refine (keeps_normalizeAll (slot + 1) kinds vs fun u hu => hvs u (List.mem_cons_of_mem _ hu)).bind ?_
    rintro ws ⟨hws, hall⟩
    refine .pure ⟨fun u hu => ?_, fun hlen => .cons hfits (hall (Nat.succ.inj hlen))⟩
    rcases List.mem_cons.1 hu with rfl | hu
    · exact hw
    · exact hws u hu
  | _, [], [], _ => .pure ⟨(fun u hu => by cases hu), fun _ => .nil⟩
  | _, [], _ :: _, _ => .pure ⟨(fun u hu => by cases hu), fun hlen => by cases hlen⟩
  | _, _ :: _, [], _ => .pure ⟨(fun u hu => by cases hu), fun hlen => by cases hlen⟩

end Machine

namespace Frame

variable {md : Metadata} {id : FrameId} {layout : Layout} {arguments : List Value} {locals : List Kind}

/-- A fresh frame holds its arguments, the zeros of its locals, and nulls. -/
theorem slots_make (ha : arguments.length = layout.arguments) (hl : locals.length = layout.locals) :
    (make id layout arguments locals).slots =
      (arguments ++ locals.map Kind.zero ++ List.replicate layout.maxStack Value.null).toArray := by
  have hargs : resize arguments layout.arguments = arguments := by
    rw [resize, ← ha, List.take_length, Nat.sub_self, List.replicate_zero, List.append_nil]
  have hlen : (arguments ++ locals.map Kind.zero).length = layout.stackBase := by
    rw [List.length_append, List.length_map, ha, hl, Layout.stackBase]
  rw [make, hargs, resize, List.take_of_length_le (by rw [hlen, Layout.total]; omega), hlen, Layout.total,
    Nat.add_sub_cancel_left]

theorem proper_make (ha : arguments.length = layout.arguments) (hl : locals.length = layout.locals)
    (hargs : ∀ v ∈ arguments, v.Proper md) : (make id layout arguments locals).Proper md := by
  intro i v hv
  rw [slots_make ha hl, List.getElem?_toArray] at hv
  rcases List.mem_append.1 (List.mem_of_getElem? hv) with hv | hv
  · rcases List.mem_append.1 hv with hv | hv
    · exact hargs v hv
    · obtain ⟨k, -, rfl⟩ := List.mem_map.1 hv
      exact k.proper_zero
  · rw [List.eq_of_mem_replicate hv]
    trivial

theorem holds_of_forall₂ {f : Frame} {vs rest : List Value} {ts : List StackType} (hf : f.slots = (vs ++ rest).toArray)
    (h : List.Forall₂ Value.Fits vs ts) : f.Holds ts := by
  intro i t ht
  have hi : i < vs.length := by
    rw [h.length_eq]
    exact (List.getElem?_eq_some_iff.1 ht).1
  refine ⟨vs.get ⟨i, hi⟩, ?_, ?_⟩
  · rw [hf, List.getElem?_toArray, List.getElem?_append_left hi, List.get_eq_getElem]
    exact List.getElem?_eq_getElem hi
  · obtain ⟨hlt, rfl⟩ := List.getElem?_eq_some_iff.1 ht
    exact h.get hi hlt

/-- **A fresh frame holds what fits the kinds of its arguments and locals.** -/
theorem holds_make {kinds : List Kind} (ha : arguments.length = layout.arguments)
    (hl : locals.length = layout.locals) (h : List.Forall₂ Value.Fits arguments (kinds.map (·.stackType))) :
    (make id layout arguments locals).Holds ((kinds ++ locals).map (·.stackType)) := by
  have hzeros : List.Forall₂ Value.Fits (locals.map Kind.zero) (locals.map (·.stackType)) := by
    rw [List.forall₂_map_left_iff, List.forall₂_map_right_iff, List.forall₂_same]
    exact fun k _ => k.fits_zero
  rw [List.map_append]
  exact holds_of_forall₂ (slots_make ha hl) (List.rel_append h hzeros)

end Frame

/-- **A host function that keeps to the rules**: it changes the heap by operations of the heap only, and a pointer to a
field that it gives carries the symbol that the tables have. -/
def Native.Lawful (md : Metadata) (n : Native) : Prop :=
  ∀ (arguments : List Value) (h : Heap), (∀ v ∈ arguments, v.Proper md) → h.Typed md →
    h.Becomes md ((n.run md arguments).run h).2 ∧ ∀ v, ((n.run md arguments).run h).1 = .ok (some v) → v.Proper md

namespace Machine

variable {m m' : Machine} {symbol : MethodSymbol} {arguments : List Value}

/-- **A machine in order**: the tables are well formed, the heap is typed, the host functions keep to the rules, and
every method that is ready is one of the tables. -/
structure Orderly (m : Machine) : Prop where
  tables : m.metadata.WellFormed
  heap : m.heap.Typed m.metadata
  natives : ∀ k n, m.native? k = some n → n.Lawful m.metadata
  methods : ∀ k p, m.prepared? k = some p → m.metadata.HasMethod p.symbol ∧ p.symbol.handle = k

theorem Orderly.of_ready (hm : m.Orderly) (hmetadata : m'.metadata = m.metadata) (hnatives : m'.natives = m.natives)
    (hheap : m'.heap.Typed m.metadata) (hready : ∀ k q, m'.prepared? k = some q →
      (∃ p, m.prepared? k = some p ∧ q.symbol = p.symbol) ∨ (m.metadata.HasMethod q.symbol ∧ q.symbol.handle = k)) :
    m'.Orderly where
  tables := by rw [hmetadata]; exact hm.tables
  heap := by rw [hmetadata]; exact hheap
  natives := by
    intro k n hn
    rw [native?, hnatives] at hn
    rw [hmetadata]
    exact hm.natives k n hn
  methods := by
    intro k q hq
    rw [hmetadata]
    rcases hready k q hq with ⟨p, hp, hsymbol⟩ | hnew
    · rw [hsymbol]
      exact hm.methods k p hp
    · exact hnew

theorem Orderly.readied (hm : m.Orderly) (hr : m.Readied symbol m') (hsymbol : m.metadata.HasMethod symbol) :
    m'.Orderly := by
  refine hm.of_ready hr.metadata (by rw [hr.same]) (by rw [hr.heap]; exact hm.heap) fun k q hq => ?_
  rcases hr.ready k q hq with hq | ⟨rfl, body, analysis, regions, rfl⟩
  · exact .inl ⟨q, hq, rfl⟩
  · exact .inr ⟨hsymbol, rfl⟩

/-- The heap and the rest that an orderly machine has nothing to do with have changed. -/
theorem Orderly.withHeap (hm : m.Orderly) (hsame : m.SamePrograms m') (hnatives : m'.natives = m.natives)
    (hheap : m'.heap.Typed m.metadata) : m'.Orderly :=
  hm.of_ready hsame.metadata hnatives hheap fun k q hq => .inl ⟨q, (hsame.prepared? k).symm.trans hq, rfl⟩

theorem raise_typed (hheap : m.heap.Typed m.metadata) (t : Trap) : (m.raise t).2.heap.Typed m.metadata := by
  cases t with
  | abort a => exact hheap
  | thrown e => exact hheap
  | fault k message => exact hheap.newException k message

/-- **A call leaves the machine in order.** A method that starts has what fits in its variables. -/
theorem Enters.orderly {r : Control × Machine} (he : Enters m symbol arguments r) (hm : m.Orderly) (hs : m.Sound)
    (hsymbol : m.metadata.HasMethod symbol) (hargs : ∀ v ∈ arguments, v.Proper m.metadata) :
    r.2.Orderly ∧ (∀ v, r.1 = .ending (.ok (some v)) → v.Proper m.metadata) ∧
      ∀ a, r.1 = .running a → ∃ p, r.2.prepared? symbol.handle = some p ∧ a.method = symbol.handle ∧ a.pc = 0 ∧
        a.frame.Proper m.metadata ∧ a.frame.Holds p.variableTypes := by
  cases he with
  | refused hr => exact ⟨hm.readied hr hsymbol, (fun v hv => by cases hv), fun a ha => by cases ha⟩
  | @native m₁ n hb hr hn =>
    have hm₁ := hm.readied hr hsymbol
    obtain ⟨hbecomes, hproper⟩ := hm.natives _ n hn arguments m.heap hargs hm.heap
    refine ⟨hm₁.withHeap ⟨rfl, rfl⟩ rfl ?_, fun v hv => hproper v (Control.ending.inj hv), fun a ha => by cases ha⟩
    rw [hr.metadata]
    exact hbecomes.typed hm.tables hm.heap
  | @failed m₁ p t h depth hr hp hn =>
    have hm₁ := hm.readied hr hsymbol
    have hkeeps := keeps_normalizeAll 0 p.argumentKinds arguments hargs m.heap hm.heap
    have htyped : h.Typed m₁.metadata := by
      rw [hr.metadata]
      exact hkeeps.of_error hn
    refine ⟨hm₁.withHeap ?_ ?_ ?_, (fun v hv => by cases hv), fun a ha => by cases ha⟩
    · cases t <;> exact ⟨rfl, rfl⟩
    · cases t <;> rfl
    · exact raise_typed (m := { m₁ with heap := h }) htyped t
  | @started m₁ p values h trace hr hp hb hlen hn =>
    have hm₁ := hm.readied hr hsymbol
    obtain ⟨⟨hvalues, hfits⟩, htyped⟩ := (keeps_normalizeAll 0 p.argumentKinds arguments hargs m.heap hm.heap).of_ok hn
    have hp' := hr.sound hs _ p hp
    have hkinds : p.argumentKinds.length = p.layout.arguments := by rw [hp'.argumentKinds, hp'.layout]; rfl
    have hlocals : p.localKinds.length = p.layout.locals := by rw [hp'.localKinds, hp'.layout]
    have hfits := hfits (hlen.trans hkinds.symm)
    have hcount : values.length = p.layout.arguments := by rw [hfits.length_eq, List.length_map, hkinds]
    refine ⟨hm₁.withHeap ⟨rfl, rfl⟩ rfl ?_, (fun v hv => by cases hv), fun a ha => ?_⟩
    · rw [hr.metadata]
      exact htyped
    · cases ha
      exact ⟨p, hp, rfl, rfl, Frame.proper_make hcount hlocals hvalues, Frame.holds_make hcount hlocals hfits⟩

end Machine

end ManagedCode
