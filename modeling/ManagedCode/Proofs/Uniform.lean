import ManagedCode.Proofs.Heights
import ManagedCode.Proofs.Passing

/-!
# Types that do not depend on the path

The analysis visits an offset once. If some assignment of stack types agrees with every edge (`Analysis.Uniform`), then
every stack that flows to an offset has the assigned types, so the annotation of an instruction names the types of the
operands that are there whenever it is executed.
-/

namespace ManagedCode

open Analysis (Flows Visit Successor)

/-- How many operands the annotation of an instruction is about. -/
def Action.annotated : Action → Nat
  | .jumpOn _ | .unary _ => 1
  | .jumpCompare _ | .compare _ | .binary _ | .shift _ => 2
  | _ => 0

/-- The types that an annotation names for a number of operands, the top first. -/
def OperandTypes.named (ts : OperandTypes) : Nat → List StackType
  | 1 => [ts.left]
  | 2 => [ts.right?.getD ts.left, ts.left]
  | _ => []

/-- The types that a call leaves on the stack: its arguments are gone, and its result or the constructed object is on
top. -/
def CallSite.leaves (site : CallSite) (st : List StackType) : List StackType :=
  match site with
  | call m | callvirt m => (m.signature.result.map (·.stackType)).toList ++ st.drop site.pops
  | newobj _ _ => .object :: st.drop site.pops
  | jmp _ => st

theorem CallSite.length_leaves (site : CallSite) (hk : site.kind ≠ .jmp) (st : List StackType) :
    (site.leaves st).length = site.pushes + (st.drop site.pops).length := by
  cases site with
  | call m | callvirt m =>
    rw [leaves, pushes, List.length_append]
    cases m.signature.result <;> rfl
  | newobj m type => exact Nat.add_comm _ _
  | jmp m => exact absurd rfl hk

namespace Analysis

variable {cx : Context} {a : MethodAnalysis} {S : Nat → List StackType} {pc next : Nat} {op : Opcode}
  {st st' : List StackType} {e : Effect}

/-- **The types of the stack do not depend on the path**: `S` agrees with the types that control enters with, and along
every edge with what the visit of an offset delivers. -/
structure Uniform (cx : Context) (a : MethodAnalysis) (S : Nat → List StackType) : Prop where
  entry : ∀ e ∈ entries cx.regions, S e.1 = e.2
  edge : ∀ pc (v : Visit cx a pc (S pc)), ∀ s ∈ v.successors, S s.offset = if s.empties then [] else v.after

theorem Uniform.eq (h : Uniform cx a S) {stack : List StackType} (hf : Flows cx a pc stack) : stack = S pc := by
  induction hf with
  | entry hm => exact (h.entry _ hm).symm
  | edge _ v hn ih =>
    subst ih
    exact (h.edge _ v _ hn).symm

theorem Uniform.of_flows (ha : Accepted cx a) (h : ∀ pc stack, Flows cx a pc stack → stack = S pc) :
    Uniform cx a S where
  entry := fun e he => (h _ _ (.entry he)).symm
  edge := by
    intro pc v s hs
    obtain ⟨stack, hf, -⟩ := ha.visited pc v.visited
    have hstack := h _ _ hf
    subst hstack
    exact (h _ _ (hf.edge v hs)).symm

/-- Types that do not depend on the path have heights that do not either. -/
theorem Uniform.leveled (h : Uniform cx a S) : Leveled cx a fun pc => (S pc).length :=
  .of_flows fun pc stack hf => by rw [h.eq hf]

open TypeM

/-- **The annotation names the types of the operands.** -/
theorem Context.act_operands (h : (cx.act pc op next).run st = .ok (e, st')) (ha : op.action.usesTypes = true) :
    ∃ ts, e.operands = some ts ∧ ts.named op.action.annotated <+: st := by
  have pairs : ∀ {l r : StackType} {ts : OperandTypes} {rest : List StackType}, OperandTypes.pair? l r = some ts →
      ts.named 2 <+: r :: l :: rest := by
    intro l r ts rest hp
    obtain ⟨hl, hr⟩ := OperandTypes.left_right_of_pair? hp
    refine ⟨rest, ?_⟩
    rw [OperandTypes.named, hr, hl]
    rfl
  have singles : ∀ {t : StackType} {rest : List StackType}, (OperandTypes.single t).named 1 <+: t :: rest := by
    intro t rest
    refine ⟨rest, ?_⟩
    cases t <;> rfl
  have branch : ∀ {ts : OperandTypes} {st : List StackType}, StateT.run (do
        let target ← liftCode (cx.code.branchTarget pc)
        return ({ operands := some ts, jumps := [⟨target, false⟩] } : Effect)) st = .ok (e, st') →
      e.operands = some ts := by
    intro ts st h
    obtain ⟨target, st₁, -, h⟩ := bind_ok h
    cases h
    rfl
  cases hact : op.action with
  | jumpOn b =>
    simp only [act, hact] at h
    obtain ⟨t, st₁, hp, h⟩ := bind_ok h
    rw [pop_ok hp]
    by_cases hf : (t == .float) = true
    · simp only [hf, if_true] at h
      cases h
    · simp only [hf] at h
      exact ⟨_, branch h, singles⟩
  | jumpCompare c =>
    simp only [act, hact] at h
    obtain ⟨⟨l, r⟩, st₁, hp, h⟩ := bind_ok h
    obtain ⟨ts, st₂, hts, h⟩ := bind_ok h
    rw [popPair_ok hp]
    exact ⟨ts, branch h, pairs (pairAs_ok hts).1⟩
  | compare c =>
    simp only [act, hact] at h
    obtain ⟨⟨l, r⟩, st₁, hp, h⟩ := bind_ok h
    obtain ⟨ts, st₂, hts, h⟩ := bind_ok h
    obtain ⟨rfl, -⟩ := push_return_ok h
    rw [popPair_ok hp]
    exact ⟨ts, rfl, pairs (pairAs_ok hts).1⟩
  | binary b =>
    obtain ⟨l, r, ts, rest, hp, hts, rfl, -⟩ := act_binary h hact
    exact ⟨ts, hts, pairs hp⟩
  | shift s =>
    obtain ⟨l, r, ts, rest, hp, hts, rfl, -⟩ := act_shift h hact
    exact ⟨ts, hts, pairs hp⟩
  | unary u =>
    obtain ⟨t, rest, hts, rfl, -⟩ := act_unary h hact
    exact ⟨_, hts, singles⟩
  | _ => rw [hact] at ha; cases ha

theorem Context.call_leaves {max : Nat} {s : Signature}
    (h : (Context.act.call pc (TypeM.push max pc) s).run st = .ok (e, st')) :
    st' = (s.result.map (·.stackType)).toList ++ st.drop s.arity := by
  unfold Context.act.call at h
  obtain ⟨_, st₁, hp, hrest⟩ := bind_ok h
  obtain ⟨ts, hlen, rfl⟩ := popMany_ok hp
  rw [List.drop_left' hlen]
  cases hr : s.result with
  | none =>
    simp only [hr] at hrest
    cases hrest
    rfl
  | some k =>
    simp only [hr] at hrest
    exact (push_return_ok hrest).2

/-- **What a call leaves** is decided by its instruction and the signature of the method that its token names. -/
theorem Context.act_callSite (h : (cx.act pc op next).run st = .ok (e, st')) {site : CallSite} {t : Token}
    (ha : op.action = .callSite site.kind) (ht : cx.code.token pc = .ok t) (hn : site.Names cx.metadata t)
    (hk : site.kind ≠ .jmp) : st' = site.leaves st := by
  obtain ⟨b, hb⟩ := hn.method
  have called : ∀ {m : MethodSymbol} {st₁ : List StackType}, (cx.operandMethod pc).run st = .ok (m, st₁) →
      m = { site.method with body := b } ∧ st = st₁ := by
    intro m st₁ hm
    obtain ⟨t', ht', hm, hst⟩ := operandMethod_ok hm
    cases ht.symm.trans ht'
    exact ⟨Except.ok.inj (hm.symm.trans hb), hst⟩
  simp only [act, ha] at h
  cases site with
  | call m =>
    obtain ⟨m', st₁, hm, hrest⟩ := bind_ok h
    obtain ⟨rfl, rfl⟩ := called hm
    exact call_leaves hrest
  | callvirt m =>
    obtain ⟨m', st₁, hm, hrest⟩ := bind_ok h
    obtain ⟨rfl, rfl⟩ := called hm
    exact call_leaves hrest
  | newobj m type =>
    obtain ⟨m', st₁, hm, hrest⟩ := bind_ok h
    obtain ⟨rfl, rfl⟩ := called hm
    obtain ⟨_, st₂, hp, hlast⟩ := bind_ok hrest
    obtain ⟨ts, hlen, rfl⟩ := popMany_ok hp
    have hlen : ts.length = m.signature.parameters.length := hlen
    rw [(push_return_ok hlast).2]
    show _ = StackType.object :: (ts ++ st₂).drop m.signature.parameters.length
    rw [List.drop_left' hlen]
  | jmp m => exact absurd rfl hk

end Analysis

namespace Prepared

variable {md : Metadata} {p p' : Prepared} {S : Nat → List StackType} {pc q next : Nat} {op : Opcode}

/-- **The types of the stack of a method do not depend on the path.** Where `box` names a class, a reference is on top,
and where the address of a static field is asked for, its owner is no plain number. -/
structure Uniform (md : Metadata) (p : Prepared) (S : Nat → List StackType) : Prop where
  flow : Analysis.Uniform (p.context md) p.analysis S
  box : ∀ pc op t type, p.analysis.isReachable pc = true → p.declared.opcodeAt pc = .ok op → op.action = .box →
    p.declared.token pc = .ok t → md.resolveType t = .ok type → type.isValueType = false →
    ∃ rest, S pc = .object :: rest
  address : ∀ pc op t f, p.analysis.isReachable pc = true → p.declared.opcodeAt pc = .ok op →
    op.action = .fieldAddress → p.declared.token pc = .ok t → md.resolveField t = .ok f → f.isStatic = true →
    ∀ rest, S pc ≠ .nativeInt :: rest

theorem Evolves.uniform (h : p.Evolves p') (hu : p'.Uniform md S) : p.Uniform md S where
  flow := by
    rw [← h.context, ← h.analysis]
    exact hu.flow
  box := by
    rw [← h.analysis, ← h.declared]
    exact hu.box
  address := by
    rw [← h.analysis, ← h.declared]
    exact hu.address

namespace Uniform

variable (h : p.Uniform md S)
include h

theorem leveled : p.Leveled md fun pc => (S pc).length := h.flow.leveled

theorem start : S 0 = [] := h.flow.entry (0, []) List.mem_cons_self

/-- A handler is entered with its exception, and the target of a leave with nothing. -/
theorem landed {catches : Bool} (hl : p.Lands md q catches) : S q = if catches then [.object] else [] := by
  rcases hl.place with hm | ⟨rfl, source, he⟩
  · exact h.flow.entry _ hm
  · obtain ⟨stack, hf, v, hv⟩ := he.visit
    have hstack := h.flow.eq hf
    subst hstack
    exact h.flow.edge source v _ hv

/-- **The analysis executed the instruction at a reachable offset on the assigned types**, and went on with the types
that are assigned wherever control may come next. -/
theorem acts (hs : p.Sound md) (hr : p.analysis.isReachable pc = true) (hd : p.Declares pc op next) :
    ∃ st', p.Acts md pc op next (S pc) st' ∧ ∀ q, p.Edge md pc ⟨q, false⟩ → S q = st' := by
  obtain ⟨stack, hf, v, -⟩ := hs.visit hr
  have hstack := h.flow.eq hf
  subst hstack
  have hop : v.op = op := Except.ok.inj (v.opcode.symm.trans hd.opcode)
  obtain ⟨next', effect, hnext, hact, htypes, -⟩ := Analysis.Context.transfer_ok v.transfer
  cases hd.next.symm.trans hnext
  rw [hop] at hact
  refine ⟨v.after, ⟨⟨effect, hact, v.operands.trans htypes⟩, ?_, ?_⟩, fun q he => ?_⟩
  · exact fun hbox t type => h.box pc op t type hr hd.opcode hbox
  · exact fun haddress t f => h.address pc op t f hr hd.opcode haddress
  · obtain ⟨stack, hf', v', hv'⟩ := he.visit
    have hstack := h.flow.eq hf'
    subst hstack
    -- both visits execute the same instruction on the same types
    have hop' : v'.op = v.op := Except.ok.inj (v'.opcode.symm.trans v.opcode)
    have htransfer := v'.transfer
    rw [hop', v.transfer] at htransfer
    have hafter : v.after = v'.after := congrArg Prod.snd (Except.ok.inj htransfer)
    rw [hafter]
    exact h.flow.edge pc v' _ hv'

/-- **Behind a call the types are what its signature leaves.** -/
theorem returned (hs : p.Sound md) {site : CallSite} (hsite : p.HasSite md pc site) (hk : site.kind ≠ .jmp)
    (he : p.Edge md pc ⟨q, false⟩) : S q = site.leaves (S pc) := by
  obtain ⟨op, next, hd⟩ := hs.declares hsite.reachable
  obtain ⟨op', hop', hact'⟩ := hsite.opcode
  cases hd.opcode.symm.trans hop'
  obtain ⟨t, ht, hn⟩ := hsite.names
  obtain ⟨st', hacts, hnext⟩ := h.acts hs hsite.reachable hd
  obtain ⟨e, hrun, -⟩ := hacts.act
  rw [hnext q he]
  exact Analysis.Context.act_callSite hrun hact' ht hn hk

/-- **The annotation of a reachable instruction names the assigned types of its operands.** -/
theorem annotated (hs : p.Sound md) (hr : p.analysis.isReachable pc = true) (hd : p.Declares pc op next)
    (hu : op.action.usesTypes = true) :
    ∃ ts, p.analysis.operandTypes? pc = some ts ∧ ts.named op.action.annotated <+: S pc := by
  obtain ⟨st', hacts, -⟩ := h.acts hs hr hd
  obtain ⟨e, hrun, htypes⟩ := hacts.act
  obtain ⟨ts, hts, hstarts⟩ := Analysis.Context.act_operands hrun hu
  exact ⟨ts, htypes.trans hts, hstarts⟩

end Uniform

end Prepared

end ManagedCode
