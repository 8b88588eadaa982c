import ManagedCode.Proofs.Arrivals
import ManagedCode.Proofs.Tables

/-!
# What fits on the evaluation stack

A method declares how many values its evaluation stack holds. The analysis refuses every instruction that pushes past
that, but a stack that control enters with from outside is taken as it is: a handler that takes an exception starts with
the exception's object, also where the stack has no room for it. So heights stay within the declaration exactly if
there is room for one value or no offset is first entered with an object (`analyze_fits_iff`), and control arrives in a
handler exactly if the handler's stack fits (`Execution.Arrives.lands`).
-/

namespace ManagedCode

namespace Analysis

variable {cx : Context} {pc next : Nat} {op : Opcode} {st st' : List StackType}

/-! ## Instructions stay within the declared height -/

namespace TypeM

variable {α β : Type} {limit : Nat} {x : TypeM α} {f : α → TypeM β}

/-- Where `x` succeeds, the stack is not higher than before or than `limit`. -/
def Bounded (limit : Nat) (x : TypeM α) : Prop :=
  ∀ st a st', x.run st = .ok (a, st') → st'.length ≤ max st.length limit

namespace Bounded

theorem pure (a : α) : Bounded limit (Pure.pure a) := by
  intro st a' st' h
  cases h
  exact Nat.le_max_left ..

theorem fail {d : Defect} : Bounded limit (TypeM.fail pc d : TypeM α) := nofun

theorem bind (hx : Bounded limit x) (hf : ∀ a, Bounded limit (f a)) : Bounded limit (x >>= f) := by
  intro st b st' h
  obtain ⟨a, st₁, h₁, h₂⟩ := bind_ok h
  have := hx st a st₁ h₁
  have := hf a st₁ b st' h₂
  omega

theorem of_changes {d : Int} (h : Changes d x) (hd : d ≤ 0) : Bounded limit x := by
  intro st a st' hrun
  have := h st a st' hrun
  omega

theorem push {t : StackType} : Bounded limit (TypeM.push limit pc t) := by
  intro st u st' h
  obtain ⟨hlt, rfl⟩ := push_ok h
  rw [List.length_cons]
  omega

theorem popMany {count : Nat} : Bounded limit (TypeM.popMany pc count) := .of_changes (changes_popMany count) (by omega)

theorem liftCode {r : Except EngineError α} : Bounded limit (TypeM.liftCode r) := by
  intro st a st' h
  rw [(liftCode_ok h).2]
  omega

theorem liftResolution {r : Except ResolutionError α} : Bounded limit (TypeM.liftResolution r) := by
  intro st a st' h
  rw [(liftResolution_ok h).2]
  omega

theorem empty : Bounded limit (set ([] : List StackType) : TypeM PUnit) := by
  intro st a st' h
  cases h
  exact Nat.zero_le _

theorem get : Bounded limit (MonadState.get : TypeM (List StackType)) := by
  intro st a st' h
  cases h
  omega

end Bounded

end TypeM

open TypeM

theorem Context.bounded_call {s : Signature} : Bounded cx.maxStack (act.call pc (TypeM.push cx.maxStack pc) s) :=
  .bind .popMany fun _ => by
    cases s.result with
    | none => exact .pure _
    | some k => exact .bind .push fun _ => .pure _

/-- **No instruction pushes past the declared height.** Those that change the height by a number that is not positive
have no need to ask. -/
theorem Context.act_bounded : Bounded cx.maxStack (cx.act pc op next) := by
  have hstop : ∀ d, Bounded cx.maxStack (do
      if !(← get).isEmpty then TypeM.fail pc d
      return ({} : Effect)) := by
    refine fun d => .bind .get fun st => ?_
    split
    · exact .bind .fail fun _ => .pure _
    · exact .pure _
  by_cases hsmall : ∃ d, op.action.change? = some d ∧ d ≤ 0
  · obtain ⟨d, hd, hle⟩ := hsmall
    intro st e st' h
    have := (cx.act_performs st e st' h).1 d hd
    omega
  · unfold act
    generalize op.action = action at hsmall
    cases action with
    | load place index =>
      exact .bind (.of_changes changes_slotIndex (by omega)) fun _ =>
        .bind (.of_changes changes_slotType (by omega)) fun _ => .bind .push fun _ => .pure _
    | address place =>
      exact .bind (.of_changes changes_slotIndex (by omega)) fun _ =>
        .bind (.of_changes changes_slotType (by omega)) fun _ => .bind .push fun _ => .pure _
    | loadNull | loadString | loadToken | loadConstant | sizeOf | argumentList | staticAddress | functionPointer =>
      exact .bind .push fun _ => .pure _
    | dup => exact .bind (.of_changes changes_pop (by omega)) fun _ => .bind .push fun _ => .bind .push fun _ => .pure _
    | loadStatic =>
      exact .bind (.of_changes changes_operandField (by omega)) fun _ => .bind .push fun _ => .pure _
    | callSite kind =>
      have hmethod : Bounded cx.maxStack (cx.operandMethod pc) := .bind .liftCode fun _ => .liftResolution
      cases kind with
      | jmp => exact hstop _
      | newobj => exact .bind hmethod fun m => .bind .popMany fun _ => .bind .push fun _ => .pure _
      | call | callvirt => exact .bind hmethod fun m => bounded_call
    | callIndirect =>
      exact .bind .liftCode fun t => .bind .liftResolution fun s =>
        .bind (.of_changes changes_pop (by omega)) fun _ => bounded_call
    | cachedCall => exact nofun
    | ret =>
      dsimp only
      split
      · exact .bind (.of_changes changes_pop (by omega)) fun _ => hstop _
      · exact hstop _
    | leave => exact .bind .empty fun _ => .bind .liftCode fun _ => .pure _
    | endFinally => exact .bind .empty fun _ => .pure _
    | _ => exact absurd ⟨_, rfl, by decide⟩ hsmall

theorem Context.transfer_bounded {types : Option OperandTypes} {successors : List Successor}
    (h : (cx.transfer pc op).run st = .ok ((types, successors), st')) : st'.length ≤ max st.length cx.maxStack := by
  obtain ⟨next, effect, -, hact, -⟩ := Context.transfer_ok h
  exact Context.act_bounded st effect st' hact

/-! ## First come, first served -/

/-- The first stack that control enters an offset with is among those that it enters with. -/
theorem mem_of_lookup_entries {regions : List Region} {pc : Nat} {stack : List StackType}
    (h : (entries regions).lookup pc = some stack) : (pc, stack) ∈ entries regions := by
  obtain ⟨done, rest, hsplit, -⟩ := List.lookup_eq_some_iff.1 h
  rw [hsplit]
  exact List.mem_append_right _ List.mem_cons_self

/-- Control enters from outside with nothing on the stack, or with an object alone. -/
theorem entries_stack {regions : List Region} {pc : Nat} {stack : List StackType}
    (h : (entries regions).lookup pc = some stack) : stack = [] ∨ stack = [.object] := by
  rcases List.mem_cons.1 (mem_of_lookup_entries h) with he | he
  · cases he
    exact .inl rfl
  · obtain ⟨r, -, hr⟩ := List.mem_flatMap.1 he
    cases hk : r.kind <;> simp only [hk, List.mem_cons, List.not_mem_nil, or_false, Prod.mk.injEq] at hr
    case catchType => exact .inr hr.2
    case filter => exact .inr (hr.elim And.right And.right)
    case finallyBlock => exact .inl hr.2
    case faultBlock => exact .inl hr.2

/-- **What a description of stacks has to say to hold of every visit**: it holds of the first stack of each offset that
control enters from outside, and an instruction hands it on to every other offset. -/
structure Context.Hands (cx : Context) (P : Nat → List StackType → Prop) : Prop where
  first : ∀ pc stack, (entries cx.regions).lookup pc = some stack → P pc stack
  next : ∀ pc stack op types successors after, P pc stack →
    (cx.transfer pc op).run stack = .ok ((types, successors), after) → ∀ s ∈ successors,
    (entries cx.regions).lookup s.offset = none → P s.offset (if s.empties then [] else after)

/-- The description holds of every stack that waits, and of one of the height that was noted at a visited offset. -/
structure State.Follows (P : Nat → List StackType → Prop) (s : State) : Prop where
  size : s.queued.size = s.result.starts.size
  waiting : ∀ e ∈ s.worklist, P e.1 e.2
  visited : ∀ pc d, s.result.depth? pc = some d → ∃ stack, P pc stack ∧ d = stack.length

/-- Every offset that control enters from outside has been queued. -/
def State.Entered (cx : Context) (s : State) : Prop := ∀ e ∈ entries cx.regions, s.queued.getD e.1 false = true

variable {P : Nat → List StackType → Prop} {s : State} {source target : Nat} {stack : List StackType}

theorem State.Grows.entered {t : State} (h : s.Grows t) (hs : s.Entered cx) : t.Entered cx :=
  fun e he => h e.1 (hs e he)

/-- An offset that is queued already keeps the stack that it has. -/
theorem enqueue_follows (h : s.Follows P) (hP : s.queued.getD target false = false → P target stack) :
    Meets (enqueue source target stack) s
      (fun _ t => t.Follows P ∧ s.Grows t ∧ t.queued.getD target false = true) fun _ _ => True := by
  unfold enqueue
  refine Meets.get_bind ?_
  by_cases hstart : s.result.isStart target = true
  case neg =>
    simp only [hstart, Bool.not_false, if_pos]
    exact Meets.throw_bind trivial
  simp only [hstart, Bool.not_true, Bool.false_eq_true, if_false]
  cases hq : s.queued.getD target false with
  | true => exact Meets.pure ⟨h, fun _ hq => hq, hq⟩
  | false =>
    have hget := fun k => getD_setIfInBounds s.queued target k true false (h.size ▸ lt_size_of_getD hstart)
    refine Meets.set ⟨⟨by rw [Array.size_setIfInBounds]; exact h.size, fun e he => ?_, h.visited⟩, fun q hq' => ?_, ?_⟩
    · rcases List.mem_cons.1 he with rfl | he
      · exact hP hq
      · exact h.waiting e he
    · rw [hget, hq', ite_self]
    · rw [hget, if_pos rfl]

/-- The entries are queued one after the other; `done` are those that were. -/
theorem entries_follow (hP : cx.Hands P) : ∀ (rest done : List (Nat × List StackType)) (s : State),
    entries cx.regions = done ++ rest → s.Follows P → (∀ e ∈ done, s.queued.getD e.1 false = true) →
    Meets (rest.forM fun (offset, stack) => enqueue offset offset stack) s
      (fun _ t => t.Follows P ∧ t.Entered cx) fun _ _ => True
  | [], done, s, hsplit, h, hdone => by
    refine Meets.pure ⟨h, fun e he => hdone e ?_⟩
    rwa [hsplit, List.append_nil] at he
  | (offset, stack) :: rest, done, s, hsplit, h, hdone => by
    have hfirst : s.queued.getD offset false = false → P offset stack := by
      intro hq
      refine hP.first offset stack (List.lookup_eq_some_iff.2 ⟨done, rest, hsplit, fun e he => ?_⟩)
      rw [bne_iff_ne]
      rintro rfl
      rw [hdone e he] at hq
      cases hq
    refine Meets.bind (enqueue_follows h hfirst) fun _ t ⟨ht, hgrow, hq⟩ => ?_
    refine entries_follow hP rest (done ++ [(offset, stack)]) t (by rw [hsplit, List.append_assoc]; rfl) ht ?_
    intro e he
    rcases List.mem_append.1 he with he | he
    · exact hgrow _ (hdone e he)
    · rw [List.mem_singleton.1 he]
      exact hq

/-- The successors of an instruction are queued, those where control enters from outside having been before. -/
theorem successors_follow (hP : cx.Hands P) {pc : Nat} {types : Option OperandTypes} {successors : List Successor}
    {after : List StackType} (h : s.Follows P) (hs : s.Entered cx) (hstack : P pc stack)
    (ht : (cx.transfer pc op).run stack = .ok ((types, successors), after)) :
    Meets (do
        visit.liftExcept (checkEffect pc op stack.length after.length)
        successors.forM fun next => enqueue pc next.offset (if next.empties then [] else after)) s
      (fun _ t => t.Follows P ∧ t.Entered cx) fun _ _ => True := by
  refine Meets.bind (Q := fun _ t => s = t) (Meets.ofExcept (fun _ _ => rfl) fun _ _ => trivial) ?_
  rintro _ _ rfl
  refine (Meets.forM (E := fun _ _ => True) (I := fun u => State.Follows P u ∧ u.Entered cx) (P := fun _ _ => True)
    (fun next hn u hu => ?_) ⟨h, hs⟩).mono (fun _ _ ht => ht.1) fun _ _ _ => trivial
  have hnext : u.queued.getD next.offset false = false → P next.offset (if next.empties then [] else after) := by
    intro hq
    refine hP.next pc stack op types successors after hstack ht next hn ?_
    cases hl : (entries cx.regions).lookup next.offset with
    | none => rfl
    | some first =>
      rw [hu.2 _ (mem_of_lookup_entries hl)] at hq
      cases hq
  exact (enqueue_follows hu.1 hnext).mono (fun _ t ⟨ht, hgrow, _⟩ => ⟨⟨ht, hgrow.entered hu.2⟩, trivial, fun _ h => h⟩)
    fun _ _ _ => trivial

theorem visit_follows (hP : cx.Hands P) {pc : Nat} (h : s.Follows P) (hs : s.Entered cx) (hstack : P pc stack) :
    Meets (visit cx pc stack) s (fun _ t => t.Follows P ∧ t.Entered cx) fun _ _ => True := by
  have hmark : State.Follows P
      { s with result := { s.result with depths := s.result.depths.setIfInBounds pc (some stack.length) } } := by
    refine ⟨h.size, h.waiting, fun q d hd => ?_⟩
    rw [MethodAnalysis.depth?, Array.getElem?_setIfInBounds] at hd
    split at hd
    · rename_i hpc
      subst hpc
      split at hd
      · cases hd
        exact ⟨stack, hstack, rfl⟩
      · cases hd
    · exact h.visited q d hd
  exact meets_visit (fun _ _ => trivial) (fun _ _ _ _ _ => trivial) fun op types successors left n _ htransfer =>
    successors_follow hP ⟨hmark.size, hmark.waiting, hmark.visited⟩ hs hstack htransfer

theorem visitAll_follows (hP : cx.Hands P) : ∀ (fuel : Nat) (s : State), s.Follows P → s.Entered cx →
    Meets (visitAll cx fuel) s (fun _ t => t.Follows P) fun _ _ => True
  | 0, s, h, hs => Meets.pure h
  | fuel + 1, s, h, hs => by
    unfold visitAll
    refine Meets.get_bind ?_
    cases hw : s.worklist with
    | nil => exact Meets.pure h
    | cons e rest =>
      have hwaiting : ∀ e' ∈ e :: rest, P e'.1 e'.2 := hw ▸ h.waiting
      have hrest : State.Follows P { s with worklist := rest } :=
        ⟨h.size, fun e' he => hwaiting e' (List.mem_cons_of_mem _ he), h.visited⟩
      refine Meets.modify_bind (Meets.bind (visit_follows hP hrest hs (hwaiting e List.mem_cons_self)) ?_)
      exact fun _ t h => visitAll_follows hP fuel t h.1 h.2

/-- **Whatever an analysis visited follows the description.** -/
theorem pass_follows (hP : cx.Hands P) : Meets (pass cx) (start cx.code.size) (fun _ t => t.Follows P)
    fun _ _ => True := by
  rw [pass_eq]
  refine Meets.bind (Q := fun _ t => t.Follows P ∧ t.Entered cx) ?_ fun _ t ht => visitAll_follows hP _ t ht.1 ht.2
  unfold seed
  refine Meets.bind (Q := fun starts t => scan cx.code = .ok starts ∧ start cx.code.size = t)
    (Meets.ofExcept (fun starts hs => ⟨hs, rfl⟩) fun _ _ => trivial) ?_
  rintro starts _ ⟨hscan, rfl⟩
  refine Meets.modify_bind ?_
  split
  · exact Meets.throw_bind trivial
  · refine entries_follow hP _ [] _ rfl ⟨?_, nofun, fun pc d hd => ?_⟩ nofun
    · exact Array.size_replicate.trans (scan_ok hscan).size.symm
    · rw [MethodAnalysis.depth?] at hd
      simp only [start, Array.getElem?_replicate] at hd
      split at hd <;> cases hd

end Analysis

section

variable {md : Metadata} {m : MethodSymbol} {body : Body} {a : MethodAnalysis} {pc d : Nat}

theorem analyze_follows {P : Nat → List StackType → Prop} (hb : m.body = some body) (h : (analyze md m).1 = .ok a)
    (hP : (Analysis.contextOf md m body).Hands P) (hd : a.depth? pc = some d) :
    ∃ stack, P pc stack ∧ d = stack.length := by
  unfold analyze at h
  rw [hb] at h
  simp only at h
  rcases hr : ((Analysis.pass (Analysis.contextOf md m body)).run).run (Analysis.start body.code.size) with ⟨r, s⟩
  rw [hr] at h
  cases r with
  | error e => cases h
  | ok u =>
    cases h
    exact ((Analysis.pass_follows hP).of_ok hr).visited pc d hd

/-- **Where control enters from outside, the height is that of the first stack that it enters with.** -/
theorem analyze_first {stack : List StackType} (hb : m.body = some body) (h : (analyze md m).1 = .ok a)
    (hl : (Analysis.entries body.regions).lookup pc = some stack) : a.depth? pc = some stack.length := by
  obtain ⟨d, hd⟩ := Option.isSome_iff_exists.1 ((analyze_accepted hb h).entered _ (Analysis.mem_of_lookup_entries hl))
  have hP : (Analysis.contextOf md m body).Hands
      fun pc stack => ∀ first, (Analysis.entries body.regions).lookup pc = some first → stack = first := by
    refine ⟨fun pc stack hs first hf => Option.some.inj (hs.symm.trans hf), ?_⟩
    intro pc stack op types successors after _ _ s _ hnone first hf
    cases hnone.symm.trans hf
  obtain ⟨_, hfirst, rfl⟩ := analyze_follows hb h hP hd
  rw [← hfirst stack hl]
  exact hd

/-- **Heights stay within the declaration and the stacks that control enters with from outside.** -/
theorem analyze_bounded {k : Nat} (hb : m.body = some body) (h : (analyze md m).1 = .ok a)
    (hk : ∀ pc stack, (Analysis.entries body.regions).lookup pc = some stack → stack.length ≤ max k body.maxStack)
    (hd : a.depth? pc = some d) : d ≤ max k body.maxStack := by
  have hP : (Analysis.contextOf md m body).Hands fun _ stack => stack.length ≤ max k body.maxStack := by
    refine ⟨hk, fun pc stack op types successors after hstack ht s _ _ => ?_⟩
    have hafter : after.length ≤ max stack.length body.maxStack := Analysis.Context.transfer_bounded ht
    split
    · exact Nat.zero_le _
    · omega
  obtain ⟨stack, hstack, rfl⟩ := analyze_follows hb h hP hd
  exact hstack

/-- **Heights stay within the declaration exactly if it leaves room for one value, or no offset is first entered with
the object of an exception.** -/
theorem analyze_fits_iff (hb : m.body = some body) (h : (analyze md m).1 = .ok a) :
    (∀ pc d, a.depth? pc = some d → d ≤ body.maxStack) ↔
      0 < body.maxStack ∨ ∀ pc, (Analysis.entries body.regions).lookup pc ≠ some [.object] := by
  constructor
  · intro hfits
    rcases Nat.eq_zero_or_pos body.maxStack with hzero | hpos
    · refine .inr fun pc hpc => ?_
      have := hfits pc 1 (analyze_first hb h hpc)
      omega
    · exact .inl hpos
  · intro hroom pc d hd
    have hbound := analyze_bounded (k := 0) hb h (fun q stack hl => ?_) hd
    · omega
    · rcases Analysis.entries_stack hl with rfl | rfl
      · exact Nat.zero_le _
      · have := hroom.resolve_right fun hnone => hnone q hl
        rw [List.length_singleton]
        omega

end

/-! ## Frames have the slots of their method -/

/-- **The frame has the slots that the method of its activation asks for.** -/
def Activation.Whole (m : Machine) (a : Activation) : Prop :=
  ∃ p, m.prepared? a.method = some p ∧ a.frame.layout = p.layout ∧ a.frame.size = p.layout.total

/-- Every frame of the run has the slots that its method asks for. -/
structure Execution.Whole (x : Execution) : Prop where
  running : ∀ a, x.control = .running a → a.Whole x.machine
  waiting : ∀ c ∈ x.callers, c.activation.Whole x.machine

theorem Activation.Whole.moved {m m' : Machine} {a a' : Activation} (h : a.Whole m) (he : m.Evolves m')
    (hm : a'.method = a.method) (hf : Workspace.SameFrame a.frame a'.frame) : a'.Whole m' := by
  obtain ⟨p, hp, hlayout, hsize⟩ := h
  obtain ⟨p', hp', hev⟩ := he.prepared _ p hp
  exact ⟨p', hm ▸ hp', hf.layout.trans (hlayout.trans hev.layout.symm), hf.size.trans (by rw [hsize, hev.layout])⟩

theorem Activation.Whole.evolves {m m' : Machine} {a : Activation} (h : a.Whole m) (he : m.Evolves m') : a.Whole m' :=
  h.moved he rfl (.refl _)

theorem Workspace.Moved.sameFrame {p : Prepared} {op : Opcode} {before dest : Nat} {w w' : Workspace}
    (h : Moved p op before dest w w') : SameFrame w.activation.frame w'.activation.frame := by
  obtain ⟨w₁, w₂, n, he, hn, rfl⟩ := h
  exact (he.shifted.trans hn.kept).frame

/-- No instruction changes the slots that a frame has. -/
theorem ExecM.Ran.sameFrame {md : Metadata} {p : Prepared} {next : Nat} {w : Workspace} {op : Opcode}
    {r : Except Trap Next × Workspace} (h : Ran md p next w op r) :
    Workspace.SameFrame w.activation.frame r.2.activation.frame := by
  cases h with
  | plain _ _ _ _ _ hk => exact hk.frame
  | landed _ _ _ hent => exact hent.kept.frame
  | called _ _ hg _ hk => exact hg.activation ▸ hk.frame
  | left _ hk =>
    obtain ⟨n, hk⟩ := hk
    exact hk.frame
  | trapped _ _ hg hk =>
    obtain ⟨n, hk⟩ := hk
    exact hg.activation ▸ hk.frame

/-- Nor does the end of a call. -/
theorem Execution.Handed.sameFrame {c : Continuation} {w : Workspace} {o : Outcome}
    {r : Except Trap Next × Workspace} (h : Handed c w o r) :
    Workspace.SameFrame w.activation.frame r.2.activation.frame := by
  cases h with
  | pushed => exact Frame.sameFrame_set ..
  | returned | dropped | refused | thrown | aborted => exact .refl _

namespace Execution

variable {x y : Execution} {w : Workspace} {p : Prepared} {op : Opcode} {before : Nat} {callers : List Caller}
  {r : Except Trap Next × Workspace}

theorem Whole.entered {m : Machine} (hs : m.Sound) (symbol : MethodSymbol) (arguments : List Value) :
    ∀ a, (m.enter symbol arguments).1 = .running a → a.Whole (m.enter symbol arguments).2 := by
  intro a ha
  obtain ⟨-, -, hstart⟩ := Machine.enter_sound hs symbol arguments
  obtain ⟨p, frame, depth, hp, rfl, hlayout, hsize⟩ := hstart a ha
  exact ⟨p, hp, hlayout, hsize⟩

/-- **What comes of an instruction, or of the end of a call, has whole frames** if it kept the one that it had. -/
theorem Settles.whole (hset : Settles p op before callers r y)
    (hev : w.machine.Evolves r.2.machine) (hsound : r.2.machine.Sound) (ha : w.activation.Whole w.machine)
    (hm : r.2.activation.method = w.activation.method)
    (hf : Workspace.SameFrame w.activation.frame r.2.activation.frame)
    (hw : ∀ c ∈ callers, c.activation.Whole w.machine) : y.Whole := by
  have hafter : r.2.activation.Whole r.2.machine := ha.moved hev hm hf
  have hcallers : ∀ {m : Machine}, r.2.machine.Evolves m → ∀ c ∈ callers, c.activation.Whole m :=
    fun he c hc => (hw c hc).evolves (hev.trans he)
  cases hset with
  | ended hl _ => exact ⟨nofun, hcallers hl.samePrograms.evolves⟩
  | @moved n dest w₁ w₂ hgo hmoved =>
    obtain ⟨hsame, hmethod, -⟩ := hmoved.goes
    refine ⟨fun a hrun => ?_, hcallers hsame.evolves⟩
    cases hrun
    exact hafter.moved hsame.evolves hmethod hmoved.sameFrame
  | called target arguments c w₁ =>
    obtain ⟨-, hev', -⟩ := Machine.enter_sound hsound target arguments
    refine ⟨Whole.entered hsound target arguments, fun c' hc' => ?_⟩
    rcases List.mem_cons.1 hc' with rfl | hc'
    · exact hafter.evolves hev'
    · exact hcallers hev' c' hc'
  | @caught t e w₁ w₂ w₃ dest object u ht hd hent =>
    obtain ⟨-, -, hact⟩ := Trap.raised?_some ht
    have hev' := (caught_samePrograms ht hent).evolves
    have hmethod : w₃.activation.method = w₁.activation.method := caught_method ht hent
    have hframe : Workspace.SameFrame w₂.activation.frame w₃.activation.frame := hent.kept.frame
    rw [hact] at hframe
    refine ⟨fun a hrun => ?_, hcallers hev'⟩
    cases hrun
    exact hafter.moved hev' hmethod hframe

/-- **One step keeps frames whole.** -/
theorem Whole.step (h : x.Whole) (hin : x.Inside) (hn : x.Addressable) : x.step.Whole := by
  cases hin.steps hn with
  | executes hx =>
    have hev := hx.samePrograms.evolves
    obtain ⟨hevr, hsound, hmethod, -⟩ := hx.ran.keeps
    exact hx.settles.whole hevr (hsound hx.sound) ((h.running _ hx.control).evolves hev) hmethod hx.ran.sameFrame
      fun c hc => (h.waiting c hc).evolves hev
  | @returns c _ _ _ _ _ hx =>
    obtain ⟨hmachine, hmethod, -, -⟩ := hx.handed.keeps
    refine hx.settles.whole (w := ⟨x.machine, c.activation⟩) ?_ ?_ (h.waiting c ?_) hmethod hx.handed.sameFrame
      fun c' hc' => h.waiting c' (hx.callers ▸ List.mem_cons_of_mem _ hc')
    · rw [hmachine]
      exact .refl _
    · rw [hmachine]
      exact hin.sound
    · exact hx.callers ▸ List.mem_cons_self
  | ended hstep =>
    rw [hstep]
    exact h

/-- **A whole run keeps frames whole.** -/
theorem Reaches.whole (h : x.Reaches Addressable y) (hin : x.Inside) (hx : x.Whole) : y.Whole := by
  induction h with
  | refl => exact hx
  | step hr _ ih => exact ih.step (hr.inside hin).1 hr.holds

end Execution

/-- A run begins with a whole frame, if the one that it goes on in has the slots of its layout. -/
theorem Machine.Begins.whole {m : Machine} {x : Execution} (hb : m.Begins x) (hs : m.Sound)
    (hframe : ∀ a, x.control = .running a → a.frame.size = a.frame.layout.total) : x.Whole := by
  cases hb with
  | start symbol arguments => exact ⟨Execution.Whole.entered hs symbol arguments, fun c hc => by cases hc⟩
  | restart symbol frame offset top =>
    refine ⟨fun a ha => ?_, fun c hc => by cases hc⟩
    obtain ⟨-, -, hrun⟩ := reenter_sound hs symbol frame offset top
    have hsize := hframe a ha
    obtain ⟨p, depth, hp, rfl, hlayout, -⟩ := hrun a ha
    exact ⟨p, hp, hlayout, hsize.trans (congrArg _ hlayout)⟩

/-! ## Handlers that fit -/

/-- **The run goes on if `limit` values are room enough for the stack `st`**; otherwise it has ended with the report
that the evaluation stack overflows. -/
def Execution.Fits (limit : Nat) (st : List Value) (y : Execution) : Prop :=
  if st.length ≤ limit then ∃ a, y.control = .running a
  else ∃ pc, y.control = .ending (.error (.abort (.error (.invalidState pc .overflow))))

namespace ExecM

variable {p : Prepared} {pc dest target : Nat} {w : Workspace} {object : Option (Option Ref)} {u : Unwinding}

/-- The computation gives what `Q` says if there is room for the object, and otherwise reports an overflow. -/
def Makes {α : Type} (p : Prepared) (object : Option (Option Ref)) (Q : α → Prop) (x : ExecM α) (w : Workspace) :
    Prop :=
  Meets x w (fun a _ => object.toList.length ≤ p.layout.maxStack ∧ Q a) fun t _ =>
    p.layout.maxStack < object.toList.length ∧ ∃ pc, t = .ofError (.invalidState pc .overflow)

theorem push_overflows (v : Value) : Meets (push v) w (fun _ _ => w.activation.top < w.activation.frame.size)
    fun t _ => w.activation.frame.size ≤ w.activation.top ∧ ∃ pc, t = .ofError (.invalidState pc .overflow) := by
  unfold push
  refine activation_bind ?_
  by_cases hfull : w.activation.frame.size ≤ w.activation.top
  · simp only [hfull, if_true]
    exact ⟨trivial, w.activation.pc, rfl⟩
  · have hlt : w.activation.top < w.activation.frame.size := Nat.lt_of_not_le hfull
    simp only [hfull, if_false]
    have hput : w.activation.frame.put w.activation.top v = .ok (w.activation.frame.set w.activation.top v) :=
      if_pos hlt
    have hrun : (put w.activation.top v).run w = (.ok (), w.withFrame (w.activation.frame.set w.activation.top v)) := by
      show (ofEngine (w.activation.frame.put w.activation.top v) >>= _ : ExecM Unit).run w = _
      rw [hput]
      rfl
    refine Meets.bind (Q := fun _ _ => True) ?_ fun _ _ _ => hlt
    unfold Meets
    rw [hrun]
    trivial

/-- A handler is entered if its stack fits. -/
theorem enterHandler_makes (hsize : w.activation.frame.size = p.layout.total) :
    Makes p object (fun _ => True) (enterHandler p pc object) w := by
  unfold enterHandler
  refine Meets.bind (Q := fun _ w' => w'.activation.top = p.layout.stackBase ∧
    w'.activation.frame.size = p.layout.total) ⟨rfl, ?_⟩ ?_
  · exact (Frame.sameFrame_clearRange ..).size.trans hsize
  · rintro _ w₁ ⟨htop, hsize⟩
    rw [Layout.total, ← htop] at hsize
    cases object with
    | none =>
      dsimp only
      split <;> exact ⟨Nat.zero_le _, trivial⟩
    | some r =>
      have hone : (some r : Option (Option Ref)).toList.length = 1 := rfl
      refine Meets.bind ((push_overflows (.object r)).mono (fun _ _ h => h) ?_) fun _ _ hlt => ⟨by omega, trivial⟩
      rintro t _ ⟨hfull, ht⟩
      exact ⟨by omega, ht⟩

/-- An exception that a region takes goes to its handler. -/
theorem dispatch_makes {e : GuestException} (hsize : w.activation.frame.size = p.layout.total)
    (hd : w.activation.unwinding.dispatch w.machine.metadata p.regions e (w.machine.heap.typeOf? e.object)
      w.activation.pc 0 = (.ok (.resume dest object), u)) : Makes p object (· = none) (dispatch p e) w := by
  unfold dispatch
  refine Meets.bind (Q := fun _ w' => w.Noted w') ⟨rfl, rfl⟩ fun _ w₁ hw₁ => ?_
  refine Meets.bind (Q := fun m w' => m = w₁.machine ∧ w' = w₁) ⟨rfl, rfl⟩ ?_
  rintro _ _ ⟨rfl, rfl⟩
  refine activation_bind ?_
  refine Meets.bind (Q := fun _ w' => w.Noted w') (hw₁.trans ⟨rfl, rfl⟩) fun _ w₂ hw₂ => ?_
  rw [hw₁.machine, hw₁.activation, hd]
  refine Meets.bind (Q := fun _ w' => (w.withUnwinding u).Noted w') (hw₂.withUnwinding u) fun _ w₃ hw₃ => ?_
  refine Meets.bind (Q := fun x w' => x = .resume dest object ∧ (w.withUnwinding u).Noted w') ⟨rfl, hw₃⟩ ?_
  rintro x w₄ ⟨rfl, hw₄⟩
  have hsize₄ : w₄.activation.frame.size = p.layout.total := by
    rw [hw₄.activation]
    exact hsize
  exact Meets.bind (enterHandler_makes hsize₄) fun _ _ h => ⟨h.1, rfl⟩

/-- The end of a finally handler goes on where its way leads. -/
theorem endFinally_makes (hsize : w.activation.frame.size = p.layout.total)
    (hu : w.activation.unwinding.endFinally w.machine.metadata p.regions pc = (.ok (.resume dest object), u)) :
    Makes p object (· = .jump dest) (endFinally p pc) w := by
  unfold endFinally
  refine activation_bind (metadata_bind ?_)
  rw [hu]
  refine Meets.bind (Q := fun _ w' => w' = w.withUnwinding u) rfl ?_
  rintro _ _ rfl
  refine Meets.bind (Q := fun x w' => x = .resume dest object ∧ w' = w.withUnwinding u) ⟨rfl, rfl⟩ ?_
  rintro _ _ ⟨rfl, rfl⟩
  exact Meets.bind (enterHandler_makes hsize) fun _ _ h => ⟨h.1, rfl⟩

end ExecM

namespace Execution

variable {x : Execution} {a : Activation} {c : Caller} {p : Prepared} {op : Opcode} {before dest pc : Nat}
  {callers : List Caller} {r : Except Trap Next × Workspace} {w w₁ : Workspace} {t : Trap} {e : GuestException}
  {st : List Value}

/-- A jump without a fixed effect goes on. -/
theorem settle_jump (he : op.effect = .varying) :
    ∃ a, (settle p op before callers (.ok (.jump dest), w)).control = .running a := by
  have hjump : Meets (ExecM.jumpTo p op before dest) w (fun _ _ => True) fun _ _ => False := by
    unfold ExecM.jumpTo
    refine Meets.bind (Q := fun _ w' => w' = w) ?_ ?_
    · unfold ExecM.applyEffect
      rw [he]
      exact rfl
    · rintro _ _ rfl
      refine ExecM.activation_bind ?_
      dsimp only
      split
      · exact Meets.bind ((ExecM.countBackEdge_meets _ dest).mono (fun _ _ _ => trivial) fun _ _ h => h)
          fun _ _ _ => trivial
      · trivial
  obtain ⟨_, w', hrun, -⟩ := hjump.succeeds hjump
  refine ⟨w'.activation, ?_⟩
  show (proceed _ w callers).control = _
  unfold proceed
  rw [hrun]

/-- A trap that raises an exception is dispatched. -/
theorem settle_raised (h : t.raised? w = some (e, w₁)) :
    settle p op before callers (.error t, w) = throwIn p e w₁ callers := by
  cases t with
  | abort a => cases h
  | thrown e' => cases h; rfl
  | fault k message => cases h; rfl

theorem Unwinding.dispatch_of_takes {md : Metadata} {t : RegionTable} {thrown : Option TypeHandle} {start : Nat}
    {r : Region} (u : Unwinding) (h : t.Takes md pc start thrown r) : ∃ u',
      u.dispatch md t e thrown pc start =
        (.ok (.resume r.handler.start (if r.isCatch then some e.object else none)), u') := by
  obtain ⟨i, hfind, hr⟩ := h
  unfold Unwinding.dispatch
  rw [hfind]
  dsimp only
  rw [hr]
  exact ⟨_, rfl⟩

theorem length_entryStack (r : Region) (e : GuestException) :
    (r.entryStack e).length = (if r.isCatch then some e.object else none).toList.length := by
  rw [r.entryStack_eq, List.length_map]

/-- **An exception that a region takes arrives if its handler's stack fits.** -/
theorem throwIn_fits {r : Region} (hsize : w.activation.frame.size = p.layout.total)
    (htakes : p.regions.Takes w.machine.metadata w.activation.pc 0 (w.machine.heap.typeOf? e.object) r) :
    (throwIn p e w callers).Fits p.layout.maxStack (r.entryStack e) := by
  obtain ⟨u, hd⟩ := Unwinding.dispatch_of_takes (e := e) w.activation.unwinding htakes
  have hmakes := ExecM.dispatch_makes hsize hd
  unfold Fits throwIn
  rw [length_entryStack]
  rcases hrun : (ExecM.dispatch p e).run w with ⟨t | o, w'⟩
  · obtain ⟨hroom, at', rfl⟩ := hmakes.of_error hrun
    rw [if_neg (by omega)]
    exact ⟨at', rfl⟩
  · obtain ⟨hroom, rfl⟩ := hmakes.of_ok hrun
    rw [if_pos hroom]
    exact ⟨_, rfl⟩

/-- So does the end of a finally handler. -/
theorem settle_fits {object : Option (Option Ref)} {y : ExecM Next} (he : op.effect = .varying)
    (hmakes : ExecM.Makes p object (· = .jump dest) y w) (hst : st.length = object.toList.length) :
    (settle p op before callers (y.run w)).Fits p.layout.maxStack st := by
  unfold Fits
  rw [hst]
  rcases hrun : y.run w with ⟨t | n, w'⟩
  · obtain ⟨hroom, at', rfl⟩ := hmakes.of_error hrun
    rw [if_neg (by omega)]
    exact ⟨at', rfl⟩
  · obtain ⟨hroom, rfl⟩ := hmakes.of_ok hrun
    rw [if_pos hroom]
    exact settle_jump he

/-- The step is of an activation of the method `p`. -/
def Acts (x : Execution) (p : Prepared) : Prop :=
  (∃ a op r, x.Executes a p op r) ∨ ∃ c op r, x.Resumes c p op r

/-- The workspace in which an instruction is executed. -/
theorem Executes.whole (h : x.Executes a p op r) (hx : x.Whole) :
    (announced ⟨x.machine, a⟩ op).activation.frame.size = p.layout.total := by
  have hact : (announced ⟨x.machine, a⟩ op).activation = a := (announced_noted ⟨x.machine, a⟩ op).activation
  obtain ⟨q, hp, -, hsize⟩ := hx.running a h.control
  cases h.prepared.symm.trans hp
  rw [hact]
  exact hsize

/-- What an instruction, or the end of a call, leaves of a whole frame. -/
theorem Executes.size (h : x.Executes a p op r) (hx : x.Whole) (hin : x.Inside) (hn : x.Addressable) :
    r.2.activation.frame.size = p.layout.total := by
  obtain ⟨q, hq⟩ := hin.running a h.control
  cases h.prepared.symm.trans hq.prepared
  obtain ⟨-, next, -, hran⟩ := announced_ran hin.sound hn hq h.opcode
  rw [h.result] at hran
  exact hran.sameFrame.size.trans (h.whole hx)

theorem Resumes.size (h : x.Resumes c p op r) (hx : x.Whole) : r.2.activation.frame.size = p.layout.total := by
  obtain ⟨o, rest, -, hcallers, rfl⟩ := h.control
  obtain ⟨q, hp, -, hsize⟩ := hx.waiting c (hcallers ▸ List.mem_cons_self)
  cases h.prepared.symm.trans hp
  exact (handed_handed c.continuation ⟨x.machine, c.activation⟩ o).sameFrame.size.trans hsize

theorem Executes.endFinally_fits {object : Option (Option Ref)} {u : Unwinding} (h : x.Executes a p op r)
    (hact : op.action = .endFinally) (hx : x.Whole)
    (hu : a.unwinding.endFinally x.machine.metadata p.regions a.pc = (.ok (.resume dest object), u))
    (hst : st.length = object.toList.length) : x.step.Fits p.layout.maxStack st := by
  have hnoted := announced_noted ⟨x.machine, a⟩ op
  have hactivation : (announced ⟨x.machine, a⟩ op).activation = a := hnoted.activation
  have hmetadata : (announced ⟨x.machine, a⟩ op).machine.metadata = x.machine.metadata := hnoted.samePrograms.metadata
  have hinstruction : ExecM.instruction p a.pc op = ExecM.endFinally p a.pc := by rw [ExecM.instruction, hact]
  have hu' : (announced ⟨x.machine, a⟩ op).activation.unwinding.endFinally
      (announced ⟨x.machine, a⟩ op).machine.metadata p.regions a.pc = (.ok (.resume dest object), u) := by
    rw [hactivation, hmetadata]
    exact hu
  rw [h.step_eq, ← h.result, hinstruction]
  exact settle_fits (op.effect_endFinally hact) (ExecM.endFinally_makes (h.whole hx) hu') hst

/-- **Control arrives exactly if the stack that it arrives with fits**; otherwise the activation has ended with the
report of an overflow. -/
theorem Arrives.fits (h : x.Arrives pc st) (hx : x.Whole) (hin : x.Inside) (hn : x.Addressable) :
    ∃ p, x.Acts p ∧ x.step.Fits p.layout.maxStack st := by
  cases h with
  | @raised p t w w₁ e r hraises ht htakes =>
    have hact := (Trap.raised?_some ht).2.2
    rcases hraises with ⟨a, op, h⟩ | ⟨c, op, h⟩
    · refine ⟨p, .inl ⟨a, op, _, h⟩, ?_⟩
      rw [h.step_eq, settle_raised ht]
      exact throwIn_fits (hact ▸ h.size hx hin hn) htakes
    · refine ⟨p, .inr ⟨c, op, _, h⟩, ?_⟩
      obtain ⟨rest, -, hstep⟩ := h.step_eq
      rw [hstep, settle_raised ht]
      exact throwIn_fits (hact ▸ h.size hx) htakes
  | @raisedAgain a p op result r pending others h hact hr hpending htakes =>
    obtain ⟨p₀, others₀, hpending₀, -, heq⟩ := Unwinding.endFinally_reraises x.machine.metadata hr
    cases hpending.symm.trans hpending₀
    obtain ⟨u, hu⟩ := Unwinding.dispatch_of_takes { a.unwinding with pending := others } htakes
    refine ⟨p, .inl ⟨a, op, _, h⟩, h.endFinally_fits hact hx (heq.trans hu) (length_entryStack ..)⟩
  | @left a p op result target h hact ht =>
    have hactivation : (announced ⟨x.machine, a⟩ op).activation = a := (announced_noted ⟨x.machine, a⟩ op).activation
    have hinstruction : ExecM.instruction p a.pc op = ExecM.leave p a.pc := by rw [ExecM.instruction, hact]
    have hmakes : ExecM.Makes p none (· = .jump (a.unwinding.leave p.regions a.pc target).1) (ExecM.leave p a.pc)
        (announced ⟨x.machine, a⟩ op) := by
      refine ExecM.leave_enters.mono ?_ ?_
      · rintro n _ ⟨target', dest, u, ht', hu, hn, -⟩
        cases ht.symm.trans ht'
        rw [hactivation] at hu
        exact ⟨Nat.zero_le _, by rw [hn, hu]⟩
      · rintro t _ ⟨e, he, -⟩
        rw [ht] at he
        cases he
    refine ⟨p, .inl ⟨a, op, _, h⟩, ?_⟩
    rw [h.step_eq, ← h.result, hinstruction]
    exact settle_fits (op.effect_leave hact) hmakes rfl
  | @finished a p op result _ u h hact hr hu =>
    have hend : a.unwinding.endFinally x.machine.metadata p.regions a.pc = (.ok (.resume pc none), u) :=
      (Unwinding.endFinally_endLeave hr).trans hu
    exact ⟨p, .inl ⟨a, op, _, h⟩, h.endFinally_fits hact hx hend rfl⟩

theorem Acts.sound (h : x.Acts p) (hin : x.Inside) : p.Sound x.machine.metadata := by
  rcases h with ⟨a, op, r, h⟩ | ⟨c, op, r, h⟩
  · exact hin.sound _ p h.prepared
  · exact hin.sound _ p h.prepared

/-- One method acts in a step. -/
theorem Acts.unique {q : Prepared} (h : x.Acts p) (h' : x.Acts q) : p = q := by
  rcases h with ⟨a, op, r, h⟩ | ⟨c, op, r, h⟩ <;> rcases h' with ⟨a', op', r', h'⟩ | ⟨c', op', r', h'⟩
  · cases h.control.symm.trans h'.control
    exact Option.some.inj (h.prepared.symm.trans h'.prepared)
  · obtain ⟨o, rest, hcontrol, -⟩ := h'.control
    cases h.control.symm.trans hcontrol
  · obtain ⟨o, rest, hcontrol, -⟩ := h.control
    cases h'.control.symm.trans hcontrol
  · obtain ⟨o, rest, -, hcallers, -⟩ := h.control
    obtain ⟨o', rest', -, hcallers', -⟩ := h'.control
    cases hcallers.symm.trans hcallers'
    exact Option.some.inj (h.prepared.symm.trans h'.prepared)

end Execution

/-- **What fits on the evaluation stack.** In a method that the analysis accepts,
* heights stay within the declared one, or are 1 where it is 0;
* they stay within the declared one exactly if that leaves room for one value, or no offset is first entered with the
  object of an exception;
* wherever a run has come to, control arrives in a handler of the method, or at the target of a leave, exactly if the
  stack that it arrives with fits into the declared height. Otherwise the activation ends with the report that the
  evaluation stack overflows, which no handler takes. -/
theorem accepted_fits_iff {md : Metadata} {symbol : MethodSymbol} {body : Body} {a : MethodAnalysis}
    (hbody : symbol.body = some body) (ha : (analyze md symbol).1 = .ok a) :
    (∀ pc d, a.depth? pc = some d → d ≤ max 1 body.maxStack) ∧
    ((∀ pc d, a.depth? pc = some d → d ≤ body.maxStack) ↔
      0 < body.maxStack ∨ ∀ pc, (Analysis.entries body.regions).lookup pc ≠ some [.object]) ∧
    ∀ {m : Machine} {x₀ x : Execution} {p : Prepared} {pc : Nat} {st : List Value}, m.Reached → m.Begins x₀ →
      (∀ a, x₀.control = .running a → a.frame.size = a.frame.layout.total) → x₀.Reaches Execution.Addressable x →
      x.Acts p → p.symbol = symbol → x.Arrives pc st → x.step.Fits body.maxStack st := by
  refine ⟨fun pc d hd => analyze_bounded hbody ha (fun q stack hl => ?_) hd, analyze_fits_iff hbody ha, ?_⟩
  · rcases Analysis.entries_stack hl with rfl | rfl
    · exact Nat.zero_le _
    · exact Nat.le_max_left ..
  · intro m x₀ x p pc st hm hb hframe hx hacts hsymbol h
    have hin₀ := hb.inside hm.sound
    have hin := (hx.inside hin₀).1
    obtain ⟨q, hq, hfits⟩ := h.fits (hx.whole hin₀ (hb.whole hm.sound hframe)) hin hx.holds
    cases hacts.unique hq
    have hdeclared : p.body = body := by rw [Prepared.body, hsymbol, hbody]; rfl
    rw [(hacts.sound hin).layout, hdeclared] at hfits
    exact hfits

/-! ## A handler that does not fit -/

/-- A method that raises an exception: `ldnull` and `throw`. -/
def throwsNull : MethodSymbol where
  handle := ⟨3⟩
  name := "throwsNull"
  declaring := Core.object
  signature := {}
  isVirtual := false
  body := some { code := #[0x14, 0x7A], maxStack := 1 }

/-- A method that calls `throwsNull` and catches the exception, without room for it: `call`, `leave.s` to the final
`ret`, and a handler of `pop` and `leave.s`. -/
def catchesWithoutRoom : MethodSymbol where
  handle := ⟨4⟩
  name := "catchesWithoutRoom"
  declaring := Core.object
  signature := {}
  isVirtual := false
  body :=
    some {
      code := #[0x28, 3, 0, 0, 6, 0xDE, 3, 0x26, 0xDE, 0, 0x2A]
      maxStack := 0
      regions := [⟨⟨0, 7⟩, ⟨7, 3⟩, .catchType Core.object.token⟩] }

/-- The core tables with both methods. -/
def roomless : Metadata :=
  { Metadata.core with methods := (Metadata.core.methods.push throwsNull).push catchesWithoutRoom }

/-- The run of `catchesWithoutRoom`, after a number of steps. -/
def catchesWithoutRoomRun (steps : Nat) : Execution :=
  steps.repeat Execution.step ((Machine.make roomless none {} {}).start catchesWithoutRoom [])

/-- The method is accepted, with a height of 1 at its handler. Its frame has the slots of its layout, its run goes on for
four steps, and an overflow ends it. -/
theorem catchesWithoutRoom_computed :
    (analyze roomless catchesWithoutRoom).1.toOption.bind (·.depth? 7) = some 1 ∧
    (catchesWithoutRoomRun 0).running?.all (fun a => a.frame.size = a.frame.layout.total) = true ∧
    (∀ i < 4, (catchesWithoutRoomRun i).machine.prepared.all
      (fun e => decide (e.2.declared.size ≤ 2 ^ 32)) = true) ∧
    (catchesWithoutRoomRun 4).outcome? = some (.error (.abort (.error (.invalidState 0 .overflow)))) := by
  decide +kernel

theorem catchesWithoutRoom_height :
    ∃ a, (analyze roomless catchesWithoutRoom).1 = .ok a ∧ a.depth? 7 = some 1 := by
  have hdepth := catchesWithoutRoom_computed.1
  generalize (analyze roomless catchesWithoutRoom).1 = r at *
  cases r with
  | error e => cases hdepth
  | ok a => exact ⟨a, rfl, hdepth⟩

/-- The body is accepted, with a height that does not fit, and the exception that it should catch ends the run with the
report of an overflow. -/
theorem catchesWithoutRoom_overflows :
    (∃ a, (analyze roomless catchesWithoutRoom).1 = .ok a ∧ a.depth? 7 = some 1) ∧
    (catchesWithoutRoomRun 4).outcome? = some (.error (.abort (.error (.invalidState 0 .overflow)))) := by
  obtain ⟨-, -, -, hoverflow⟩ := catchesWithoutRoom_computed
  exact ⟨catchesWithoutRoom_height, hoverflow⟩

theorem catchesWithoutRoomRun_step (n : Nat) : (catchesWithoutRoomRun n).step = catchesWithoutRoomRun (n + 1) := rfl

theorem catchesWithoutRoomRun_reaches (n : Nat) (hn : n ≤ 3) :
    (catchesWithoutRoomRun 0).Reaches Execution.Addressable (catchesWithoutRoomRun n) := by
  obtain ⟨-, -, hall, -⟩ := catchesWithoutRoom_computed
  rw [catchesWithoutRoomRun, catchesWithoutRoomRun, Nat.repeat]
  exact .repeat n fun i hi => Machine.addressable_of_all (hall i (by omega))

/-- After three steps the method that was called has ended with an exception, which the region of the call takes. -/
theorem catchesWithoutRoomRun_arrives : (catchesWithoutRoomRun 3).Arrives 7 [.object (some ⟨0⟩)] ∧
    ∃ p, (catchesWithoutRoomRun 3).Acts p ∧ p.symbol = catchesWithoutRoom := by
  have hends : (catchesWithoutRoomRun 3).ending? = some (.error (.guest ⟨some ⟨0⟩, some .nullReference,
    "Object reference not set to an instance of an object."⟩)) := by decide +kernel
  have hwaits : (catchesWithoutRoomRun 3).callers.head?.bind (fun c =>
      ((catchesWithoutRoomRun 3).machine.prepared? c.activation.method).map fun p =>
        (p.symbol, p.code.opcodeAt c.activation.pc,
          p.regions.findHandler (catchesWithoutRoomRun 3).machine.metadata c.activation.pc 0
            ((catchesWithoutRoomRun 3).machine.heap.typeOf? (some ⟨0⟩)), p.regions.region? 0)) =
      some (catchesWithoutRoom, .ok .cachedCall, .ok (some 0),
        some ⟨⟨0, 7⟩, ⟨7, 3⟩, .catchType Core.object.token⟩) := by decide +kernel
  obtain ⟨c, hc, hwaits⟩ := Option.bind_eq_some_iff.1 hwaits
  obtain ⟨p, hp, hwaits⟩ := Option.map_eq_some_iff.1 hwaits
  simp only [Prod.mk.injEq] at hwaits
  obtain ⟨hsymbol, hop, hfind, hregion⟩ := hwaits
  obtain ⟨rest, hcallers⟩ := List.head?_eq_some_iff.1 hc
  generalize catchesWithoutRoomRun 3 = x at *
  have hresumes : x.Resumes c p .cachedCall (.error _, _) :=
    ⟨⟨_, rest, Execution.ending?_eq_some.1 hends, hcallers, rfl⟩, hp, hop⟩
  exact ⟨.raised (.inr ⟨c, _, hresumes⟩) rfl ⟨0, hfind, hregion⟩, p, .inr ⟨c, _, _, hresumes⟩, hsymbol⟩

/-- The height that is noted at the handler does not fit, and neither does the stack that control would arrive with. -/
theorem catchesWithoutRoom_does_not_fit :
    (∃ a, (analyze roomless catchesWithoutRoom).1 = .ok a ∧ ¬ ∀ pc d, a.depth? pc = some d → d ≤ 0) ∧
    (catchesWithoutRoomRun 4).Fits 0 [.object (some ⟨0⟩)] := by
  obtain ⟨a, ha, -⟩ := catchesWithoutRoom_height
  obtain ⟨-, hiff, harrives⟩ := accepted_fits_iff rfl ha
  constructor
  · refine ⟨a, ha, fun hfits => ?_⟩
    rcases hiff.1 hfits with hroom | hnone
    · cases hroom
    · exact hnone 7 (by decide)
  · have hm : (Machine.make roomless none {} {}).Reached := .fresh rfl
    have hb : (Machine.make roomless none {} {}).Begins (catchesWithoutRoomRun 0) := by
      rw [catchesWithoutRoomRun, Nat.repeat]
      exact .start catchesWithoutRoom []
    have hframe : ∀ a, (catchesWithoutRoomRun 0).control = .running a → a.frame.size = a.frame.layout.total := by
      intro a ha
      obtain ⟨-, hsize, -⟩ := catchesWithoutRoom_computed
      rw [Execution.running?_eq_some.2 ha] at hsize
      exact of_decide_eq_true hsize
    obtain ⟨harrived, p, hacts, hsymbol⟩ := catchesWithoutRoomRun_arrives
    have hfits := harrives hm hb hframe (catchesWithoutRoomRun_reaches 3 (Nat.le_refl 3)) hacts hsymbol harrived
    rw [catchesWithoutRoomRun_step] at hfits
    exact hfits

end ManagedCode
