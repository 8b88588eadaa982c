import ManagedCode.Analysis.Basic
import ManagedCode.Proofs.Meets
import ManagedCode.Proofs.Readers

/-!
# What an accepted analysis visited

`Flows cx a pc stack` is the relation behind the analysis `a`: a stack of types flows to an offset when control enters
there with it, or when the visit of an offset that it flowed to hands it on. The pass visits each offset with the first
stack that it meets, and nothing that it queued is left over. So an accepted analysis has, for every offset that it
calls reachable, a stack that flowed there, on which the instruction was executed, and whose successors are all
reachable (`Accepted`).
-/

namespace ManagedCode

/-- The offsets where the instructions of the code start, read one after the other from the first byte. -/
inductive Code.Starts (c : Code) : Nat → Prop where
  | first : 0 < c.size → Starts c 0
  | next {pc next : Nat} : Starts c pc → c.nextOffset pc = .ok next → next < c.size → Starts c next

namespace Analysis

variable {cx : Context}

/-! ## Instruction starts -/

/-- The offsets that a scan marked: each one is an instruction, and nothing inside an instruction is marked. -/
structure Scanned (c : Code) (starts : Array Bool) : Prop where
  size : starts.size = c.size
  next : ∀ pc, starts.getD pc false = true →
    ∃ next, c.nextOffset pc = .ok next ∧ ∀ k, pc < k → k < next → starts.getD k false = false
  marked : ∀ pc, starts.getD pc false = true ↔ c.Starts pc

theorem getD_setIfInBounds {β : Type} (xs : Array β) (i k : Nat) (b d : β) (h : i < xs.size) :
    (xs.setIfInBounds i b).getD k d = if i = k then b else xs.getD k d := by
  simp only [Array.getD_eq_getD_getElem?, Array.getElem?_setIfInBounds, if_pos h]
  split <;> rfl

theorem lt_size_of_getD {starts : Array Bool} {pc : Nat} (h : starts.getD pc false = true) : pc < starts.size := by
  rcases Nat.lt_or_ge pc starts.size with hlt | hge
  · exact hlt
  · rw [Array.getD_eq_getD_getElem?, Array.getElem?_eq_none hge] at h
    cases h

/-- A scan from `pc` leaves the marks before `pc` alone, and what it marks are whole instructions. -/
theorem scanFrom_ok (c : Code) : ∀ (fuel pc : Nat) (starts marked : Array Bool), starts.size = c.size →
    c.size ≤ pc + fuel → (∀ k, pc ≤ k → starts.getD k false = false) → scanFrom c fuel pc starts = .ok marked →
    marked.size = c.size ∧ (∀ k, k < pc → marked.getD k false = starts.getD k false) ∧
      ∀ k, pc ≤ k → marked.getD k false = true →
        ∃ next, c.nextOffset k = .ok next ∧ ∀ j, k < j → j < next → marked.getD j false = false
  | 0, pc, starts, marked, hsize, hfuel, hclear, h => by
    cases h
    refine ⟨hsize, fun _ _ => rfl, fun k hk ht => ?_⟩
    rw [hclear k hk] at ht; cases ht
  | fuel + 1, pc, starts, marked, hsize, hfuel, hclear, h => by
    rw [scanFrom] at h
    split at h
    · cases h
      refine ⟨hsize, fun _ _ => rfl, fun k hk ht => ?_⟩
      rw [hclear k hk] at ht; cases ht
    · rename_i hin
      cases hn : c.nextOffset pc with
      | error e => rw [hn] at h; cases h
      | ok next =>
        rw [hn] at h
        have hlt := Code.lt_nextOffset hn
        have hget := fun k => getD_setIfInBounds starts pc k true false (by omega)
        obtain ⟨hsz, hbefore, hafter⟩ := scanFrom_ok c fuel next (starts.setIfInBounds pc true) marked
          (by rw [Array.size_setIfInBounds, hsize]) (by omega)
          (fun k hk => by rw [hget, if_neg (by omega)]; exact hclear k (by omega)) h
        refine ⟨hsz, fun k hk => ?_, fun k hk ht => ?_⟩
        · rw [hbefore k (by omega), hget, if_neg (by omega)]
        · by_cases hkn : next ≤ k
          · exact hafter k hkn ht
          · -- inside the instruction at `pc` only `pc` itself is marked
            have hkpc : k = pc := by
              rw [hbefore k (by omega), hget] at ht
              split at ht
              · omega
              · rw [hclear k hk] at ht; cases ht
            subst hkpc
            refine ⟨next, hn, fun j hj hjn => ?_⟩
            rw [hbefore j hjn, hget, if_neg (by omega)]
            exact hclear j (by omega)

/-- A scan keeps marks, marks `pc` and what follows a mark that it made, and marks starts of instructions only. -/
theorem scanFrom_marks (c : Code) : ∀ (fuel pc : Nat) (starts marked : Array Bool), starts.size = c.size →
    c.size ≤ pc + fuel → (pc < c.size → c.Starts pc) → scanFrom c fuel pc starts = .ok marked →
    (∀ k, starts.getD k false = true → marked.getD k false = true) ∧
      (pc < c.size → marked.getD pc false = true) ∧
      ∀ k, marked.getD k false = true → starts.getD k false = true ∨ (c.Starts k ∧
        ∀ next, c.nextOffset k = .ok next → next < c.size → marked.getD next false = true)
  | 0, pc, starts, marked, hsize, hfuel, _, h => by
    cases h
    exact ⟨fun _ hk => hk, fun hlt => by omega, fun _ hk => .inl hk⟩
  | fuel + 1, pc, starts, marked, hsize, hfuel, hpc, h => by
    rw [scanFrom] at h
    split at h
    · rename_i hout
      cases h
      exact ⟨fun _ hk => hk, fun hlt => by omega, fun _ hk => .inl hk⟩
    · rename_i hin
      cases hn : c.nextOffset pc with
      | error e => rw [hn] at h; cases h
      | ok next =>
        rw [hn] at h
        have hlt := Code.lt_nextOffset hn
        have hstart := hpc (by omega)
        have hget := fun k => getD_setIfInBounds starts pc k true false (by omega)
        obtain ⟨hkeeps, hmarks, hall⟩ := scanFrom_marks c fuel next (starts.setIfInBounds pc true) marked
          (by rw [Array.size_setIfInBounds, hsize]) (by omega) (hstart.next hn) h
        refine ⟨fun k hk => hkeeps k ?_, fun _ => hkeeps pc ?_, fun k hk => ?_⟩
        · rw [hget, hk, ite_self]
        · rw [hget, if_pos rfl]
        · rcases hall k hk with hset | hnew
          · rw [hget] at hset
            split at hset
            · rename_i heq
              subst heq
              refine .inr ⟨hstart, fun next' hn' hlt' => ?_⟩
              cases hn.symm.trans hn'
              exact hmarks hlt'
            · exact .inl hset
          · exact .inr hnew

theorem scan_ok {c : Code} {starts : Array Bool} (h : scan c = .ok starts) : Scanned c starts := by
  have hclear : ∀ k, (Array.replicate c.size false).getD k false = false := by
    intro k
    rw [Array.getD_eq_getD_getElem?, Array.getElem?_replicate]
    split <;> rfl
  obtain ⟨hsize, _, hafter⟩ := scanFrom_ok c c.size 0 _ starts Array.size_replicate (by omega) (fun k _ => hclear k) h
  obtain ⟨-, hfirst, hall⟩ := scanFrom_marks c c.size 0 _ starts Array.size_replicate (by omega) .first h
  have hmade : ∀ pc, starts.getD pc false = true → c.Starts pc ∧
      ∀ next, c.nextOffset pc = .ok next → next < c.size → starts.getD next false = true := by
    intro pc hpc
    rcases hall pc hpc with hold | hnew
    · rw [hclear] at hold
      cases hold
    · exact hnew
  refine ⟨hsize, fun pc hpc => hafter pc (Nat.zero_le _) hpc, fun pc => ⟨fun hpc => (hmade pc hpc).1, fun hpc => ?_⟩⟩
  induction hpc with
  | first hlt => exact hfirst hlt
  | next _ hn hlt ih => exact (hmade _ ih).2 _ hn hlt

/-- Two instructions do not overlap. -/
theorem Scanned.le_of_lt {c : Code} {starts : Array Bool} (h : Scanned c starts) {pc next q : Nat}
    (hpc : starts.getD pc false = true) (hq : starts.getD q false = true) (hn : c.nextOffset pc = .ok next)
    (hlt : pc < q) : next ≤ q := by
  obtain ⟨next', hn', hclear⟩ := h.next pc hpc
  cases hn.symm.trans hn'
  rcases Nat.lt_or_ge q next with hin | hge
  · rw [hclear q hlt hin] at hq; cases hq
  · exact hge

/-! ## Stacks that flow to an offset -/

/-- What the visit of an offset with a stack found: the instruction, executed on that stack. -/
structure Visit (cx : Context) (a : MethodAnalysis) (pc : Nat) (stack : List StackType) where
  op : Opcode
  types : Option OperandTypes
  successors : List Successor
  after : List StackType
  isStart : a.isStart pc = true
  depth : a.depth? pc = some stack.length
  opcode : cx.code.opcodeAt pc = .ok op
  transfer : (cx.transfer pc op).run stack = .ok ((types, successors), after)
  effect : checkEffect pc op stack.length after.length = .ok ()
  operands : a.operandTypes? pc = types

/-- **A stack of types flows to an offset**: control enters there with it, or a visit hands it on. -/
inductive Flows (cx : Context) (a : MethodAnalysis) : Nat → List StackType → Prop where
  | entry {pc : Nat} {stack : List StackType} : (pc, stack) ∈ entries cx.regions → Flows cx a pc stack
  | edge {pc : Nat} {stack : List StackType} {next : Successor} : Flows cx a pc stack →
      (v : Visit cx a pc stack) → next ∈ v.successors → Flows cx a next.offset (if next.empties then [] else v.after)

/-- The second analysis says of every visited offset what the first one does. -/
structure Keeps (a a' : MethodAnalysis) : Prop where
  starts : a'.starts = a.starts
  depth : ∀ q, (a.depth? q).isSome = true → a'.depth? q = a.depth? q
  types : ∀ q, (a.depth? q).isSome = true → a'.operandTypes? q = a.operandTypes? q

theorem Visit.visited {a : MethodAnalysis} {pc : Nat} {stack : List StackType} (v : Visit cx a pc stack) :
    (a.depth? pc).isSome = true := by
  rw [v.depth]
  rfl

/-- A visit is not undone. -/
def Visit.keep {a a' : MethodAnalysis} {pc : Nat} {stack : List StackType} (v : Visit cx a pc stack) (h : Keeps a a') :
    Visit cx a' pc stack :=
  { v with
    isStart := by rw [MethodAnalysis.isStart, h.starts]; exact v.isStart
    depth := (h.depth pc v.visited).trans v.depth
    operands := (h.types pc v.visited).trans v.operands }

theorem Flows.keep {a a' : MethodAnalysis} {pc : Nat} {stack : List StackType} (hf : Flows cx a pc stack)
    (h : Keeps a a') : Flows cx a' pc stack := by
  induction hf with
  | entry hm => exact .entry hm
  | edge _ v hm ih => exact .edge ih (v.keep h) hm

/-- What the visit of an offset with a stack hands on. -/
def Context.handsOn (cx : Context) (e : Nat × List StackType) : List (Nat × List StackType) :=
  match cx.code.opcodeAt e.1 with
  | .error _ => []
  | .ok op =>
    match (cx.transfer e.1 op).run e.2 with
    | .error _ => []
    | .ok ((_, successors), after) => successors.map fun s => (s.offset, if s.empties then [] else after)

/-- **Nothing flows out of a closed list of stacks.** -/
theorem Flows.mem_of_closed {a : MethodAnalysis} {pc : Nat} {stack : List StackType} {l : List (Nat × List StackType)}
    (hf : Flows cx a pc stack) (he : ∀ e ∈ entries cx.regions, e ∈ l) (hc : ∀ e ∈ l, ∀ e' ∈ cx.handsOn e, e' ∈ l) :
    (pc, stack) ∈ l := by
  induction hf with
  | entry hm => exact he _ hm
  | edge _ v hn ih =>
    refine hc _ ih _ ?_
    simp only [Context.handsOn, v.opcode, v.transfer]
    exact List.mem_map_of_mem hn

/-! ## The pass -/

/-- What holds while the pass runs. The successors of the offset that is being visited (`busy`) are still being
queued; those of all other visited offsets are queued. -/
structure Covering (cx : Context) (starts : Array Bool) (busy : Nat → Prop) (s : State) : Prop where
  starts_eq : s.result.starts = starts
  depths_size : s.result.depths.size = cx.code.size
  types_size : s.result.types.size = cx.code.size
  queued_size : s.queued.size = cx.code.size
  untyped : ∀ q, s.result.depth? q = none → s.result.operandTypes? q = none
  nodup : (s.worklist.map (·.1)).Nodup
  waiting : ∀ q stack, (q, stack) ∈ s.worklist →
    s.queued.getD q false = true ∧ s.result.isStart q = true ∧ Flows cx s.result q stack ∧ s.result.depth? q = none
  queued : ∀ q, s.queued.getD q false = true → (∃ stack, (q, stack) ∈ s.worklist) ∨ (s.result.depth? q).isSome
  visited : ∀ q, (s.result.depth? q).isSome → s.queued.getD q false = true ∧ (¬ busy q → ∃ stack,
    Flows cx s.result q stack ∧ ∃ v : Visit cx s.result q stack, ∀ next ∈ v.successors,
      s.queued.getD next.offset false = true)

/-- No queued offset has been lost. -/
def State.Grows (s t : State) : Prop := ∀ q, s.queued.getD q false = true → t.queued.getD q false = true

theorem depth?_setIfInBounds (a : MethodAnalysis) (types : Array (Option OperandTypes)) (pc q : Nat) (d : Option Nat)
    (h : pc < a.depths.size) :
    MethodAnalysis.depth? ⟨a.starts, a.depths.setIfInBounds pc d, types⟩ q = if pc = q then d else a.depth? q := by
  simp only [MethodAnalysis.depth?, Array.getElem?_setIfInBounds, if_pos h]
  split <;> rfl

theorem operandTypes?_setIfInBounds (a : MethodAnalysis) (depths : Array (Option Nat)) (pc q : Nat)
    (ts : Option OperandTypes) (h : pc < a.types.size) :
    MethodAnalysis.operandTypes? ⟨a.starts, depths, a.types.setIfInBounds pc ts⟩ q =
      if pc = q then ts else a.operandTypes? q := by
  simp only [MethodAnalysis.operandTypes?, Array.getElem?_setIfInBounds, if_pos h]
  split <;> rfl

/-- Queueing an offset that a stack flows to keeps the invariant. -/
theorem enqueue_meets {starts : Array Bool} {busy : Nat → Prop} {s : State} {source target : Nat}
    {stack : List StackType} (hsize : starts.size = cx.code.size) (h : Covering cx starts busy s)
    (hf : Flows cx s.result target stack) :
    Meets (enqueue source target stack) s
      (fun _ t => Covering cx starts busy t ∧ t.result = s.result ∧ s.Grows t ∧ t.queued.getD target false = true)
      fun _ _ => True := by
  unfold enqueue
  refine Meets.get_bind ?_
  by_cases hstart : s.result.isStart target = true
  case neg =>
    simp only [hstart, Bool.not_false, if_pos]
    exact Meets.throw_bind trivial
  simp only [hstart, Bool.not_true, Bool.false_eq_true, if_false]
  have hlt : target < s.queued.size := by
    rw [h.queued_size, ← hsize, ← h.starts_eq]
    exact lt_size_of_getD hstart
  by_cases hq : s.queued.getD target false = true
  · simp only [hq, Bool.not_true, Bool.false_eq_true, if_false]
    exact Meets.pure ⟨h, rfl, fun _ hq => hq, hq⟩
  · have hq : s.queued.getD target false = false := by simpa only [Bool.not_eq_true] using hq
    simp only [hq, Bool.not_false, if_true]
    have hget := fun k => getD_setIfInBounds s.queued target k true false hlt
    have hgrow : ∀ q, s.queued.getD q false = true → (s.queued.setIfInBounds target true).getD q false = true := by
      intro q hq
      rw [hget]
      split
      · rfl
      · exact hq
    have hnone : s.result.depth? target = none := by
      cases hd : s.result.depth? target with
      | none => rfl
      | some d => rw [(h.visited target (by rw [hd]; rfl)).1] at hq; cases hq
    refine Meets.set ⟨?_, rfl, hgrow, by rw [hget, if_pos rfl]⟩
    exact
      { starts_eq := h.starts_eq
        depths_size := h.depths_size
        types_size := h.types_size
        queued_size := by rw [Array.size_setIfInBounds]; exact h.queued_size
        untyped := h.untyped
        nodup := by
          refine List.nodup_cons.2 ⟨fun hm => ?_, h.nodup⟩
          obtain ⟨⟨q, st⟩, hmem, rfl⟩ := List.mem_map.1 hm
          rw [(h.waiting q st hmem).1] at hq; cases hq
        waiting := by
          intro q st hm
          rcases List.mem_cons.1 hm with he | hm
          · cases he
            exact ⟨by rw [hget, if_pos rfl], hstart, hf, hnone⟩
          · obtain ⟨h1, h2⟩ := h.waiting q st hm
            exact ⟨hgrow q h1, h2⟩
        queued := by
          intro q hq'
          rw [hget] at hq'
          split at hq'
          · rename_i he
            exact .inl ⟨stack, he ▸ List.mem_cons_self⟩
          · rcases h.queued q hq' with ⟨st, hm⟩ | hd
            · exact .inl ⟨st, List.mem_cons_of_mem _ hm⟩
            · exact .inr hd
        visited := by
          intro q hd
          obtain ⟨h1, h2⟩ := h.visited q hd
          refine ⟨hgrow q h1, fun hb => ?_⟩
          obtain ⟨st, hst, v, hv⟩ := h2 hb
          exact ⟨st, hst, v, fun next hn => hgrow _ (hv next hn)⟩ }

/-- Taking an offset off the worklist and noting what was found for it: the height of its stack and its operand
types. -/
theorem Covering.mark {starts : Array Bool} {s : State} {pc : Nat} {stack : List StackType}
    {rest : List (Nat × List StackType)} (lookups : Nat) (types : Array (Option OperandTypes))
    (hsize : starts.size = cx.code.size) (h : Covering cx starts (fun _ => False) s)
    (hw : s.worklist = (pc, stack) :: rest) (ht : types.size = s.result.types.size)
    (hother : ∀ q, pc ≠ q → types[q]? = s.result.types[q]?) :
    Covering cx starts (· = pc)
      ⟨⟨s.result.starts, s.result.depths.setIfInBounds pc (some stack.length), types⟩, s.queued, rest, lookups⟩ ∧
    Flows cx ⟨s.result.starts, s.result.depths.setIfInBounds pc (some stack.length), types⟩ pc stack := by
  obtain ⟨hq, hstart, hflows, hnone⟩ := h.waiting pc stack (by rw [hw]; exact List.mem_cons_self)
  have hlt : pc < s.result.depths.size := by
    rw [h.depths_size, ← hsize, ← h.starts_eq]
    exact lt_size_of_getD hstart
  have hdepth := fun q => depth?_setIfInBounds s.result types pc q (some stack.length) hlt
  have htypes : ∀ q, pc ≠ q → MethodAnalysis.operandTypes?
      ⟨s.result.starts, s.result.depths.setIfInBounds pc (some stack.length), types⟩ q =
        s.result.operandTypes? q := by
    intro q hne
    rw [MethodAnalysis.operandTypes?, hother q hne, MethodAnalysis.operandTypes?]
  have hkeeps : Keeps s.result ⟨s.result.starts, s.result.depths.setIfInBounds pc (some stack.length), types⟩ := by
    have hne : ∀ q, (s.result.depth? q).isSome = true → pc ≠ q := by
      rintro q hd rfl
      rw [hnone] at hd
      cases hd
    exact ⟨rfl, fun q hd => by rw [hdepth, if_neg (hne q hd)], fun q hd => htypes q (hne q hd)⟩
  have hnodup := h.nodup
  rw [hw, List.map_cons, List.nodup_cons] at hnodup
  refine ⟨?_, hflows.keep hkeeps⟩
  exact
    { starts_eq := h.starts_eq
      depths_size := by rw [Array.size_setIfInBounds]; exact h.depths_size
      types_size := ht.trans h.types_size
      queued_size := h.queued_size
      untyped := by
        intro q hd
        rw [hdepth] at hd
        split at hd
        · cases hd
        · rename_i hne
          exact (htypes q hne).trans (h.untyped q hd)
      nodup := hnodup.2
      waiting := by
        intro q st hm
        obtain ⟨h1, h2, h3, h4⟩ := h.waiting q st (by rw [hw]; exact List.mem_cons_of_mem _ hm)
        refine ⟨h1, h2, h3.keep hkeeps, ?_⟩
        rw [hdepth, if_neg]
        · exact h4
        · rintro rfl
          exact hnodup.1 (List.mem_map.2 ⟨_, hm, rfl⟩)
      queued := by
        intro q hq'
        rw [hdepth]
        split
        · exact .inr rfl
        · rename_i hne
          rcases h.queued q hq' with ⟨st, hm⟩ | hd
          · rw [hw] at hm
            rcases List.mem_cons.1 hm with he | hm
            · cases he; exact absurd rfl hne
            · exact .inl ⟨st, hm⟩
          · exact .inr hd
      visited := by
        intro q hd
        by_cases hne : pc = q
        · subst hne
          exact ⟨hq, fun hb => absurd rfl hb⟩
        · rw [hdepth, if_neg hne] at hd
          obtain ⟨h1, h2⟩ := h.visited q hd
          refine ⟨h1, fun _ => ?_⟩
          obtain ⟨st, hst, v, hv⟩ := h2 id
          exact ⟨st, hst.keep hkeeps, v.keep hkeeps, hv⟩ }

/-- The visit is over: its successors are queued. -/
theorem Covering.close {starts : Array Bool} {s : State} {pc : Nat} {stack : List StackType}
    (h : Covering cx starts (· = pc) s) (hf : Flows cx s.result pc stack) (v : Visit cx s.result pc stack)
    (hv : ∀ next ∈ v.successors, s.queued.getD next.offset false = true) :
    Covering cx starts (fun _ => False) s :=
  { h with
    visited := by
      intro q hq
      obtain ⟨h1, h2⟩ := h.visited q hq
      refine ⟨h1, fun _ => ?_⟩
      by_cases hb : q = pc
      · subst hb
        exact ⟨stack, hf, v, hv⟩
      · exact h2 hb }

/-- The state in which a visit queues the successors: it has noted the height of the stack, the types of the operands
if there are any, and perhaps that it looked a method up. -/
def State.noted (s : State) (pc height : Nat) (types : Option OperandTypes) (lookups : Nat) : State where
  result := ⟨s.result.starts, s.result.depths.setIfInBounds pc (some height),
    if types.isSome then s.result.types.setIfInBounds pc types else s.result.types⟩
  queued := s.queued
  worklist := s.worklist
  lookups := lookups

/-- **What a visit does**: it fails where the instruction cannot be read or does not accept the stack, and otherwise
queues the successors. -/
theorem meets_visit {s : State} {pc : Nat} {stack : List StackType} {Q : Unit → State → Prop}
    {E : EngineError → State → Prop}
    (hread : ∀ e, cx.code.opcodeAt pc = .error e → E e (s.noted pc stack.length none s.lookups))
    (hrefuse : ∀ op e n, cx.code.opcodeAt pc = .ok op → (cx.transfer pc op).run stack = .error e →
      E e (s.noted pc stack.length none n))
    (hqueue : ∀ op types successors left n, cx.code.opcodeAt pc = .ok op →
      (cx.transfer pc op).run stack = .ok ((types, successors), left) → Meets (do
        visit.liftExcept (checkEffect pc op stack.length left.length)
        successors.forM fun next => enqueue pc next.offset (if next.empties then [] else left))
        (s.noted pc stack.length types n) Q E) :
    Meets (visit cx pc stack) s Q E := by
  unfold visit
  refine Meets.modify_bind ?_
  refine Meets.bind (Q := fun op t => cx.code.opcodeAt pc = .ok op ∧ t = s.noted pc stack.length none s.lookups)
    (Meets.ofExcept (fun op ho => ⟨ho, rfl⟩) hread) ?_
  rintro op _ ⟨hop, rfl⟩
  extract_lets after
  -- the two branches before `after` differ in the count of lookups only
  have hafter : ∀ n, Meets (after ()) (s.noted pc stack.length none n) Q E := by
    intro n
    unfold after
    refine Meets.bind (Q := fun r t => (cx.transfer pc op).run stack = .ok r ∧ t = s.noted pc stack.length none n)
      (Meets.ofExcept (fun r hr => ⟨hr, rfl⟩) fun e he => hrefuse op e n hop he) ?_
    rintro ⟨⟨types, successors⟩, left⟩ _ ⟨htransfer, rfl⟩
    cases types with
    | some ts => exact Meets.modify_bind (hqueue op _ _ _ n hop htransfer)
    | none => exact hqueue op _ _ _ n hop htransfer
  split
  · exact Meets.modify_bind (hafter _)
  · exact hafter _

/-- The end of a visit: the successors of the instruction are queued. -/
theorem successors_meet {starts : Array Bool} {s : State} {pc : Nat} {op : Opcode} {stack left : List StackType}
    {types : Option OperandTypes} {successors : List Successor} (hsize : starts.size = cx.code.size)
    (h : Covering cx starts (· = pc) s) (hflows : Flows cx s.result pc stack) (hstart : s.result.isStart pc = true)
    (hdepth : s.result.depth? pc = some stack.length) (htypes : s.result.operandTypes? pc = types)
    (hop : cx.code.opcodeAt pc = .ok op) (htransfer : (cx.transfer pc op).run stack = .ok ((types, successors), left)) :
    Meets (do
        visit.liftExcept (checkEffect pc op stack.length left.length)
        successors.forM fun next => enqueue pc next.offset (if next.empties then [] else left)) s
      (fun _ t => Covering cx starts (fun _ => False) t ∧ t.result = s.result ∧ s.Grows t) fun _ _ => True := by
  refine Meets.bind (Q := fun _ t => checkEffect pc op stack.length left.length = .ok () ∧ s = t)
    (Meets.ofExcept (fun r hr => ⟨hr, rfl⟩) fun _ _ => trivial) ?_
  rintro _ _ ⟨heffect, rfl⟩
  let v : Visit cx s.result pc stack :=
    { op, types, successors, after := left, opcode := hop, transfer := htransfer, effect := heffect, isStart := hstart
      depth := hdepth, operands := htypes }
  refine (Meets.forM (E := fun _ _ => True)
    (I := fun u => Covering cx starts (· = pc) u ∧ u.result = s.result ∧ s.Grows u)
    (P := fun next u => u.queued.getD next.offset false = true) (fun next hn u hu => ?_)
    ⟨h, rfl, fun _ hq => hq⟩).mono ?_ fun _ _ _ => trivial
  · obtain ⟨hcover, hres, hgrow⟩ := hu
    have hflow : Flows cx s.result next.offset (if next.empties then [] else left) := .edge hflows v hn
    refine (enqueue_meets hsize hcover (hres ▸ hflow)).mono ?_ fun _ _ _ => trivial
    rintro _ v ⟨hv, hres', hgrow', hq⟩
    exact ⟨⟨hv, hres'.trans hres, fun q hq => hgrow' q (hgrow q hq)⟩, hq, fun c hc => hgrow' _ hc⟩
  · rintro _ u ⟨⟨hu, hres, hgrow⟩, hall, -⟩
    refine ⟨hu.close (hres ▸ hflows) (v.keep (hres ▸ ⟨rfl, fun _ _ => rfl, fun _ _ => rfl⟩)) hall, hres, hgrow⟩

/-- **A visit keeps the invariant**, and notes the height of the stack at its offset. -/
theorem visit_meets {starts : Array Bool} {s : State} {pc : Nat} {stack : List StackType}
    {rest : List (Nat × List StackType)} (hsize : starts.size = cx.code.size)
    (h : Covering cx starts (fun _ => False) s) (hw : s.worklist = (pc, stack) :: rest) :
    Meets (visit cx pc stack) { s with worklist := rest }
      (fun _ t => Covering cx starts (fun _ => False) t ∧
        t.result.depths = s.result.depths.setIfInBounds pc (some stack.length) ∧ s.Grows t) fun _ _ => True := by
  obtain ⟨-, hstart, -, hnone⟩ := h.waiting pc stack (by rw [hw]; exact List.mem_cons_self)
  have hlt : pc < cx.code.size := by
    rw [← hsize, ← h.starts_eq]
    exact lt_size_of_getD hstart
  have hdepth : ∀ types, MethodAnalysis.depth?
      ⟨s.result.starts, s.result.depths.setIfInBounds pc (some stack.length), types⟩ pc = some stack.length := by
    intro types
    rw [depth?_setIfInBounds s.result types pc pc _ (by rw [h.depths_size]; exact hlt), if_pos rfl]
  refine meets_visit (fun _ _ => trivial) (fun _ _ _ _ _ => trivial) fun op types successors left n hop htransfer => ?_
  cases types with
  | some ts =>
    have htypes := (operandTypes?_setIfInBounds s.result (s.result.depths.setIfInBounds pc (some stack.length)) pc pc
      (some ts) (by rw [h.types_size]; exact hlt)).trans (if_pos rfl)
    obtain ⟨hmark, hflows⟩ := h.mark n (s.result.types.setIfInBounds pc (some ts)) hsize hw Array.size_setIfInBounds
      fun q hne => Array.getElem?_setIfInBounds_ne hne
    refine (successors_meet hsize hmark hflows hstart (hdepth _) htypes hop htransfer).mono ?_ fun _ _ h => h
    rintro _ t ⟨ht, hres, hgrow⟩
    exact ⟨ht, by rw [hres], hgrow⟩
  | none =>
    obtain ⟨hmark, hflows⟩ := h.mark n s.result.types hsize hw rfl fun _ _ => rfl
    refine (successors_meet hsize hmark hflows hstart (hdepth _) (h.untyped pc hnone) hop htransfer).mono ?_
      fun _ _ h => h
    rintro _ t ⟨ht, hres, hgrow⟩
    exact ⟨ht, by rw [hres], hgrow⟩

/-- How many offsets have not been visited. -/
def State.unvisited (s : State) : Nat := s.result.depths.countP Option.isNone

/-- An offset on the worklist has not been visited yet. -/
theorem Covering.getElem_none {starts : Array Bool} {busy : Nat → Prop} {s : State}
    {e : Nat × List StackType} (hsize : starts.size = cx.code.size) (h : Covering cx starts busy s)
    (hm : e ∈ s.worklist) : ∃ hlt : e.1 < s.result.depths.size, s.result.depths[e.1] = none := by
  obtain ⟨-, hstart, -, hnone⟩ := h.waiting e.1 e.2 hm
  have hlt : e.1 < s.result.depths.size := by
    rw [h.depths_size, ← hsize, ← h.starts_eq]
    exact lt_size_of_getD hstart
  refine ⟨hlt, ?_⟩
  rwa [MethodAnalysis.depth?, Array.getElem?_eq_getElem hlt, Option.join_some] at hnone

theorem unvisited_pos {s : State} {pc : Nat} (hlt : pc < s.result.depths.size) (hnone : s.result.depths[pc] = none) :
    0 < s.unvisited :=
  Array.countP_pos_iff.2 ⟨_, Array.getElem_mem hlt, by rw [hnone]; rfl⟩

theorem unvisited_visit {s t : State} {pc d : Nat} (hlt : pc < s.result.depths.size)
    (hnone : s.result.depths[pc] = none) (ht : t.result.depths = s.result.depths.setIfInBounds pc (some d)) :
    t.unvisited = s.unvisited - 1 := by
  rw [State.unvisited, ht, Array.setIfInBounds, dif_pos hlt, Array.countP_set hlt, hnone]
  rfl

/-- **Enough visits empty the worklist.** -/
theorem visitAll_meets {starts : Array Bool} (hsize : starts.size = cx.code.size) : ∀ (fuel : Nat) (s : State),
    Covering cx starts (fun _ => False) s → s.unvisited ≤ fuel →
    Meets (visitAll cx fuel) s (fun _ t => Covering cx starts (fun _ => False) t ∧ t.worklist = [] ∧ s.Grows t)
      fun _ _ => True
  | 0, s, h, hf => by
    refine Meets.pure ⟨h, ?_, fun _ hq => hq⟩
    cases hw : s.worklist with
    | nil => rfl
    | cons e rest =>
      obtain ⟨hlt, hnone⟩ := h.getElem_none hsize (by rw [hw]; exact List.mem_cons_self)
      have := unvisited_pos hlt hnone
      omega
  | fuel + 1, s, h, hf => by
    unfold visitAll
    refine Meets.get_bind ?_
    cases hw : s.worklist with
    | nil => exact Meets.pure ⟨h, hw, fun _ hq => hq⟩
    | cons e rest =>
      obtain ⟨pc, stack⟩ := e
      refine Meets.modify_bind (Meets.bind (visit_meets hsize h hw) ?_)
      rintro _ t ⟨ht, hdepths, hgrow⟩
      refine (visitAll_meets hsize fuel t ht ?_).mono ?_ fun _ _ h => h
      · obtain ⟨hlt, hnone⟩ := h.getElem_none hsize (by rw [hw]; exact List.mem_cons_self)
        rw [unvisited_visit hlt hnone hdepths]
        omega
      · rintro _ u ⟨hu, hempty, hgrow'⟩
        exact ⟨hu, hempty, fun q hq => hgrow' q (hgrow q hq)⟩

/-! ## The whole pass -/

/-- **What an accepted analysis says**: control enters only at reachable offsets, and at each of these an instruction
was executed on types, after which control goes on at reachable offsets. -/
structure Accepted (cx : Context) (a : MethodAnalysis) : Prop where
  scanned : Scanned cx.code a.starts
  entered : ∀ e ∈ entries cx.regions, a.isReachable e.1 = true
  visited : ∀ pc, a.isReachable pc = true → ∃ stack, Flows cx a pc stack ∧
    ∃ v : Visit cx a pc stack, ∀ next ∈ v.successors, a.isReachable next.offset = true

theorem start_covering {starts : Array Bool} {size : Nat} (hsize : cx.code.size = size) :
    Covering cx starts (fun _ => False) { start size with result.starts := starts } := by
  have hget : ∀ {β : Type} (d : β) (q : Nat), (Array.replicate size d)[q]? = none ∨
      (Array.replicate size d)[q]? = some d := by
    intro β d q
    rw [Array.getElem?_replicate]
    split
    · exact .inr rfl
    · exact .inl rfl
  have hqueued : ∀ q, (Array.replicate size false).getD q false = false := by
    intro q
    rw [Array.getD_eq_getD_getElem?]
    rcases hget false q with h | h
    · rw [h]; rfl
    · rw [h]; rfl
  have hdepth : ∀ q, MethodAnalysis.depth? ⟨starts, Array.replicate size none, Array.replicate size none⟩ q = none := by
    intro q
    rw [MethodAnalysis.depth?]
    rcases hget (none : Option Nat) q with h | h
    · rw [h]; rfl
    · rw [h]; rfl
  exact
    { starts_eq := rfl
      depths_size := by rw [hsize]; exact Array.size_replicate
      types_size := by rw [hsize]; exact Array.size_replicate
      queued_size := by rw [hsize]; exact Array.size_replicate
      untyped := by
        intro q _
        show MethodAnalysis.operandTypes? ⟨starts, Array.replicate size none, Array.replicate size none⟩ q = none
        rw [MethodAnalysis.operandTypes?]
        rcases hget (none : Option OperandTypes) q with h | h
        · rw [h]; rfl
        · rw [h]; rfl
      nodup := List.nodup_nil
      waiting := fun q st hm => by cases hm
      queued := fun q hq => by
        rw [show (start size).queued.getD q false = false from hqueued q] at hq
        cases hq
      visited := fun q hq => by
        rw [show MethodAnalysis.depth? ⟨starts, (start size).result.depths, (start size).result.types⟩ q = none from
          hdepth q] at hq
        cases hq }

theorem Covering.accepted {starts : Array Bool} {s : State} (hscan : Scanned cx.code starts)
    (h : Covering cx starts (fun _ => False) s) (hempty : s.worklist = [])
    (hentered : ∀ e ∈ entries cx.regions, s.queued.getD e.1 false = true) : Accepted cx s.result := by
  have hreach : ∀ q, s.queued.getD q false = true → s.result.isReachable q = true := by
    intro q hq
    rcases h.queued q hq with ⟨st, hm⟩ | hd
    · rw [hempty] at hm; cases hm
    · exact hd
  refine ⟨h.starts_eq ▸ hscan, fun e he => hreach _ (hentered e he), fun pc hpc => ?_⟩
  obtain ⟨-, hv⟩ := h.visited pc hpc
  obtain ⟨stack, hf, v, hv⟩ := hv id
  exact ⟨stack, hf, v, fun next hn => hreach _ (hv next hn)⟩

/-- What the pass does before it visits anything: it finds the instructions, and queues the entries. -/
def seed (cx : Context) : PassM Unit := do
  let starts ← ExceptT.mk (pure (scan cx.code))
  modify fun s => { s with result := { s.result with starts } }
  if cx.code.size = 0 then throw (.invalidProgram 0 .emptyBody)
  (entries cx.regions).forM fun (offset, stack) => enqueue offset offset stack

theorem pass_eq (cx : Context) : pass cx = seed cx >>= fun _ => visitAll cx cx.code.size := by
  unfold pass seed
  simp only [bind_assoc]
  congr; funext starts; congr; funext _
  by_cases h : cx.code.size = 0
  · simp only [h, if_true, bind_assoc]
  · simp only [h, if_false]

/-- **Before the first visit the invariant holds**, and every entry is queued. -/
theorem seed_meets (cx : Context) (size : Nat) (hsize : cx.code.size = size) :
    Meets (seed cx) (start size) (fun _ t => ∃ starts, scan cx.code = .ok starts ∧
      Covering cx starts (fun _ => False) t ∧ ∀ e ∈ entries cx.regions, t.queued.getD e.1 false = true)
      fun _ _ => True := by
  unfold seed
  refine Meets.bind (Q := fun starts t => scan cx.code = .ok starts ∧ start size = t)
    (Meets.ofExcept (fun starts hs => ⟨hs, rfl⟩) fun _ _ => trivial) ?_
  rintro starts _ ⟨hscan, rfl⟩
  refine Meets.modify_bind ?_
  have hsize' := (scan_ok hscan).size
  split
  · exact Meets.throw_bind trivial
  refine (Meets.forM (E := fun _ _ => True) (I := fun u => Covering cx starts (fun _ => False) u)
    (P := fun e u => u.queued.getD e.1 false = true) (fun e he u hu => ?_) (start_covering hsize)).mono ?_
    fun _ _ _ => trivial
  · refine (enqueue_meets hsize' hu (.entry he)).mono ?_ fun _ _ _ => trivial
    rintro _ v ⟨hv, -, hgrow, hq⟩
    exact ⟨hv, hq, fun c hc => hgrow _ hc⟩
  · rintro _ t ⟨ht, hentered, -⟩
    exact ⟨starts, hscan, ht, hentered⟩

/-- **After the last visit the invariant holds**, every entry is queued, and nothing waits. -/
theorem pass_covers (cx : Context) (size : Nat) (hsize : cx.code.size = size) :
    Meets (pass cx) (start size) (fun _ t => ∃ starts, scan cx.code = .ok starts ∧
      Covering cx starts (fun _ => False) t ∧ t.worklist = [] ∧
      ∀ e ∈ entries cx.regions, t.queued.getD e.1 false = true) fun _ _ => True := by
  rw [pass_eq]
  refine Meets.bind (seed_meets cx size hsize) ?_
  rintro _ t ⟨starts, hscan, ht, hentered⟩
  refine (visitAll_meets (scan_ok hscan).size _ t ht ?_).mono ?_ fun _ _ _ => trivial
  · exact Nat.le_trans Array.countP_le_size (Nat.le_of_eq ht.depths_size)
  · rintro _ u ⟨hu, hempty, hgrow⟩
    exact ⟨starts, hscan, hu, hempty, fun e he => hgrow _ (hentered e he)⟩

end Analysis

/-- What an analysis that succeeds knows of the pass that gave it. -/
theorem analyze_covers {md : Metadata} {m : MethodSymbol} {body : Body} {a : MethodAnalysis} (hb : m.body = some body)
    (h : (analyze md m).1 = .ok a) : ∃ starts s, Analysis.scan ⟨body.code⟩ = .ok starts ∧
      Analysis.Covering (Analysis.contextOf md m body) starts (fun _ => False) s ∧ s.result = a ∧ s.worklist = [] ∧
      ∀ e ∈ Analysis.entries body.regions, s.queued.getD e.1 false = true := by
  have hp := Analysis.pass_covers (Analysis.contextOf md m body) body.code.size rfl
  unfold analyze at h
  rw [hb] at h
  simp only at h
  rcases hr : ((Analysis.pass (Analysis.contextOf md m body)).run).run (Analysis.start body.code.size) with ⟨r, s⟩
  rw [hr] at h
  cases r with
  | error e => cases h
  | ok u =>
    cases h
    obtain ⟨starts, hscan, hcover, hempty, hentered⟩ := hp.of_ok hr
    exact ⟨starts, s, hscan, hcover, rfl, hempty, hentered⟩

/-- **An analysis that succeeds visited everything that control can reach.** -/
theorem analyze_accepted {md : Metadata} {m : MethodSymbol} {body : Body} {a : MethodAnalysis} (hb : m.body = some body)
    (h : (analyze md m).1 = .ok a) : Analysis.Accepted (Analysis.contextOf md m body) a := by
  obtain ⟨starts, s, hscan, hcover, rfl, hempty, hentered⟩ := analyze_covers hb h
  exact hcover.accepted (Analysis.scan_ok hscan) hempty hentered

end ManagedCode
