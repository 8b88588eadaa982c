import ManagedCode.Proofs.Inside
import ManagedCode.Proofs.Tables

/-!
# What an accepted analysis covers

Both halves of the bookkeeping, exactly. The instruction starts are the offsets that one reads by going from instruction
to instruction (`Code.offsetOf`), and this ends at the end of the code (`scan_whole`). The reachable offsets are the
least set that holds the places where control enters and is closed under the edges of each instruction
(`Context.Reachable`, `Accepted.reachable_iff`). An operand has types where a reachable instruction is annotated
(`Accepted.typed_iff`).
-/

namespace ManagedCode

/-- The offset of the instruction number `k`, found by going from instruction to instruction. -/
def Code.offsetOf (c : Code) : (k : Nat) → Except EngineError Nat
  | 0 => .ok 0
  | k + 1 => c.offsetOf k >>= c.nextOffset

/-- The code consists of whole instructions: going from one to the next comes to its end. -/
def Code.Whole (c : Code) : Prop := ∃ n, c.offsetOf n = .ok c.size

namespace Code

variable {c : Code} {n k pc next : Nat}

theorem offsetOf_succ (h : c.offsetOf k = .ok pc) : c.offsetOf (k + 1) = c.nextOffset pc := by
  rw [offsetOf, h]
  rfl

theorem offsetOf_succ_ok (h : c.offsetOf (k + 1) = .ok next) :
    ∃ pc, c.offsetOf k = .ok pc ∧ c.nextOffset pc = .ok next := by
  rw [offsetOf] at h
  cases hk : c.offsetOf k with
  | error e => rw [hk] at h; cases h
  | ok pc => rw [hk] at h; exact ⟨pc, rfl, h⟩

/-- Every instruction but the last has another one behind it. -/
theorem offsetOf_lt (hn : c.offsetOf n = .ok next) : k < n → ∃ pc, c.offsetOf k = .ok pc ∧ pc < next := by
  induction n generalizing next with
  | zero => exact fun hk => absurd hk (Nat.not_lt_zero _)
  | succ n ih =>
    intro hk
    obtain ⟨pc, hpc, hnext⟩ := offsetOf_succ_ok hn
    have hlt := lt_nextOffset hnext
    by_cases he : k = n
    · exact ⟨pc, he ▸ hpc, hlt⟩
    · obtain ⟨q, hq, hqlt⟩ := ih hpc (by omega)
      exact ⟨q, hq, by omega⟩

/-- The starts of instructions are the offsets on the way to the end of the code. -/
theorem starts_iff (hn : c.offsetOf n = .ok c.size) : c.Starts pc ↔ ∃ k < n, c.offsetOf k = .ok pc := by
  constructor
  · intro h
    induction h with
    | first hpos =>
      refine ⟨0, Nat.pos_of_ne_zero ?_, rfl⟩
      rintro rfl
      have := Except.ok.inj hn
      omega
    | @next pc next _ hnext hlt ih =>
      obtain ⟨k, hk, hpc⟩ := ih
      have hsucc := (offsetOf_succ hpc).trans hnext
      refine ⟨k + 1, Nat.lt_of_le_of_ne hk ?_, hsucc⟩
      intro he
      rw [he, hn] at hsucc
      cases hsucc
      exact absurd hlt (Nat.lt_irrefl _)
  · rintro ⟨k, hk, hpc⟩
    induction k generalizing pc with
    | zero =>
      cases hpc
      obtain ⟨q, hq, hlt⟩ := offsetOf_lt hn hk
      cases hq
      exact .first hlt
    | succ k ih =>
      obtain ⟨q, hq, hnext⟩ := offsetOf_succ_ok hpc
      obtain ⟨q', hq', hlt⟩ := offsetOf_lt hn hk
      cases hpc.symm.trans hq'
      exact .next (ih (by omega) hq) hnext hlt

end Code

namespace Analysis

variable {cx : Context} {pc : Nat}

/-- **A scan that succeeds went through whole instructions.** -/
theorem scanFrom_chain (c : Code) : ∀ (fuel pc k : Nat) (starts marked : Array Bool), c.size ≤ pc + fuel →
    pc ≤ c.size → c.offsetOf k = .ok pc → scanFrom c fuel pc starts = .ok marked → c.Whole
  | 0, pc, k, starts, marked, hfuel, hle, hk, h => ⟨k, by rw [hk, show pc = c.size by omega]⟩
  | fuel + 1, pc, k, starts, marked, hfuel, hle, hk, h => by
    rw [scanFrom] at h
    split at h
    · exact ⟨k, by rw [hk, show pc = c.size by omega]⟩
    · cases hn : c.nextOffset pc with
      | error e => rw [hn] at h; cases h
      | ok next =>
        rw [hn] at h
        have hlt := Code.lt_nextOffset hn
        obtain ⟨-, -, hin, -⟩ := Code.nextOffset_ok hn
        exact scanFrom_chain c fuel next (k + 1) _ marked (by omega) hin ((Code.offsetOf_succ hk).trans hn) h

theorem scan_whole {c : Code} {starts : Array Bool} (h : scan c = .ok starts) : c.Whole :=
  scanFrom_chain c c.size 0 0 _ starts (by omega) (Nat.zero_le _) rfl h

/-! ## Reachable offsets -/

/-- **Where control goes from the instruction at an offset**: where it jumps, and unless it ends its block to the next
instruction. -/
def Context.edges (cx : Context) (pc : Nat) : List Nat :=
  match cx.code.opcodeAt pc, cx.code.nextOffset pc with
  | .ok op, .ok next => cx.jumps pc op.action next ++ if op.endsBlock then [] else [next]
  | _, _ => []

/-- **The offsets that control reaches**: the first one, those of handlers and filters, and where the edges lead. -/
inductive Context.Reachable (cx : Context) : Nat → Prop where
  | first : Reachable cx 0
  | handler {r : Region} : r ∈ cx.regions → Reachable cx r.handler.start
  | filter {r : Region} {offset : Nat} : r ∈ cx.regions → r.kind = .filter offset → Reachable cx offset
  | edge {pc target : Nat} : Reachable cx pc → target ∈ cx.edges pc → Reachable cx target

theorem Visit.edges_eq {a : MethodAnalysis} {stack : List StackType} (v : Visit cx a pc stack) :
    cx.edges pc = v.successors.map (·.offset) := by
  obtain ⟨next, hnext, hoffsets⟩ := Context.offsets_of_transfer v.transfer
  simp [Context.edges, v.opcode, hnext, hoffsets]

/-- Control enters at the first offset, and at every handler and filter. -/
theorem mem_entries {regions : List Region} {pc : Nat} : (∃ stack, (pc, stack) ∈ entries regions) ↔
    pc = 0 ∨ ∃ r ∈ regions, pc = r.handler.start ∨ r.kind = .filter pc := by
  simp only [entries, List.mem_cons, List.mem_flatMap]
  constructor
  · rintro ⟨stack, h | ⟨r, hr, h⟩⟩
    · cases h; exact .inl rfl
    · refine .inr ⟨r, hr, ?_⟩
      cases hk : r.kind <;> rw [hk] at h <;> grind
  · rintro (rfl | ⟨r, hr, rfl | hk⟩)
    · exact ⟨[], .inl rfl⟩
    · cases hk : r.kind with
      | catchType t => exact ⟨_, .inr ⟨r, hr, by rw [hk]; exact List.mem_cons_self⟩⟩
      | finallyBlock => exact ⟨_, .inr ⟨r, hr, by rw [hk]; exact List.mem_cons_self⟩⟩
      | faultBlock => exact ⟨_, .inr ⟨r, hr, by rw [hk]; exact List.mem_cons_self⟩⟩
      | filter offset => exact ⟨_, .inr ⟨r, hr, by rw [hk]; exact List.mem_cons_self⟩⟩
    · exact ⟨[.object], .inr ⟨r, hr, by rw [hk]; simp⟩⟩

theorem Context.Reachable.entry {stack : List StackType} (h : (pc, stack) ∈ entries cx.regions) : cx.Reachable pc := by
  rcases mem_entries.1 ⟨stack, h⟩ with rfl | ⟨r, hr, rfl | hk⟩
  · exact .first
  · exact .handler hr
  · exact .filter hr hk

/-- What flows to an offset got there along the edges. -/
theorem Flows.reachable {a : MethodAnalysis} {stack : List StackType} (h : Flows cx a pc stack) : cx.Reachable pc := by
  induction h with
  | entry hm => exact .entry hm
  | edge _ v hn ih =>
    refine .edge ih ?_
    rw [v.edges_eq]
    exact List.mem_map_of_mem hn

/-- **An accepted analysis calls exactly the offsets reachable that control reaches.** -/
theorem Accepted.reachable_iff {a : MethodAnalysis} (h : Accepted cx a) :
    a.isReachable pc = true ↔ cx.Reachable pc := by
  constructor
  · intro hpc
    obtain ⟨stack, hflows, -⟩ := h.visited pc hpc
    exact hflows.reachable
  · intro hpc
    have hentered : ∀ {pc}, (∃ stack, (pc, stack) ∈ entries cx.regions) → a.isReachable pc = true :=
      fun ⟨stack, hm⟩ => h.entered _ hm
    induction hpc with
    | first => exact hentered (mem_entries.2 (.inl rfl))
    | handler hr => exact hentered (mem_entries.2 (.inr ⟨_, hr, .inl rfl⟩))
    | filter hr hk => exact hentered (mem_entries.2 (.inr ⟨_, hr, .inr hk⟩))
    | edge _ hmem ih =>
      obtain ⟨stack, -, v, hv⟩ := h.visited _ ih
      rw [v.edges_eq] at hmem
      obtain ⟨next, hnext, rfl⟩ := List.mem_map.1 hmem
      exact hv next hnext

/-- **An operand has types exactly where a reachable instruction is annotated.** -/
theorem Accepted.typed_iff {a : MethodAnalysis} (h : Accepted cx a)
    (huntyped : a.depth? pc = none → a.operandTypes? pc = none) : (a.operandTypes? pc).isSome = true ↔
      a.isReachable pc = true ∧ ∃ op, cx.code.opcodeAt pc = .ok op ∧ op.action.annotates = true := by
  by_cases hpc : a.isReachable pc = true
  · obtain ⟨stack, -, v, -⟩ := h.visited pc hpc
    rw [v.operands, Context.isSome_of_transfer v.transfer]
    simp [hpc, v.opcode]
  · have hnone : a.depth? pc = none := by simpa [MethodAnalysis.isReachable] using hpc
    simp [hpc, huntyped hnone]

end Analysis

/-- **What an accepted analysis covers.** The instruction starts are what one reads from the first byte to the end of
the code; the reachable offsets are the least set that holds the first offset, every handler and every filter and is
closed under the edges; each of them is a start; and an operand has types exactly at the reachable offsets whose
instruction is annotated. -/
theorem analyze_covers_exactly {md : Metadata} {m : MethodSymbol} {body : Body} {a : MethodAnalysis}
    (hb : m.body = some body) (h : (analyze md m).1 = .ok a) :
    (∃ n, (Code.mk body.code).offsetOf n = .ok body.code.size ∧
      ∀ pc, a.isStart pc = true ↔ ∃ k < n, (Code.mk body.code).offsetOf k = .ok pc) ∧
    (∀ pc, a.isReachable pc = true ↔ (Analysis.contextOf md m body).Reachable pc) ∧
    (∀ pc, a.isReachable pc = true → a.isStart pc = true) ∧
    ∀ pc, (a.operandTypes? pc).isSome = true ↔ a.isReachable pc = true ∧
      ∃ op, (Code.mk body.code).opcodeAt pc = .ok op ∧ op.action.annotates = true := by
  have haccepted := analyze_accepted hb h
  obtain ⟨starts, s, hscan, hcover, rfl, -⟩ := analyze_covers hb h
  obtain ⟨n, hn⟩ := Analysis.scan_whole hscan
  refine ⟨⟨n, hn, fun pc => ?_⟩, fun pc => haccepted.reachable_iff, fun pc hpc => ?_,
    fun pc => haccepted.typed_iff (hcover.untyped pc)⟩
  · rw [← Code.starts_iff hn]
    exact haccepted.scanned.marked pc
  · obtain ⟨stack, -, v, -⟩ := haccepted.visited pc hpc
    exact v.isStart

/-- The instruction behind the handler of `throwsObject` is reached, over the throw and over the handler; the operand of
the leave before it is not. -/
theorem throwsObject_covers_exactly : ∃ body a, throwsObject.body = some body ∧
    (analyze .core throwsObject).1 = .ok a ∧ a.isStart 9 = true ∧
    (Analysis.contextOf .core throwsObject body).Reachable 9 ∧
    ¬ (Analysis.contextOf .core throwsObject body).Reachable 8 := by
  have hr : (analyze .core throwsObject).1.toOption.map (fun a => (a.isReachable 9, a.isReachable 8)) =
      some (true, false) := by decide +kernel
  cases ha : (analyze .core throwsObject).1 with
  | error e => rw [ha] at hr; cases hr
  | ok a =>
    simp only [ha, Except.toOption, Option.map_some, Option.some.injEq, Prod.mk.injEq] at hr
    obtain ⟨-, hreachable, hstarts, -⟩ := analyze_covers_exactly rfl ha
    refine ⟨_, a, rfl, rfl, hstarts 9 hr.1, (hreachable 9).1 hr.1, fun h => ?_⟩
    rw [(hreachable 8).2 h] at hr
    cases hr.2

end ManagedCode
