import ManagedCode.Proofs.Coverage

/-!
# Bodies whose stacks do not depend on the path

`Context.Assigns S` says that the stacks `S` belong to a body: each instruction accepts the stack that `S` gives for its
offset, and hands on what `S` gives for the offsets where control goes. The pass drops every stack but the first that
comes to an offset, and compares none. Here this does no harm: whatever flows to an offset is what `S` says
(`Assigns.of_flows`). So no visit fails, and what is found does not depend on the order in which waiting offsets are
taken (`Visits`).
-/

namespace ManagedCode

/-- Two analyses that answer alike are the same. -/
theorem MethodAnalysis.eq_of_answers {a b : MethodAnalysis} (hstarts : a.starts = b.starts)
    (hdepths : a.depths.size = b.depths.size) (htypes : a.types.size = b.types.size)
    (hdepth : ∀ pc, a.depth? pc = b.depth? pc) (htype : ∀ pc, a.operandTypes? pc = b.operandTypes? pc) : a = b := by
  obtain ⟨starts, depths, types⟩ := a
  obtain ⟨starts', depths', types'⟩ := b
  cases hstarts
  have hd : depths = depths' := by
    refine Array.ext hdepths fun i hi hi' => ?_
    simpa [depth?, hi, hi'] using hdepth i
  have ht : types = types' := by
    refine Array.ext htypes fun i hi hi' => ?_
    simpa [operandTypes?, hi, hi'] using htype i
  rw [hd, ht]

namespace Analysis

variable {cx : Context} {S : Nat → List StackType} {pc : Nat} {stack : List StackType} {starts : Array Bool}
  {s t : State}

/-! ## Scanning whole instructions -/

/-- In code of whole instructions every instruction can be read. -/
theorem nextOffset_of_whole {c : Code} (h : c.Whole) (hpc : c.Starts pc) : ∃ next, c.nextOffset pc = .ok next := by
  obtain ⟨n, hn⟩ := h
  obtain ⟨k, hk, hpc⟩ := (Code.starts_iff hn).1 hpc
  rw [← Code.offsetOf_succ hpc]
  by_cases hlast : k + 1 = n
  · exact ⟨_, hlast ▸ hn⟩
  · obtain ⟨next, hnext, -⟩ := Code.offsetOf_lt hn (k := k + 1) (by omega)
    exact ⟨next, hnext⟩

theorem scanFrom_of_whole {c : Code} (h : c.Whole) : ∀ (fuel pc : Nat) (starts : Array Bool),
    (pc < c.size → c.Starts pc) → ∃ marked, scanFrom c fuel pc starts = .ok marked
  | 0, pc, starts, _ => ⟨starts, rfl⟩
  | fuel + 1, pc, starts, hpc => by
    rw [scanFrom]
    by_cases hout : c.size ≤ pc
    · exact ⟨starts, if_pos hout⟩
    · have hstart := hpc (by omega)
      obtain ⟨next, hnext⟩ := nextOffset_of_whole h hstart
      rw [if_neg hout, hnext]
      exact scanFrom_of_whole h fuel next _ (hstart.next hnext)

/-- **Code of whole instructions is scanned without an error.** -/
theorem scan_of_whole {c : Code} (h : c.Whole) : ∃ starts, scan c = .ok starts :=
  scanFrom_of_whole h c.size 0 _ .first

/-! ## Visits that cannot fail -/

theorem enqueue_total {source target : Nat} (h : s.result.isStart target = true) :
    Meets (enqueue source target stack) s (fun _ t => t.result = s.result) fun _ _ => False := by
  unfold enqueue
  refine Meets.get_bind ?_
  simp only [h, Bool.not_true, Bool.false_eq_true, if_false]
  by_cases hq : s.queued.getD target false = true
  · simp only [hq, Bool.not_true, Bool.false_eq_true, if_false]
    exact Meets.pure rfl
  · simp only [hq, Bool.not_false, if_true]
    exact Meets.set rfl

/-- A list of starts can be queued. -/
theorem forM_enqueue_total {β : Type} {xs : List β} {source target : β → Nat} {stack : β → List StackType}
    (h : ∀ b ∈ xs, s.result.isStart (target b) = true) :
    Meets (xs.forM fun b => enqueue (source b) (target b) (stack b)) s (fun _ _ => True) fun _ _ => False := by
  refine (Meets.forM (I := fun u => u.result = s.result) (P := fun _ _ => True) (fun b hb u hu => ?_) rfl).mono
    (fun _ _ _ => trivial) fun _ _ h => h
  refine (enqueue_total (by rw [hu]; exact h b hb)).mono ?_ fun _ _ h => h
  exact fun _ _ ht => ⟨ht.trans hu, trivial, fun _ _ => trivial⟩

/-- **A visit of an instruction that accepts its stack does not fail**, if its successors are instructions. -/
theorem visit_total {op : Opcode} {types : Option OperandTypes} {successors : List Successor} {after : List StackType}
    (hop : cx.code.opcodeAt pc = .ok op) (ht : (cx.transfer pc op).run stack = .ok ((types, successors), after))
    (hstarts : ∀ next ∈ successors, s.result.isStart next.offset = true) :
    Meets (visit cx pc stack) s (fun _ _ => True) fun _ _ => False := by
  refine meets_visit (fun e he => ?_) (fun op' e n hop' he => ?_) fun op' types' successors' after' n hop' ht' => ?_
  · cases hop.symm.trans he
  · cases hop.symm.trans hop'
    cases ht.symm.trans he
  · cases hop.symm.trans hop'
    cases ht.symm.trans ht'
    exact Meets.ofExcept_bind (Context.checkEffect_of_transfer ht) (forM_enqueue_total hstarts)

/-- The entries can be queued, if they are instructions. -/
theorem seed_total {size : Nat} (hscan : scan cx.code = .ok starts)
    (hentries : ∀ e ∈ entries cx.regions, cx.code.Starts e.1) :
    Meets (seed cx) (start size) (fun _ _ => True) fun _ _ => False := by
  have hmarked := (scan_ok hscan).marked
  have hpos : cx.code.size ≠ 0 := by
    have hfirst := (hmarked 0).2 (hentries (0, []) List.mem_cons_self)
    have := lt_size_of_getD hfirst
    have := (scan_ok hscan).size
    omega
  unfold seed
  refine Meets.ofExcept_bind hscan (Meets.modify_bind ?_)
  simp only [hpos, if_false]
  exact forM_enqueue_total fun e he => (hmarked _).2 (hentries e he)

/-! ## Stacks that belong to a body -/

/-- The offsets that control reaches, each instruction executed on the stack that is assigned to its offset. -/
inductive Context.Closure (cx : Context) (S : Nat → List StackType) : Nat → Prop where
  | entry {pc : Nat} {stack : List StackType} : (pc, stack) ∈ entries cx.regions → Closure cx S pc
  | edge {pc : Nat} {op : Opcode} {types : Option OperandTypes} {successors : List Successor} {after : List StackType}
      {next : Successor} : Closure cx S pc → cx.code.opcodeAt pc = .ok op →
      (cx.transfer pc op).run (S pc) = .ok ((types, successors), after) → next ∈ successors → Closure cx S next.offset

/-- **An assignment of stacks that every path agrees with.** -/
structure Context.Assigns (cx : Context) (S : Nat → List StackType) : Prop where
  entered : ∀ e ∈ entries cx.regions, S e.1 = e.2
  accepted : ∀ pc, cx.Closure S pc → ∃ op types successors after, cx.code.opcodeAt pc = .ok op ∧
    (cx.transfer pc op).run (S pc) = .ok ((types, successors), after) ∧
    ∀ next ∈ successors, cx.code.Starts next.offset ∧ S next.offset = if next.empties then [] else after

/-- **An analysis that says of a body what the assignment does**: it reaches the offsets of the closure, and finds the
heights and the operand types of the assigned stacks. -/
structure Context.Describes (cx : Context) (S : Nat → List StackType) (a : MethodAnalysis) : Prop where
  depth : ∀ pc d, a.depth? pc = some d ↔ cx.Closure S pc ∧ d = (S pc).length
  types : ∀ pc ts, a.operandTypes? pc = some ts ↔ cx.Closure S pc ∧ ∃ op successors after,
    cx.code.opcodeAt pc = .ok op ∧ (cx.transfer pc op).run (S pc) = .ok ((some ts, successors), after)

namespace Context.Assigns

/-- **Only the assigned stacks flow.** -/
theorem of_flows {a : MethodAnalysis} (hS : cx.Assigns S) (hf : Flows cx a pc stack) :
    cx.Closure S pc ∧ S pc = stack := by
  induction hf with
  | entry hm => exact ⟨.entry hm, hS.entered _ hm⟩
  | @edge pc stack next _ v hn ih =>
    obtain ⟨hc, rfl⟩ := ih
    refine ⟨.edge hc v.opcode v.transfer hn, ?_⟩
    obtain ⟨op, types, successors, after, hop, htransfer, hall⟩ := hS.accepted pc hc
    cases v.opcode.symm.trans hop
    cases v.transfer.symm.trans htransfer
    exact (hall next hn).2

/-- **Whatever waits can be visited.** -/
theorem visit_waiting {busy : Nat → Prop} (hS : cx.Assigns S) (hscan : Scanned cx.code starts)
    (h : Covering cx starts busy s) (hm : (pc, stack) ∈ s.worklist) (rest : List (Nat × List StackType)) :
    Meets (visit cx pc stack) { s with worklist := rest } (fun _ _ => True) fun _ _ => False := by
  obtain ⟨-, -, hflows, -⟩ := h.waiting pc stack hm
  obtain ⟨hc, rfl⟩ := hS.of_flows hflows
  obtain ⟨op, types, successors, after, hop, ht, hall⟩ := hS.accepted pc hc
  refine visit_total hop ht fun next hn => ?_
  rw [MethodAnalysis.isStart, h.starts_eq]
  exact (hscan.marked _).2 (hall next hn).1

theorem visitAll_total (hS : cx.Assigns S) (hscan : Scanned cx.code starts) : ∀ (fuel : Nat) (s : State),
    Covering cx starts (fun _ => False) s → Meets (visitAll cx fuel) s (fun _ _ => True) fun _ _ => False
  | 0, s, h => Meets.pure trivial
  | fuel + 1, s, h => by
    unfold visitAll
    refine Meets.get_bind ?_
    cases hw : s.worklist with
    | nil => exact Meets.pure trivial
    | cons e rest =>
      obtain ⟨pc, stack⟩ := e
      obtain ⟨_, t, hrun, ht, -⟩ := (visit_meets hscan.size h hw).succeeds
        (hS.visit_waiting hscan h (by rw [hw]; exact List.mem_cons_self) rest)
      refine Meets.modify_bind (Meets.bind (Q := fun _ u => u = t) ?_ ?_)
      · unfold Meets
        rw [hrun]
      · rintro _ _ rfl
        exact visitAll_total hS hscan fuel _ ht

/-! ## What is found -/

section

variable (hS : cx.Assigns S) (h : Covering cx starts (fun _ => False) s) (hempty : s.worklist = [])
  (hentered : ∀ e ∈ entries cx.regions, s.queued.getD e.1 false = true)
include hS h hempty hentered

/-- **The offsets of the closure are those that were visited**, when nothing waits any more. -/
theorem visited_iff : (s.result.depth? pc).isSome = true ↔ cx.Closure S pc := by
  have hvisited : ∀ pc, s.queued.getD pc false = true → (s.result.depth? pc).isSome = true := by
    intro pc hq
    rcases h.queued pc hq with ⟨stack, hm⟩ | hd
    · rw [hempty] at hm; cases hm
    · exact hd
  have hqueued : ∀ pc, cx.Closure S pc → s.queued.getD pc false = true := by
    intro pc hc
    induction hc with
    | entry hm => exact hentered _ hm
    | @edge pc op types successors after next hc hop ht hn ih =>
      obtain ⟨stack, hflows, v, hv⟩ := (h.visited pc (hvisited pc ih)).2 id
      obtain ⟨-, rfl⟩ := hS.of_flows hflows
      cases hop.symm.trans v.opcode
      cases ht.symm.trans v.transfer
      exact hv next hn
  constructor
  · intro hd
    obtain ⟨stack, hflows, -⟩ := (h.visited pc hd).2 id
    exact (hS.of_flows hflows).1
  · exact fun hc => hvisited pc (hqueued pc hc)

/-- An offset of the closure was visited with the stack that is assigned to it. -/
theorem visited_with (hc : cx.Closure S pc) : Nonempty (Visit cx s.result pc (S pc)) := by
  have hd := (visited_iff hS h hempty hentered).2 hc
  obtain ⟨stack, hflows, v, -⟩ := (h.visited pc hd).2 id
  obtain ⟨-, rfl⟩ := hS.of_flows hflows
  exact ⟨v⟩

/-- **When nothing waits any more, what was found is what the assignment says.** -/
theorem describes : cx.Describes S s.result := by
  have hvisit : ∀ pc, (s.result.depth? pc).isSome = true ↔ cx.Closure S pc := fun _ => visited_iff hS h hempty hentered
  constructor
  · intro pc d
    constructor
    · intro hd
      have hc := (hvisit pc).1 (by rw [hd]; rfl)
      obtain ⟨v⟩ := visited_with hS h hempty hentered hc
      exact ⟨hc, Option.some.inj (hd.symm.trans v.depth)⟩
    · rintro ⟨hc, rfl⟩
      obtain ⟨v⟩ := visited_with hS h hempty hentered hc
      exact v.depth
  · intro pc ts
    constructor
    · intro hts
      have hc : cx.Closure S pc := by
        rw [← hvisit, Option.isSome_iff_ne_none]
        intro hnone
        rw [h.untyped pc hnone] at hts
        cases hts
      obtain ⟨v⟩ := visited_with hS h hempty hentered hc
      refine ⟨hc, v.op, v.successors, v.after, v.opcode, ?_⟩
      rw [v.transfer, ← v.operands, hts]
    · rintro ⟨hc, op, successors, after, hop, ht⟩
      obtain ⟨v⟩ := visited_with hS h hempty hentered hc
      cases hop.symm.trans v.opcode
      have hsame := ht.symm.trans v.transfer
      simp only [Except.ok.injEq, Prod.mk.injEq] at hsame
      rw [v.operands, ← hsame.1.1]

end

end Context.Assigns

/-! ## Visits in any order -/

/-- **A number of visits in any order**: each takes any one of the waiting offsets. -/
inductive Visits (cx : Context) : Nat → State → State → Prop where
  | none {s : State} : Visits cx 0 s s
  | next {n : Nat} {s t u : State} {pc : Nat} {stack : List StackType} {before behind : List (Nat × List StackType)} :
      Visits cx n s t → t.worklist = before ++ (pc, stack) :: behind →
      (visit cx pc stack).run { t with worklist := before ++ behind } = (.ok (), u) → Visits cx (n + 1) s u

/-- The order of the worklist does not matter to the invariant. -/
theorem Covering.perm {busy : Nat → Prop} {w : List (Nat × List StackType)} (h : Covering cx starts busy s)
    (hp : s.worklist.Perm w) : Covering cx starts busy { s with worklist := w } :=
  { h with
    nodup := (hp.map (·.1)).nodup_iff.1 h.nodup
    waiting := fun q stack hm => h.waiting q stack (hp.mem_iff.2 hm)
    queued := fun q hq => (h.queued q hq).imp_left fun ⟨stack, hm⟩ => ⟨stack, hp.mem_iff.1 hm⟩ }

/-- **A visit of any waiting offset keeps the invariant**, and leaves one offset less to be visited. -/
theorem visit_any {u : State} {before behind : List (Nat × List StackType)} (hsize : starts.size = cx.code.size)
    (h : Covering cx starts (fun _ => False) t) (hw : t.worklist = before ++ (pc, stack) :: behind)
    (hrun : (visit cx pc stack).run { t with worklist := before ++ behind } = (.ok (), u)) :
    Covering cx starts (fun _ => False) u ∧ u.unvisited + 1 = t.unvisited ∧ t.Grows u := by
  have hperm : t.worklist.Perm ((pc, stack) :: (before ++ behind)) := hw ▸ List.perm_middle
  have hmem : (pc, stack) ∈ t.worklist := hperm.mem_iff.2 List.mem_cons_self
  obtain ⟨hlt, hnone⟩ := h.getElem_none hsize hmem
  obtain ⟨hu, hdepths, hgrow⟩ := (visit_meets hsize (h.perm hperm) rfl).of_ok hrun
  have hpos := unvisited_pos hlt hnone
  have hless := unvisited_visit hlt hnone hdepths
  exact ⟨hu, by omega, hgrow⟩

/-- **Visits in any order keep the invariant**, and there are no more of them than offsets to be visited. -/
theorem Visits.covering {n : Nat} (hsize : starts.size = cx.code.size) (hs : Covering cx starts (fun _ => False) s)
    (h : Visits cx n s t) : Covering cx starts (fun _ => False) t ∧ n + t.unvisited = s.unvisited ∧ s.Grows t := by
  induction h with
  | none => exact ⟨hs, Nat.zero_add _, fun _ hq => hq⟩
  | next _ hw hrun ih =>
    obtain ⟨ht, hcount, hgrow⟩ := ih hs
    obtain ⟨hu, hless, hgrow'⟩ := visit_any hsize ht hw hrun
    exact ⟨hu, by omega, fun q hq => hgrow' q (hgrow q hq)⟩

/-! ## A check of assignments -/

/-- Whether an instruction starts at an offset. -/
def startsAt (c : Code) (pc : Nat) : Bool := (scan c).toOption.any (·.getD pc false)

theorem starts_of_startsAt {c : Code} (h : startsAt c pc = true) : c.Whole ∧ c.Starts pc := by
  unfold startsAt at h
  cases hscan : scan c with
  | error e => rw [hscan] at h; cases h
  | ok starts =>
    rw [hscan] at h
    exact ⟨scan_whole hscan, ((scan_ok hscan).marked pc).1 h⟩

/-- Whether every path agrees with a list of stacks, one for each offset. -/
def Context.agrees (cx : Context) (l : List (Nat × List StackType)) : Bool :=
  decide (l.map (·.1)).Nodup && (entries cx.regions).all (l.contains ·) && l.all fun e =>
    match cx.code.opcodeAt e.1 with
    | .error _ => false
    | .ok op =>
      match (cx.transfer e.1 op).run e.2 with
      | .error _ => false
      | .ok ((_, successors), after) => successors.all fun next =>
        startsAt cx.code next.offset && l.contains (next.offset, if next.empties then [] else after)

/-- The stacks of a list, by their offsets. -/
def stacksOf (l : List (Nat × List StackType)) (pc : Nat) : List StackType := (l.lookup pc).getD []

theorem stacksOf_eq : ∀ {l : List (Nat × List StackType)}, (l.map (·.1)).Nodup → (pc, stack) ∈ l → stacksOf l pc = stack
  | (q, st) :: l, hnodup, hm => by
    rw [List.map_cons, List.nodup_cons] at hnodup
    rcases List.mem_cons.1 hm with he | hm'
    · cases he
      simp [stacksOf]
    · have hne : pc ≠ q := by
        rintro rfl
        exact hnodup.1 (List.mem_map.2 ⟨(pc, stack), hm', rfl⟩)
      have ih := stacksOf_eq hnodup.2 hm'
      rwa [stacksOf, List.lookup_cons, beq_false_of_ne hne]

/-- **A list that passes the check is an assignment.** -/
theorem Context.assigns_of_agrees {l : List (Nat × List StackType)} (h : cx.agrees l = true) :
    cx.Assigns (stacksOf l) := by
  simp only [agrees, Bool.and_eq_true, decide_eq_true_eq, List.all_eq_true, List.contains_iff_mem] at h
  obtain ⟨⟨hnodup, hentries⟩, hall⟩ := h
  have haccepted : ∀ {pc stack}, (pc, stack) ∈ l → ∃ op types successors after, cx.code.opcodeAt pc = .ok op ∧
      (cx.transfer pc op).run stack = .ok ((types, successors), after) ∧ ∀ next ∈ successors,
        cx.code.Starts next.offset ∧ (next.offset, if next.empties then [] else after) ∈ l := by
    intro pc stack hm
    have hall := hall _ hm
    cases hop : cx.code.opcodeAt pc with
    | error e => simp [hop] at hall
    | ok op =>
      cases ht : (cx.transfer pc op).run stack with
      | error e => simp [hop, ht] at hall
      | ok r =>
        obtain ⟨⟨types, successors⟩, after⟩ := r
        simp only [hop, ht, List.all_eq_true, Bool.and_eq_true, List.contains_iff_mem] at hall
        exact ⟨op, types, successors, after, rfl, ht, fun next hn =>
          ⟨(starts_of_startsAt (hall next hn).1).2, (hall next hn).2⟩⟩
  have hmem : ∀ {pc}, cx.Closure (stacksOf l) pc → ∃ stack, (pc, stack) ∈ l := by
    intro pc hc
    induction hc with
    | entry hm => exact ⟨_, hentries _ hm⟩
    | edge _ hop ht hn ih =>
      obtain ⟨stack, hm⟩ := ih
      obtain ⟨op, types, successors, after, hop', ht', hnext⟩ := haccepted hm
      cases hop.symm.trans hop'
      rw [stacksOf_eq hnodup hm] at ht
      cases ht.symm.trans ht'
      exact ⟨_, (hnext _ hn).2⟩
  refine ⟨fun e he => stacksOf_eq hnodup (hentries e he), fun pc hc => ?_⟩
  obtain ⟨stack, hm⟩ := hmem hc
  obtain ⟨op, types, successors, after, hop, ht, hnext⟩ := haccepted hm
  rw [stacksOf_eq hnodup hm]
  exact ⟨op, types, successors, after, hop, ht, fun next hn =>
    ⟨(hnext next hn).1, stacksOf_eq hnodup (hnext next hn).2⟩⟩

/-- Two passes that came to their end found the same. -/
theorem Context.Describes.unique {a b : MethodAnalysis} (ha : cx.Describes S a) (hb : cx.Describes S b)
    (hstarts : a.starts = b.starts) (hdepths : a.depths.size = b.depths.size) (htypes : a.types.size = b.types.size) :
    a = b := by
  refine MethodAnalysis.eq_of_answers hstarts hdepths htypes (fun pc => ?_) fun pc => ?_
  · exact Option.ext fun d => (ha.depth pc d).trans (hb.depth pc d).symm
  · exact Option.ext fun ts => (ha.types pc ts).trans (hb.types pc ts).symm

end Analysis

open Analysis in
/-- **The pass is complete, and its order does not matter.** Where the code consists of whole instructions, control
enters at instructions, and stacks can be assigned to the offsets so that every path agrees, the analysis succeeds and
finds what the assignment says. So does every other order of the visits: none of them fails, they come to an end, and
at the end the result is the same. -/
theorem analyze_complete {md : Metadata} {m : MethodSymbol} {body : Body} {S : Nat → List StackType}
    (hb : m.body = some body) (hwhole : (Code.mk body.code).Whole) (hS : (contextOf md m body).Assigns S)
    (hentries : ∀ e ∈ entries body.regions, (Code.mk body.code).Starts e.1) :
    ∃ a, (analyze md m).1 = .ok a ∧ (contextOf md m body).Describes S a ∧
      ∃ s, (seed (contextOf md m body)).run (start body.code.size) = (.ok (), s) ∧
        ∀ n t, Visits (contextOf md m body) n s t → n ≤ body.code.size ∧ (t.worklist = [] → t.result = a) ∧
          ∀ before pc stack behind, t.worklist = before ++ (pc, stack) :: behind →
            ∃ u, (visit (contextOf md m body) pc stack).run { t with worklist := before ++ behind } = (.ok (), u) := by
  obtain ⟨starts, hscan⟩ := scan_of_whole hwhole
  have hscanned := scan_ok hscan
  obtain ⟨_, s, hseed, starts', hscan', hs, hentered⟩ :=
    (seed_meets (contextOf md m body) body.code.size rfl).succeeds (seed_total hscan hentries)
  cases hscan.symm.trans hscan'
  have hunvisited : s.unvisited ≤ body.code.size :=
    Nat.le_trans Array.countP_le_size (Nat.le_of_eq hs.depths_size)
  obtain ⟨_, z, hvisit, hz, hempty, hgrow⟩ :=
    (visitAll_meets hscanned.size body.code.size s hs hunvisited).succeeds (hS.visitAll_total hscanned _ s hs)
  have hpass : (pass (contextOf md m body)).run (start body.code.size) = (.ok (), z) := by
    rw [pass_eq, Meets.run_bind, hseed]
    exact hvisit
  have hfound := hS.describes hz hempty fun e he => hgrow _ (hentered e he)
  refine ⟨z.result, ?_, hfound, s, hseed, fun n t ht => ?_⟩
  · rw [analyze, hb]
    show ((pass (contextOf md m body)).run (start body.code.size)).1.map
      (fun _ => ((pass (contextOf md m body)).run (start body.code.size)).2.result) = _
    rw [hpass]
    rfl
  · obtain ⟨hcover, hcount, hgrow'⟩ := ht.covering hscanned.size hs
    refine ⟨by omega, fun hdone => ?_, fun before pc stack behind hw => ?_⟩
    · refine (hS.describes hcover hdone fun e he => hgrow' _ (hentered e he)).unique hfound ?_ ?_ ?_
      · rw [hcover.starts_eq, hz.starts_eq]
      · rw [hcover.depths_size, hz.depths_size]
      · rw [hcover.types_size, hz.types_size]
    · have hmem : (pc, stack) ∈ t.worklist := by simp [hw]
      obtain ⟨_, u, hrun, -⟩ := (hS.visit_waiting hscanned hcover hmem (before ++ behind)).succeeds
        (hS.visit_waiting hscanned hcover hmem (before ++ behind))
      exact ⟨u, hrun⟩

/-- A loop that is entered and repeated with a number on the stack. -/
def loops : MethodSymbol where
  handle := ⟨3⟩
  name := "loops"
  declaring := Core.object
  signature := {}
  isVirtual := false
  body := some { code := #[0x16, 0x25, 0x2D, 0xFD, 0x26, 0x2A], maxStack := 2 }

/-- The stacks of `loops`. -/
def loopStacks : List (Nat × List StackType) :=
  [(0, []), (1, [.int32]), (2, [.int32, .int32]), (4, [.int32]), (5, [])]

open Analysis in
/-- The number on the stack of `loops` does not stand in the way: the head of the loop is found with it. -/
theorem loops_complete : ∃ body a, loops.body = some body ∧ (analyze .core loops).1 = .ok a ∧
    (contextOf .core loops body).Describes (stacksOf loopStacks) a := by
  have hstarts : ∀ e ∈ entries [], startsAt ⟨#[0x16, 0x25, 0x2D, 0xFD, 0x26, 0x2A]⟩ e.1 = true := by decide +kernel
  have hwhole := (starts_of_startsAt (hstarts (0, []) List.mem_cons_self)).1
  have hS : (contextOf .core loops (loops.body.get rfl)).Assigns (stacksOf loopStacks) :=
    Context.assigns_of_agrees (by decide +kernel)
  obtain ⟨a, ha, hdescribes, -⟩ := analyze_complete rfl hwhole hS fun e he => (starts_of_startsAt (hstarts e he)).2
  exact ⟨_, a, rfl, ha, hdescribes⟩

/-- A handler that starts inside an instruction, in whose operand a `ret` stands. -/
def entersInside : MethodSymbol where
  handle := ⟨3⟩
  name := "entersInside"
  declaring := Core.object
  signature := {}
  isVirtual := false
  body := some {
    code := #[0x1F, 0x2A, 0x26, 0x2A]
    maxStack := 1
    regions := [⟨⟨0, 1⟩, ⟨1, 1⟩, .finallyBlock⟩] }

open Analysis in
/-- **It is not enough that successors are instructions.** The stacks of `entersInside` can be assigned so that every
path agrees, and its code consists of whole instructions, but its handler is no instruction. -/
theorem entersInside_incomplete : ∃ body S, entersInside.body = some body ∧ (Code.mk body.code).Whole ∧
    (contextOf .core entersInside body).Assigns S ∧
    (analyze .core entersInside).1 = .error (.invalidProgram 1 (.notInstructionStart 1)) := by
  have hstart : startsAt ⟨#[0x1F, 0x2A, 0x26, 0x2A]⟩ 0 = true := by decide +kernel
  refine ⟨_, stacksOf [(0, []), (1, []), (2, [.int32]), (3, [])], rfl, (starts_of_startsAt hstart).1,
    Context.assigns_of_agrees (by decide +kernel), ?_⟩
  have hr : (match (analyze .core entersInside).1 with
      | .ok _ => none
      | .error e => some e) = some (.invalidProgram 1 (.notInstructionStart 1)) := by decide +kernel
  cases ha : (analyze .core entersInside).1 with
  | ok a => rw [ha] at hr; cases hr
  | error e => rw [ha] at hr; cases hr; rfl

end ManagedCode
