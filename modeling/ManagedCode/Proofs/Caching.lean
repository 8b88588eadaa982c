import ManagedCode.Proofs.Inside
import ManagedCode.Proofs.Lockstep

/-!
# The cache of call sites

A method that is ready differs from its declaration in its call sites only: one that was executed is overwritten by a
cached call with the number of the call site that its token names. `Machine.Exact` says this of all methods of a
machine, and that every site was counted. An instruction keeps it (`instruction_executes`), hence a step
(`step_exact`), hence everything that a host does with a machine while the tables stay the same (`Used.exact`).
-/

namespace ManagedCode

/-! ## Methods of the tables -/

namespace Metadata

variable {md : Metadata} {m target : MethodSymbol}

/-- The method stands in the tables. -/
def Lists (md : Metadata) (m : MethodSymbol) : Prop := ∃ h, md.methodSymbol? h = some m

theorem lists_of_token {t : Token} (h : md.resolveMethod t = .ok m) : md.Lists m := by
  obtain ⟨-, hrow, hm⟩ := rowOf_ok h
  exact ⟨⟨t.row⟩, (if_neg hrow).trans hm⟩

theorem lists_of_handle {h : MethodHandle} (hm : md.methodOf h = .ok m) : md.Lists m := by
  unfold methodOf at hm
  split at hm
  · rename_i m' hm'
    cases hm
    exact ⟨h, hm'⟩
  · cases hm

theorem lists_of_virtual {type : TypeHandle} (ht : md.resolveVirtual m type = .ok target) : md.Lists target := by
  unfold resolveVirtual at ht
  split at ht
  · cases ht
  · split at ht
    · cases ht
    · exact lists_of_handle ht
    · exact lists_of_handle ht

end Metadata

namespace ExecM

variable {p : Prepared} {w : Workspace}

theorem virtualTarget_lists {m : MethodSymbol} (hm : w.machine.metadata.Lists m) (arguments : List Value) :
    Meets (virtualTarget m arguments) w (fun target _ => w.machine.metadata.Lists target) fun _ _ => True := by
  unfold virtualTarget
  split
  · trivial
  · refine Meets.bind (Q := fun _ w' => w' = w) rfl ?_
    rintro _ w rfl
    split
    · refine metadata_bind ?_
      cases hr : w.machine.metadata.resolveVirtual m _ with
      | ok target => exact Metadata.lists_of_virtual hr
      | error a => trivial
    · exact hm
  · exact hm

/-- **A call asks for a method of the tables.** -/
theorem callOf_lists (kind : CallKind) (t : Token) : Meets (callOf p (CallSite.ofToken w.machine.metadata kind t)) w
    (fun n _ => ∀ target arguments c, n = .invoke target arguments c → w.machine.metadata.Lists target)
    fun _ _ => True := by
  have pops : ∀ (w' : Workspace) (count : Nat), Meets (popArguments p count) w'
      (fun _ w'' => w''.machine.metadata = w'.machine.metadata) fun _ _ => True :=
    fun w' count => (popArguments_kept count).mono (fun _ _ h => h.2.metadata) fun _ _ _ => trivial
  cases hr : CallSite.ofToken w.machine.metadata kind t with
  | error e => trivial
  | ok site =>
    have hsite := Metadata.lists_of_token (CallSite.ofToken_ok hr).2.1
    refine Meets.bind (Q := fun s w' => s = site ∧ w' = w) ⟨rfl, rfl⟩ ?_
    rintro site w ⟨rfl, rfl⟩
    refine Meets.bind (Q := fun _ (w' : Workspace) => w'.machine.metadata = w.machine.metadata) (Meets.modify rfl)
      fun _ w₁ hw₁ => ?_
    cases site with
    | call m =>
      refine Meets.bind (pops w₁ _) fun arguments w₂ _ => ?_
      rintro target _ _ ⟨⟩
      exact hsite
    | callvirt m =>
      refine Meets.bind (pops w₁ _) fun arguments w₂ hw₂ => ?_
      rw [← hw₁, ← hw₂] at hsite ⊢
      refine Meets.bind (virtualTarget_lists hsite arguments) fun target w₃ htarget => ?_
      rintro _ _ _ ⟨⟩
      exact htarget
    | newobj m type =>
      refine Meets.bind (pops w₁ _) fun arguments w₂ _ => metadata_bind (Meets.bind (Q := fun _ _ => True) ?_ ?_)
      · exact ((calm_onHeap _).meets w₂).mono (fun _ _ _ => trivial) fun _ _ _ => trivial
      · rintro r w₃ - target _ _ ⟨⟩
        exact hsite
    | jmp m =>
      refine activation_bind (Meets.bind (Q := fun _ _ => True) ?_ ?_)
      · exact ((calm_arguments _ _).meets w₁).mono (fun _ _ _ => trivial) fun _ _ _ => trivial
      · rintro arguments w₂ - target _ _ ⟨⟩
        exact hsite

theorem blind_callOf (p : Prepared) (r : Except ResolutionError CallSite) : Blind (callOf p r) :=
  .bind (.ofResolution r) fun site => blind_invoke p site

end ExecM

/-! ## Methods whose call sites are what their tokens name -/

namespace Prepared

variable {md : Metadata} {p q : Prepared} {pc next : Nat} {op : Opcode} {symbol : MethodSymbol} {site : CallSite}

/-- What a method is when it has just been made ready. -/
def build (md : Metadata) (symbol : MethodSymbol) : Except EngineError Prepared :=
  match symbol.body with
  | none => .error (.invalidState 0 (.noBody symbol.text))
  | some body =>
    match (analyze md symbol).1 with
    | .error e => .error e
    | .ok analysis =>
      match RegionTable.resolve md body.regions with
      | .error e => .error e
      | .ok regions => .ok (.make symbol body analysis regions)

/-- The call site is the one that the token of the instruction at `pc` names. -/
def Resolves (md : Metadata) (p : Prepared) (pc : Nat) (site : CallSite) : Prop :=
  ∃ t, p.declared.token pc = .ok t ∧ CallSite.ofToken md site.kind t = .ok site

/-- **A method that is ready is what was made of its symbol**, but for call sites that are what their tokens name. -/
structure Exact (md : Metadata) (p : Prepared) : Prop where
  built : build md p.symbol = .ok p.pristine
  sites : ∃ offsets, p.Sites md offsets ∧
    ∀ (i pc : Nat) site, offsets[i]? = some pc → p.callSites[i]? = some site → p.Resolves md pc site

theorem build_ok (h : build md symbol = .ok q) : q.symbol = symbol ∧ q.pristine = q ∧ q.callSites = #[] := by
  unfold build at h
  cases hb : symbol.body with
  | none => rw [hb] at h; cases h
  | some body =>
    simp only [hb] at h
    split at h
    · cases h
    · split at h
      · cases h
      · cases h
        refine ⟨rfl, ?_, rfl⟩
        simp only [pristine, make, declared, Prepared.body, hb, Option.getD_some]

theorem exact_build (h : build md symbol = .ok q) : q.Exact md := by
  obtain ⟨hsymbol, hpristine, hsites⟩ := build_ok h
  have hcode : q.declared = q.code := congrArg Prepared.code hpristine
  refine ⟨?_, [], ⟨?_, ?_, fun i pc site hi _ => by cases hi⟩, fun i pc site hi _ => by cases hi⟩
  · rw [hsymbol, hpristine]
    exact h
  · rw [← hcode]
    exact .refl _
  · rw [hsites]
    rfl

/-- **A call site that was resolved keeps the method exact.** -/
theorem Exact.install {t : Token} (h : p.Exact md) (hs : p.Sound md) (hr : p.analysis.isReachable pc = true)
    (hd : p.Declares pc op next) (hop : p.code.opcodeAt pc = .ok op) (ha : op.action = .callSite site.kind)
    (ht : p.declared.token pc = .ok t) (hsite : CallSite.ofToken md site.kind t = .ok site) :
    (p.withSite pc site).Exact md := by
  obtain ⟨offsets, hsites, hresolves⟩ := h.sites
  have hnames := (CallSite.ofToken_names hsite).2
  have hbuilt : build md (p.withSite pc site).symbol = .ok (p.withSite pc site).pristine := by
    rw [(p.evolves_withSite pc site).symbol, (p.evolves_withSite pc site).pristine]
    exact h.built
  refine ⟨hbuilt, offsets ++ [pc], hs.install_sites hsites hr hd hop ha ht hnames, fun i off s hi hsi => ?_⟩
  rw [Resolves, (p.evolves_withSite pc site).declared]
  rcases getElem?_both hsites.length hi hsi with ⟨hi, hsi⟩ | ⟨rfl, rfl⟩
  · exact hresolves i off s hi hsi
  · exact ⟨t, ht, hsite⟩

end Prepared

/-! ## Tables of methods -/

section

variable {κ ν : Type} [BEq κ]

theorem mem_keys_insertEntry {k j : κ} {v : ν} : ∀ {l : List (κ × ν)},
    j ∈ (insertEntry k v l).map Prod.fst → j = k ∨ j ∈ l.map Prod.fst
  | [], h => by simpa [insertEntry] using h
  | (i, w) :: l, h => by
    rw [insertEntry] at h
    by_cases hi : i == k
    · rw [if_pos hi] at h
      simp only [List.map_cons, List.mem_cons] at h ⊢
      exact h.imp_right .inr
    · rw [if_neg hi] at h
      simp only [List.map_cons, List.mem_cons] at h ⊢
      rcases h with h | h
      · exact .inr (.inl h)
      · rcases mem_keys_insertEntry h with h | h
        · exact .inl h
        · exact .inr (.inr h)

variable [LawfulBEq κ]

theorem nodup_keys_insertEntry (k : κ) (v : ν) : ∀ {l : List (κ × ν)}, (l.map Prod.fst).Nodup →
    ((insertEntry k v l).map Prod.fst).Nodup
  | [], _ => by simp [insertEntry]
  | (i, w) :: l, h => by
    rw [List.map_cons, List.nodup_cons] at h
    rw [insertEntry]
    by_cases hi : i == k
    · rw [if_pos hi, List.map_cons, List.nodup_cons, ← eq_of_beq hi]
      exact h
    · rw [if_neg hi, List.map_cons, List.nodup_cons]
      refine ⟨fun hmem => ?_, nodup_keys_insertEntry k v h.2⟩
      rcases mem_keys_insertEntry hmem with heq | hmem
      · exact hi (beq_iff_eq.2 heq)
      · exact h.1 hmem

/-- What an entry adds to a sum over a table, less what the entry that it replaces had added. -/
theorem sum_insertEntry (f : ν → Nat) (k : κ) (v : ν) : ∀ l : List (κ × ν),
    ((insertEntry k v l).map fun e => f e.2).sum + ((l.lookup k).map f).getD 0 = (l.map fun e => f e.2).sum + f v
  | [] => by simp [insertEntry]
  | (i, w) :: l => by
    have ih := sum_insertEntry f k v l
    rw [insertEntry, List.lookup_cons]
    by_cases hi : i == k
    · have hk : (k == i) = true := by rw [eq_of_beq hi]; exact beq_self_eq_true k
      simp only [hi, hk, if_true, List.map_cons, List.sum_cons, Option.map_some, Option.getD_some]
      omega
    · have hk : (k == i) = false := by
        rw [Bool.eq_false_iff, ne_eq, beq_iff_eq]
        rintro rfl
        exact hi (beq_self_eq_true k)
      simp only [hi, hk, List.map_cons, List.sum_cons]
      simp only [Bool.false_eq_true, if_false, List.map_cons, List.sum_cons]
      omega

theorem length_insertEntry (k : κ) (v : ν) (l : List (κ × ν)) :
    (insertEntry k v l).length + ((l.lookup k).map fun _ => 1).getD 0 = l.length + 1 := by
  have ones (l : List (κ × ν)) : (l.map fun _ => 1).sum = l.length := by
    rw [List.map_const', List.sum_replicate_nat, Nat.mul_one]
  rw [← ones, ← ones]
  exact sum_insertEntry (fun _ => 1) k v l

end

namespace Machine

variable {m m' : Machine} {K : MethodSymbol → Prop} {symbol : MethodSymbol} {arguments : List Value}

/-- **Every method that is ready is exact**, stands under its own handle and is one of `K`, and the call sites of all
methods were counted. -/
structure Exact (K : MethodSymbol → Prop) (m : Machine) : Prop where
  methods : ∀ h p, m.prepared? h = some p → p.Exact m.metadata ∧ K p.symbol ∧ p.symbol.handle = h
  nodup : (m.prepared.map Prod.fst).Nodup
  counted : m.metrics.callSiteResolutions = (m.prepared.map fun e => e.2.callSites.size).sum

theorem Exact.untouched (h : m.Exact K) (hu : m.Untouched m') : m'.Exact K where
  methods := by
    intro k p hp
    rw [prepared?, hu.prepared] at hp
    rw [hu.metadata]
    exact h.methods k p hp
  nodup := by rw [hu.prepared]; exact h.nodup
  counted := by rw [hu.resolutions, hu.prepared]; exact h.counted

/-- A method becomes ready or gets a call site, which is counted. -/
theorem Exact.set {p : Prepared} (h : m.Exact K) (hm : m'.metadata = m.metadata)
    (hp : m'.prepared = insertEntry p.symbol.handle p m.prepared) (hnew : p.Exact m.metadata) (hK : K p.symbol)
    (hcount : m'.metrics.callSiteResolutions + ((m.prepared? p.symbol.handle).map (·.callSites.size)).getD 0 =
      m.metrics.callSiteResolutions + p.callSites.size) : m'.Exact K where
  methods := by
    intro k q hq
    rw [prepared?, hp, lookup_insertEntry] at hq
    rw [hm]
    by_cases hk : k == p.symbol.handle
    · rw [if_pos hk] at hq
      cases hq
      exact ⟨hnew, hK, (eq_of_beq hk).symm⟩
    · rw [if_neg hk] at hq
      exact h.methods k q hq
  nodup := by
    rw [hp]
    exact nodup_keys_insertEntry _ _ h.nodup
  counted := by
    have hsum := sum_insertEntry (fun p : Prepared => p.callSites.size) p.symbol.handle p m.prepared
    rw [hp]
    rw [prepared?, h.counted] at hcount
    omega

/-- A method that is not ready is made so, if that succeeds. -/
theorem prepare_fresh (hp : m.prepared? symbol.handle = none) : (m.prepare symbol).1 = Prepared.build m.metadata symbol ∧
    ((∃ e, Prepared.build m.metadata symbol = .error e ∧ m.Untouched (m.prepare symbol).2) ∨
      ∃ p, Prepared.build m.metadata symbol = .ok p ∧ (m.prepare symbol).2.metadata = m.metadata ∧
        (m.prepare symbol).2.prepared = insertEntry symbol.handle p m.prepared ∧
        (m.prepare symbol).2.metrics.callSiteResolutions = m.metrics.callSiteResolutions) := by
  unfold prepare Prepared.build
  rw [hp]
  cases symbol.body with
  | none => exact ⟨rfl, .inl ⟨_, rfl, .refl m⟩⟩
  | some body =>
    dsimp only
    cases (analyze m.metadata symbol).1 with
    | error e => exact ⟨rfl, .inl ⟨e, rfl, rfl, rfl, rfl⟩⟩
    | ok analysis =>
      dsimp only
      cases RegionTable.resolve m.metadata body.regions with
      | error e => exact ⟨rfl, .inl ⟨e, rfl, rfl, rfl, rfl⟩⟩
      | ok regions => exact ⟨rfl, .inr ⟨_, rfl, rfl, rfl, rfl⟩⟩

theorem prepare_ready {p : Prepared} (hp : m.prepared? symbol.handle = some p) : m.prepare symbol = (.ok p, m) := by
  rw [prepare, hp]

theorem Exact.prepare (h : m.Exact K) (hK : K symbol) : (m.prepare symbol).2.Exact K := by
  cases hp : m.prepared? symbol.handle with
  | some p =>
    rw [prepare_ready hp]
    exact h
  | none =>
    obtain ⟨-, ⟨e, -, hu⟩ | ⟨p, hb, hm, hprepared, hcount⟩⟩ := prepare_fresh hp
    · exact h.untouched hu
    · obtain ⟨hsymbol, -, hsites⟩ := Prepared.build_ok hb
      refine h.set hm (by rw [hsymbol]; exact hprepared) (Prepared.exact_build hb) (by rw [hsymbol]; exact hK) ?_
      rw [hsymbol, hp, hcount, hsites]
      rfl

theorem newFrame_untouched (m : Machine) (p : Prepared) (arguments : List Value) :
    m.Untouched (m.newFrame p arguments).2 := by
  unfold newFrame
  split
  · exact .refl m
  · dsimp only
    split
    · have hheap : m.Untouched (m.onHeap (normalizeAll 0 p.argumentKinds arguments).run).2 := ⟨rfl, rfl, rfl⟩
      exact hheap.trans (raise_untouched _ _)
    · exact ⟨rfl, rfl, rfl⟩

theorem callNative_untouched (m : Machine) (symbol : MethodSymbol) (arguments : List Value) :
    m.Untouched (m.callNative symbol arguments).2 := by
  unfold callNative
  split
  · exact .refl m
  · exact ⟨rfl, rfl, rfl⟩

theorem Exact.leaveCall (h : m.Exact K) (o : Outcome) : (m.leaveCall o).2.Exact K := h.untouched ⟨rfl, rfl, rfl⟩

theorem Exact.deeper (h : m.Exact K) {f : Machine → Control × Machine} (hf : ∀ m₁, m₁.Exact K → (f m₁).2.Exact K) :
    (m.deeper f).2.Exact K := by
  unfold Machine.deeper
  split
  · exact h
  · exact hf _ (h.untouched ⟨rfl, rfl, rfl⟩)

/-- **A call keeps the machine exact.** -/
theorem Exact.enter (h : m.Exact K) (hK : K symbol) (arguments : List Value) : (m.enter symbol arguments).2.Exact K := by
  refine h.deeper fun m₁ hdeep => ?_
  dsimp only
  split
  · split
    · exact hdeep.leaveCall _
    · exact (hdeep.untouched (callNative_untouched _ _ _)).leaveCall _
  · have hprep := hdeep.prepare hK
    rcases hp : m₁.prepare symbol with ⟨e | p, m₂⟩ <;> rw [hp] at hprep
    · exact hprep.leaveCall _
    · have hframe := hprep.untouched (newFrame_untouched m₂ p arguments)
      dsimp only
      rcases hf : m₂.newFrame p arguments with ⟨f | frame, m₃⟩ <;> rw [hf] at hframe
      · exact hframe.leaveCall _
      · exact hframe.untouched ⟨rfl, rfl, rfl⟩

theorem Exact.reenter (h : m.Exact K) (hK : K symbol) (frame : Frame) (offset top : Nat) :
    (m.reenter symbol frame offset top).2.Exact K := by
  refine h.deeper fun m₁ hdeep => ?_
  have hprep := hdeep.prepare hK
  rcases hp : m₁.prepare symbol with ⟨e | p, m₂⟩ <;> rw [hp] at hprep
  · exact hprep.leaveCall _
  · dsimp only
    split
    · exact hprep.leaveCall _
    · split
      · exact hprep.leaveCall _
      · split
        · exact hprep.leaveCall _
        · exact hprep.untouched ⟨rfl, rfl, rfl⟩

end Machine

/-! ## What an instruction does with call sites -/

def CallKind.opcode : CallKind → Opcode
  | .call => .call
  | .callvirt => .callvirt
  | .newobj => .newobj
  | .jmp => .jmp

theorem Opcode.eq_of_callSite (op : Opcode) {k : CallKind} (h : op.action = .callSite k) : op = k.opcode := by
  cases op <;> first | (cases h; rfl) | cases h

theorem CallKind.action_opcode (k : CallKind) : k.opcode.action = .callSite k := by cases k <;> rfl

/-- What follows a cached call is what follows the call that it replaced. -/
theorem CallKind.sameEffect (k : CallKind) : Execution.SameEffect .cachedCall k.opcode := by
  refine .inr ⟨rfl, ?_, rfl, ?_⟩
  · cases k <;> rfl
  · cases k <;> rfl

theorem Workspace.alike_resolved (w : Workspace) (p : Prepared) (pc : Nat) (r : Except ResolutionError CallSite) :
    w.Alike (w.resolved p pc r) := by
  cases r with
  | error e => exact ⟨{ Machine.Alike.refl w.machine with }, rfl⟩
  | ok site => exact ⟨{ Machine.Alike.refl w.machine with }, rfl⟩

section

variable {K : MethodSymbol → Prop} {p : Prepared} {w : Workspace} {op : Opcode} {pc next : Nat} {t : Token}

/-- **A call site that is resolved is counted**, and the machine stays exact. -/
theorem Machine.Exact.resolved {kind : CallKind} (h : w.machine.Exact K) (hs : w.machine.Sound)
    (hp : w.machine.prepared? w.activation.method = some p) (hr : p.analysis.isReachable pc = true)
    (hd : p.Declares pc kind.opcode next) (hop : p.code.opcodeAt pc = .ok kind.opcode)
    (ht : p.declared.token pc = .ok t) :
    (w.resolved p pc (CallSite.ofToken w.machine.metadata kind t)).machine.Exact K := by
  have hlooked : w.lookedUp.machine.Exact K := h.untouched ⟨rfl, rfl, rfl⟩
  cases hsite : CallSite.ofToken w.machine.metadata kind t with
  | error e => exact hlooked
  | ok site =>
    obtain ⟨hexact, hK, hhandle⟩ := h.methods _ p hp
    obtain ⟨rfl, -⟩ := CallSite.ofToken_ok hsite
    have he := p.evolves_withSite pc site
    refine hlooked.set (p := p.withSite pc site) rfl ?_ ?_ ?_ ?_
    · rw [he.symbol, hhandle]
      rfl
    · exact hexact.install (hs _ p hp) hr hd hop site.kind.action_opcode ht hsite
    · rw [he.symbol]
      exact hK
    · have hsize : (p.withSite pc site).callSites.size = p.callSites.size + 1 := Array.size_push ..
      rw [he.symbol, hhandle, show w.lookedUp.machine.prepared? w.activation.method = some p from hp, hsize]
      show w.machine.metrics.callSiteResolutions + 1 + p.callSites.size = _
      rw [Nat.add_right_comm, Nat.add_assoc]
      rfl

namespace ExecM

/-- **What an analyzed instruction has to do with call sites**: nothing, or it calls what its token names, after which
the site is resolved. -/
inductive Executes (K : MethodSymbol → Prop) (p : Prepared) (pc next : Nat) (op : Opcode) (w : Workspace) : Prop where
  | plain : p.Declares pc op next → p.declared.AgreeOn p.code pc next → (∀ k, op.action ≠ .callSite k) →
      op.action ≠ .cachedCall → Executes K p pc next op w
  | call {kind : CallKind} {t : Token} {w₁ : Workspace} : p.Declares pc kind.opcode next →
      p.declared.token pc = .ok t → Execution.SameEffect op kind.opcode → w.Alike w₁ → w₁.machine.Exact K →
      (instruction p pc op).run w = (callOf p (CallSite.ofToken w.machine.metadata kind t)).run w₁ →
      Executes K p pc next op w

theorem cachedCall_run {i : Nat} {site : CallSite} (h : p.CachedAt pc i next) (hs : p.callSites[i]? = some site)
    (hi : i < 2 ^ 32) : (cachedCall p pc).run w = (callOf p (.ok site)).run w := by
  have hindex : (ofEngine (p.code.operand 4 pc)).run w = (.ok i, w) := by
    rw [h.operand, Nat.mod_eq_of_lt hi]
    rfl
  rw [cachedCall, Meets.run_bind, hindex]
  dsimp only
  rw [hs]
  rfl

/-- **The list is complete**, whether the instruction reads as declared or as a cached call. -/
theorem instruction_executes (hs : w.machine.Sound) (he : w.machine.Exact K)
    (hp : w.machine.prepared? w.activation.method = some p) (hsize : p.declared.size ≤ 2 ^ 32)
    (hr : p.analysis.isReachable pc = true) (hop : p.code.opcodeAt pc = .ok op) :
    ∃ next, p.code.nextOffset pc = .ok next ∧ Executes K p pc next op w := by
  have hsound := hs _ p hp
  obtain ⟨offsets, hsites, hresolves⟩ := (he.methods _ p hp).1.sites
  obtain ⟨op₀, next, hd⟩ := hsound.declares hr
  rcases hsound.reads_sites hsites (hsound.isStart hr) hd with ⟨-, ha⟩ | ⟨i, site, hi, hsite, hhas, hc⟩
  · -- the bytes are the declared ones
    have hreads := hd.reads ha
    cases hop.symm.trans hreads.opcode
    refine ⟨next, hreads.next, ?_⟩
    by_cases hcall : ∃ k, op.action = .callSite k
    · obtain ⟨kind, hact⟩ := hcall
      obtain rfl := op.eq_of_callSite hact
      have hwidth := kind.opcode.size?_of_width? (n := 4) (by rw [hact]; rfl)
      obtain ⟨t, ht⟩ := Code.token_ok hd.next hd.opcode hwidth
      have hrun := callSite_run hreads (hd.next_callSite hact) ((Code.token_agree hd.next ha hd.opcode hwidth).trans ht)
        kind w
      refine .call hd ht (.inl rfl) (w.alike_resolved p _ _) (he.resolved hs hp hr hd hreads.opcode ht) ?_
      rw [← hrun, instruction, hact]
    · exact .plain hd ha (fun k hk => hcall ⟨k, hk⟩) (hsound.ne_cachedCall hr hd)
  · -- the bytes are a cached call
    cases hop.symm.trans hc.opcode
    obtain ⟨t, ht, hok⟩ := hresolves i _ site hi hsite
    obtain ⟨op', hop', hact⟩ := hhas.opcode
    cases hd.opcode.symm.trans hop'
    obtain rfl := op₀.eq_of_callSite hact
    have hlt : i < 2 ^ 32 :=
      Nat.lt_of_lt_of_le (Array.getElem?_eq_some_iff.1 hsite).1 (Nat.le_trans hsound.size_le hsize)
    refine ⟨next, hc.next, .call hd ht site.kind.sameEffect (.refl w) he ?_⟩
    rw [hok]
    exact cachedCall_run hc hsite hlt

theorem Executes.exact {md : Metadata} (h : Executes K p pc next op w) (hs : p.Sound md)
    (hr : p.analysis.isReachable pc = true) (he : w.machine.Exact K) :
    ((instruction p pc op).run w).2.machine.Exact K := by
  cases h with
  | plain hd ha hcall hcached =>
    exact he.untouched ((blind_instruction (hd.reads ha) (hs.annotated hr hd) hcall hcached).untouched w)
  | @call kind t w₁ hd ht _ _ hexact hrun =>
    rw [hrun]
    exact hexact.untouched ((blind_callOf p _).untouched w₁)

theorem Executes.lists {md : Metadata} {target : MethodSymbol} {arguments : List Value} {c : Continuation}
    (h : Executes K p pc next op w) (hmd : w.machine.metadata = md) (hpc : w.activation.pc = pc)
    (hran : Ran md p next w op ((instruction p pc op).run w))
    (hask : ((instruction p pc op).run w).1 = .ok (.invoke target arguments c)) : md.Lists target := by
  subst hmd
  rcases hrun : (instruction p pc op).run w with ⟨r, w'⟩
  rw [hrun] at hask
  cases hask
  cases h with
  | plain hd ha hcall hcached =>
    rw [hrun] at hran
    obtain ⟨site, -, hsite, -⟩ := hran.of_invoke
    obtain ⟨op', hop', hact⟩ := hsite.opcode
    rw [hpc] at hop'
    cases hd.opcode.symm.trans hop'
    exact absurd hact (hcall _)
  | @call kind t w₁ hd ht _ halike _ hcall =>
    rw [hcall, ← halike.machine.metadata] at hrun
    rw [← halike.machine.metadata]
    exact (callOf_lists kind t).of_ok hrun target arguments c rfl

end ExecM

end

/-! ## Steps -/

namespace Execution

variable {x y : Execution} {K : MethodSymbol → Prop} {p : Prepared} {op : Opcode} {before : Nat} {callers : List Caller}

/-- What follows an instruction keeps the machine exact, if the method that is called is one of `K`. -/
theorem settle_exact {r : Except Trap Next × Workspace} (h : r.2.machine.Exact K)
    (hK : ∀ target arguments c, r.1 = .ok (.invoke target arguments c) → K target) :
    (settle p op before callers r).machine.Exact K := by
  by_cases hask : ∃ target arguments c, r.1 = .ok (.invoke target arguments c)
  · obtain ⟨target, arguments, c, hask⟩ := hask
    obtain ⟨r, w⟩ := r
    cases hask
    exact h.enter (hK target arguments c rfl) arguments
  · exact h.untouched (settle_untouched r fun target arguments c hr => hask ⟨target, arguments, c, hr⟩)

theorem handed_ne_invoke (c : Continuation) (w : Workspace) (o : Outcome) (target : MethodSymbol)
    (arguments : List Value) (c' : Continuation) : (handed c w o).1 ≠ .ok (.invoke target arguments c') := by
  intro h
  have hh := handed_handed c w o
  rcases hr : handed c w o with ⟨r, w'⟩
  rw [hr] at h hh
  cases h
  cases hh

theorem handed_untouched (c : Continuation) (w : Workspace) (o : Outcome) :
    w.machine.Untouched (handed c w o).2.machine := by
  cases o with
  | ok value => exact (ExecM.blind_continueWith c value).untouched w
  | error f => cases f <;> exact .refl _

theorem announced_untouched (w : Workspace) (op : Opcode) : w.machine.Untouched (announced w op).machine := by
  unfold announced
  split
  · exact ⟨rfl, rfl, rfl⟩
  · exact .refl _

/-- What the instruction of an activation inside analyzed code has to do with call sites. -/
theorem announced_executes {m : Machine} {a : Activation} (hs : m.Sound) (hn : m.Addressable) (ha : a.Inside m p)
    (he : m.Exact K) (hop : p.code.opcodeAt a.pc = .ok op) : ∃ next, p.code.nextOffset a.pc = .ok next ∧
      ExecM.Executes K p a.pc next op (announced ⟨m, a⟩ op) ∧
      ExecM.Ran m.metadata p next (announced ⟨m, a⟩ op) op ((ExecM.instruction p a.pc op).run (announced ⟨m, a⟩ op)) := by
  obtain ⟨ha', next, hnext, hran⟩ := announced_ran hs hn ha hop
  have hsame := (announced_noted ⟨m, a⟩ op).samePrograms
  have he' := he.untouched (announced_untouched ⟨m, a⟩ op)
  obtain ⟨next', hnext', hex⟩ := ExecM.instruction_executes (hsame.sound hs) he' ha'.prepared (hn _ p ha.prepared)
    ha.reachable hop
  cases hnext.symm.trans hnext'
  exact ⟨next, hnext, hex, hran⟩

/-- An instruction of an activation inside analyzed code keeps the machine exact, and calls methods of the tables. -/
theorem executes_exact {m : Machine} {a : Activation} {next : Nat} (hs : m.Sound) (ha : a.Inside m p) (he : m.Exact K)
    (hex : ExecM.Executes K p a.pc next op (announced ⟨m, a⟩ op))
    (hran : ExecM.Ran m.metadata p next (announced ⟨m, a⟩ op) op
      ((ExecM.instruction p a.pc op).run (announced ⟨m, a⟩ op))) :
    ((ExecM.instruction p a.pc op).run (announced ⟨m, a⟩ op)).2.machine.Exact K ∧ ∀ target arguments c,
      ((ExecM.instruction p a.pc op).run (announced ⟨m, a⟩ op)).1 = .ok (.invoke target arguments c) →
      m.metadata.Lists target := by
  have hnoted := announced_noted ⟨m, a⟩ op
  have he' := he.untouched (announced_untouched ⟨m, a⟩ op)
  refine ⟨hex.exact (hs _ p ha.prepared) ha.reachable he', fun target arguments c hask => ?_⟩
  exact hex.lists hnoted.samePrograms.metadata (by rw [hnoted.activation]) hran hask

/-- **A step keeps the machine exact.** -/
theorem step_exact (hin : x.Inside) (ha : x.Addressable) (he : x.machine.Exact K)
    (hK : ∀ s, x.machine.metadata.Lists s → K s) : x.step.machine.Exact K := by
  rcases x with ⟨m, control, callers⟩
  cases control with
  | running a =>
    obtain ⟨p, hp⟩ := hin.running a rfl
    obtain ⟨op, hop⟩ := hp.readable hin.sound
    obtain ⟨next, -, hex, hran⟩ := announced_executes hin.sound ha hp he hop.opcode
    obtain ⟨hexact, hlists⟩ := executes_exact hin.sound hp he hex hran
    show (stepInstruction ⟨m, a⟩ callers).machine.Exact K
    rw [stepInstruction_eq (w := ⟨m, a⟩) hp.prepared hop.opcode]
    exact settle_exact hexact fun target arguments c hask => hK _ (hlists target arguments c hask)
  | ending o =>
    cases callers with
    | nil => exact he
    | cons c callers =>
      obtain ⟨p, hc⟩ := hin.waiting c List.mem_cons_self
      obtain ⟨op, hop⟩ := hc.activation.readable hin.sound
      show (stepReturn ⟨m, c.activation⟩ c.continuation o callers).machine.Exact K
      rw [stepReturn_eq (w := ⟨m, c.activation⟩) hc.activation.prepared hop.opcode]
      have hu := handed_untouched c.continuation ⟨m, c.activation⟩ o
      refine settle_exact (he.untouched hu) fun target arguments c' hask => ?_
      exact absurd hask (handed_ne_invoke _ _ _ _ _ _)

/-- **A run keeps the machine exact.** -/
theorem Reaches.exact (hr : x.Reaches Addressable y) (hin : x.Inside) (he : x.machine.Exact K)
    (hK : ∀ s, x.machine.metadata.Lists s → K s) : y.machine.Exact K := by
  induction hr with
  | refl => exact he
  | step hr _ ih =>
    obtain ⟨hin', hev⟩ := hr.inside hin
    exact step_exact hin' hr.holds ih (by rw [hev.metadata]; exact hK)

end Execution

/-! ## Everything that a host does -/

namespace Machine

variable {m : Machine} {K : MethodSymbol → Prop}

/-- **The machines that a host can bring about while the tables stay as they are**, with methods of `K`. It begins with
no method ready; it makes methods ready, runs them from the start or from an offset, may stop a run anywhere, and does
with all else as it likes. -/
inductive Used (K : MethodSymbol → Prop) : Machine → Prop where
  | fresh {m : Machine} : m.prepared = [] → m.metrics.callSiteResolutions = 0 → Used K m
  | changed {m m' : Machine} : Used K m → m.Untouched m' → Used K m'
  | prepared {m : Machine} {symbol : MethodSymbol} : Used K m → K symbol → Used K (m.prepare symbol).2
  | executed {m : Machine} {symbol : MethodSymbol} {arguments : List Value} {x : Execution} : Used K m → K symbol →
      (m.start symbol arguments).Reaches Execution.Addressable x → Used K x.machine
  | resumed {m : Machine} {symbol : MethodSymbol} {frame : Frame} {offset top : Nat} {x : Execution} : Used K m →
      K symbol → (m.restart symbol frame offset top).Reaches Execution.Addressable x → Used K x.machine

theorem Used.reached (h : m.Used K) : m.Reached := by
  induction h with
  | fresh hp => exact .fresh hp
  | changed _ hu ih => exact .changed ih ⟨hu.metadata, hu.prepared⟩
  | prepared _ _ ih => exact .prepared _ ih
  | executed _ _ hr ih => exact .ran ih (.start _ _) hr
  | resumed _ _ hr ih => exact .ran ih (.restart ..) hr

/-- **Whatever the host did, the machine is exact.** -/
theorem Used.exact (h : m.Used K) (hK : ∀ s, m.metadata.Lists s → K s) : m.Exact K := by
  -- a run that begins exact ends exact, on the tables that it began with
  have ran : ∀ {m : Machine} {x y : Execution}, m.Reached → m.Begins x → x.Reaches Execution.Addressable y →
      (∀ s, y.machine.metadata.Lists s → K s) → ((∀ s, m.metadata.Lists s → K s) → x.machine.Exact K) →
      y.machine.Exact K := by
    intro m x y hm hb hr hK hx
    have hin := hb.inside hm.sound
    have hmd := (hr.inside hin).2.metadata
    rw [hmd] at hK
    exact hr.exact hin (hx (by rw [← hb.metadata hm.sound]; exact hK)) hK
  induction h with
  | @fresh m hp hcount =>
    refine ⟨fun k p hk => ?_, ?_, ?_⟩
    · rw [prepared?, hp] at hk
      cases hk
    · rw [hp]
      exact List.nodup_nil
    · rw [hp]
      exact hcount
  | changed _ hu ih => exact (ih (by rw [← hu.metadata]; exact hK)).untouched hu
  | @prepared m symbol _ hsymbol ih =>
    exact (ih (by rw [← (prepare_readied m symbol).metadata]; exact hK)).prepare hsymbol
  | executed hm hsymbol hr ih => exact ran hm.reached (.start _ _) hr hK fun h => (ih h).enter hsymbol _
  | resumed hm hsymbol hr ih => exact ran hm.reached (.restart ..) hr hK fun h => (ih h).reenter hsymbol _ _ _

end Machine

/-! ## The cache -/

/-- **The instruction at `pc` is the same in both codes**, with everything that is read of it. -/
structure Code.SameAt (c c' : Code) (pc : Nat) : Prop where
  opcode : c'.opcodeAt pc = c.opcodeAt pc
  operand : ∀ op n, c.opcodeAt pc = .ok op → op.operand.size? = some n → c'.operand n pc = c.operand n pc
  slotIndex : c'.slotIndex pc = c.slotIndex pc
  branchTarget : c'.branchTarget pc = c.branchTarget pc
  switchTargets : ∀ op, c.opcodeAt pc = .ok op → op.operand.size? = none → c'.switchTargets pc = c.switchTargets pc

theorem Code.AgreeOn.sameAt {c c' : Code} {pc next : Nat} {op : Opcode} (ha : c.AgreeOn c' pc next)
    (ho : c.opcodeAt pc = .ok op) (hn : c.nextOffset pc = .ok next) : c.SameAt c' pc where
  opcode := (opcodeAt_agree ho ha (nextOffset_bounds hn ho).1).trans ho.symm
  operand := fun _ _ ho' hs => operand_agree hn ha ho' hs
  slotIndex := slotIndex_agree hn ha ho
  branchTarget := branchTarget_agree hn ha ho
  switchTargets := fun _ ho' hs => switchTargets_agree hn ha ho' hs

namespace Prepared

variable {md : Metadata} {p : Prepared}

/-- **The cache of a method**, given the offsets of its call sites in the order of their numbers. The code is the
declared code but for cached calls at the sites; a site is what the declared instruction names; no instruction has
moved, and those that are no sites read as declared. -/
structure Caches (md : Metadata) (p : Prepared) (offsets : List Nat) : Prop where
  length : offsets.length = p.callSites.size
  patched : p.declared.Patched p.code offsets
  site : ∀ (i pc : Nat) site, offsets[i]? = some pc → p.callSites[i]? = some site → p.declared.Starts pc ∧
    p.declared.opcodeAt pc = .ok site.kind.opcode ∧
    ∃ t, p.declared.token pc = .ok t ∧ CallSite.ofToken md site.kind t = .ok site
  next : ∀ pc, p.declared.Starts pc → p.code.nextOffset pc = p.declared.nextOffset pc
  unchanged : ∀ pc, p.declared.Starts pc → pc ∉ offsets → p.declared.SameAt p.code pc

theorem Sound.starts_iff (h : p.Sound md) (pc : Nat) : p.analysis.isStart pc = true ↔ p.declared.Starts pc :=
  h.accepted.scanned.marked pc

/-- Every instruction of the body can be read, reachable or not. -/
theorem Sound.declares_start {pc : Nat} (h : p.Sound md) (hst : p.analysis.isStart pc = true) :
    ∃ op next, p.Declares pc op next := by
  obtain ⟨next, hn, -⟩ := h.accepted.scanned.next pc hst
  obtain ⟨op, hop, -⟩ := Code.nextOffset_ok hn
  exact ⟨op, next, hop, hn⟩

theorem Exact.caches (h : p.Exact md) (hs : p.Sound md) : ∃ offsets, p.Caches md offsets := by
  obtain ⟨offsets, hsites, hresolves⟩ := h.sites
  have read : ∀ pc, p.declared.Starts pc → ∃ op next, p.Declares pc op next ∧
      ((pc ∉ offsets ∧ p.declared.AgreeOn p.code pc next) ∨
        ∃ i site, offsets[i]? = some pc ∧ p.callSites[i]? = some site ∧ p.HasSite md pc site ∧ p.CachedAt pc i next) := by
    intro pc hpc
    have hst := (hs.starts_iff pc).2 hpc
    obtain ⟨op, next, hd⟩ := hs.declares_start hst
    exact ⟨op, next, hd, hs.reads_sites hsites hst hd⟩
  refine ⟨offsets, hsites.length, hsites.patched, fun i pc site hi hsite => ?_, fun pc hpc => ?_, fun pc hpc hno => ?_⟩
  · have hhas := hsites.site i pc site hi hsite
    obtain ⟨op, hop, hact⟩ := hhas.opcode
    rw [op.eq_of_callSite hact] at hop
    exact ⟨(hs.starts_iff pc).1 (hs.isStart hhas.reachable), hop, hresolves i pc site hi hsite⟩
  · obtain ⟨op, next, hd, ⟨-, ha⟩ | ⟨i, site, -, -, -, hc⟩⟩ := read pc hpc
    · rw [hd.next, Code.nextOffset_agree hd.next ha]
    · rw [hd.next, hc.next]
  · obtain ⟨op, next, hd, ⟨-, ha⟩ | ⟨i, site, hi, -⟩⟩ := read pc hpc
    · exact ha.sameAt hd.opcode hd.next
    · exact absurd (List.mem_of_getElem? hi) hno

end Prepared

/-- **The cache of call sites.** Whatever a host did with a machine whose tables stayed as they were, every method that
is ready has the cache that belongs to it, and the call sites that were counted are those of all methods together. -/
theorem Machine.caches_call_sites {m : Machine} (hm : m.Used fun _ => True) :
    (∀ h p, m.prepared? h = some p → ∃ offsets, p.Caches m.metadata offsets) ∧
      (m.prepared.map Prod.fst).Nodup ∧
      m.metrics.callSiteResolutions = (m.prepared.map fun e => e.2.callSites.size).sum := by
  have he := hm.exact fun _ _ => trivial
  refine ⟨fun h p hp => ?_, he.nodup, he.counted⟩
  exact (he.methods h p hp).1.caches (hm.reached.sound h p hp)

/-- The constructor call of `throwsObject` is cached once it was executed. -/
theorem Machine.throwsObject_caches_constructor : ∃ p offsets,
    (throwsObjectRun 1).machine.prepared? ⟨3⟩ = some p ∧ p.callSites.size = 1 ∧
      p.Caches (throwsObjectRun 1).machine.metadata offsets ∧
      (throwsObjectRun 1).machine.metrics.callSiteResolutions = 1 := by
  have hr : ((Machine.make .core none {} {}).start throwsObject []).Reaches Execution.Addressable (throwsObjectRun 1) :=
    throwsObjectRun_reaches 1 fun _ hi => throwsObjectRun_addressable (Nat.le_trans hi (by decide))
  obtain ⟨hcaches, -, hcount⟩ := Machine.caches_call_sites (.executed (.fresh rfl rfl) trivial hr)
  have hsites : (throwsObjectRun 1).machine.prepared.map (fun e => (e.1, e.2.callSites.size)) = [(⟨3⟩, 1)] := by
    decide +kernel
  obtain ⟨⟨k, p⟩, hp, hentry⟩ := List.map_eq_singleton_iff.1 hsites
  obtain ⟨rfl, hsize⟩ := Prod.mk.inj hentry
  have hready : (throwsObjectRun 1).machine.prepared? ⟨3⟩ = some p := by
    rw [prepared?, hp]
    rfl
  obtain ⟨offsets, ho⟩ := hcaches _ p hready
  refine ⟨p, offsets, hready, hsize, ho, ?_⟩
  rw [hcount, hp]
  exact hsize

end ManagedCode
