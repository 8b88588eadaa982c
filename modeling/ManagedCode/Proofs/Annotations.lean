import ManagedCode.Proofs.Uniform
import ManagedCode.Proofs.Upkeep

/-!
# Annotations are sound

Let the types of the stack of a method not depend on the path. Then, wherever a run is in that method, the stack holds
values of the assigned types, so an instruction finds the operands that its annotation names. The values come from the
method's own instructions, from variables, from the heap, and from the calls that it makes. Of the latter, what a method
returns by itself is narrowed to its signature; of what host functions, overrides and targets of jumps return it has to
be assumed (`Execution.ReturnsDeclared`).

`Execution.Typed` is the invariant of a run, beside the heights of `Execution.Level` and the order of `Execution.Tidy`.
-/

namespace ManagedCode

open ExecM (Delivers Ran)

/-! ## Results that come from elsewhere -/

/-- The method whose result is expected behind a call. -/
def CallSite.expected? : CallSite → Option MethodSymbol
  | call m | callvirt m => some m
  | newobj .. | jmp _ => none

/-- **The result is what the call site declares**: there is one exactly when the named method has one, and it has the
stack type of the declared kind. -/
def Caller.Receives (m : Machine) (c : Caller) (value : Option Value) : Prop :=
  ∀ p site declared target, m.prepared? c.activation.method = some p → p.HasSite m.metadata c.activation.pc site →
    site.expected? = some declared → c.continuation = .pushResult target →
    target.signature.result.isSome = declared.signature.result.isSome ∧
      ∀ k v, declared.signature.result = some k → value = some v → v.Fits k.stackType

/-- **The result that a step from `x` to `y` hands to a waiting call comes from elsewhere** than a return of the method
that the call names. -/
inductive Execution.Foreign (x y : Execution) (c : Caller) : Prop where
  /-- The step made a call, and it is over: the method was a host function. -/
  | native : x.callers.length < y.callers.length → Foreign x y c
  /-- The step handed on the end of another call: the method had jumped to another one. -/
  | jumped {o : Outcome} : x.control = .ending o → Foreign x y c
  /-- The call was virtual and entered another method than the named one. -/
  | overridden {p : Prepared} {declared target : MethodSymbol} : y.machine.prepared? c.activation.method = some p →
      p.HasSite y.machine.metadata c.activation.pc (.callvirt declared) → c.continuation = .pushResult target →
      target.handle ≠ declared.handle → Foreign x y c

/-- **What host functions, targets of jumps and overrides return is what the call site declares.** -/
def Execution.ReturnsDeclared (x : Execution) : Prop :=
  ∀ value c rest, x.step.control = .ending (.ok value) → x.step.callers = c :: rest → x.Foreign x.step c →
    c.Receives x.step.machine value

theorem Caller.Receives.keepsResult {m : Machine} {c : Caller} {value : Option Value} (h : c.Receives m value) :
    c.KeepsResult m :=
  fun p declared target hp hsite hc => (h p _ declared target hp hsite rfl hc).1

/-! ## The invariant of a run -/

/-- The call that waits for a result entered the method `k`. -/
def Caller.Awaits (c : Caller) (k : MethodHandle) : Prop := ∀ target, c.continuation = .pushResult target → target.handle = k

/-- Each of the activations that wait entered the method of the one before it; the first one entered `k`. -/
def Caller.Linked : MethodHandle → List Caller → Prop
  | _, [] => True
  | k, c :: rest => c.Awaits k ∧ Linked c.activation.method rest

/-- An activation that runs has the types of its offset on the stack, if it is one of the method `h`. -/
def Activation.Typed (m : Machine) (h : MethodHandle) (S : Nat → List StackType) (a : Activation) : Prop :=
  a.method = h → ∃ p, m.prepared? a.method = some p ∧ a.frame.Holds (p.types (S a.pc))

/-- An activation that waits has these types less what its call has popped. -/
def Caller.Typed (m : Machine) (h : MethodHandle) (S : Nat → List StackType) (c : Caller) : Prop :=
  c.activation.method = h → ∃ p site, m.prepared? c.activation.method = some p ∧
    p.HasSite m.metadata c.activation.pc site ∧
    c.activation.frame.Holds (p.types ((S c.activation.pc).drop site.pops))

/-- **Every activation of the method `h` has the types that `S` assigns on its stack**, and a result that is on its way
is what its call site declares. -/
structure Execution.Typed (h : MethodHandle) (S : Nat → List StackType) (x : Execution) : Prop where
  running : ∀ a, x.control = .running a → a.Typed x.machine h S
  waiting : ∀ c ∈ x.callers, c.Typed x.machine h S
  entered : ∀ a, x.control = .running a → Caller.Linked a.method x.callers
  linked : ∀ c rest, x.callers = c :: rest → Caller.Linked c.activation.method rest
  received : ∀ value c rest, x.control = .ending (.ok value) → x.callers = c :: rest → c.Receives x.machine value

section

variable {m m' : Machine} {h : MethodHandle} {S : Nat → List StackType} {p p' : Prepared} {a : Activation}

theorem Activation.Typed.of_evolves (he : m.Evolves m') (hp : m.prepared? a.method = some p)
    (ha : a.method = h → a.frame.Holds (p.types (S a.pc))) : a.Typed m' h S := by
  intro hh
  obtain ⟨p', hp', hev⟩ := he.prepared _ p hp
  refine ⟨p', hp', ?_⟩
  rw [hev.types]
  exact ha hh

theorem Caller.Typed.evolves {c : Caller} (hc : c.Typed m h S) (he : m.Evolves m') : c.Typed m' h S := by
  intro hh
  obtain ⟨p, site, hp, hsite, hholds⟩ := hc hh
  obtain ⟨p', hp', hev⟩ := he.prepared _ p hp
  refine ⟨p', site, hp', ?_, ?_⟩
  · rw [he.metadata]
    exact hev.hasSite hsite
  · rw [hev.types]
    exact hholds

/-- **What a method returns by itself is what a call of it declares.** -/
theorem Caller.Tidy.receives {c : Caller} {k : MethodHandle} {value : Option Value} (hc : c.Tidy m) (hm : m.Orderly)
    (hp : m.prepared? k = some p) (hk : c.Awaits k) (hv : p.Returns m.metadata value)
    (hown : ∀ q declared target, m.prepared? c.activation.method = some q →
      q.HasSite m.metadata c.activation.pc (.callvirt declared) → c.continuation = .pushResult target →
      target.handle = declared.handle) : c.Receives m value := by
  intro q site declared target hq hsite hdeclared hcont
  obtain ⟨q', site', target', hq', hsite', hent, htarget, -⟩ := hc
  cases hq.symm.trans hq'
  rw [hcont] at hent
  -- the method that was entered is the declared one
  have hhandle : target.handle = declared.handle := by
    obtain ⟨-, hmethod, -⟩ := hsite.same hsite'
    cases site with
    | call m' =>
      cases hdeclared
      cases hent with
      | call => exact hmethod
      | callvirt => exact absurd (hsite.same hsite').1 nofun
    | callvirt m' =>
      cases hdeclared
      exact hown q _ target hq hsite hcont
    | newobj m' type => cases hdeclared
    | jmp m' => cases hdeclared
  obtain ⟨t, -, hn⟩ := hsite.names
  have hmethod : m.metadata.HasMethod declared := by
    have := hn.hasMethod hm.tables
    cases site with
    | call m' => cases hdeclared; exact this
    | callvirt m' => cases hdeclared; exact this
    | newobj m' type => cases hdeclared
    | jmp m' => cases hdeclared
  obtain ⟨hsymbol, hsame⟩ := hm.methods k p hp
  have htarget' : m.metadata.HasMethod target := by
    cases hent <;> exact htarget
  have hsignature : p.symbol.signature = declared.signature := by
    refine hsymbol.signature_eq hmethod ?_
    rw [hsame, ← hk target hcont, hhandle]
  refine ⟨?_, fun kind v hkind hvalue => hv.fits v kind hvalue (by rw [hsignature]; exact hkind)⟩
  rw [htarget'.signature_eq hmethod hhandle]

end

/-! ## Steps -/

namespace Execution

variable {x y : Execution} {h : MethodHandle} {S : Nat → List StackType} {w : Workspace} {p : Prepared} {op : Opcode}
  {next : Nat} {callers : List Caller}

/-- A handler that is entered has its exception on the stack, or nothing. -/
theorem caught_typed {t : Trap} {e : GuestException} {w w₁ w₂ : Workspace} {dest : Nat} {object : Option (Option Ref)}
    {u : Unwinding} {p' : Prepared} (hs : w.machine.Sound) (hev : p.Evolves p')
    (ha : w.activation.Inside w.machine p') (hw : w.Good w.machine.metadata p') (ht : t.raised? w = some (e, w₁))
    (hd : w₁.activation.unwinding.dispatch w₁.machine.metadata p.regions e (w₁.machine.heap.typeOf? e.object)
      w₁.activation.pc 0 = (.ok (.resume dest object), u))
    (hent : Workspace.Entered p object (w₁.withUnwinding u) w₂)
    (hU : ∀ q, w₂.machine.prepared? h = some q → q.Uniform w₂.machine.metadata S) :
    (w₂.goTo dest w₁.activation.backEdges).activation.Typed w₂.machine h S := by
  obtain ⟨hs₂, hev₂, hland, hin⟩ := caught_inside hs hev ha ht hd hent
  intro hh
  refine ⟨p', hin.prepared, ?_⟩
  have huniform := hU p' (hh ▸ hin.prepared)
  rw [hev₂.metadata] at huniform
  obtain ⟨hgood, -⟩ := Trap.raised?_good ht hw
  have hholds := (hent.of_layout hev.layout).holds (hgood.sameFrame rfl hgood.heap rfl) (hs _ p' ha.prepared)
  show w₂.activation.frame.Holds (p'.types (S dest))
  rw [huniform.landed hland]
  exact hholds

theorem Typed.of_running {m : Machine} {a : Activation} (ha : a.Typed m h S) (hw : ∀ c ∈ callers, c.Typed m h S)
    (hl : Caller.Linked a.method callers) : Typed h S ⟨m, .running a, callers⟩ where
  running := by
    intro a' hrunning
    cases hrunning
    exact ha
  waiting := hw
  entered := by
    intro a' hrunning
    cases hrunning
    exact hl
  linked := by
    rintro c rest rfl
    exact hl.2
  received _ _ _ hv := by cases hv

/-- A call begins with nothing on the stack. -/
theorem Typed.enter {m : Machine} {symbol : MethodSymbol} {arguments : List Value} (hm : m.Orderly) (hs : m.Sound)
    (hsymbol : m.metadata.HasMethod symbol) (hargs : ∀ v ∈ arguments, v.Proper m.metadata)
    (hU : ∀ q, (m.enter symbol arguments).2.prepared? h = some q → q.Uniform (m.enter symbol arguments).2.metadata S)
    (hw : ∀ c ∈ callers, c.Typed m h S) (hl : Caller.Linked symbol.handle callers)
    (hreceived : ∀ value c rest, (m.enter symbol arguments).1 = .ending (.ok value) → callers = c :: rest →
      c.Receives (m.enter symbol arguments).2 value) :
    Typed h S ⟨(m.enter symbol arguments).2, (m.enter symbol arguments).1, callers⟩ := by
  obtain ⟨-, -, hstart⟩ := (Machine.enter_enters m symbol arguments).orderly hm hs hsymbol hargs
  obtain ⟨-, hev, -⟩ := Machine.enter_sound hs symbol arguments
  refine ⟨fun a hrun hh => ?_, fun c hc => (hw c hc).evolves hev, fun a hrun => ?_, ?_, hreceived⟩
  · obtain ⟨q, hq, hmethod, hpc, -, hvariables⟩ := hstart a hrun
    refine ⟨q, hmethod ▸ hq, ?_⟩
    rw [hpc, (hU q (by rw [← hh, hmethod]; exact hq)).start, q.types_nil]
    exact hvariables
  · obtain ⟨q, hq, hmethod, -⟩ := hstart a hrun
    rw [hmethod]
    exact hl
  · rintro c rest rfl
    exact hl.2

/-- **What a method returns by itself** is what the call declares that entered it; the result of an override comes from
elsewhere. -/
theorem Foreign.receives {c : Caller} {k : MethodHandle} {value : Option Value} (hc : c.Tidy y.machine)
    (hm : y.machine.Orderly) (hp : y.machine.prepared? k = some p) (hk : c.Awaits k)
    (hv : p.Returns y.machine.metadata value) (hforeign : x.Foreign y c → c.Receives y.machine value) :
    c.Receives y.machine value := by
  by_cases hown : ∀ q declared target, y.machine.prepared? c.activation.method = some q →
      q.HasSite y.machine.metadata c.activation.pc (.callvirt declared) → c.continuation = .pushResult target →
      target.handle = declared.handle
  · exact hc.receives hm hp hk hv hown
  · simp only [not_forall] at hown
    obtain ⟨q, declared, target, hq, hsite, hcont, hne⟩ := hown
    exact hforeign (.overridden hq hsite hcont hne)

/-- Control that comes to another offset of the method finds values of the types of that offset on the stack. -/
theorem Travels.holds {md : Metadata} {dest : Nat} {w' : Workspace} (ht : Travels md p next w op dest w')
    (hp : p.Sound md) (hr : p.analysis.isReachable w.activation.pc = true) (hu : p.Uniform md S) (hw : w.Good md p)
    (hdelivers : ∀ st', p.Hands md w.activation.pc op next (S w.activation.pc) st' →
      w'.activation.frame.Holds (p.types st')) : w'.activation.frame.Holds (p.types (S dest)) := by
  cases ht with
  | along hd hplain _ he _ =>
    obtain ⟨st', hacts, hnext⟩ := hu.acts hp hr hd
    rw [hnext dest he]
    exact hdelivers st' (.inl ⟨hplain, hacts⟩)
  | landed _ hland _ hent =>
    rw [hu.landed hland]
    exact hent.holds (hw.sameFrame rfl hw.heap rfl) hp

/-- An activation that goes on has the assigned types if the frame had them that it goes on with. -/
theorem moved_typed {w₁ w₂ : Workspace} {before dest : Nat} (hmoved : Workspace.Moved p op before dest w₁ w₂)
    (hp : p.Sound w.machine.metadata) (hready : w.machine.prepared? w.activation.method = some p)
    (hmethod : w₁.activation.method = w.activation.method) (hev : w.machine.Evolves w₂.machine)
    (hlevel : w₂.activation.Level w₂.machine h fun pc => (S pc).length)
    (hholds : w.activation.method = h → w₂.activation.top = p.layout.stackBase + (S dest).length →
      w₁.activation.frame.Holds (p.types (S dest))) : w₂.activation.Typed w₂.machine h S := by
  obtain ⟨-, hmethod₂, hpc₂, -⟩ := hmoved.goes
  have hmethod₂ := hmethod₂.trans hmethod
  refine Activation.Typed.of_evolves (p := p) hev (by rw [hmethod₂]; exact hready) fun hh => ?_
  obtain ⟨q, hq, htop⟩ := hlevel
  obtain ⟨p', hp', he⟩ := hev.prepared _ p hready
  cases (hmethod₂ ▸ hq).symm.trans hp'
  have htop : w₂.activation.top = p.layout.stackBase + (S dest).length := by
    rw [← he.layout, ← hpc₂]
    exact htop hh
  rw [hpc₂]
  refine hmoved.holds (hholds (hmethod₂.symm.trans hh) htop) fun _ => ?_
  rw [hp.aligned.length_types]
  exact Nat.le_of_eq htop.symm

/-- **What comes of an instruction has the assigned types.** -/
theorem Settles.typed {f : ExecM Next} (hset : Settles p op w.activation.top callers (f.run w) y)
    (hs : w.machine.Sound) (ha : w.activation.Inside w.machine p) (hm : w.machine.Orderly)
    (htidy : w.activation.Tidy w.machine.metadata p) (hw : ∀ c ∈ callers, c.Typed w.machine h S)
    (hn : p.code.nextOffset w.activation.pc = .ok next) (hran : Ran w.machine.metadata p next w op (f.run w))
    (hf : Delivers w.machine.metadata p (p.Hands w.machine.metadata w.activation.pc op next) f
      (Next.Typed w.machine.metadata p))
    (hev : w.machine.Evolves y.machine) (hy : y.Tidy) (hlevel : y.Level h fun pc => (S pc).length)
    (hU : ∀ q, y.machine.prepared? h = some q → q.Uniform y.machine.metadata S)
    (htop : w.activation.method = h → w.activation.top = p.layout.stackBase + (S w.activation.pc).length)
    (hholds : w.activation.method = h → w.activation.frame.Holds (p.types (S w.activation.pc)))
    (hlinked : Caller.Linked w.activation.method callers) (hcallers : x.callers = callers)
    (hforeign : ∀ value c rest, y.control = .ending (.ok value) → y.callers = c :: rest → x.Foreign y c →
      c.Receives y.machine value) : y.Typed h S := by
  have hp := hs _ p ha.prepared
  have hgood := htidy.good hm
  have hmeets := hf w hgood
  obtain ⟨hevr, hsound, hmethod, hpc⟩ := hran.keeps
  have hwaiting : ∀ c ∈ callers, c.Typed y.machine h S := fun c hc => (hw c hc).evolves hev
  generalize hrun : f.run w = r at hset hran hsound hevr hmethod hpc
  cases hset with
  | @ended r w₁ m o hl ho =>
    refine ⟨(fun a h => by cases h), hwaiting, (fun a h => by cases h), ?_, ?_⟩
    · rintro c rest rfl
      exact hlinked.2
    · rintro value c rest hvalue rfl
      cases ho value (Control.ending.inj hvalue)
      obtain ⟨p', hp', he⟩ := hev.prepared _ p ha.prepared
      have hreturns : p'.Returns m.metadata value := by
        have hreturns := (hmeets.of_ok hrun).1
        rw [show m.metadata = w.machine.metadata from hev.metadata]
        refine ⟨?_, hreturns.proper, ?_⟩
        · rw [he.symbol]
          exact hreturns.isSome
        · rw [he.symbol]
          exact hreturns.fits
      exact Foreign.receives (y := ⟨m, .ending o, c :: rest⟩) (hy.waiting c List.mem_cons_self) hy.orderly hp' hlinked.1
        hreturns (hforeign value c rest hvalue rfl)
  | @moved n dest w₁ w₂ hgo hmoved =>
    obtain ⟨-, -, hdelivers⟩ := hmeets.of_ok hrun
    obtain ⟨-, hmethod₂, -⟩ := hmoved.goes
    have htyped : w₂.activation.Typed w₂.machine h S := by
      refine moved_typed hmoved hp ha.prepared hmethod hev (hlevel.running _ rfl) fun hh _ => ?_
      have huniform : p.Uniform w.machine.metadata S := by
        obtain ⟨p', hp', he⟩ := hev.prepared _ p ha.prepared
        rw [← hev.metadata]
        exact he.uniform (hU p' (hh ▸ hp'))
      exact (hgo.travels hran hn).holds hp ha.reachable huniform hgood fun st' hst =>
        hdelivers _ st' hst (htop hh) (hholds hh)
    exact .of_running htyped hwaiting (hmethod₂.trans hmethod ▸ hlinked)
  | called target arguments c w₁ =>
    obtain ⟨⟨htarget, hargs⟩, hgood₁, hdelivers⟩ := hmeets.of_ok hrun
    have hm₁ := hran.orderly hm hgood₁.heap
    rw [← hevr.metadata] at htarget hargs
    have hmethod₁ : w₁.activation.method = w.activation.method := hmethod
    have hpc₁ : w₁.activation.pc = w.activation.pc := hpc
    obtain ⟨site, w₂, hsite, hent, -, hh, hk⟩ := hran.of_invoke
    refine .enter hm₁ (hsound hs) htarget hargs hU (fun c' hc' => ?_) ⟨fun target' hcont => ?_, ?_⟩
      fun value c' rest hv hc' => ?_
    · rcases List.mem_cons.1 hc' with rfl | hc'
      · refine Caller.Typed.evolves (m := w.machine) (fun hh => ⟨p, site, ?_, ?_, ?_⟩) hevr
        · rw [hmethod₁]
          exact ha.prepared
        · rw [hpc₁]
          exact hsite
        · have hh := hmethod₁.symm.trans hh
          rw [hpc₁]
          exact hdelivers _ _ (.inr ⟨site, hsite, rfl⟩) (htop hh) (hholds hh)
      · exact (hw c' hc').evolves hevr
    · dsimp only at hcont
      subst hcont
      cases hent <;> rfl
    · rw [hmethod₁]
      exact hlinked
    · refine hforeign value c' rest hv hc' (.native ?_)
      rw [hcallers]
      exact Nat.lt_succ_self _
  | @caught t e w₁ w₂ w₃ dest object u ht hd hent =>
    have hgood₁ := hmeets.of_error hrun
    obtain ⟨p', he, hin⟩ := trapped_inside hran (Trap.raised?_some ht).1 ha
    have hgood' : w₁.Good w₁.machine.metadata p' := by
      rw [hgood₁.metadata]
      refine ⟨hgood₁.metadata, hgood₁.heap, hgood₁.proper, ?_⟩
      rw [← p'.types_nil, he.types, p.types_nil]
      exact hgood₁.holds
    refine .of_running (caught_typed (hsound hs) he hin hgood' ht hd hent hU) hwaiting ?_
    show Caller.Linked w₃.activation.method callers
    rw [caught_method ht hent, hmethod]
    exact hlinked

/-- **The end of a call leaves what its site declares** on the stack of the activation that waited. -/
theorem Handed.holds {c : Continuation} {value : Option Value} {site : CallSite} {target : MethodSymbol}
    {st : List StackType} {md : Metadata} {w' : Workspace} (hr : Handed c w (.ok value) (.ok .advance, w'))
    (hp : p.Sound md) (hent : site.Enters target c)
    (hrec : ∀ declared t, site.expected? = some declared → c = .pushResult t →
      t.signature.result.isSome = declared.signature.result.isSome ∧
        ∀ k v, declared.signature.result = some k → value = some v → v.Fits k.stackType)
    (htop : w.activation.top = p.layout.stackBase + (st.drop site.pops).length)
    (hw : w.activation.frame.Holds (p.types (st.drop site.pops))) :
    w'.activation.frame.Holds (p.types (site.leaves st)) := by
  -- a call by a name or a virtual one pushes the result of the declared method, if it has one
  have called : ∀ {m : MethodSymbol}, site.expected? = some m → c = .pushResult target →
      w'.activation.frame.Holds (p.types ((m.signature.result.map (·.stackType)).toList ++ st.drop site.pops)) := by
    intro m hexpected hc
    obtain ⟨hsome, hfits⟩ := hrec m target hexpected hc
    cases hr with
    | dropped hc' hnone =>
      cases hc.symm.trans hc'
      rw [hnone] at hsome
      rw [Option.isSome_eq_false_iff.1 hsome.symm |> Option.isNone_iff_eq_none.1]
      exact hw
    | @pushed _ v hv hlt =>
      rw [hc, Continuation.pushed?] at hv
      split at hv
      · rename_i hresult
        rw [hresult] at hsome
        obtain ⟨k, hk⟩ := Option.isSome_iff_exists.1 hsome.symm
        rw [hk]
        show (w.activation.frame.set w.activation.top v).Holds (p.types (k.stackType :: st.drop site.pops))
        rw [htop] at hlt ⊢
        exact hp.aligned.holds_push hw (hfits k v hk hv) hlt
      · cases hv
  cases hent with
  | call m => exact called rfl rfl
  | callvirt m target => exact called rfl rfl
  | newobj m type r =>
    cases hr with
    | @pushed _ v hv hlt =>
      cases hv
      show (w.activation.frame.set w.activation.top (.object (some r))).Holds
        (p.types (.object :: st.drop (CallSite.newobj target type).pops))
      rw [htop] at hlt ⊢
      exact hp.aligned.holds_push hw (.inl rfl) hlt
    | dropped hc => cases hc
  | jmp m =>
    cases hr with
    | pushed hv => cases hv
    | dropped hc => cases hc

/-- **What comes of the end of a call has the assigned types.** -/
theorem Settles.typed_return {c : Continuation} {o : Outcome} {r : Except Trap Next × Workspace}
    (hset : Settles p op w.activation.top callers r y) (hr : Handed c w o r) (hs : w.machine.Sound)
    (ha : w.activation.Inside w.machine p) (hop : p.code.opcodeAt w.activation.pc = .ok op) (hm : w.machine.Orderly)
    (htidy : Caller.Tidy w.machine ⟨w.activation, c⟩) (hc : Caller.Typed w.machine h S ⟨w.activation, c⟩)
    (hw : ∀ c ∈ callers, c.Typed w.machine h S)
    (hreceived : ∀ value, o = .ok value → Caller.Receives w.machine ⟨w.activation, c⟩ value)
    (hev : w.machine.Evolves y.machine) (hlevel : y.Level h fun pc => (S pc).length)
    (hU : ∀ q, y.machine.prepared? h = some q → q.Uniform y.machine.metadata S)
    (hlinked : Caller.Linked w.activation.method callers) (hcontrol : x.control = .ending o)
    (hforeign : ∀ value c rest, y.control = .ending (.ok value) → y.callers = c :: rest → x.Foreign y c →
      c.Receives y.machine value) : y.Typed h S := by
  obtain ⟨p₀, site, target, hp₀, hsite, hent, -, htidy⟩ := htidy
  cases ha.prepared.symm.trans hp₀
  dsimp only at hsite hent htidy
  have hp := hs _ p ha.prepared
  have hwaiting : ∀ c ∈ callers, c.Typed y.machine h S := fun c hc => (hw c hc).evolves hev
  cases hset with
  | ended hl ho =>
    refine ⟨(fun a h => by cases h), hwaiting, (fun a h => by cases h), ?_, ?_⟩
    · rintro c rest rfl
      exact hlinked.2
    · exact fun value c rest hv hc => hforeign value c rest hv hc (.jumped hcontrol)
  | called target arguments c' w₁ => cases hr
  | @caught t e w₁ w₂ w₃ dest object u ht hd hentered =>
    obtain rfl := hr.of_error
    refine .of_running (caught_typed hs (.refl p) ha (htidy.good hm) ht hd hentered hU) hwaiting ?_
    show Caller.Linked w₃.activation.method callers
    rw [caught_method ht hentered]
    exact hlinked
  | @moved n dest w₁ w₂ hgo hmoved =>
    obtain ⟨-, hmethod₂, -⟩ := hmoved.goes
    obtain ⟨-, hmethod, -, -⟩ := hr.keeps
    obtain ⟨rfl, hc', ⟨value, rfl⟩, hdest⟩ := hr.goes hgo
    have hreceived := hreceived value rfl
    obtain ⟨hkind, htop₁⟩ := hr.top hent rfl fun declared t hs hc =>
      hreceived.keepsResult p declared t ha.prepared (hs ▸ hsite) hc
    have htyped : w₂.activation.Typed w₂.machine h S := by
      refine moved_typed hmoved hp ha.prepared hmethod hev (hlevel.running _ rfl) fun hh htop => ?_
      have huniform : p.Uniform w.machine.metadata S := by
        obtain ⟨p', hp', he⟩ := hev.prepared _ p ha.prepared
        rw [← hev.metadata]
        exact he.uniform (hU _ (hh ▸ hp'))
      have hleaves := huniform.returned hp hsite hkind (edge_of_site hp hsite hent hc' hdest)
      obtain ⟨p₁, site₁, hp₁, hsite₁, hholds⟩ := hc hh
      cases ha.prepared.symm.trans hp₁
      rw [hsite.pops_eq hsite₁] at hholds
      rw [hleaves] at htop ⊢
      refine hr.holds hp hent (fun declared t hexp hcont => ?_) ?_ hholds
      · exact hreceived p site declared t ha.prepared hsite hexp hcont
      · rw [hmoved.top_varying (effect_of_site hp hsite hop), htop₁, site.length_leaves hkind] at htop
        omega
    exact .of_running htyped hwaiting (hmethod₂.trans hmethod ▸ hlinked)

/-- **One step keeps the assigned types.** -/
theorem Typed.step (hx : x.Typed h S) (hin : x.Inside) (ha : x.Addressable) (htidy : x.Tidy)
    (hlevel : x.Level h fun pc => (S pc).length) (hforeign : x.ReturnsDeclared)
    (hU : ∀ q, x.step.machine.prepared? h = some q → q.Uniform x.step.machine.metadata S) : x.step.Typed h S := by
  have hev := (hin.step ha).2
  have hy := htidy.step hin ha
  have hleveled := hlevel.step hin ha (fun value c rest hc hr => (hx.received value c rest hc hr).keepsResult)
    fun q hq => (hU q hq).leveled
  cases hin.steps ha with
  | @executes p _ _ w hstep =>
    have hsame := hstep.samePrograms
    have hready := (hsame.prepared? _).symm.trans hstep.inside.prepared
    refine hstep.settles.typed hstep.sound hstep.inside (hstep.orderly htidy.orderly) (hstep.tidy htidy)
      (fun c hc => (hx.waiting c hc).evolves hsame.evolves) hstep.next hstep.ran (hstep.delivers ha htidy.orderly)
      (hstep.keeps hin).2 hy hleveled hU ?_ (fun hh => ?_) (hx.entered _ hstep.control) rfl hforeign
    · obtain ⟨q, hq, htop⟩ := hlevel.running _ hstep.control
      cases hready.symm.trans hq
      exact htop
    · obtain ⟨q, hq, hholds⟩ := hx.running _ hstep.control hh
      cases hready.symm.trans hq
      exact hholds
  | @returns c callers _ _ _ _ hstep =>
    have hmem : ∀ c' ∈ c :: callers, c' ∈ x.callers := fun c' hc' => hstep.callers ▸ hc'
    exact hstep.settles.typed_return (w := ⟨x.machine, c.activation⟩) hstep.handed hin.sound hstep.inside.activation
      hstep.opcode htidy.orderly (htidy.waiting c (hmem c List.mem_cons_self))
      (hx.waiting c (hmem c List.mem_cons_self)) (fun c' hc' => hx.waiting c' (hmem c' (List.mem_cons_of_mem _ hc')))
      (fun value ho => hx.received value c callers (ho ▸ hstep.control) hstep.callers) hev hleveled hU
      (hx.linked c callers hstep.callers) hstep.control hforeign
  | ended hstep =>
    rw [hstep]
    exact hx

/-- **A whole run keeps the assigned types**, and the heights that go with them. -/
theorem Reaches.typed (hr : x.Reaches (fun z => z.Addressable ∧ z.ReturnsDeclared) y) (hin : x.Inside) (htidy : x.Tidy)
    (hx : (∀ q, x.machine.prepared? h = some q → q.Uniform x.machine.metadata S) →
      x.Typed h S ∧ x.Level h fun pc => (S pc).length)
    (hU : ∀ q, y.machine.prepared? h = some q → q.Uniform y.machine.metadata S) :
    y.Typed h S ∧ y.Level h fun pc => (S pc).length := by
  induction hr with
  | refl => exact hx hU
  | @step y hr _ ih =>
    have hra := hr.mono (Q := Addressable) fun _ hz => hz.1
    obtain ⟨hiny, -⟩ := hra.inside hin
    obtain ⟨ha, hforeign⟩ := hr.holds
    have hev := (hiny.step ha).2
    -- what is assigned at the end was assigned before
    obtain ⟨htyped, hlevel⟩ := ih fun q hq => by
      obtain ⟨q', hq', he⟩ := hev.prepared _ q hq
      rw [← hev.metadata]
      exact he.uniform (hU q' hq')
    refine ⟨htyped.step hiny ha (hra.tidy hin htidy) hlevel hforeign hU, ?_⟩
    exact hlevel.step hiny ha (fun value c rest hc hr => (htyped.received value c rest hc hr).keepsResult)
      fun q hq => (hU q hq).leveled

end Execution

theorem Machine.Orderly.start_typed {m : Machine} {symbol : MethodSymbol} {arguments : List Value} {h : MethodHandle}
    {S : Nat → List StackType} (hm : m.Orderly) (hs : m.Sound) (hsymbol : m.metadata.HasMethod symbol)
    (hargs : ∀ v ∈ arguments, v.Proper m.metadata)
    (hU : ∀ q, (m.start symbol arguments).machine.prepared? h = some q →
      q.Uniform (m.start symbol arguments).machine.metadata S) : (m.start symbol arguments).Typed h S :=
  .enter hm hs hsymbol hargs hU (fun c hc => by cases hc) trivial fun _ c rest _ hc => by cases hc

/-! ## What the invariant gives -/

/-- **An operand of a type can be read**: the readers of its type give a value and change nothing. A 32-bit integer may
also be read as one of native size, and of a pointer nothing is said. -/
def Workspace.ReadsAs (p : Prepared) (w : Workspace) (n : Nat) : StackType → Prop
  | .int32 => (∃ i, (ExecM.int32At p n).run w = (.ok i, w)) ∧ ∃ i, (ExecM.nativeAt p n).run w = (.ok i, w)
  | .int64 => ∃ i, (ExecM.int64At p n).run w = (.ok i, w)
  | .nativeInt => ∃ i, (ExecM.nativeAt p n).run w = (.ok i, w)
  | .float => ∃ x, (ExecM.floatAt p n).run w = (.ok x, w)
  | .object => ∃ r, (ExecM.objectAt p n).run w = (.ok r, w)
  | .pointer => True

namespace ExecM

variable {p : Prepared} {w : Workspace} {n : Nat} {v : Value} {α : Type}

/-- A value that is selected can be read. -/
theorem getAs_run {expected : String} {select : Value → Option α} {a : α}
    (hlow : p.layout.stackBase + n + 1 ≤ w.activation.top)
    (hv : w.activation.frame.slots[w.activation.top - (n + 1)]? = some v) (ha : select v = some a) :
    (do let slot ← stackSlot p n
        ofEngine ((← activation).frame.getAs slot expected select) : ExecM α).run w = (.ok a, w) := by
  have hget : w.activation.frame.getAs (w.activation.top - (n + 1)) expected select = .ok a := by
    simp only [Frame.getAs, Frame.get, hv, bind, Except.bind, ha, pure, Except.pure]
  have hslot : (stackSlot p n).run w = (.ok (w.activation.top - (n + 1)), w) := by
    show (if _ then _ else _ : ExecM Nat).run w = _
    rw [if_pos hlow]
    rfl
  rw [Meets.run_bind, hslot]
  show (ofEngine (w.activation.frame.getAs (w.activation.top - (n + 1)) expected select)).run w = _
  rw [hget]
  rfl

end ExecM

/-- **A value that fits its type can be read.** -/
theorem Value.Fits.readsAs {p : Prepared} {w : Workspace} {n : Nat} {v : Value} {t : StackType} (hfits : v.Fits t)
    (hlow : p.layout.stackBase + n + 1 ≤ w.activation.top)
    (hv : w.activation.frame.slots[w.activation.top - (n + 1)]? = some v) : w.ReadsAs p n t := by
  cases t with
  | pointer => trivial
  | int32 =>
    cases v <;> cases hfits.eq nofun
    exact ⟨⟨_, ExecM.getAs_run hlow hv rfl⟩, _, ExecM.getAs_run hlow hv rfl⟩
  | int64 =>
    cases v <;> cases hfits.eq nofun
    exact ⟨_, ExecM.getAs_run hlow hv rfl⟩
  | nativeInt =>
    cases v <;> cases hfits.eq nofun
    exact ⟨_, ExecM.getAs_run hlow hv rfl⟩
  | float =>
    cases v <;> cases hfits.eq nofun
    exact ⟨_, ExecM.getAs_run hlow hv rfl⟩
  | object =>
    cases v <;> cases hfits.eq nofun
    exact ⟨_, ExecM.getAs_run hlow hv rfl⟩

/-- **Annotations are sound.** Let the types of the stack of a method not depend on the path, and let what host
functions, overrides and targets of jumps return be what the call site declares. Then, wherever a run has come to, an
activation of the method that runs has as many values on its stack as types are assigned to its offset, each value fits
its type, and an instruction whose execution depends on operand types finds the operands that its annotation names and
can read them. -/
theorem Execution.stack_fits_annotations {m : Machine} {symbol : MethodSymbol} {arguments : List Value} {x : Execution}
    {h : MethodHandle} {p : Prepared} {S : Nat → List StackType} (hm : m.Maintained)
    (hsymbol : m.metadata.HasMethod symbol) (hargs : ∀ v ∈ arguments, v.Proper m.metadata)
    (hx : (m.start symbol arguments).Reaches (fun y => y.Addressable ∧ y.ReturnsDeclared) x)
    (hp : x.machine.prepared? h = some p) (hS : p.Uniform x.machine.metadata S) :
    ∀ a, x.control = .running a → a.method = h →
      a.top = p.layout.stackBase + (S a.pc).length ∧
      (∀ (n : Nat) t, (S a.pc)[n]? = some t → ∃ v, a.frame.slots[a.top - (n + 1)]? = some v ∧ v.Fits t) ∧
      ∀ op, p.declared.opcodeAt a.pc = .ok op → op.action.usesTypes = true →
        ∃ ts, p.analysis.operandTypes? a.pc = some ts ∧ ∀ (n : Nat) t, (ts.named op.action.annotated)[n]? = some t →
          (∃ v, a.frame.slots[a.top - (n + 1)]? = some v ∧ v.Fits t) ∧ Workspace.ReadsAs p ⟨x.machine, a⟩ n t := by
  intro a ha hmethod
  have hs := hm.reached.sound
  have hbegins : m.Begins (m.start symbol arguments) := .start symbol arguments
  have hin := hbegins.inside hs
  have hall : ∀ q, x.machine.prepared? h = some q → q.Uniform x.machine.metadata S := by
    intro q hq
    cases hp.symm.trans hq
    exact hS
  obtain ⟨htyped, hlevel⟩ := hx.typed hin (hm.orderly.start hs hsymbol hargs)
    (fun hU => ⟨hm.orderly.start_typed hs hsymbol hargs hU, hbegins.level hs fun q hq => (hU q hq).leveled⟩) hall
  obtain ⟨hinx, -⟩ := (hx.mono (Q := Addressable) fun _ hz => hz.1).inside hin
  obtain ⟨q, hq⟩ := hinx.running a ha
  cases hp.symm.trans (hmethod ▸ hq.prepared)
  have hsound := hinx.sound _ p hp
  have htop : a.top = p.layout.stackBase + (S a.pc).length := by
    obtain ⟨q, hq', htop⟩ := hlevel.running a ha
    cases hp.symm.trans (hmethod ▸ hq')
    exact htop hmethod
  have hholds : a.frame.Holds (p.types (S a.pc)) := by
    obtain ⟨q, hq', hholds⟩ := htyped.running a ha hmethod
    cases hp.symm.trans (hmethod ▸ hq')
    exact hholds
  have hvalues : ∀ (n : Nat) t, (S a.pc)[n]? = some t → ∃ v, a.frame.slots[a.top - (n + 1)]? = some v ∧ v.Fits t := by
    intro n t ht
    rw [htop]
    exact hsound.aligned.holds_at hholds ht
  refine ⟨htop, hvalues, fun op hop huses => ?_⟩
  obtain ⟨op', next, hd⟩ := hsound.declares hq.reachable
  cases hd.opcode.symm.trans hop
  obtain ⟨ts, hts, rest, hrest⟩ := hS.annotated hsound hq.reachable hd huses
  refine ⟨ts, hts, fun n t ht => ?_⟩
  have hlt := (List.getElem?_eq_some_iff.1 ht).1
  have hn : (S a.pc)[n]? = some t := by
    rw [← hrest, List.getElem?_append_left hlt]
    exact ht
  obtain ⟨v, hv, hfits⟩ := hvalues n t hn
  refine ⟨⟨v, hv, hfits⟩, hfits.readsAs ?_ hv⟩
  show p.layout.stackBase + n + 1 ≤ a.top
  have := (List.getElem?_eq_some_iff.1 hn).1
  omega

/-! ## A run that adds its arguments -/

theorem Native.lawful_idle (md : Metadata) : Native.idle.Lawful md := fun _ _ _ _ => ⟨.refl, fun v hv => by cases hv⟩

/-- A fresh machine on tables that were defined is one of a host that keeps to the rules. -/
theorem Machine.Maintained.make {md : Metadata} (hmd : md.Defined) (limit : Option Nat) (settings : Settings)
    (trace : Trace) : (Machine.make md limit settings trace).Maintained := by
  refine .fresh rfl (.empty limit hmd) fun k n hn => ?_
  rcases List.mem_cons.1 (mem_of_lookup hn) with he | he
  · cases he
    exact Native.lawful_idle md
  · cases List.mem_singleton.1 he
    exact Native.lawful_idle md

/-- A method that adds its two arguments: `ldarg.0`, `ldarg.1`, `add`, `ret`. -/
def addsArguments : MethodSymbol where
  handle := ⟨3⟩
  name := "addsArguments"
  declaring := Core.object
  signature := { parameters := [.i4, .i4], result := some .i4 }
  isVirtual := false
  body := some { code := #[0x02, 0x03, 0x58, 0x2A], maxStack := 2 }

/-- The core tables and that method, which has no body yet. -/
def addsArgumentsTables : Metadata :=
  (Metadata.core.declareMethod Core.object.token addsArguments.name addsArguments.signature false).2

/-- The run of `addsArguments` on one and two, after a number of steps. -/
def addsArgumentsRun (steps : Nat) : Execution :=
  steps.repeat Execution.step ((Machine.make addsArgumentsTables none {} {}).start addsArguments [.int32 1, .int32 2])

/-- The stacks that flow through `addsArguments`. -/
def addsArgumentsFlow : List (Nat × List StackType) :=
  [(0, []), (1, [.int32]), (2, [.int32, .int32]), (3, [.int32])]

theorem addsArguments_flows {a : MethodAnalysis} {pc : Nat} {stack : List StackType}
    (hf : Analysis.Flows (Analysis.contextOf addsArgumentsTables addsArguments (addsArguments.body.getD default)) a pc
      stack) : (pc, stack) ∈ addsArgumentsFlow :=
  hf.mem_of_closed (by decide +kernel) (by decide +kernel)

/-- No instruction of `addsArguments` boxes or asks for an address. -/
theorem addsArguments_actions : ∀ e ∈ addsArgumentsFlow,
    (Except.toOption ((Code.mk #[0x02, 0x03, 0x58, 0x2A]).opcodeAt e.1)).all
      (fun op => op.action != .box && op.action != .fieldAddress) = true := by decide +kernel

theorem addsArguments_uniform {p : Prepared} (hp : p.Sound addsArgumentsTables) (hsymbol : p.symbol = addsArguments) :
    p.Uniform addsArgumentsTables fun pc => (addsArgumentsFlow.lookup pc).getD [] := by
  have hflow : ∀ {pc stack}, Analysis.Flows (p.context addsArgumentsTables) p.analysis pc stack →
      (pc, stack) ∈ addsArgumentsFlow := by
    intro pc stack hf
    rw [Prepared.context, Prepared.body, hsymbol] at hf
    exact addsArguments_flows hf
  have hdeclared : p.declared = ⟨#[0x02, 0x03, 0x58, 0x2A]⟩ := by
    rw [Prepared.declared, Prepared.body, hsymbol]
    rfl
  have hactions : ∀ {pc op}, p.analysis.isReachable pc = true → p.declared.opcodeAt pc = .ok op →
      op.action ≠ .box ∧ op.action ≠ .fieldAddress := by
    intro pc op hr hop
    obtain ⟨stack, hf, -⟩ := hp.visit hr
    have hall := addsArguments_actions _ (hflow hf)
    rw [← hdeclared, hop] at hall
    simpa [Except.toOption] using hall
  refine ⟨.of_flows hp.accepted fun pc stack hf => ?_, fun pc op t type hr hop hbox => ?_, fun pc op t f hr hop hfield => ?_⟩
  · have hassigned : ∀ e ∈ addsArgumentsFlow, e.2 = (addsArgumentsFlow.lookup e.1).getD [] := by decide
    exact hassigned _ (hflow hf)
  · exact absurd hbox (hactions hr hop).1
  · exact absurd hfield (hactions hr hop).2

/-- The run goes on for three steps, one instruction each; its method is ready and can be addressed. -/
theorem addsArgumentsRun_checked : ∀ i ∈ List.range 4, (match (addsArgumentsRun i).control with
    | .running a => some (a.pc, a.method)
    | .ending _ => none) = some (i, ⟨3⟩) ∧
    (addsArgumentsRun i).machine.prepared.all (fun e => e.2.declared.size ≤ 2 ^ 32) = true ∧
    ((addsArgumentsRun i).machine.prepared? ⟨3⟩).map (·.symbol) = some addsArguments := by decide +kernel

theorem addsArgumentsRun_running {i : Nat} (hi : i < 4) : ∃ a, (addsArgumentsRun i).control = .running a ∧ a.pc = i ∧
    a.method = ⟨3⟩ := by
  have h := (addsArgumentsRun_checked i (List.mem_range.2 hi)).1
  cases hc : (addsArgumentsRun i).control with
  | running a =>
    rw [hc, Option.some.injEq, Prod.mk.injEq] at h
    exact ⟨a, rfl, h⟩
  | ending o =>
    rw [hc] at h
    cases h

theorem addsArgumentsRun_reaches : (addsArgumentsRun 0).Reaches (fun y => y.Addressable ∧ y.ReturnsDeclared)
    (addsArgumentsRun 2) := by
  rw [addsArgumentsRun, addsArgumentsRun, Nat.repeat]
  refine .repeat 2 fun i hi => ⟨Machine.addressable_of_all ?_, fun value c rest hv => ?_⟩
  · exact (addsArgumentsRun_checked i (List.mem_range.2 (by omega))).2.1
  · obtain ⟨a, ha, -⟩ := addsArgumentsRun_running (i := i + 1) (by omega)
    cases hv.symm.trans ha

theorem addsArgumentsRun_prepared : ∃ p, (addsArgumentsRun 2).machine.prepared? ⟨3⟩ = some p ∧
    p.symbol = addsArguments :=
  Option.map_eq_some_iff.1 (addsArgumentsRun_checked 2 (by decide)).2.2

/-- At the addition there are two integers on the stack, as the annotation says, and both can be read. -/
theorem Execution.addsArguments_reads_operands : ∃ a p, (addsArgumentsRun 2).control = .running a ∧ a.pc = 2 ∧
    (addsArgumentsRun 2).machine.prepared? ⟨3⟩ = some p ∧ ∃ ts, p.analysis.operandTypes? 2 = some ts ∧
      ∀ (n : Nat) t, (ts.named 2)[n]? = some t →
        (∃ v, a.frame.slots[a.top - (n + 1)]? = some v ∧ v.Fits t) ∧
        Workspace.ReadsAs p ⟨(addsArgumentsRun 2).machine, a⟩ n t := by
  have hmd : addsArgumentsTables.Defined := .defines .core (.method ..)
  have hm : (Machine.make addsArgumentsTables none {} {}).Maintained := .make hmd none {} {}
  have hmethod : addsArgumentsTables.HasMethod addsArguments := ⟨none, by decide +kernel⟩
  have hargs : ∀ v ∈ [Value.int32 1, .int32 2], v.Proper addsArgumentsTables := by
    intro v hv
    simp only [List.mem_cons, List.not_mem_nil, or_false] at hv
    rcases hv with rfl | rfl <;> trivial
  obtain ⟨p, hp, hsymbol⟩ := addsArgumentsRun_prepared
  obtain ⟨a, ha, hpc, hh⟩ := addsArgumentsRun_running (i := 2) (by omega)
  have hbegins : (Machine.make addsArgumentsTables none {} {}).Begins (addsArgumentsRun 0) :=
    .start addsArguments [.int32 1, .int32 2]
  have hs := hm.reached.sound
  have hr : (addsArgumentsRun 0).Reaches Addressable (addsArgumentsRun 2) :=
    addsArgumentsRun_reaches.mono fun _ hz => hz.1
  obtain ⟨hin, hev⟩ := hr.inside (hbegins.inside hs)
  have htables : (addsArgumentsRun 2).machine.metadata = addsArgumentsTables :=
    hev.metadata.trans (hbegins.metadata hs)
  have hS := addsArguments_uniform (htables ▸ hin.sound _ p hp) hsymbol
  obtain ⟨-, -, hannotated⟩ := Execution.stack_fits_annotations hm hmethod hargs addsArgumentsRun_reaches hp
    (htables ▸ hS) a ha hh
  have hop : p.declared.opcodeAt a.pc = .ok .add := by
    rw [hpc, Prepared.declared, Prepared.body, hsymbol]
    decide +kernel
  obtain ⟨ts, hts, hreads⟩ := hannotated .add hop rfl
  exact ⟨a, p, ha, hpc, hp, ts, hpc ▸ hts, hreads⟩

end ManagedCode
