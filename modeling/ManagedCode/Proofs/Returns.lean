import ManagedCode.Proofs.Arrivals
import ManagedCode.Proofs.Definitions
import ManagedCode.Proofs.Passing
import ManagedCode.Proofs.Resuming
import ManagedCode.Proofs.Upkeep

/-!
# What a method gives back

A return narrows its value to the kind that the signature of its method declares (`ExecM.instruction_declares`). A jump
to another method hands on what that method answers, whatever it declares, and a host function may answer anything. So
what a call answers is what the chain of its jumps ends in (`Machine.Answers`), and it is what the signature declares if
the methods along the chain agree on it.
-/

namespace ManagedCode

/-- **What a signature declares of the end of a call**: there is a value exactly if there is a result, and the kind of
the result made it. -/
structure Signature.Declares (s : Signature) (value : Option Value) : Prop where
  isSome : value.isSome = s.result.isSome
  made : ∀ k v, s.result = some k → value = some v → k.Made v

theorem Signature.Declares.of_result {s s' : Signature} {value : Option Value} (h : s.Declares value)
    (hresult : s'.result = s.result) : s'.Declares value :=
  ⟨by rw [hresult]; exact h.isSome, fun k v hk => h.made k v (hresult.symm.trans hk)⟩

/-! ## Returns -/

/-- Where nothing is said of errors, what is said of the last part alone holds of the whole. -/
theorem Meets.bind_last {ε σ α β : Type} {x : ExceptT ε (StateM σ) α} {f : α → ExceptT ε (StateM σ) β} {s : σ}
    {R : β → σ → Prop} {E : ε → σ → Prop} (hE : ∀ e t, E e t) (hf : ∀ a t, Meets (f a) t R E) :
    Meets (x >>= f) s R E := by
  unfold Meets
  rw [Meets.run_bind]
  rcases x.run s with ⟨e | a, t⟩
  · exact hE e t
  · exact hf a t

namespace ExecM

variable {p : Prepared} {w : Workspace}

theorem ret_declares :
    Meets (ret p) w (fun n _ => ∀ v, n = .ret v → p.symbol.signature.Declares v) fun _ _ => True := by
  have hlast : ∀ (v : Option Value) (w : Workspace), p.symbol.signature.Declares v → Meets (do
      let a ← activation
      if a.top ≠ p.layout.stackBase then fail (.invalidProgram a.pc .returnWithOperands)
      else return .ret v : ExecM Next) w (fun n _ => ∀ v, n = .ret v → p.symbol.signature.Declares v)
      fun _ _ => True := by
    intro v w hv
    refine activation_bind ?_
    split
    · trivial
    · rintro _ ⟨⟩
      exact hv
  unfold ret
  cases hr : p.symbol.signature.result with
  | none => exact hlast none w ⟨by rw [hr]; rfl, fun _ _ _ hv => by cases hv⟩
  | some k =>
    dsimp only
    refine Meets.bind (pop_meets.mono (fun _ _ _ => trivial) fun _ _ _ => trivial) fun v w₁ _ => activation_bind ?_
    have hmade := looks_normalize (m := w₁.machine) (a := w₁.activation) w₁.activation.top k v w₁ ⟨rfl, rfl, rfl⟩
    refine Meets.bind (hmade.mono (fun _ _ h => h.1) fun _ _ _ => trivial) fun u w₂ hu => hlast (some u) w₂ ?_
    refine ⟨by rw [hr]; rfl, fun k' u' hk' hu' => ?_⟩
    cases hr.symm.trans hk'
    cases hu'
    exact hu

theorem invoke_asks (site : CallSite) : Meets (invoke p site) w (fun n _ => ∀ v, n ≠ .ret v) fun _ _ => True :=
  (invoke_meets site).mono (fun _ _ ⟨⟨_, _, _, hn, _⟩, _, _⟩ v h => by rw [hn] at h; cases h) fun _ _ _ => trivial

/-- **What an instruction returns is what the signature of its method declares.** -/
theorem instruction_declares (hp : p.Framed) (pc : Nat) (op : Opcode) (w : Workspace) :
    Meets (instruction p pc op) w (fun n _ => ∀ v, n = .ret v → p.symbol.signature.Declares v) fun _ _ => True := by
  have other : ∀ {x : ExecM Next} {w : Workspace}, Meets x w (fun n _ => ∀ v, n ≠ .ret v) (fun _ _ => True) →
      Meets x w (fun n _ => ∀ v, n = .ret v → p.symbol.signature.Declares v) fun _ _ => True :=
    fun hx => hx.mono (fun _ _ h v hn => absurd hn (h v)) fun _ _ h => h
  cases ht : op.action.isTransfer with
  | false =>
    refine other ((instruction_wrote hp pc w ht).mono ?_ fun _ _ _ => trivial)
    rintro _ _ ⟨hstays, -⟩ v rfl
    exact hstays
  | true =>
    unfold instruction
    cases hact : op.action with
    | ret => exact ret_declares
    | leave =>
      refine other (leave_enters.mono ?_ fun _ _ _ => trivial)
      rintro _ _ ⟨_, _, _, -, -, rfl, -⟩ v hv
      cases hv
    | endFinally =>
      refine other (endFinally_meets.mono ?_ fun _ _ _ => trivial)
      rintro _ _ ⟨_, ⟨_, _, -, rfl, -⟩ | ⟨_, rfl, -⟩⟩ v hv <;> cases hv
    | callSite kind =>
      refine other ?_
      dsimp only
      unfold callSite
      refine ofEngine_bind (fun t _ => ?_) fun _ _ => trivial
      have herror : ∀ (_ : Trap) (_ : Workspace), True := fun _ _ => trivial
      exact .bind_last herror fun site _ => .bind_last herror fun _ _ => invoke_asks site
    | cachedCall =>
      refine other ?_
      dsimp only
      unfold cachedCall
      refine ofEngine_bind (fun i _ => ?_) fun _ _ => trivial
      split
      · exact invoke_asks _
      · trivial
    | _ => rw [hact] at ht; cases ht

end ExecM

/-! ## Answers -/

/-- **What a call of a method may answer**: what its own return gives, what the host function gives that stands in for
it, or what a method answers that it jumps to. -/
inductive Machine.Answers (m : Machine) : MethodSymbol → Option Value → Prop where
  | returned {symbol : MethodSymbol} {p : Prepared} {value : Option Value} : m.prepared? symbol.handle = some p →
      p.symbol.signature.Declares value → Answers m symbol value
  | native {symbol : MethodSymbol} {n : Native} {arguments : List Value} {h : Heap} {value : Option Value} :
      symbol.body = none → m.native? symbol.handle = some n → ((n.run m.metadata arguments).run h).1 = .ok value →
      Answers m symbol value
  | jumped {symbol target : MethodSymbol} {p : Prepared} {pc : Nat} {value : Option Value} :
      m.prepared? symbol.handle = some p → p.HasSite m.metadata pc (.jmp target) → Answers m target value →
      Answers m symbol value

/-- **The call of `symbol` is what the first of the activations waits for**, each of them for the call that the one
before it has made; the outermost call is one of `root`. -/
inductive Machine.Waits (m : Machine) (root : MethodSymbol) : MethodSymbol → List Caller → Prop where
  | outermost : Waits m root root []
  | called {symbol target : MethodSymbol} {p : Prepared} {site : CallSite} {c : Caller} {callers : List Caller} :
      symbol.handle = c.activation.method → m.prepared? symbol.handle = some p →
      p.HasSite m.metadata c.activation.pc site → site.Enters target c.continuation → Waits m root symbol callers →
      Waits m root target (c :: callers)

/-- The run leaves what calls answer as it is: methods that are ready stay ready, and host functions are the same. -/
structure Machine.Continues (m m' : Machine) : Prop where
  evolves : m.Evolves m'
  natives : m'.natives = m.natives

section

variable {m m' m'' : Machine} {root symbol : MethodSymbol} {value : Option Value} {callers : List Caller}

theorem Machine.Continues.trans (h : m.Continues m') (h' : m'.Continues m'') : m.Continues m'' :=
  ⟨h.evolves.trans h'.evolves, h'.natives.trans h.natives⟩

theorem Machine.Answers.continues (h : m.Answers symbol value) (hm : m.Continues m') : m'.Answers symbol value := by
  induction h with
  | returned hp hv =>
    obtain ⟨p', hp', hev⟩ := hm.evolves.prepared _ _ hp
    exact .returned hp' (by rw [hev.symbol]; exact hv)
  | native hb hn hv =>
    refine .native hb ?_ (by rw [hm.evolves.metadata]; exact hv)
    rw [Machine.native?, hm.natives]
    exact hn
  | jumped hp hsite _ ih =>
    obtain ⟨p', hp', hev⟩ := hm.evolves.prepared _ _ hp
    exact .jumped hp' (by rw [hm.evolves.metadata]; exact hev.hasSite hsite) ih

theorem Machine.Waits.evolves (h : m.Waits root symbol callers) (hm : m.Evolves m') :
    m'.Waits root symbol callers := by
  induction h with
  | outermost => exact .outermost
  | called hmethod hp hsite hent _ ih =>
    obtain ⟨p', hp', hev⟩ := hm.prepared _ _ hp
    exact .called hmethod hp' (by rw [hm.metadata]; exact hev.hasSite hsite) hent ih

end

/-! ## Host functions stay -/

theorem ExecM.Ran.natives {md : Metadata} {p : Prepared} {next : Nat} {w : Workspace} {op : Opcode}
    {r : Except Trap Next × Workspace} (h : Ran md p next w op r) : r.2.machine.natives = w.machine.natives := by
  obtain ⟨w₁, u, hg, n, hk⟩ := h.shifted
  have hlast : r.2.machine.natives = w₁.machine.natives := by
    rw [hk.machine]
    rfl
  rw [hlast, hg.machine]

theorem Machine.Readied.natives {m m' : Machine} {symbol : MethodSymbol} (h : m.Readied symbol m') :
    m'.natives = m.natives := by rw [h.same]

theorem Machine.enter_natives (m : Machine) (symbol : MethodSymbol) (arguments : List Value) :
    (m.enter symbol arguments).2.natives = m.natives := by
  have hent := enter_enters m symbol arguments
  generalize m.enter symbol arguments = r at hent
  cases hent with
  | refused hr | native _ hr | started hr => exact hr.natives
  | @failed m₁ p t h depth hr =>
    have hraise : (({ m₁ with heap := h } : Machine).raise t).2.natives = m₁.natives := by cases t <;> rfl
    exact hraise.trans hr.natives

namespace Execution

variable {x y : Execution} {p : Prepared} {op : Opcode} {before next : Nat} {callers : List Caller}
  {r : Except Trap Next × Workspace} {w : Workspace} {root symbol : MethodSymbol}

theorem Settles.natives (h : Settles p op before callers r y) : y.machine.natives = r.2.machine.natives := by
  cases h with
  | @moved n dest w w' _ hm =>
    show w'.machine.natives = w.machine.natives
    rw [hm.machine]
  | called target arguments c w => exact Machine.enter_natives ..
  | @caught t e w₁ w₂ w₃ dest object u ht hd hent =>
    have hraised : w₂.machine.natives = w₁.machine.natives := by
      cases t with
      | abort a => cases ht
      | thrown e' => cases ht; rfl
      | fault k message => cases ht; rfl
    have hentered : w₃.machine.natives = w₂.machine.natives := by
      rw [hent.kept.machine]
      rfl
    exact hentered.trans hraised
  | @ended r w m o hl _ =>
    show m.natives = w.machine.natives
    rw [hl.machine]

/-- An activation that goes on without a call does so in its method. -/
theorem Settles.method_of_running {a : Activation} (h : Settles p op before callers r y) (ha : y.control = .running a)
    (hcallers : y.callers = callers) : a.method = r.2.activation.method := by
  cases h with
  | moved _ hm =>
    cases ha
    exact hm.goes.2.1
  | called => exact absurd hcallers (List.cons_ne_self _ _)
  | @caught t e w₁ w₂ w₃ dest object u ht _ hent =>
    cases ha
    show w₃.activation.method = w₁.activation.method
    exact caught_method ht hent
  | ended => cases ha

/-! ## The method that has ended -/

/-- **Every activation is linked to the call that it was made for**, and a call that has ended answered what it may. -/
structure Linked (root : MethodSymbol) (x : Execution) : Prop where
  running : ∀ a, x.control = .running a → ∃ symbol : MethodSymbol, symbol.handle = a.method ∧
    x.machine.Waits root symbol x.callers
  ending : ∀ o, x.control = .ending o → ∃ symbol, x.machine.Waits root symbol x.callers ∧
    ∀ v, o = .ok v → x.machine.Answers symbol v

/-- What a call of a method begins with: its activation, or the end of it. -/
theorem Linked.enter {m : Machine} {arguments : List Value} (hs : m.Sound)
    (hw : m.Waits root symbol callers) : Linked root ((m.start symbol arguments).above callers) := by
  obtain ⟨-, hev, hstart⟩ := Machine.enter_sound hs symbol arguments
  have hwaits := hw.evolves hev
  refine ⟨fun a ha => ?_, fun o ho => ⟨symbol, hwaits, fun v hv => ?_⟩⟩
  · obtain ⟨p, frame, depth, -, rfl, -⟩ := hstart a ha
    exact ⟨symbol, rfl, hwaits⟩
  · subst hv
    have hent := Machine.enter_enters m symbol arguments
    have hnatives := m.enter_natives symbol arguments
    have hcontrol : (m.enter symbol arguments).1 = .ending (.ok v) := ho
    show (m.enter symbol arguments).2.Answers symbol v
    generalize m.enter symbol arguments = r at hent hnatives hcontrol hev
    cases hent with
    | refused => cases hcontrol
    | native hb hr hn =>
      have hcontinues : Machine.Continues m _ := ⟨hev, hnatives⟩
      exact (Machine.Answers.native hb hn (Control.ending.inj hcontrol)).continues hcontinues
    | failed => cases hcontrol
    | started => cases hcontrol

/-- **What comes of an instruction is linked.** -/
theorem Settles.linked (hset : Settles p op before callers r y) (hs : w.machine.Sound)
    (hp : w.machine.prepared? w.activation.method = some p) (hran : ExecM.Ran w.machine.metadata p next w op r)
    (hdeclares : ∀ v, r.1 = .ok (.ret v) → p.symbol.signature.Declares v)
    (hsymbol : symbol.handle = w.activation.method) (hw : w.machine.Waits root symbol callers)
    (hev : w.machine.Evolves y.machine) : Linked root y := by
  obtain ⟨hevr, hsound, hmethod, hpc⟩ := hran.keeps
  have hwaits := hw.evolves hev
  have hgoes : ∀ a, y.control = .running a → y.callers = callers → symbol.handle = a.method :=
    fun a ha hc => hsymbol.trans ((hset.method_of_running ha hc).trans hmethod).symm
  cases hset with
  | ended _ ho =>
    refine ⟨(fun a ha => by cases ha), fun o ho' => ⟨symbol, hwaits, fun v hv => ?_⟩⟩
    cases ho'
    obtain ⟨p', hp', hevp⟩ := hev.prepared _ p hp
    refine .returned (hsymbol ▸ hp') ?_
    rw [hevp.symbol]
    exact hdeclares v (ho v hv)
  | moved => exact ⟨fun a ha => ⟨symbol, hgoes a ha rfl, hwaits⟩, fun o ho => by cases ho⟩
  | called target arguments c w₁ =>
    obtain ⟨site, -, hsite, hent, -⟩ := hran.of_invoke
    have hpc : w₁.activation.pc = w.activation.pc := hpc
    rw [← hpc] at hsite
    have hcalled : w.machine.Waits root target (⟨w₁.activation, c⟩ :: callers) :=
      .called (hsymbol.trans hmethod.symm) (hsymbol ▸ hp) hsite hent hw
    exact Linked.enter (hsound hs) (hcalled.evolves hevr)
  | caught => exact ⟨fun a ha => ⟨symbol, hgoes a ha rfl, hwaits⟩, fun o ho => by cases ho⟩

/-- **What comes of the end of a call is linked**: what a jump hands on, the method that it went to has answered. -/
theorem Settles.linked_return {c : Continuation} {o : Outcome} {site : CallSite} {target : MethodSymbol}
    (hset : Settles p op before callers r y) (hr : Handed c w o r)
    (hp : w.machine.prepared? w.activation.method = some p)
    (hsite : p.HasSite w.machine.metadata w.activation.pc site) (hent : site.Enters target c)
    (hsymbol : symbol.handle = w.activation.method) (hw : w.machine.Waits root symbol callers)
    (hanswers : ∀ v, o = .ok v → w.machine.Answers target v) (hev : w.machine.Evolves y.machine) :
    Linked root y ∧ w.machine.Continues y.machine := by
  have hcontinues : w.machine.Continues y.machine := by
    refine ⟨hev, hset.natives.trans ?_⟩
    cases hr <;> rfl
  refine ⟨?_, hcontinues⟩
  have hwaits := hw.evolves hev
  have hmethod : r.2.activation.method = w.activation.method := by cases hr <;> rfl
  have hgoes : ∀ a, y.control = .running a → y.callers = callers → symbol.handle = a.method :=
    fun a ha hc => hsymbol.trans ((hset.method_of_running ha hc).trans hmethod).symm
  cases hset with
  | ended _ ho =>
    refine ⟨(fun a ha => by cases ha), fun o' ho' => ⟨symbol, hwaits, fun v hv => ?_⟩⟩
    cases ho'
    cases ho v hv
    cases hr with
    | returned hc =>
      -- only a jump waits to return again what it is given
      subst hc
      cases hent
      exact (Machine.Answers.jumped (hsymbol ▸ hp) hsite (hanswers v rfl)).continues hcontinues
  | moved => exact ⟨fun a ha => ⟨symbol, hgoes a ha rfl, hwaits⟩, fun o ho => by cases ho⟩
  | called => cases hr
  | caught => exact ⟨fun a ha => ⟨symbol, hgoes a ha rfl, hwaits⟩, fun o ho => by cases ho⟩

/-- **One step keeps a run linked.** -/
theorem Linked.step (h : Linked root x) (hin : x.Inside) (hn : x.Addressable) :
    Linked root x.step ∧ x.machine.Continues x.step.machine := by
  have hev := (hin.step hn).2
  cases hin.steps hn with
  | @executes p op _ w hx =>
    obtain ⟨symbol, hsymbol, hw⟩ := h.running _ hx.control
    have hdeclares := ExecM.instruction_declares (hx.sound.framed _ p hx.inside.prepared) w.activation.pc op w
    refine ⟨hx.settles.linked hx.sound hx.inside.prepared hx.ran (fun v hv => ?_) hsymbol
      (hw.evolves hx.samePrograms.evolves) (hx.keeps hin).2, hev, ?_⟩
    · exact hdeclares.of_ok (Prod.ext hv rfl) v rfl
    · refine hx.settles.natives.trans (hx.ran.natives.trans ?_)
      rw [hx.noted.machine]
  | @returns c callers o p _ _ hx =>
    obtain ⟨symbol, hw, hanswers⟩ := h.ending o hx.control
    rw [hx.callers] at hw
    cases hw with
    | called hsymbol hp hsite hent hw =>
      cases hx.inside.activation.prepared.symm.trans (hsymbol ▸ hp)
      exact hx.settles.linked_return (w := ⟨x.machine, c.activation⟩) hx.handed (hsymbol ▸ hp) hsite hent hsymbol hw
        hanswers hev
  | ended hstep =>
    rw [hstep]
    exact ⟨h, .refl _, rfl⟩

/-- **A whole run stays linked.** -/
theorem Reaches.linked (hr : x.Reaches Addressable y) (hin : x.Inside) (hx : Linked root x) : Linked root y := by
  induction hr with
  | refl => exact hx
  | step hr _ ih => exact (ih.step (hr.inside hin).1 hr.holds).1

end Execution

namespace Machine

variable {m : Machine} {symbol : MethodSymbol} {value : Option Value} {x : Execution}

/-- A call that goes on in a frame answers nothing without executing an instruction. -/
theorem reenter_answers_not (frame : Frame) (offset top : Nat) :
    (m.reenter symbol frame offset top).1 ≠ .ending (.ok value) := by
  unfold reenter deeper
  split
  · nofun
  · dsimp only
    rcases ({ m with depth := m.depth + 1 } : Machine).prepare symbol with ⟨e | p, m₁⟩
    · nofun
    · dsimp only
      split
      · nofun
      · split
        · nofun
        · split <;> nofun

/-- The calls of a method that the host can make: from the start, or going on in a frame. -/
inductive Calls (m : Machine) (symbol : MethodSymbol) : Execution → Prop where
  | start (arguments : List Value) : Calls m symbol (m.start symbol arguments)
  | restart (frame : Frame) (offset top : Nat) : Calls m symbol (m.restart symbol frame offset top)

theorem Calls.begins (h : m.Calls symbol x) : m.Begins x := by
  cases h with
  | start arguments => exact .start symbol arguments
  | restart frame offset top => exact .restart symbol frame offset top

theorem Calls.linked (h : m.Calls symbol x) (hs : m.Sound) : Execution.Linked symbol x := by
  cases h with
  | start arguments => exact Execution.Linked.enter hs .outermost
  | restart frame offset top =>
    refine ⟨fun a ha => ⟨symbol, ?_, .outermost⟩, fun o ho => ⟨symbol, .outermost, fun v hv => ?_⟩⟩
    · obtain ⟨-, -, hrun⟩ := reenter_sound hs symbol frame offset top
      obtain ⟨p, depth, -, rfl, -⟩ := hrun a ha
      rfl
    · subst hv
      exact absurd ho (reenter_answers_not frame offset top)

/-- **All jumps of the methods that are ready** go to methods with a body, and with the same result. -/
def JumpsAgree (m : Machine) : Prop :=
  ∀ k p pc target, m.prepared? k = some p → p.HasSite m.metadata pc (.jmp target) →
    target.body.isSome = true ∧
      ∀ q, m.prepared? target.handle = some q → q.symbol.signature.result = p.symbol.signature.result

/-- A method with a body answers by itself what it declares, or what a method answers that it jumps to. -/
theorem Answers.declared_or_jumped (h : m.Answers symbol value) (hb : symbol.body.isSome = true) :
    ∃ p, m.prepared? symbol.handle = some p ∧ (p.symbol.signature.Declares value ∨
      ∃ pc target, p.HasSite m.metadata pc (.jmp target) ∧ m.Answers target value) := by
  cases h with
  | returned hp hv => exact ⟨_, hp, .inl hv⟩
  | native hn => rw [hn] at hb; cases hb
  | jumped hp hsite h => exact ⟨_, hp, .inr ⟨_, _, hsite, h⟩⟩

/-- Where jumps agree, a method with a body answers what it declares. -/
theorem Answers.declares (h : m.Answers symbol value) (hj : m.JumpsAgree) (hb : symbol.body.isSome = true) :
    ∃ p, m.prepared? symbol.handle = some p ∧ p.symbol.signature.Declares value := by
  induction h with
  | returned hp hv => exact ⟨_, hp, hv⟩
  | native hn => rw [hn] at hb; cases hb
  | jumped hp hsite _ ih =>
    -- the next method of the chain has a body too, so a host function never ends it
    obtain ⟨hbody, hresult⟩ := hj _ _ _ _ hp hsite
    obtain ⟨q, hq, hv⟩ := ih hbody
    exact ⟨_, hp, hv.of_result (hresult q hq).symm⟩

end Machine

namespace Execution

variable {x : Execution} {a : Activation} {c : Caller} {callers : List Caller} {v v' : Option Value}

/-- **An activation that ends by an instruction of its own** returns what its method declares. -/
theorem declares_of_ends (hin : x.Inside) (hn : x.Addressable) (ha : x.control = .running a)
    (hend : x.step.control = .ending (.ok v)) (hcallers : x.step.callers = x.callers) :
    ∃ p, x.machine.prepared? a.method = some p ∧ p.symbol.signature.Declares v := by
  obtain ⟨p, op, next, w, rfl, hx⟩ := hin.executing hn ha
  have hprepared := hx.inside.prepared
  have hdeclares := ExecM.instruction_declares (hx.sound.framed _ p hprepared) w.activation.pc op w
  refine ⟨p, (hx.samePrograms.prepared? _).symm.trans hprepared, ?_⟩
  have hset := hx.settles
  generalize hr : (ExecM.instruction p w.activation.pc op).run w = r at hset
  generalize x.step = y at hset hend hcallers
  cases hset with
  | moved => cases hend
  | called => exact absurd hcallers (List.cons_ne_self _ _)
  | caught => cases hend
  | ended _ ho =>
    cases hend
    exact hdeclares.of_ok (hr.trans (Prod.ext (ho v rfl) rfl)) v rfl

/-- **An end of a call that ends the waiting activation too** comes from a jump, and hands on what it was given. -/
theorem jumped_of_ends (hin : x.Inside) (ho : x.control = .ending (.ok v)) (hcallers : x.callers = c :: callers)
    (hend : x.step.control = .ending (.ok v')) : v' = v ∧ ∃ p target,
      x.machine.prepared? c.activation.method = some p ∧
      p.HasSite x.machine.metadata c.activation.pc (.jmp target) := by
  obtain ⟨p, op, r, hx⟩ := hin.returning ho hcallers
  obtain ⟨site, target, hsite, hent⟩ := hx.inside.site
  have hset := hx.settles
  have hhanded := hx.handed
  generalize x.step = y at hset hend
  cases hset with
  | moved => cases hend
  | called => cases hhanded
  | caught => cases hend
  | ended _ hret =>
    cases hend
    have hreturned := hret v' rfl
    cases hhanded with
    | returned hc =>
      cases hreturned
      rw [hc] at hent
      cases hent
      exact ⟨rfl, p, target, hx.inside.activation.prepared, hsite⟩
    | _ => cases hreturned

end Execution

/-- **What calls give back.** Whatever the host did before, let it call the method `symbol`, from the start or in a
frame, and let `x` be any point of the run.
* An activation that ends there with a value or without one, by an instruction of its own, gives what the signature of
  its method declares: a value exactly if there is a result, which the kind of the result made.
* An activation that ends there because a call of its own has ended jumped to the method that it called, and gives what
  that one gave.
* A call that has ended there, the one of the host or one made in the run, and is one of a method with a body, gave what
  the signature of the method declares, or what a method answers that it jumps to. If all jumps go to methods with a
  body and the same result, it is what the signature declares. -/
theorem Machine.Calls.gives_back {m : Machine} {symbol : MethodSymbol} {x₀ x : Execution} (hm : m.Reached)
    (hb : m.Calls symbol x₀) (hx : x₀.Reaches Execution.Addressable x) :
    (∀ a v, x.control = .running a → x.step.control = .ending (.ok v) → x.step.callers = x.callers →
      ∃ p, x.machine.prepared? a.method = some p ∧ p.symbol.signature.Declares v) ∧
    (∀ v v' c callers, x.control = .ending (.ok v) → x.callers = c :: callers → x.step.control = .ending (.ok v') →
      v' = v ∧ ∃ p target, x.machine.prepared? c.activation.method = some p ∧
        p.HasSite x.machine.metadata c.activation.pc (.jmp target)) ∧
    ∀ v, x.control = .ending (.ok v) → ∃ target, x.machine.Waits symbol target x.callers ∧
      (target.body.isSome = true → ∃ p, x.machine.prepared? target.handle = some p ∧
        (p.symbol.signature.Declares v ∨
          ∃ pc next, p.HasSite x.machine.metadata pc (.jmp next) ∧ x.machine.Answers next v) ∧
        (x.machine.JumpsAgree → p.symbol.signature.Declares v)) := by
  obtain ⟨hin, -⟩ := hx.inside (hb.begins.inside hm.sound)
  refine ⟨fun a v ha => Execution.declares_of_ends hin hx.holds ha, fun v v' c callers => Execution.jumped_of_ends hin,
    fun v hv => ?_⟩
  obtain ⟨target, hw, hanswers⟩ := (hx.linked (hb.begins.inside hm.sound) (hb.linked hm.sound)).ending _ hv
  refine ⟨target, hw, fun hbody => ?_⟩
  obtain ⟨p, hp, hfrom⟩ := (hanswers v rfl).declared_or_jumped hbody
  refine ⟨p, hp, hfrom, fun hjumps => ?_⟩
  obtain ⟨q, hq, hdeclares⟩ := (hanswers v rfl).declares hjumps hbody
  cases hp.symm.trans hq
  exact hdeclares

/-! ## A jump to a method with another result -/

/-- Tables with a method without a result that jumps to a method that returns 5. -/
def jumpingTables : Metadata :=
  .built [.defineMethod "returnsFive" { result := some .i4 } ⟨#[0x1B, 0x2A], 1, [], []⟩,
    .defineMethod "jumps" {} ⟨#[0x27, 4, 0, 0, 6], 0, [], []⟩]

/-- The method of the tables that jumps. -/
def jumpingMethod : MethodSymbol := (jumpingTables.methodSymbol? ⟨3⟩).getD default

/-- The run of the method that jumps, after a number of steps. -/
def jumpingRun (steps : Nat) : Execution :=
  steps.repeat Execution.step ((Machine.make jumpingTables none {} {}).start jumpingMethod [])

/-- The method that jumps has a body and no result. Its run ends after four steps, with 5. -/
theorem jumping_computed : jumpingMethod.body.isSome = true ∧ jumpingMethod.signature.result = none ∧
    (∀ i < 5, (jumpingRun i).machine.prepared.all (fun e => decide (e.2.declared.size ≤ 2 ^ 32)) = true) ∧
    (jumpingRun 4).outcome? = some (.ok (some (.int32 5))) ∧
    ((jumpingRun 4).machine.prepared? jumpingMethod.handle).map (·.symbol.signature.result) = some none := by
  decide +kernel

/-- The method that jumps has no result, and gives 5. -/
theorem jumping_gives_five : jumpingMethod.signature.result = none ∧
    (jumpingRun 4).outcome? = some (.ok (some (.int32 5))) := by
  obtain ⟨-, hresult, -, hends, -⟩ := jumping_computed
  exact ⟨hresult, hends⟩

theorem jumpingRun_addressable {i : Nat} (hi : i ≤ 4) : (jumpingRun i).Addressable := by
  obtain ⟨-, -, hall, -⟩ := jumping_computed
  exact Machine.addressable_of_all (hall i (by omega))

theorem jumpingRun_reaches : ∀ n ≤ 4, (jumpingRun 0).Reaches Execution.Addressable (jumpingRun n)
  | 0, h => .refl (jumpingRun_addressable h)
  | n + 1, h => .step (jumpingRun_reaches n (by omega)) (jumpingRun_addressable (i := n + 1) h)

/-- What the method that jumps gives is no answer of its own, but one of a method that it jumps to. -/
theorem jumping_hands_on : ∃ p pc next, (jumpingRun 4).machine.prepared? jumpingMethod.handle = some p ∧
    ¬ p.symbol.signature.Declares (some (.int32 5)) ∧ p.HasSite (jumpingRun 4).machine.metadata pc (.jmp next) ∧
    (jumpingRun 4).machine.Answers next (some (.int32 5)) := by
  obtain ⟨hbody, -, -, hends, hresult⟩ := jumping_computed
  obtain ⟨hends, hcallers⟩ := Execution.outcome?_eq_some.1 hends
  have hm : (Machine.make jumpingTables none {} {}).Reached := .fresh rfl
  have hb : (Machine.make jumpingTables none {} {}).Calls jumpingMethod (jumpingRun 0) := by
    rw [jumpingRun, Nat.repeat]
    exact .start []
  obtain ⟨-, -, hgives⟩ := Machine.Calls.gives_back hm hb (jumpingRun_reaches 4 (Nat.le_refl 4))
  obtain ⟨target, hw, hanswers⟩ := hgives _ hends
  rw [hcallers] at hw
  cases hw
  obtain ⟨p, hp, hfrom, -⟩ := hanswers hbody
  rw [hp] at hresult
  have hnone : p.symbol.signature.result = none := Option.some.inj hresult
  have hno : ¬ p.symbol.signature.Declares (some (.int32 5)) := by
    rintro ⟨hsome, -⟩
    rw [hnone] at hsome
    cases hsome
  obtain ⟨pc, next, hsite, hnext⟩ := hfrom.resolve_left hno
  exact ⟨p, pc, next, hp, hno, hsite, hnext⟩

end ManagedCode
