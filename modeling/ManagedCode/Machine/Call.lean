import ManagedCode.Machine.Monad

/-!
# Call sites

When a `call`, `callvirt`, `newobj` or `jmp` is first executed, its token is resolved and the instruction is
overwritten by a cached call with the number of the resolved call site. Later executions go straight to that call
site.
-/

namespace ManagedCode.ExecM

def resolveSite (kind : CallKind) (token : Token) : ExecM CallSite := do
  let m ← resolveMethod token
  match kind with
  | .call => return .call m
  | .callvirt => return .callvirt m
  | .newobj =>
    let type ← ofResolution ((← metadata).typeOf m.declaring)
    return .newobj m type
  | .jmp => return .jmp m

/-- Adds a call site to the method and overwrites the instruction at `pc` by a cached call of it. -/
def installSite (p : Prepared) (pc : Nat) (site : CallSite) : ExecM Unit := do
  let next ← ofEngine (p.code.nextOffset pc)
  let bytes ← ofEngine (Code.cachedCall p.callSites.size (next - pc))
  let code ← ofEngine (p.code.patch pc bytes)
  let h := (← activation).method
  modifyMachine fun m => m.setPrepared h { p with code, callSites := p.callSites.push site }
  modifyMetrics fun m => { m with callSiteResolutions := m.callSiteResolutions + 1 }

/-- The method that a virtual call enters: the receiver's implementation, where there is a receiver of a known type. -/
def virtualTarget (m : MethodSymbol) (arguments : List Value) : ExecM MethodSymbol := do
  match arguments with
  | .object none :: _ => fault .nullReference
  | .object (some r) :: _ =>
    match m.isVirtual, (← machine).heap.typeOf? (some r) with
    | true, some type => ofAbort ((← metadata).resolveVirtual m type)
    | _, _ => return m
  | _ => return m

/-- Takes the arguments of a call from the stack and calls. -/
def invoke (p : Prepared) (site : CallSite) : ExecM Next := do
  modifyMetrics fun m => { m with nodeInvocations := m.nodeInvocations + 1 }
  match site with
  | .call m =>
    let arguments ← popArguments p m.signature.arity
    return .invoke m arguments (.pushResult m)
  | .callvirt m =>
    let arguments ← popArguments p m.signature.arity
    let target ← virtualTarget m arguments
    return .invoke target arguments (.pushResult target)
  | .newobj m type =>
    let arguments ← popArguments p m.signature.parameters.length
    let r ← onHeap (Heap.newInstance (← metadata) type)
    return .invoke m (.object (some r) :: arguments) (.pushObject r)
  | .jmp m =>
    let a ← activation
    let arguments ← (List.range p.layout.arguments).mapM fun slot => ofEngine (a.frame.get slot)
    return .invoke m arguments .returnResult

/-- The first execution of a call site. -/
def callSite (p : Prepared) (pc : Nat) (kind : CallKind) : ExecM Next := do
  let token ← ofEngine (p.code.token pc)
  let site ← resolveSite kind token
  installSite p pc site
  invoke p site

/-- A later execution of a call site. -/
def cachedCall (p : Prepared) (pc : Nat) : ExecM Next := do
  let index ← ofEngine (p.code.operand 4 pc)
  match p.callSites[index]? with
  | some site => invoke p site
  | none => fail (.invalidState pc (.noCallSite index))

end ManagedCode.ExecM
