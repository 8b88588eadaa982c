import ManagedCode.Machine.Call
import ManagedCode.Machine.Flow
import ManagedCode.Machine.Objects
import ManagedCode.Machine.Slots

/-!
# Instructions
-/

namespace ManagedCode.ExecM

def instruction (p : Prepared) (pc : Nat) (op : Opcode) : ExecM Next :=
  match op.action with
  | .skip | .pop => return .advance
  | .load place index => load p pc place index
  | .address place => loadAddress p pc place
  | .store place index => store p pc place index
  | .loadNull => do
    result p 0 .null
    return .advance
  | .loadConstant c => loadConstant p pc c
  | .dup => dup p
  | .jump => jumpIf p pc op true
  | .jumpOn wanted => jumpOn p pc op wanted
  | .jumpCompare c => jumpCompare p pc op c
  | .switch => switch p pc
  | .ret => ret p
  | .leave => leave p pc
  | .endFinally => endFinally p pc
  | .throw => throwTop p
  | .rethrow => rethrow p pc
  | .compare c => compare p pc op c
  | .binary b => binary p pc op b
  | .shift s => shift p pc op s
  | .unary u => unary p pc op u
  | .checkFinite => checkFinite p
  | .convert c => convert p c
  | .loadIndirect k => loadIndirect p k
  | .storeIndirect k => storeIndirect p k
  | .loadObject => loadObject p pc
  | .storeObject => storeObject p pc
  | .copyObject => copyObject p pc
  | .initObject => initObject p pc
  | .loadString => loadString p pc
  | .loadToken => loadToken p pc
  | .newArray => newArray p pc
  | .arrayLength => arrayLength p
  | .elementAddress => elementAddress p
  | .loadElement kind => loadElement p pc kind
  | .storeElement kind => storeElement p pc kind
  | .loadField => loadField p pc
  | .fieldAddress => fieldAddress p pc
  | .storeField => storeField p pc
  | .loadStatic => loadStatic p pc
  | .staticAddress => staticAddress p pc
  | .storeStatic => storeStatic p pc
  | .castClass => cast p pc true
  | .isInstance => cast p pc false
  | .box => box p pc
  | .unbox => unbox p pc
  | .unboxAny => unboxAny p pc
  | .sizeOf => sizeOf p pc
  | .functionPointer => functionPointer p pc
  | .virtualPointer => virtualPointer p pc
  | .callSite kind => callSite p pc kind
  | .cachedCall => cachedCall p pc
  | .callIndirect | .localAlloc | .copyBlock | .initBlock | .argumentList | .makeTyped | .typedAddress | .typedType
  | .endFilter => unsupported (.instruction op)

end ManagedCode.ExecM
