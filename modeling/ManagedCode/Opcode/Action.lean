import ManagedCode.Kind
import ManagedCode.Opcode.Basic

/-!
# What instructions do

The table has some two hundred instructions, but far fewer things to do: most differ only in a width, a sign rule or the
place of their operand. `Opcode.action` names for each instruction what it does; the analysis and the machine are both
written on actions.
-/

namespace ManagedCode

/-- The relations that comparisons and conditional branches test. The `Un` forms compare integers as unsigned numbers
and hold of floating point operands that are unordered. -/
inductive Comparison where
  | eq
  | neUn
  | gt
  | gtUn
  | ge
  | geUn
  | lt
  | ltUn
  | le
  | leUn
  deriving DecidableEq, Repr, Inhabited

/-- The arithmetic and logic instructions on two operands. -/
inductive BinaryOp where
  | add
  | sub
  | mul
  | div
  | divUn
  | rem
  | remUn
  | and
  | or
  | xor
  | addOvf
  | addOvfUn
  | subOvf
  | subOvfUn
  | mulOvf
  | mulOvfUn
  deriving DecidableEq, Repr, Inhabited

/-- The shifts; `shrUn` fills with zeros. -/
inductive ShiftOp where
  | shl
  | shr
  | shrUn
  deriving DecidableEq, Repr, Inhabited

/-- The arithmetic and logic instructions on one operand. -/
inductive UnaryOp where
  | neg
  | not
  deriving DecidableEq, Repr, Inhabited

/-- What a conversion makes. -/
inductive ConversionTarget where
  | i1
  | u1
  | i2
  | u2
  | i4
  | u4
  | i8
  | u8
  | i
  | u
  | r4
  | r8
  /-- A floating point number of the full width from an unsigned integer. -/
  | real
  deriving DecidableEq, Repr, Inhabited

/-- A conversion instruction. -/
structure Conversion where
  target : ConversionTarget
  /-- Whether a number outside the range of the target is a fault. -/
  checked : Bool
  /-- Whether an integer source is read as unsigned. -/
  unsignedSource : Bool
  deriving DecidableEq, Repr, Inhabited

/-- The two families of typed slots. -/
inductive Place where
  | argument
  | local
  deriving DecidableEq, Repr, Inhabited

/-- The name of a family in messages. -/
def Place.text : Place → String
  | .argument => "argument"
  | .local => "local"

/-- Where the index of a slot comes from: the instruction itself or its operand. -/
inductive SlotIndex where
  | implied (n : Nat)
  | encoded
  deriving DecidableEq, Repr, Inhabited

/-- Where the value of a constant comes from. -/
inductive Constant where
  | implied (n : Int)
  | short
  | int
  | long
  | shortReal
  | real
  deriving DecidableEq, Repr, Inhabited

def Constant.stackType : Constant → StackType
  | .implied _ | .short | .int => .int32
  | .long => .int64
  | .shortReal | .real => .float

/-- The instructions that name a method to enter. -/
inductive CallKind where
  | call
  | callvirt
  | newobj
  | jmp
  deriving DecidableEq, Repr, Inhabited

/-- What an instruction does. -/
inductive Action where
  | skip
  | load (place : Place) (index : SlotIndex)
  | address (place : Place)
  | store (place : Place) (index : SlotIndex)
  | loadNull
  | loadConstant (c : Constant)
  | dup
  | pop
  | jump
  | jumpOn (truth : Bool)
  | jumpCompare (c : Comparison)
  | switch
  | ret
  | leave
  | endFinally
  | endFilter
  | throw
  | rethrow
  | compare (c : Comparison)
  | binary (op : BinaryOp)
  | shift (op : ShiftOp)
  | unary (op : UnaryOp)
  | checkFinite
  | convert (c : Conversion)
  | loadIndirect (kind : Kind)
  | storeIndirect (kind : Kind)
  | loadObject
  | storeObject
  | copyObject
  | initObject
  | copyBlock
  | initBlock
  | localAlloc
  | argumentList
  | loadString
  | loadToken
  | newArray
  | arrayLength
  | elementAddress
  /-- Without a kind, the operand names the element type. -/
  | loadElement (kind : Option Kind)
  | storeElement (kind : Option Kind)
  | loadField
  | fieldAddress
  | storeField
  | loadStatic
  | staticAddress
  | storeStatic
  | castClass
  | isInstance
  | box
  | unbox
  | unboxAny
  | sizeOf
  | functionPointer
  | virtualPointer
  | makeTyped
  | typedAddress
  | typedType
  | callSite (kind : CallKind)
  | callIndirect
  | cachedCall
  deriving DecidableEq, Repr, Inhabited

/-- What each instruction does. -/
def Opcode.action : Opcode → Action
  | .nop => .skip
  | .breakpoint => .skip
  | .ldarg0 => .load .argument (.implied 0)
  | .ldarg1 => .load .argument (.implied 1)
  | .ldarg2 => .load .argument (.implied 2)
  | .ldarg3 => .load .argument (.implied 3)
  | .ldloc0 => .load .local (.implied 0)
  | .ldloc1 => .load .local (.implied 1)
  | .ldloc2 => .load .local (.implied 2)
  | .ldloc3 => .load .local (.implied 3)
  | .stloc0 => .store .local (.implied 0)
  | .stloc1 => .store .local (.implied 1)
  | .stloc2 => .store .local (.implied 2)
  | .stloc3 => .store .local (.implied 3)
  | .ldargS => .load .argument .encoded
  | .ldargaS => .address .argument
  | .stargS => .store .argument .encoded
  | .ldlocS => .load .local .encoded
  | .ldlocaS => .address .local
  | .stlocS => .store .local .encoded
  | .ldnull => .loadNull
  | .ldcI4M1 => .loadConstant (.implied (-1))
  | .ldcI40 => .loadConstant (.implied 0)
  | .ldcI41 => .loadConstant (.implied 1)
  | .ldcI42 => .loadConstant (.implied 2)
  | .ldcI43 => .loadConstant (.implied 3)
  | .ldcI44 => .loadConstant (.implied 4)
  | .ldcI45 => .loadConstant (.implied 5)
  | .ldcI46 => .loadConstant (.implied 6)
  | .ldcI47 => .loadConstant (.implied 7)
  | .ldcI48 => .loadConstant (.implied 8)
  | .ldcI4S => .loadConstant .short
  | .ldcI4 => .loadConstant .int
  | .ldcI8 => .loadConstant .long
  | .ldcR4 => .loadConstant .shortReal
  | .ldcR8 => .loadConstant .real
  | .dup => .dup
  | .pop => .pop
  | .jmp => .callSite .jmp
  | .call => .callSite .call
  | .calli => .callIndirect
  | .ret => .ret
  | .brS => .jump
  | .brfalseS => .jumpOn false
  | .brtrueS => .jumpOn true
  | .beqS => .jumpCompare .eq
  | .bgeS => .jumpCompare .ge
  | .bgtS => .jumpCompare .gt
  | .bleS => .jumpCompare .le
  | .bltS => .jumpCompare .lt
  | .bneUnS => .jumpCompare .neUn
  | .bgeUnS => .jumpCompare .geUn
  | .bgtUnS => .jumpCompare .gtUn
  | .bleUnS => .jumpCompare .leUn
  | .bltUnS => .jumpCompare .ltUn
  | .br => .jump
  | .brfalse => .jumpOn false
  | .brtrue => .jumpOn true
  | .beq => .jumpCompare .eq
  | .bge => .jumpCompare .ge
  | .bgt => .jumpCompare .gt
  | .ble => .jumpCompare .le
  | .blt => .jumpCompare .lt
  | .bneUn => .jumpCompare .neUn
  | .bgeUn => .jumpCompare .geUn
  | .bgtUn => .jumpCompare .gtUn
  | .bleUn => .jumpCompare .leUn
  | .bltUn => .jumpCompare .ltUn
  | .switch => .switch
  | .ldindI1 => .loadIndirect .i1
  | .ldindU1 => .loadIndirect .u1
  | .ldindI2 => .loadIndirect .i2
  | .ldindU2 => .loadIndirect .u2
  | .ldindI4 => .loadIndirect .i4
  | .ldindU4 => .loadIndirect .u4
  | .ldindI8 => .loadIndirect .i8
  | .ldindI => .loadIndirect .i
  | .ldindR4 => .loadIndirect .r4
  | .ldindR8 => .loadIndirect .r8
  | .ldindRef => .loadIndirect .object
  | .stindRef => .storeIndirect .object
  | .stindI1 => .storeIndirect .i1
  | .stindI2 => .storeIndirect .i2
  | .stindI4 => .storeIndirect .i4
  | .stindI8 => .storeIndirect .i8
  | .stindR4 => .storeIndirect .r4
  | .stindR8 => .storeIndirect .r8
  | .add => .binary .add
  | .sub => .binary .sub
  | .mul => .binary .mul
  | .div => .binary .div
  | .divUn => .binary .divUn
  | .rem => .binary .rem
  | .remUn => .binary .remUn
  | .and => .binary .and
  | .or => .binary .or
  | .xor => .binary .xor
  | .shl => .shift .shl
  | .shr => .shift .shr
  | .shrUn => .shift .shrUn
  | .neg => .unary .neg
  | .not => .unary .not
  | .convI1 => .convert ⟨.i1, false, false⟩
  | .convI2 => .convert ⟨.i2, false, false⟩
  | .convI4 => .convert ⟨.i4, false, false⟩
  | .convI8 => .convert ⟨.i8, false, false⟩
  | .convR4 => .convert ⟨.r4, false, false⟩
  | .convR8 => .convert ⟨.r8, false, false⟩
  | .convU4 => .convert ⟨.u4, false, false⟩
  | .convU8 => .convert ⟨.u8, false, false⟩
  | .callvirt => .callSite .callvirt
  | .cpobj => .copyObject
  | .ldobj => .loadObject
  | .ldstr => .loadString
  | .newobj => .callSite .newobj
  | .castclass => .castClass
  | .isinst => .isInstance
  | .convRUn => .convert ⟨.real, false, true⟩
  | .unbox => .unbox
  | .throw => .throw
  | .ldfld => .loadField
  | .ldflda => .fieldAddress
  | .stfld => .storeField
  | .ldsfld => .loadStatic
  | .ldsflda => .staticAddress
  | .stsfld => .storeStatic
  | .stobj => .storeObject
  | .convOvfI1Un => .convert ⟨.i1, true, true⟩
  | .convOvfI2Un => .convert ⟨.i2, true, true⟩
  | .convOvfI4Un => .convert ⟨.i4, true, true⟩
  | .convOvfI8Un => .convert ⟨.i8, true, true⟩
  | .convOvfU1Un => .convert ⟨.u1, true, true⟩
  | .convOvfU2Un => .convert ⟨.u2, true, true⟩
  | .convOvfU4Un => .convert ⟨.u4, true, true⟩
  | .convOvfU8Un => .convert ⟨.u8, true, true⟩
  | .convOvfIUn => .convert ⟨.i, true, true⟩
  | .convOvfUUn => .convert ⟨.u, true, true⟩
  | .box => .box
  | .newarr => .newArray
  | .ldlen => .arrayLength
  | .ldelema => .elementAddress
  | .ldelemI1 => .loadElement (some .i1)
  | .ldelemU1 => .loadElement (some .u1)
  | .ldelemI2 => .loadElement (some .i2)
  | .ldelemU2 => .loadElement (some .u2)
  | .ldelemI4 => .loadElement (some .i4)
  | .ldelemU4 => .loadElement (some .u4)
  | .ldelemI8 => .loadElement (some .i8)
  | .ldelemI => .loadElement (some .i)
  | .ldelemR4 => .loadElement (some .r4)
  | .ldelemR8 => .loadElement (some .r8)
  | .ldelemRef => .loadElement (some .object)
  | .stelemI => .storeElement (some .i)
  | .stelemI1 => .storeElement (some .i1)
  | .stelemI2 => .storeElement (some .i2)
  | .stelemI4 => .storeElement (some .i4)
  | .stelemI8 => .storeElement (some .i8)
  | .stelemR4 => .storeElement (some .r4)
  | .stelemR8 => .storeElement (some .r8)
  | .stelemRef => .storeElement (some .object)
  | .ldelem => .loadElement none
  | .stelem => .storeElement none
  | .unboxAny => .unboxAny
  | .cachedCall => .cachedCall
  | .convOvfI1 => .convert ⟨.i1, true, false⟩
  | .convOvfU1 => .convert ⟨.u1, true, false⟩
  | .convOvfI2 => .convert ⟨.i2, true, false⟩
  | .convOvfU2 => .convert ⟨.u2, true, false⟩
  | .convOvfI4 => .convert ⟨.i4, true, false⟩
  | .convOvfU4 => .convert ⟨.u4, true, false⟩
  | .convOvfI8 => .convert ⟨.i8, true, false⟩
  | .convOvfU8 => .convert ⟨.u8, true, false⟩
  | .refanyval => .typedAddress
  | .ckfinite => .checkFinite
  | .mkrefany => .makeTyped
  | .ldtoken => .loadToken
  | .convU2 => .convert ⟨.u2, false, false⟩
  | .convU1 => .convert ⟨.u1, false, false⟩
  | .convI => .convert ⟨.i, false, false⟩
  | .convOvfI => .convert ⟨.i, true, false⟩
  | .convOvfU => .convert ⟨.u, true, false⟩
  | .addOvf => .binary .addOvf
  | .addOvfUn => .binary .addOvfUn
  | .mulOvf => .binary .mulOvf
  | .mulOvfUn => .binary .mulOvfUn
  | .subOvf => .binary .subOvf
  | .subOvfUn => .binary .subOvfUn
  | .endfinally => .endFinally
  | .leave => .leave
  | .leaveS => .leave
  | .stindI => .storeIndirect .i
  | .convU => .convert ⟨.u, false, false⟩
  | .arglist => .argumentList
  | .ceq => .compare .eq
  | .cgt => .compare .gt
  | .cgtUn => .compare .gtUn
  | .clt => .compare .lt
  | .cltUn => .compare .ltUn
  | .ldftn => .functionPointer
  | .ldvirtftn => .virtualPointer
  | .ldarg => .load .argument .encoded
  | .ldarga => .address .argument
  | .starg => .store .argument .encoded
  | .ldloc => .load .local .encoded
  | .ldloca => .address .local
  | .stloc => .store .local .encoded
  | .localloc => .localAlloc
  | .endfilter => .endFilter
  | .unaligned => .skip
  | .volatile => .skip
  | .tail => .skip
  | .initobj => .initObject
  | .constrained => .skip
  | .cpblk => .copyBlock
  | .initblk => .initBlock
  | .no => .skip
  | .rethrow => .rethrow
  | .sizeof => .sizeOf
  | .refanytype => .typedType
  | .readonly => .skip

/-- Whether the action resolves a method when the analysis reaches it. -/
def Action.looksUpMethod : Action → Bool
  | .callSite .jmp => false
  | .callSite _ => true
  | _ => false

end ManagedCode
