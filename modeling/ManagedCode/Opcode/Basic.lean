import ManagedCode.Text.Numeral

/-!
# Instructions

The table of instructions: the number that encodes each one, its mnemonic, the operand that follows it in the code and
its effect on the height of the evaluation stack. Numbers from `0xFE00` on are encoded in two bytes.
-/

namespace ManagedCode

/-- How the operand of an instruction is encoded behind it. -/
inductive OperandKind where
  | none
  | shortBranch
  | branch
  | shortInt
  | int
  | long
  | shortReal
  | real
  | shortVariable
  | variable
  | method
  | field
  | type
  | token
  | string
  | signature
  /-- A count of 32 bits and that many branch distances. -/
  | switch
  deriving DecidableEq, Repr, Inhabited

namespace OperandKind

/-- The bytes of the operand; a jump table has no fixed size. -/
def size? : OperandKind → Option Nat
  | .none => some 0
  | .shortBranch | .shortInt | .shortVariable => some 1
  | .variable => some 2
  | .branch | .int | .shortReal | .method | .field | .type | .token | .string | .signature => some 4
  | .long | .real => some 8
  | .switch => Option.none

def isToken : OperandKind → Bool
  | .method | .field | .type | .token | .string | .signature => true
  | _ => false

def text : OperandKind → String
  | .none => "None"
  | .shortBranch => "ShortBrTarget"
  | .branch => "BrTarget"
  | .shortInt => "ShortI"
  | .int => "I"
  | .long => "I8"
  | .shortReal => "ShortR"
  | .real => "R"
  | .shortVariable => "ShortVar"
  | .variable => "Var"
  | .method => "Method"
  | .field => "Field"
  | .type => "Type"
  | .token => "Tok"
  | .string => "String"
  | .signature => "Sig"
  | .switch => "Switch"

end OperandKind

/-- How many values an instruction pops and pushes. -/
inductive StackEffect where
  | fixed (pop push : Nat)
  /-- Depends on a signature, or empties the stack. -/
  | varying
  deriving DecidableEq, Repr, Inhabited

/-- The change of the height of the stack, where it is fixed. -/
def StackEffect.delta? : StackEffect → Option Int
  | .fixed pop push => some ((push : Int) - pop)
  | .varying => none

/-- The instructions. -/
inductive Opcode where
  | nop
  | breakpoint
  | ldarg0
  | ldarg1
  | ldarg2
  | ldarg3
  | ldloc0
  | ldloc1
  | ldloc2
  | ldloc3
  | stloc0
  | stloc1
  | stloc2
  | stloc3
  | ldargS
  | ldargaS
  | stargS
  | ldlocS
  | ldlocaS
  | stlocS
  | ldnull
  | ldcI4M1
  | ldcI40
  | ldcI41
  | ldcI42
  | ldcI43
  | ldcI44
  | ldcI45
  | ldcI46
  | ldcI47
  | ldcI48
  | ldcI4S
  | ldcI4
  | ldcI8
  | ldcR4
  | ldcR8
  | dup
  | pop
  | jmp
  | call
  | calli
  | ret
  | brS
  | brfalseS
  | brtrueS
  | beqS
  | bgeS
  | bgtS
  | bleS
  | bltS
  | bneUnS
  | bgeUnS
  | bgtUnS
  | bleUnS
  | bltUnS
  | br
  | brfalse
  | brtrue
  | beq
  | bge
  | bgt
  | ble
  | blt
  | bneUn
  | bgeUn
  | bgtUn
  | bleUn
  | bltUn
  | switch
  | ldindI1
  | ldindU1
  | ldindI2
  | ldindU2
  | ldindI4
  | ldindU4
  | ldindI8
  | ldindI
  | ldindR4
  | ldindR8
  | ldindRef
  | stindRef
  | stindI1
  | stindI2
  | stindI4
  | stindI8
  | stindR4
  | stindR8
  | add
  | sub
  | mul
  | div
  | divUn
  | rem
  | remUn
  | and
  | or
  | xor
  | shl
  | shr
  | shrUn
  | neg
  | not
  | convI1
  | convI2
  | convI4
  | convI8
  | convR4
  | convR8
  | convU4
  | convU8
  | callvirt
  | cpobj
  | ldobj
  | ldstr
  | newobj
  | castclass
  | isinst
  | convRUn
  | unbox
  | throw
  | ldfld
  | ldflda
  | stfld
  | ldsfld
  | ldsflda
  | stsfld
  | stobj
  | convOvfI1Un
  | convOvfI2Un
  | convOvfI4Un
  | convOvfI8Un
  | convOvfU1Un
  | convOvfU2Un
  | convOvfU4Un
  | convOvfU8Un
  | convOvfIUn
  | convOvfUUn
  | box
  | newarr
  | ldlen
  | ldelema
  | ldelemI1
  | ldelemU1
  | ldelemI2
  | ldelemU2
  | ldelemI4
  | ldelemU4
  | ldelemI8
  | ldelemI
  | ldelemR4
  | ldelemR8
  | ldelemRef
  | stelemI
  | stelemI1
  | stelemI2
  | stelemI4
  | stelemI8
  | stelemR4
  | stelemR8
  | stelemRef
  | ldelem
  | stelem
  | unboxAny
  | cachedCall
  | convOvfI1
  | convOvfU1
  | convOvfI2
  | convOvfU2
  | convOvfI4
  | convOvfU4
  | convOvfI8
  | convOvfU8
  | refanyval
  | ckfinite
  | mkrefany
  | ldtoken
  | convU2
  | convU1
  | convI
  | convOvfI
  | convOvfU
  | addOvf
  | addOvfUn
  | mulOvf
  | mulOvfUn
  | subOvf
  | subOvfUn
  | endfinally
  | leave
  | leaveS
  | stindI
  | convU
  | arglist
  | ceq
  | cgt
  | cgtUn
  | clt
  | cltUn
  | ldftn
  | ldvirtftn
  | ldarg
  | ldarga
  | starg
  | ldloc
  | ldloca
  | stloc
  | localloc
  | endfilter
  | unaligned
  | volatile
  | tail
  | initobj
  | constrained
  | cpblk
  | initblk
  | no
  | rethrow
  | sizeof
  | refanytype
  | readonly
  deriving DecidableEq, Repr, Inhabited

namespace Opcode

/-- What the table says of one instruction. -/
structure Row where
  value : Nat
  mnemonic : String
  operand : OperandKind
  effect : StackEffect
  deriving DecidableEq, Repr, Inhabited

def row : Opcode → Row
  | .nop => ⟨0x00, "nop", .none, .fixed 0 0⟩
  | .breakpoint => ⟨0x01, "break", .none, .fixed 0 0⟩
  | .ldarg0 => ⟨0x02, "ldarg.0", .none, .fixed 0 1⟩
  | .ldarg1 => ⟨0x03, "ldarg.1", .none, .fixed 0 1⟩
  | .ldarg2 => ⟨0x04, "ldarg.2", .none, .fixed 0 1⟩
  | .ldarg3 => ⟨0x05, "ldarg.3", .none, .fixed 0 1⟩
  | .ldloc0 => ⟨0x06, "ldloc.0", .none, .fixed 0 1⟩
  | .ldloc1 => ⟨0x07, "ldloc.1", .none, .fixed 0 1⟩
  | .ldloc2 => ⟨0x08, "ldloc.2", .none, .fixed 0 1⟩
  | .ldloc3 => ⟨0x09, "ldloc.3", .none, .fixed 0 1⟩
  | .stloc0 => ⟨0x0A, "stloc.0", .none, .fixed 1 0⟩
  | .stloc1 => ⟨0x0B, "stloc.1", .none, .fixed 1 0⟩
  | .stloc2 => ⟨0x0C, "stloc.2", .none, .fixed 1 0⟩
  | .stloc3 => ⟨0x0D, "stloc.3", .none, .fixed 1 0⟩
  | .ldargS => ⟨0x0E, "ldarg.s", .shortVariable, .fixed 0 1⟩
  | .ldargaS => ⟨0x0F, "ldarga.s", .shortVariable, .fixed 0 1⟩
  | .stargS => ⟨0x10, "starg.s", .shortVariable, .fixed 1 0⟩
  | .ldlocS => ⟨0x11, "ldloc.s", .shortVariable, .fixed 0 1⟩
  | .ldlocaS => ⟨0x12, "ldloca.s", .shortVariable, .fixed 0 1⟩
  | .stlocS => ⟨0x13, "stloc.s", .shortVariable, .fixed 1 0⟩
  | .ldnull => ⟨0x14, "ldnull", .none, .fixed 0 1⟩
  | .ldcI4M1 => ⟨0x15, "ldc.i4.m1", .none, .fixed 0 1⟩
  | .ldcI40 => ⟨0x16, "ldc.i4.0", .none, .fixed 0 1⟩
  | .ldcI41 => ⟨0x17, "ldc.i4.1", .none, .fixed 0 1⟩
  | .ldcI42 => ⟨0x18, "ldc.i4.2", .none, .fixed 0 1⟩
  | .ldcI43 => ⟨0x19, "ldc.i4.3", .none, .fixed 0 1⟩
  | .ldcI44 => ⟨0x1A, "ldc.i4.4", .none, .fixed 0 1⟩
  | .ldcI45 => ⟨0x1B, "ldc.i4.5", .none, .fixed 0 1⟩
  | .ldcI46 => ⟨0x1C, "ldc.i4.6", .none, .fixed 0 1⟩
  | .ldcI47 => ⟨0x1D, "ldc.i4.7", .none, .fixed 0 1⟩
  | .ldcI48 => ⟨0x1E, "ldc.i4.8", .none, .fixed 0 1⟩
  | .ldcI4S => ⟨0x1F, "ldc.i4.s", .shortInt, .fixed 0 1⟩
  | .ldcI4 => ⟨0x20, "ldc.i4", .int, .fixed 0 1⟩
  | .ldcI8 => ⟨0x21, "ldc.i8", .long, .fixed 0 1⟩
  | .ldcR4 => ⟨0x22, "ldc.r4", .shortReal, .fixed 0 1⟩
  | .ldcR8 => ⟨0x23, "ldc.r8", .real, .fixed 0 1⟩
  | .dup => ⟨0x25, "dup", .none, .fixed 1 2⟩
  | .pop => ⟨0x26, "pop", .none, .fixed 1 0⟩
  | .jmp => ⟨0x27, "jmp", .method, .varying⟩
  | .call => ⟨0x28, "call", .method, .varying⟩
  | .calli => ⟨0x29, "calli", .signature, .varying⟩
  | .ret => ⟨0x2A, "ret", .none, .varying⟩
  | .brS => ⟨0x2B, "br.s", .shortBranch, .fixed 0 0⟩
  | .brfalseS => ⟨0x2C, "brfalse.s", .shortBranch, .fixed 1 0⟩
  | .brtrueS => ⟨0x2D, "brtrue.s", .shortBranch, .fixed 1 0⟩
  | .beqS => ⟨0x2E, "beq.s", .shortBranch, .fixed 2 0⟩
  | .bgeS => ⟨0x2F, "bge.s", .shortBranch, .fixed 2 0⟩
  | .bgtS => ⟨0x30, "bgt.s", .shortBranch, .fixed 2 0⟩
  | .bleS => ⟨0x31, "ble.s", .shortBranch, .fixed 2 0⟩
  | .bltS => ⟨0x32, "blt.s", .shortBranch, .fixed 2 0⟩
  | .bneUnS => ⟨0x33, "bne.un.s", .shortBranch, .fixed 2 0⟩
  | .bgeUnS => ⟨0x34, "bge.un.s", .shortBranch, .fixed 2 0⟩
  | .bgtUnS => ⟨0x35, "bgt.un.s", .shortBranch, .fixed 2 0⟩
  | .bleUnS => ⟨0x36, "ble.un.s", .shortBranch, .fixed 2 0⟩
  | .bltUnS => ⟨0x37, "blt.un.s", .shortBranch, .fixed 2 0⟩
  | .br => ⟨0x38, "br", .branch, .fixed 0 0⟩
  | .brfalse => ⟨0x39, "brfalse", .branch, .fixed 1 0⟩
  | .brtrue => ⟨0x3A, "brtrue", .branch, .fixed 1 0⟩
  | .beq => ⟨0x3B, "beq", .branch, .fixed 2 0⟩
  | .bge => ⟨0x3C, "bge", .branch, .fixed 2 0⟩
  | .bgt => ⟨0x3D, "bgt", .branch, .fixed 2 0⟩
  | .ble => ⟨0x3E, "ble", .branch, .fixed 2 0⟩
  | .blt => ⟨0x3F, "blt", .branch, .fixed 2 0⟩
  | .bneUn => ⟨0x40, "bne.un", .branch, .fixed 2 0⟩
  | .bgeUn => ⟨0x41, "bge.un", .branch, .fixed 2 0⟩
  | .bgtUn => ⟨0x42, "bgt.un", .branch, .fixed 2 0⟩
  | .bleUn => ⟨0x43, "ble.un", .branch, .fixed 2 0⟩
  | .bltUn => ⟨0x44, "blt.un", .branch, .fixed 2 0⟩
  | .switch => ⟨0x45, "switch", .switch, .fixed 1 0⟩
  | .ldindI1 => ⟨0x46, "ldind.i1", .none, .fixed 1 1⟩
  | .ldindU1 => ⟨0x47, "ldind.u1", .none, .fixed 1 1⟩
  | .ldindI2 => ⟨0x48, "ldind.i2", .none, .fixed 1 1⟩
  | .ldindU2 => ⟨0x49, "ldind.u2", .none, .fixed 1 1⟩
  | .ldindI4 => ⟨0x4A, "ldind.i4", .none, .fixed 1 1⟩
  | .ldindU4 => ⟨0x4B, "ldind.u4", .none, .fixed 1 1⟩
  | .ldindI8 => ⟨0x4C, "ldind.i8", .none, .fixed 1 1⟩
  | .ldindI => ⟨0x4D, "ldind.i", .none, .fixed 1 1⟩
  | .ldindR4 => ⟨0x4E, "ldind.r4", .none, .fixed 1 1⟩
  | .ldindR8 => ⟨0x4F, "ldind.r8", .none, .fixed 1 1⟩
  | .ldindRef => ⟨0x50, "ldind.ref", .none, .fixed 1 1⟩
  | .stindRef => ⟨0x51, "stind.ref", .none, .fixed 2 0⟩
  | .stindI1 => ⟨0x52, "stind.i1", .none, .fixed 2 0⟩
  | .stindI2 => ⟨0x53, "stind.i2", .none, .fixed 2 0⟩
  | .stindI4 => ⟨0x54, "stind.i4", .none, .fixed 2 0⟩
  | .stindI8 => ⟨0x55, "stind.i8", .none, .fixed 2 0⟩
  | .stindR4 => ⟨0x56, "stind.r4", .none, .fixed 2 0⟩
  | .stindR8 => ⟨0x57, "stind.r8", .none, .fixed 2 0⟩
  | .add => ⟨0x58, "add", .none, .fixed 2 1⟩
  | .sub => ⟨0x59, "sub", .none, .fixed 2 1⟩
  | .mul => ⟨0x5A, "mul", .none, .fixed 2 1⟩
  | .div => ⟨0x5B, "div", .none, .fixed 2 1⟩
  | .divUn => ⟨0x5C, "div.un", .none, .fixed 2 1⟩
  | .rem => ⟨0x5D, "rem", .none, .fixed 2 1⟩
  | .remUn => ⟨0x5E, "rem.un", .none, .fixed 2 1⟩
  | .and => ⟨0x5F, "and", .none, .fixed 2 1⟩
  | .or => ⟨0x60, "or", .none, .fixed 2 1⟩
  | .xor => ⟨0x61, "xor", .none, .fixed 2 1⟩
  | .shl => ⟨0x62, "shl", .none, .fixed 2 1⟩
  | .shr => ⟨0x63, "shr", .none, .fixed 2 1⟩
  | .shrUn => ⟨0x64, "shr.un", .none, .fixed 2 1⟩
  | .neg => ⟨0x65, "neg", .none, .fixed 1 1⟩
  | .not => ⟨0x66, "not", .none, .fixed 1 1⟩
  | .convI1 => ⟨0x67, "conv.i1", .none, .fixed 1 1⟩
  | .convI2 => ⟨0x68, "conv.i2", .none, .fixed 1 1⟩
  | .convI4 => ⟨0x69, "conv.i4", .none, .fixed 1 1⟩
  | .convI8 => ⟨0x6A, "conv.i8", .none, .fixed 1 1⟩
  | .convR4 => ⟨0x6B, "conv.r4", .none, .fixed 1 1⟩
  | .convR8 => ⟨0x6C, "conv.r8", .none, .fixed 1 1⟩
  | .convU4 => ⟨0x6D, "conv.u4", .none, .fixed 1 1⟩
  | .convU8 => ⟨0x6E, "conv.u8", .none, .fixed 1 1⟩
  | .callvirt => ⟨0x6F, "callvirt", .method, .varying⟩
  | .cpobj => ⟨0x70, "cpobj", .type, .fixed 2 0⟩
  | .ldobj => ⟨0x71, "ldobj", .type, .fixed 1 1⟩
  | .ldstr => ⟨0x72, "ldstr", .string, .fixed 0 1⟩
  | .newobj => ⟨0x73, "newobj", .method, .varying⟩
  | .castclass => ⟨0x74, "castclass", .type, .fixed 1 1⟩
  | .isinst => ⟨0x75, "isinst", .type, .fixed 1 1⟩
  | .convRUn => ⟨0x76, "conv.r.un", .none, .fixed 1 1⟩
  | .unbox => ⟨0x79, "unbox", .type, .fixed 1 1⟩
  | .throw => ⟨0x7A, "throw", .none, .fixed 1 0⟩
  | .ldfld => ⟨0x7B, "ldfld", .field, .fixed 1 1⟩
  | .ldflda => ⟨0x7C, "ldflda", .field, .fixed 1 1⟩
  | .stfld => ⟨0x7D, "stfld", .field, .fixed 2 0⟩
  | .ldsfld => ⟨0x7E, "ldsfld", .field, .fixed 0 1⟩
  | .ldsflda => ⟨0x7F, "ldsflda", .field, .fixed 0 1⟩
  | .stsfld => ⟨0x80, "stsfld", .field, .fixed 1 0⟩
  | .stobj => ⟨0x81, "stobj", .type, .fixed 2 0⟩
  | .convOvfI1Un => ⟨0x82, "conv.ovf.i1.un", .none, .fixed 1 1⟩
  | .convOvfI2Un => ⟨0x83, "conv.ovf.i2.un", .none, .fixed 1 1⟩
  | .convOvfI4Un => ⟨0x84, "conv.ovf.i4.un", .none, .fixed 1 1⟩
  | .convOvfI8Un => ⟨0x85, "conv.ovf.i8.un", .none, .fixed 1 1⟩
  | .convOvfU1Un => ⟨0x86, "conv.ovf.u1.un", .none, .fixed 1 1⟩
  | .convOvfU2Un => ⟨0x87, "conv.ovf.u2.un", .none, .fixed 1 1⟩
  | .convOvfU4Un => ⟨0x88, "conv.ovf.u4.un", .none, .fixed 1 1⟩
  | .convOvfU8Un => ⟨0x89, "conv.ovf.u8.un", .none, .fixed 1 1⟩
  | .convOvfIUn => ⟨0x8A, "conv.ovf.i.un", .none, .fixed 1 1⟩
  | .convOvfUUn => ⟨0x8B, "conv.ovf.u.un", .none, .fixed 1 1⟩
  | .box => ⟨0x8C, "box", .type, .fixed 1 1⟩
  | .newarr => ⟨0x8D, "newarr", .type, .fixed 1 1⟩
  | .ldlen => ⟨0x8E, "ldlen", .none, .fixed 1 1⟩
  | .ldelema => ⟨0x8F, "ldelema", .type, .fixed 2 1⟩
  | .ldelemI1 => ⟨0x90, "ldelem.i1", .none, .fixed 2 1⟩
  | .ldelemU1 => ⟨0x91, "ldelem.u1", .none, .fixed 2 1⟩
  | .ldelemI2 => ⟨0x92, "ldelem.i2", .none, .fixed 2 1⟩
  | .ldelemU2 => ⟨0x93, "ldelem.u2", .none, .fixed 2 1⟩
  | .ldelemI4 => ⟨0x94, "ldelem.i4", .none, .fixed 2 1⟩
  | .ldelemU4 => ⟨0x95, "ldelem.u4", .none, .fixed 2 1⟩
  | .ldelemI8 => ⟨0x96, "ldelem.i8", .none, .fixed 2 1⟩
  | .ldelemI => ⟨0x97, "ldelem.i", .none, .fixed 2 1⟩
  | .ldelemR4 => ⟨0x98, "ldelem.r4", .none, .fixed 2 1⟩
  | .ldelemR8 => ⟨0x99, "ldelem.r8", .none, .fixed 2 1⟩
  | .ldelemRef => ⟨0x9A, "ldelem.ref", .none, .fixed 2 1⟩
  | .stelemI => ⟨0x9B, "stelem.i", .none, .fixed 3 0⟩
  | .stelemI1 => ⟨0x9C, "stelem.i1", .none, .fixed 3 0⟩
  | .stelemI2 => ⟨0x9D, "stelem.i2", .none, .fixed 3 0⟩
  | .stelemI4 => ⟨0x9E, "stelem.i4", .none, .fixed 3 0⟩
  | .stelemI8 => ⟨0x9F, "stelem.i8", .none, .fixed 3 0⟩
  | .stelemR4 => ⟨0xA0, "stelem.r4", .none, .fixed 3 0⟩
  | .stelemR8 => ⟨0xA1, "stelem.r8", .none, .fixed 3 0⟩
  | .stelemRef => ⟨0xA2, "stelem.ref", .none, .fixed 3 0⟩
  | .ldelem => ⟨0xA3, "ldelem", .type, .fixed 2 1⟩
  | .stelem => ⟨0xA4, "stelem", .type, .fixed 3 0⟩
  | .unboxAny => ⟨0xA5, "unbox.any", .type, .fixed 1 1⟩
  | .cachedCall => ⟨0xA6, "<cached call>", .int, .varying⟩
  | .convOvfI1 => ⟨0xB3, "conv.ovf.i1", .none, .fixed 1 1⟩
  | .convOvfU1 => ⟨0xB4, "conv.ovf.u1", .none, .fixed 1 1⟩
  | .convOvfI2 => ⟨0xB5, "conv.ovf.i2", .none, .fixed 1 1⟩
  | .convOvfU2 => ⟨0xB6, "conv.ovf.u2", .none, .fixed 1 1⟩
  | .convOvfI4 => ⟨0xB7, "conv.ovf.i4", .none, .fixed 1 1⟩
  | .convOvfU4 => ⟨0xB8, "conv.ovf.u4", .none, .fixed 1 1⟩
  | .convOvfI8 => ⟨0xB9, "conv.ovf.i8", .none, .fixed 1 1⟩
  | .convOvfU8 => ⟨0xBA, "conv.ovf.u8", .none, .fixed 1 1⟩
  | .refanyval => ⟨0xC2, "refanyval", .type, .fixed 1 1⟩
  | .ckfinite => ⟨0xC3, "ckfinite", .none, .fixed 1 1⟩
  | .mkrefany => ⟨0xC6, "mkrefany", .type, .fixed 1 1⟩
  | .ldtoken => ⟨0xD0, "ldtoken", .token, .fixed 0 1⟩
  | .convU2 => ⟨0xD1, "conv.u2", .none, .fixed 1 1⟩
  | .convU1 => ⟨0xD2, "conv.u1", .none, .fixed 1 1⟩
  | .convI => ⟨0xD3, "conv.i", .none, .fixed 1 1⟩
  | .convOvfI => ⟨0xD4, "conv.ovf.i", .none, .fixed 1 1⟩
  | .convOvfU => ⟨0xD5, "conv.ovf.u", .none, .fixed 1 1⟩
  | .addOvf => ⟨0xD6, "add.ovf", .none, .fixed 2 1⟩
  | .addOvfUn => ⟨0xD7, "add.ovf.un", .none, .fixed 2 1⟩
  | .mulOvf => ⟨0xD8, "mul.ovf", .none, .fixed 2 1⟩
  | .mulOvfUn => ⟨0xD9, "mul.ovf.un", .none, .fixed 2 1⟩
  | .subOvf => ⟨0xDA, "sub.ovf", .none, .fixed 2 1⟩
  | .subOvfUn => ⟨0xDB, "sub.ovf.un", .none, .fixed 2 1⟩
  | .endfinally => ⟨0xDC, "endfinally", .none, .varying⟩
  | .leave => ⟨0xDD, "leave", .branch, .varying⟩
  | .leaveS => ⟨0xDE, "leave.s", .shortBranch, .varying⟩
  | .stindI => ⟨0xDF, "stind.i", .none, .fixed 2 0⟩
  | .convU => ⟨0xE0, "conv.u", .none, .fixed 1 1⟩
  | .arglist => ⟨0xFE00, "arglist", .none, .fixed 0 1⟩
  | .ceq => ⟨0xFE01, "ceq", .none, .fixed 2 1⟩
  | .cgt => ⟨0xFE02, "cgt", .none, .fixed 2 1⟩
  | .cgtUn => ⟨0xFE03, "cgt.un", .none, .fixed 2 1⟩
  | .clt => ⟨0xFE04, "clt", .none, .fixed 2 1⟩
  | .cltUn => ⟨0xFE05, "clt.un", .none, .fixed 2 1⟩
  | .ldftn => ⟨0xFE06, "ldftn", .method, .fixed 0 1⟩
  | .ldvirtftn => ⟨0xFE07, "ldvirtftn", .method, .fixed 1 1⟩
  | .ldarg => ⟨0xFE09, "ldarg", .variable, .fixed 0 1⟩
  | .ldarga => ⟨0xFE0A, "ldarga", .variable, .fixed 0 1⟩
  | .starg => ⟨0xFE0B, "starg", .variable, .fixed 1 0⟩
  | .ldloc => ⟨0xFE0C, "ldloc", .variable, .fixed 0 1⟩
  | .ldloca => ⟨0xFE0D, "ldloca", .variable, .fixed 0 1⟩
  | .stloc => ⟨0xFE0E, "stloc", .variable, .fixed 1 0⟩
  | .localloc => ⟨0xFE0F, "localloc", .none, .fixed 1 1⟩
  | .endfilter => ⟨0xFE11, "endfilter", .none, .fixed 1 0⟩
  | .unaligned => ⟨0xFE12, "unaligned.", .shortInt, .fixed 0 0⟩
  | .volatile => ⟨0xFE13, "volatile.", .none, .fixed 0 0⟩
  | .tail => ⟨0xFE14, "tail.", .none, .fixed 0 0⟩
  | .initobj => ⟨0xFE15, "initobj", .type, .fixed 1 0⟩
  | .constrained => ⟨0xFE16, "constrained.", .type, .fixed 0 0⟩
  | .cpblk => ⟨0xFE17, "cpblk", .none, .fixed 3 0⟩
  | .initblk => ⟨0xFE18, "initblk", .none, .fixed 3 0⟩
  | .no => ⟨0xFE19, "no.", .shortInt, .fixed 0 0⟩
  | .rethrow => ⟨0xFE1A, "rethrow", .none, .fixed 0 0⟩
  | .sizeof => ⟨0xFE1C, "sizeof", .type, .fixed 0 1⟩
  | .refanytype => ⟨0xFE1D, "refanytype", .none, .fixed 1 1⟩
  | .readonly => ⟨0xFE1E, "readonly.", .none, .fixed 0 0⟩

/-- The instructions in the order of the table. -/
def all : List Opcode :=
  [.nop, .breakpoint, .ldarg0, .ldarg1, .ldarg2, .ldarg3, .ldloc0, .ldloc1, .ldloc2, .ldloc3, .stloc0, .stloc1,
   .stloc2, .stloc3, .ldargS, .ldargaS, .stargS, .ldlocS, .ldlocaS, .stlocS, .ldnull, .ldcI4M1, .ldcI40, .ldcI41,
   .ldcI42, .ldcI43, .ldcI44, .ldcI45, .ldcI46, .ldcI47, .ldcI48, .ldcI4S, .ldcI4, .ldcI8, .ldcR4, .ldcR8, .dup,
   .pop, .jmp, .call, .calli, .ret, .brS, .brfalseS, .brtrueS, .beqS, .bgeS, .bgtS, .bleS, .bltS, .bneUnS, .bgeUnS,
   .bgtUnS, .bleUnS, .bltUnS, .br, .brfalse, .brtrue, .beq, .bge, .bgt, .ble, .blt, .bneUn, .bgeUn, .bgtUn, .bleUn,
   .bltUn, .switch, .ldindI1, .ldindU1, .ldindI2, .ldindU2, .ldindI4, .ldindU4, .ldindI8, .ldindI, .ldindR4,
   .ldindR8, .ldindRef, .stindRef, .stindI1, .stindI2, .stindI4, .stindI8, .stindR4, .stindR8, .add, .sub, .mul,
   .div, .divUn, .rem, .remUn, .and, .or, .xor, .shl, .shr, .shrUn, .neg, .not, .convI1, .convI2, .convI4, .convI8,
   .convR4, .convR8, .convU4, .convU8, .callvirt, .cpobj, .ldobj, .ldstr, .newobj, .castclass, .isinst, .convRUn,
   .unbox, .throw, .ldfld, .ldflda, .stfld, .ldsfld, .ldsflda, .stsfld, .stobj, .convOvfI1Un, .convOvfI2Un,
   .convOvfI4Un, .convOvfI8Un, .convOvfU1Un, .convOvfU2Un, .convOvfU4Un, .convOvfU8Un, .convOvfIUn, .convOvfUUn,
   .box, .newarr, .ldlen, .ldelema, .ldelemI1, .ldelemU1, .ldelemI2, .ldelemU2, .ldelemI4, .ldelemU4, .ldelemI8,
   .ldelemI, .ldelemR4, .ldelemR8, .ldelemRef, .stelemI, .stelemI1, .stelemI2, .stelemI4, .stelemI8, .stelemR4,
   .stelemR8, .stelemRef, .ldelem, .stelem, .unboxAny, .cachedCall, .convOvfI1, .convOvfU1, .convOvfI2, .convOvfU2,
   .convOvfI4, .convOvfU4, .convOvfI8, .convOvfU8, .refanyval, .ckfinite, .mkrefany, .ldtoken, .convU2, .convU1,
   .convI, .convOvfI, .convOvfU, .addOvf, .addOvfUn, .mulOvf, .mulOvfUn, .subOvf, .subOvfUn, .endfinally, .leave,
   .leaveS, .stindI, .convU, .arglist, .ceq, .cgt, .cgtUn, .clt, .cltUn, .ldftn, .ldvirtftn, .ldarg, .ldarga, .starg,
   .ldloc, .ldloca, .stloc, .localloc, .endfilter, .unaligned, .volatile, .tail, .initobj, .constrained, .cpblk,
   .initblk, .no, .rethrow, .sizeof, .refanytype, .readonly]

def value (op : Opcode) : Nat := op.row.value

def mnemonic (op : Opcode) : String := op.row.mnemonic

def operand (op : Opcode) : OperandKind := op.row.operand

def effect (op : Opcode) : StackEffect := op.row.effect

/-- The name of an instruction: the words of its mnemonic, capitalized and joined. -/
def name (op : Opcode) : String :=
  if op = .cachedCall then "CachedCall"
  else String.ofList ((Text.splitOn (· == '.') op.mnemonic.toList).flatMap fun
    | [] => []
    | c :: cs => c.toUpper :: cs)

/-- The byte that announces an instruction of two bytes. -/
def escape : UInt8 := 0xFE

/-- The bytes of the instruction itself, without its operand. -/
def size (op : Opcode) : Nat := if op.value > 0xFF then 2 else 1

def encode (op : Opcode) : List UInt8 :=
  if op.value > 0xFF then [escape, UInt8.ofNat op.value] else [UInt8.ofNat op.value]

/-- The instructions of one byte, by their number. -/
def oneByte : Array (Option Opcode) := Array.ofFn fun i : Fin 256 => all.find? (·.value == i.val)

/-- The instructions of two bytes, by their second byte. -/
def twoByte : Array (Option Opcode) := Array.ofFn fun i : Fin 256 => all.find? (·.value == 0xFE00 + i.val)

def ofValue? (n : Nat) : Option Opcode :=
  if n < 256 then (oneByte[n]?).join
  else if 0xFE00 ≤ n then (twoByte[n - 0xFE00]?).join
  else none

/-- The instruction with a mnemonic. The cached call cannot be written. -/
def ofMnemonic? (s : String) : Option Opcode := all.find? fun op => op != .cachedCall && op.mnemonic == s

/-- The instructions that become cached calls when they are first executed. -/
def isCallSite : Opcode → Bool
  | .call | .callvirt | .newobj | .jmp => true
  | _ => false

/-- The instructions that only qualify the one after them. -/
def qualifiesNext : Opcode → Bool
  | .unaligned | .volatile | .tail | .constrained | .no | .readonly => true
  | _ => false

/-- The instructions after which control never goes on to the next one. -/
def endsBlock : Opcode → Bool
  | .br | .brS | .leave | .leaveS | .ret | .jmp | .throw | .rethrow | .endfinally | .endfilter => true
  | _ => false

end Opcode

end ManagedCode
