import Yafsml.Foundation.X86

/-! # Decoded instructions

The part of a Zydis decoding that the virtual machine looks at, the register functions it calls, and
what a decoding of an instruction of `X86` looks like. The machine mode is always long mode. -/

namespace Yafsml.Dearxan

open LittleEndian X86

/-- The registers by class and id; those of the classes that hold no general-purpose register and are
not looked at are told apart by a number. -/
inductive ZydisRegister
  | none
  | gpr8 (id : Fin 20)
  | gpr16 (id : Fin 16)
  | gpr32 (id : Fin 16)
  | gpr64 (id : Fin 16)
  | rip
  | other (value : Nat)
  deriving DecidableEq, Repr

instance gpr8s : NeZero 20 := ⟨by decide⟩

/-- `GPR8_MAPPING`: ids 4 to 7 are AH to BH, SPL starts at id 8. -/
def gpr8Mapping (id : Fin 20) : Fin 16 :=
  if h : id < 4 then ⟨id, by omega⟩ else ⟨id - 4, by omega⟩

/-- `ZydisRegisterGetLargestEnclosing`, where that is one of RAX to R15, by the id of that one. -/
def zydisRegisterGetLargestEnclosing : ZydisRegister → Option (Fin 16)
  | .gpr8 id => some (gpr8Mapping id)
  | .gpr16 id | .gpr32 id | .gpr64 id => some id
  | .none | .rip | .other _ => Option.none

/-- `ZydisRegisterGetWidth`, which is only asked of general-purpose registers. -/
def zydisRegisterGetWidth : ZydisRegister → Nat
  | .gpr8 _ => 8
  | .gpr16 _ => 16
  | .gpr32 _ => 32
  | .gpr64 _ | .rip => 64
  | .none | .other _ => 0

structure ZydisDecodedOperandMem where
  base : ZydisRegister
  index : ZydisRegister
  scale : BitVec 8
  hasDisplacement : Bool
  displacement : Word
  deriving DecidableEq, Repr

structure ZydisDecodedOperandImm where
  isSigned : Bool
  isRelative : Bool
  value : Word
  deriving DecidableEq, Repr

inductive ZydisOperandType
  | unused
  | register (value : ZydisRegister)
  | memory (mem : ZydisDecodedOperandMem)
  | pointer
  | immediate (imm : ZydisDecodedOperandImm)
  deriving DecidableEq, Repr

/-- `size` is in bits; `writes` is the write flag of the actions. -/
structure ZydisDecodedOperand where
  size : Nat
  writes : Bool
  type : ZydisOperandType
  deriving DecidableEq, Repr

inductive ZydisMnemonic
  | mov | movzx | movsx | movsxd | lea | add | sub | xchg
  | push | pop | pushf | pushfq | popf | popfq | call | ret
  | ud0 | ud1 | ud2 | xbegin | xabort | xend | iret | iretd | iretq
  | other (value : Nat)
  deriving DecidableEq, Repr

inductive ZydisInstructionCategory
  | interrupt
  | cmov
  | condBr
  | uncondBr
  | other (value : Nat)
  deriving DecidableEq, Repr

structure ZydisDecodedInstruction where
  mnemonic : ZydisMnemonic
  length : BitVec 8
  operandCount : Nat
  operandCountVisible : Nat
  operandWidth : Nat
  category : ZydisInstructionCategory
  deriving DecidableEq, Repr

/-- `ZYDIS_MAX_OPERAND_COUNT` operands. -/
abbrev Operands := Fin 10 → ZydisDecodedOperand

instance operandCount : NeZero 10 := ⟨by decide⟩

def ZydisDecodedInstruction.size (instruction : ZydisDecodedInstruction) : Word :=
  instruction.length.setWidth 64

/-- `ZydisCalcAbsoluteAddress` of an immediate. -/
def zydisCalcAbsoluteAddress (instruction : ZydisDecodedInstruction) (imm : ZydisDecodedOperandImm)
    (runtimeAddress : Word) : Option Word :=
  if imm.isSigned && imm.isRelative then some (runtimeAddress + instruction.size + imm.value)
  else none

def zydisOf : Register → ZydisRegister
  | .r8 gpr => .gpr8 (if gpr < 4 then gpr.castLE (by decide) else gpr.addNat 4)
  | .r8High gpr => .gpr8 ((gpr.addNat 4).castLE (by decide))
  | .r16 gpr => .gpr16 gpr
  | .r32 gpr => .gpr32 gpr
  | .r64 gpr => .gpr64 gpr

def zydisBase : Base → ZydisRegister
  | .absent => .none
  | .rip => .rip
  | .register gpr => .gpr64 gpr

structure DescribesAddress (mem : ZydisDecodedOperandMem) (a : Address) : Prop where
  base : mem.base = zydisBase a.base
  index : mem.index = (a.index.map .gpr64).getD .none
  scale : mem.scale = a.scale
  displacement : (if mem.hasDisplacement then mem.displacement else 0) = a.displacement

def DescribesPlace (operand : ZydisDecodedOperand) : Place → Prop
  | .register r => operand.type = .register (zydisOf r) ∧ operand.size = 8 * r.width.bytes
  | .memory width a => ∃ mem, operand.type = .memory mem ∧ DescribesAddress mem a ∧
      operand.size = 8 * width.bytes

def DescribesSource (operand : ZydisDecodedOperand) : Source → Prop
  | .place place => DescribesPlace operand place
  | .immediate value => ∃ imm, operand.type = .immediate imm ∧ imm.isRelative = false ∧
      imm.value = value

def DescribesTarget (operand : ZydisDecodedOperand) : Target → Prop
  | .relative displacement => ∃ imm, operand.type = .immediate imm ∧ imm.isSigned = true ∧
      imm.isRelative = true ∧ imm.value = displacement
  | .place place => DescribesPlace operand place ∧ place.width = .qword

def DescribesInstr (instruction : ZydisDecodedInstruction) (operands : Operands) : Instr → Prop
  | .mov dst src => instruction.mnemonic = .mov ∧ instruction.operandCountVisible = 2 ∧
      DescribesPlace (operands 0) dst ∧ DescribesSource (operands 1) src
  | .movzx dst src => instruction.mnemonic = .movzx ∧ instruction.operandCountVisible = 2 ∧
      DescribesPlace (operands 0) (.register dst) ∧ DescribesPlace (operands 1) src
  | .movsx dst src => (instruction.mnemonic = .movsx ∨ instruction.mnemonic = .movsxd) ∧
      instruction.operandCountVisible = 2 ∧
      DescribesPlace (operands 0) (.register dst) ∧ DescribesPlace (operands 1) src
  | .lea dst src => instruction.mnemonic = .lea ∧ instruction.operandCountVisible = 2 ∧
      DescribesPlace (operands 0) (.register dst) ∧
      ∃ mem, (operands 1).type = .memory mem ∧ DescribesAddress mem src
  | .add dst src => instruction.mnemonic = .add ∧ instruction.operandCountVisible = 2 ∧
      DescribesPlace (operands 0) dst ∧ DescribesSource (operands 1) src
  | .sub dst src => instruction.mnemonic = .sub ∧ instruction.operandCountVisible = 2 ∧
      DescribesPlace (operands 0) dst ∧ DescribesSource (operands 1) src
  | .xchg first second => instruction.mnemonic = .xchg ∧ instruction.operandCountVisible = 2 ∧
      DescribesPlace (operands 0) first ∧ DescribesPlace (operands 1) second
  | .push width src => instruction.mnemonic = .push ∧ instruction.operandCountVisible = 1 ∧
      instruction.operandWidth = 8 * width.toWidth.bytes ∧ DescribesSource (operands 0) src
  | .pop width dst => instruction.mnemonic = .pop ∧ instruction.operandCountVisible = 1 ∧
      instruction.operandWidth = 8 * width.toWidth.bytes ∧ dst.width = width.toWidth ∧
      DescribesPlace (operands 0) dst
  | .call target => instruction.mnemonic = .call ∧ instruction.operandCountVisible = 1 ∧
      DescribesTarget (operands 0) target
  | .ret release => instruction.mnemonic = .ret ∧
      ((instruction.operandCountVisible = 0 ∧ release = 0) ∨
        (instruction.operandCountVisible = 1 ∧
          ∃ imm, (operands 0).type = .immediate imm ∧ imm.value = release))

/-- What Zydis makes of an instruction of `X86`. -/
structure Describes (instruction : ZydisDecodedInstruction) (operands : Operands) (instr : Instr) :
    Prop where
  category : ∃ value, instruction.category = .other value
  instr : DescribesInstr instruction operands instr

end Yafsml.Dearxan
