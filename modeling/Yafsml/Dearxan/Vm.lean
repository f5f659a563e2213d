import Yafsml.Foundation.OpenAddressing
import Yafsml.Dearxan.Image
import Yafsml.Dearxan.Zydis

/-! # The virtual machine

The partial x86-64 machine that the analysis runs the stubs on: registers and memory bytes are known
or not. A call that fails for want of memory is `none`; its caller gives the machine up. -/

namespace Yafsml.Dearxan

open LittleEndian OpenAddressing

/-! ## Memory blocks -/

/-- 64 bytes of emulated memory; `indexPlusOne = 0` marks an unused slot. -/
structure Block where
  indexPlusOne : Word
  known : Word
  bytes : Fin 64 → Byte

def Block.unused : Block := ⟨0, 0, fun _ => 0⟩

def Block.index (block : Block) : Option Word :=
  if block.indexPlusOne = 0 then none else some (block.indexPlusOne - 1)

theorem unused_index : Block.unused.index = none := rfl

def dearxanHashU64 (value : Word) : Word :=
  let value := value ^^^ (value >>> 30)
  let value := value * 0xbf58476d1ce4e5b9
  let value := value ^^^ (value >>> 27)
  let value := value * 0x94d049bb133111eb
  value ^^^ (value >>> 31)

/-- `probe_block` is the probe of the table. -/
abbrev BlockTable := Table Block.index fun index => (dearxanHashU64 index).toNat

def vmMemoryMinCapacity : Nat := 16

/-- `sizeof` of a block. -/
def blockSize : Nat := 80

def grownCapacity (table : BlockTable) : Nat :=
  if table.slots.length = 0 then vmMemoryMinCapacity else 2 * table.slots.length

theorem grownCapacity_power (table : BlockTable) : ∃ e, grownCapacity table = 2 ^ e := by
  unfold grownCapacity
  split
  · exact ⟨4, rfl⟩
  · rename_i nonempty
    rcases table.formed.capacity with empty | ⟨e, power⟩
    · simp_all
    · rw [List.length_map] at power
      exact ⟨e + 1, by rw [power, pow_succ, mul_comm]⟩

theorem half_grownCapacity (table : BlockTable) : table.count + 1 ≤ grownCapacity table / 2 := by
  have half := table.formed.half
  rw [List.length_map] at half
  unfold grownCapacity vmMemoryMinCapacity
  split <;> omega

/-- `calloc` says whether there is memory for a table of that many blocks. -/
def growBlocks (calloc : Nat → Bool) (table : BlockTable) : Option BlockTable :=
  if sizeMax / blockSize < grownCapacity table || !calloc (grownCapacity table) then none
  else some (table.grow .unused (grownCapacity table) unused_index (grownCapacity_power table)
    (by have := half_grownCapacity table; omega))

theorem growBlocks_spec {calloc : Nat → Bool} {table grown : BlockTable}
    (grew : growBlocks calloc table = some grown) :
    (∀ index, grown.find index = table.find index) ∧
      2 * (grown.count + 1) ≤ grown.slots.length := by
  unfold growBlocks at grew
  split at grew
  · cases grew
  · cases grew
    refine ⟨fun index => Table.find_grow .., ?_⟩
    have half := half_grownCapacity table
    rw [Table.length_grow]
    change 2 * (table.count + 1) ≤ _
    omega

/-! ## The machine -/

structure Registers where
  values : Fin 16 → Word
  known : BitVec 16

structure Vm where
  image : Option DearxanImage
  rip : Word
  ripKnown : Bool
  registers : Registers
  blocks : BlockTable

def newBlock (image : Option DearxanImage) (index : Word) : Block :=
  match dearxanImageRead image (index * 64) 64 with
  | some bytes => ⟨index + 1, BitVec.allOnes 64, fun i => bytes.getD i 0⟩
  | none => ⟨index + 1, 0, fun _ => 0⟩

theorem newBlock_index (image : Option DearxanImage) {index : Word} (valid : index + 1 ≠ 0) :
    (newBlock image index).index = some index := by
  unfold newBlock
  split <;> simp only [Block.index, if_neg valid, BitVec.add_sub_cancel]

theorem blockIndex_valid (address : Word) : address / 64 + 1 ≠ 0 := by
  intro zero
  have value := congrArg BitVec.toNat zero
  rw [BitVec.toNat_add, BitVec.toNat_udiv] at value
  change (address.toNat / 64 + 1) % 2 ^ 64 = 0 at value
  omega

section Allocation

variable (calloc : Nat → Bool)

/-- `find_block` that creates: the machine has a block at `index` afterwards. -/
def findBlock (vm : Vm) (index : Word) (valid : index + 1 ≠ 0) : Option Vm :=
  if absent : vm.blocks.find index = none then
    if room : vm.blocks.count + 1 ≤ vm.blocks.slots.length / 2 then
      some { vm with
        blocks := vm.blocks.insert index (newBlock vm.image index) (newBlock_index vm.image valid)
          absent (by omega) }
    else
      match grew : growBlocks calloc vm.blocks with
      | none => none
      | some grown =>
          some { vm with
            blocks := grown.insert index (newBlock vm.image index) (newBlock_index vm.image valid)
              (((growBlocks_spec grew).1 index).trans absent) (growBlocks_spec grew).2 }
  else some vm

/-- A change of the bytes and the known ones of a block. -/
structure BlockEdit where
  known : Word → Word
  bytes : (Fin 64 → Byte) → Fin 64 → Byte

def BlockEdit.apply (edit : BlockEdit) (block : Block) : Block :=
  { block with known := edit.known block.known, bytes := edit.bytes block.bytes }

theorem BlockEdit.apply_index (edit : BlockEdit) (block : Block) :
    (edit.apply block).index = block.index := rfl

def editBlock (vm : Vm) (address : Word) (edit : BlockEdit) : Option Vm :=
  (findBlock calloc vm (address / 64) (blockIndex_valid address)).map fun vm =>
    { vm with blocks := vm.blocks.modify (address / 64) edit.apply edit.apply_index }

/-! ## Ranges of memory

The loops of the memory functions cut a range at the block boundaries. -/

/-- `size` bytes at `address`, all in one block; `start` bytes of the range come before. -/
structure Chunk where
  address : Word
  size : Nat
  start : Nat

def Chunk.offset (chunk : Chunk) : Nat := (chunk.address % 64).toNat

def Chunk.mask (chunk : Chunk) : Word :=
  if chunk.size = 64 then BitVec.allOnes 64 else ((1#64 <<< chunk.size) - 1) <<< chunk.offset

/-- The chunks of `size` bytes; every turn takes a byte at least. -/
def chunksFrom : Nat → Word → Nat → Nat → List Chunk
  | 0, _, _, _ => []
  | fuel + 1, address, start, size =>
      if size = 0 then []
      else
        let chunk := min (64 - (address % 64).toNat) size
        ⟨address, chunk, start⟩ ::
          chunksFrom fuel (address + BitVec.ofNat 64 chunk) (start + chunk) (size - chunk)

def chunks (address : Word) (size : Nat) : List Chunk := chunksFrom size address 0 size

def readChunk (vm : Vm) (chunk : Chunk) : Option (List Byte) :=
  match vm.blocks.find (chunk.address / 64) with
  | some block =>
      if block.known &&& chunk.mask ≠ chunk.mask then none
      else some ((List.range chunk.size).map fun k => block.bytes (Fin.ofNat 64 (chunk.offset + k)))
  | none => (dearxanImageRead vm.image chunk.address chunk.size).map (·.take chunk.size)

def readChunks (vm : Vm) : List Chunk → Option (List Byte)
  | [] => some []
  | chunk :: rest => do
      let front ← readChunk vm chunk
      let back ← readChunks vm rest
      return front ++ back

def dearxanVmReadMemory (vm : Vm) (address : Word) (size : Nat) : Option (List Byte) :=
  readChunks vm (chunks address size)

def editChunks (edit : Chunk → BlockEdit) : Vm → List Chunk → Option Vm
  | vm, [] => some vm
  | vm, chunk :: rest => do
      let vm ← editBlock calloc vm chunk.address (edit chunk)
      editChunks edit vm rest

/-- `memcpy` of a chunk of the input, which becomes known. -/
def copyEdit (input : Nat → Byte) (chunk : Chunk) : BlockEdit where
  known := fun known => known ||| chunk.mask
  bytes := fun bytes i =>
    if chunk.offset ≤ i ∧ i < chunk.offset + chunk.size then input (chunk.start + (i - chunk.offset))
    else bytes i

def forgetEdit (chunk : Chunk) : BlockEdit where
  known := fun known => known &&& ~~~chunk.mask
  bytes := id

def dearxanVmWriteMemory (vm : Vm) (address : Word) (input : Nat → Byte) (size : Nat) : Option Vm :=
  editChunks calloc (copyEdit input) vm (chunks address size)

def dearxanVmInvalidateMemory (vm : Vm) (address : Word) (size : Nat) : Option Vm :=
  editChunks calloc forgetEdit vm (chunks address size)

end Allocation

def readNumber (vm : Vm) (address : Word) (size : Nat) : Option Word :=
  (dearxanVmReadMemory vm address size).map fun bytes => ofBytes (fun k => bytes.getD k 0) size

/-! ## Registers -/

def registerIndex (reg : ZydisRegister) : Option (Fin 16 × Nat) :=
  (zydisRegisterGetLargestEnclosing reg).map fun index => (index, zydisRegisterGetWidth reg / 8)

def registerBitOffset : ZydisRegister → Nat
  | .gpr8 id => if 4 ≤ id ∧ id < 8 then 8 else 0
  | _ => 0

def sizeMask (size : Nat) : Word :=
  if size = 0 then 0 else if 8 ≤ size then BitVec.allOnes 64 else (1#64 <<< (size * 8)) - 1

def Registers.isKnown (registers : Registers) (index : Fin 16) : Bool :=
  registers.known &&& (1#16 <<< index.val) ≠ 0

def dearxanVmReadRegister (vm : Vm) (reg : ZydisRegister) : Option Word :=
  match registerIndex reg with
  | none => none
  | some (index, width) =>
      if !vm.registers.isKnown index then none
      else some ((vm.registers.values index >>> registerBitOffset reg) &&& sizeMask width)

def Registers.set (registers : Registers) (index : Fin 16) (value : Word) : Registers where
  values := fun other => if other = index then value else registers.values other
  known := registers.known ||| (1#16 <<< index.val)

/-- An unknown value is `none`. -/
def Registers.write (registers : Registers) (reg : ZydisRegister) (value : Option Word) : Registers :=
  match registerIndex reg, value with
  | none, _ => registers
  | some (index, _), none => { registers with known := registers.known &&& ~~~(1#16 <<< index.val) }
  | some (index, width), some value =>
      if width = 8 then registers.set index value
      else if width = 4 then registers.set index ((value.setWidth 32).setWidth 64)
      else if registers.isKnown index then
        let offset := registerBitOffset reg
        let mask := sizeMask width <<< offset
        registers.set index
          ((registers.values index &&& ~~~mask) ||| ((value <<< offset) &&& mask))
      else registers

def dearxanVmWriteRegister (vm : Vm) (reg : ZydisRegister) (value : Option Word) : Vm :=
  { vm with registers := vm.registers.write reg value }

def zydisRegisterRsp : ZydisRegister := .gpr64 4

def dearxanVmInit (image : Option DearxanImage) (rip rsp : Word) : Vm :=
  dearxanVmWriteRegister ⟨image, rip, true, ⟨fun _ => 0, 0⟩, .empty⟩ zydisRegisterRsp (some rsp)

/-! ## Operands -/

def dearxanVmOperandAddress (vm : Vm) (instruction : ZydisDecodedInstruction)
    (operand : ZydisDecodedOperand) : Option Word :=
  match operand.type with
  | .memory mem =>
      let base :=
        if mem.base = .rip then some (vm.rip + instruction.size)
        else if mem.base ≠ .none then dearxanVmReadRegister vm mem.base
        else some 0
      let index :=
        if mem.index ≠ .none then
          (dearxanVmReadRegister vm mem.index).map fun value => value * mem.scale.setWidth 64
        else some 0
      base.bind fun base => index.map fun index =>
        base + index + (if mem.hasDisplacement then mem.displacement else 0)
  | _ => none

def dearxanVmOperandValue (vm : Vm) (instruction : ZydisDecodedInstruction)
    (operand : ZydisDecodedOperand) : Option Word :=
  let size := operand.size / 8
  match operand.type with
  | .register reg => dearxanVmReadRegister vm reg
  | .memory _ =>
      if size = 0 || size > 8 then none
      else do
        let address ← dearxanVmOperandAddress vm instruction operand
        readNumber vm address size
  | .immediate imm =>
      if imm.isRelative then zydisCalcAbsoluteAddress instruction imm vm.rip else some imm.value
  | _ => none

def visibleOperandValue (vm : Vm) (instruction : ZydisDecodedInstruction) (operands : Operands)
    (index : Fin 10) : Option Word :=
  if index < instruction.operandCountVisible then
    dearxanVmOperandValue vm instruction (operands index)
  else none

section Allocation

variable (calloc : Nat → Bool)

/-- A store to a register, or to memory at an address resolved before. An unknown value makes the
destination unknown, an unknown address leaves the memory alone. -/
def storeOperand (vm : Vm) (operand : ZydisDecodedOperand) (address value : Option Word) :
    Option Vm :=
  let size := operand.size / 8
  match operand.type, address with
  | .register reg, _ => some (dearxanVmWriteRegister vm reg value)
  | .memory _, some address =>
      if size = 0 then some vm
      else
        match value with
        | some value =>
            if size ≤ 8 then dearxanVmWriteMemory calloc vm address (byteOf value) size
            else dearxanVmInvalidateMemory calloc vm address size
        | none => dearxanVmInvalidateMemory calloc vm address size
  | _, _ => some vm

def setOperand (vm : Vm) (instruction : ZydisDecodedInstruction) (operand : ZydisDecodedOperand)
    (value : Option Word) : Option Vm :=
  storeOperand calloc vm operand (dearxanVmOperandAddress vm instruction operand) value

/-! ## A step -/

def handleGeneric (vm : Vm) (instruction : ZydisDecodedInstruction) (operands : Operands) :
    Option Vm :=
  ((List.finRange 10).take instruction.operandCount).foldlM
    (fun vm i =>
      if (operands i).writes then setOperand calloc vm instruction (operands i) none else some vm) vm

def endsExecutionPath (instruction : ZydisDecodedInstruction) : Bool :=
  match instruction.mnemonic with
  | .ud0 | .ud1 | .ud2 | .xbegin | .xabort | .xend | .iret | .iretd | .iretq => true
  | _ => instruction.category = .interrupt

def dearxanVmClone (vm : Vm) : Option Vm :=
  if vm.blocks.slots.length = 0 then some vm
  else if calloc vm.blocks.slots.length then some vm
  else none

def dearxanVmRetIncrement (instruction : ZydisDecodedInstruction) (operands : Operands) : Word :=
  match instruction.operandCountVisible, (operands 0).type with
  | 0, _ => 8
  | _, .immediate imm => 8 + imm.value
  | _, _ => 8

abbrev Stepped := Vm × Option Vm

def forkAtBranch (vm : Vm) (instruction : ZydisDecodedInstruction) (lhs : Option Word) :
    Option (Option Vm) :=
  match lhs with
  | some target =>
      if instruction.category = .condBr ∧ instruction.operandCountVisible = 1 then
        (dearxanVmClone calloc vm).map fun forked =>
          some { forked with rip := target, ripKnown := true }
      else some none
  | none => some none

def Vm.jump (vm : Vm) (target : Option Word) : Vm :=
  match target with
  | some target => { vm with rip := target }
  | none => { vm with ripKnown := false }

/-- What follows the switch; `lhs` is the value that the switch has read. -/
def finishStep (vm : Vm) (instruction : ZydisDecodedInstruction) (lhs : Option Word) :
    Option Stepped :=
  (forkAtBranch calloc vm instruction lhs).map fun forked =>
    if instruction.category = .uncondBr then (vm.jump lhs, forked)
    else ({ vm with rip := vm.rip + instruction.size }, forked)

def stepXchg (vm : Vm) (instruction : ZydisDecodedInstruction) (operands : Operands) :
    Option Stepped := do
  let lhs := visibleOperandValue vm instruction operands 0
  let rhs := visibleOperandValue vm instruction operands 1
  let first := dearxanVmOperandAddress vm instruction (operands 0)
  let second := dearxanVmOperandAddress vm instruction (operands 1)
  let vm ← storeOperand calloc vm (operands 0) first rhs
  let vm ← storeOperand calloc vm (operands 1) second lhs
  finishStep calloc vm instruction lhs

/-- A value on the stack below `rsp`, or nothing known there. -/
def pushValue (vm : Vm) (rsp : Word) (value : Option Word) : Option Vm :=
  let vm := dearxanVmWriteRegister vm zydisRegisterRsp (some rsp)
  match value with
  | some value => dearxanVmWriteMemory calloc vm rsp (byteOf value) 8
  | none => dearxanVmInvalidateMemory calloc vm rsp 8

def onStack (vm : Vm) (act : Word → Option Vm) : Option Vm :=
  match dearxanVmReadRegister vm zydisRegisterRsp with
  | some rsp => act rsp
  | none => some vm

/-- The operand is read first, so that `push rsp` sees the old one. -/
def stepPush (vm : Vm) (instruction : ZydisDecodedInstruction) (operands : Operands) :
    Option Stepped := do
  let lhs := visibleOperandValue vm instruction operands 0
  let vm ← onStack vm fun rsp => pushValue calloc vm (rsp - 8) lhs
  finishStep calloc vm instruction lhs

def stepPop (vm : Vm) (instruction : ZydisDecodedInstruction) (operands : Operands) :
    Option Stepped :=
  match dearxanVmReadRegister vm zydisRegisterRsp with
  | some rsp => do
      let lhs := readNumber vm rsp ((operands 0).size / 8)
      let vm := dearxanVmWriteRegister vm zydisRegisterRsp (some (rsp + 8))
      let vm ← setOperand calloc vm instruction (operands 0) lhs
      finishStep calloc vm instruction lhs
  | none => finishStep calloc vm instruction none

def stepPushf (vm : Vm) (instruction : ZydisDecodedInstruction) : Option Stepped := do
  let width := instruction.operandWidth / 8
  let vm ← onStack vm fun rsp =>
    let rsp := rsp - BitVec.ofNat 64 width
    dearxanVmInvalidateMemory calloc (dearxanVmWriteRegister vm zydisRegisterRsp (some rsp)) rsp width
  finishStep calloc vm instruction none

def stepPopf (vm : Vm) (instruction : ZydisDecodedInstruction) : Option Stepped := do
  let vm ← onStack vm fun rsp =>
    some (dearxanVmWriteRegister vm zydisRegisterRsp
      (some (rsp + BitVec.ofNat 64 (instruction.operandWidth / 8))))
  finishStep calloc vm instruction none

def stepCall (vm : Vm) (instruction : ZydisDecodedInstruction) (operands : Operands) :
    Option Stepped :=
  let lhs := visibleOperandValue vm instruction operands 0
  (onStack vm fun rsp => pushValue calloc vm (rsp - 8) (some (vm.rip + instruction.size))).map
    fun vm => (vm.jump lhs, none)

def stepRet (vm : Vm) (instruction : ZydisDecodedInstruction) (operands : Operands) : Stepped :=
  match dearxanVmReadRegister vm zydisRegisterRsp with
  | some rsp =>
      let target := readNumber vm rsp 8
      let vm := dearxanVmWriteRegister vm zydisRegisterRsp
        (some (rsp + dearxanVmRetIncrement instruction operands))
      (vm.jump target, none)
  | none => (vm.jump none, none)

def stepCmov (vm : Vm) (instruction : ZydisDecodedInstruction) (operands : Operands) :
    Option Stepped :=
  let lhs := visibleOperandValue vm instruction operands 0
  let rhs := visibleOperandValue vm instruction operands 1
  let vm := { vm with rip := vm.rip + instruction.size }
  match lhs, rhs with
  | some _, some rhs => do
      let forked ← dearxanVmClone calloc vm
      return (vm, some ((setOperand calloc forked instruction (operands 0) (some rhs)).getD forked))
  | none, some rhs =>
      some ((setOperand calloc vm instruction (operands 0) (some rhs)).getD vm, none)
  | _, none => some (vm, none)

def stepOther (vm : Vm) (instruction : ZydisDecodedInstruction) (operands : Operands) :
    Option Stepped :=
  if instruction.category = .cmov then stepCmov calloc vm instruction operands
  else do
    let lhs :=
      if instruction.category = .condBr ∨ instruction.category = .uncondBr then
        visibleOperandValue vm instruction operands 0
      else none
    let vm ← handleGeneric calloc vm instruction operands
    finishStep calloc vm instruction lhs

/-- The low `size` bits of `value`, with its highest one as the sign. -/
def signExtended (size : Nat) (value : Word) : Word :=
  if size ≠ 0 ∧ size < 64 then
    let mask := (1#64 <<< size) - 1
    let sign := 1#64 <<< (size - 1)
    ((value &&& mask) ^^^ sign) - sign
  else value

def dearxanVmStep (vm : Vm) (instruction : ZydisDecodedInstruction) (operands : Operands) :
    Option Stepped :=
  if endsExecutionPath instruction then some ({ vm with ripKnown := false }, none)
  else
    let lhs := visibleOperandValue vm instruction operands 0
    let rhs := visibleOperandValue vm instruction operands 1
    match instruction.mnemonic with
    | .mov | .movzx => do
        let vm ← setOperand calloc vm instruction (operands 0) rhs
        finishStep calloc vm instruction none
    | .movsx | .movsxd => do
        let vm ← setOperand calloc vm instruction (operands 0)
          (rhs.map (signExtended (operands 1).size))
        finishStep calloc vm instruction none
    | .lea => do
        let vm ← setOperand calloc vm instruction (operands 0)
          (dearxanVmOperandAddress vm instruction (operands 1))
        finishStep calloc vm instruction none
    | .add => do
        let vm ← setOperand calloc vm instruction (operands 0) (lhs.bind fun l => rhs.map (l + ·))
        finishStep calloc vm instruction lhs
    | .sub => do
        let vm ← setOperand calloc vm instruction (operands 0) (lhs.bind fun l => rhs.map (l - ·))
        finishStep calloc vm instruction lhs
    | .xchg => stepXchg calloc vm instruction operands
    | .push => stepPush calloc vm instruction operands
    | .pop => stepPop calloc vm instruction operands
    | .pushf | .pushfq => stepPushf calloc vm instruction
    | .popf | .popfq => stepPopf calloc vm instruction
    | .call => stepCall calloc vm instruction operands
    | .ret => some (stepRet vm instruction operands)
    | _ => stepOther calloc vm instruction operands

end Allocation

end Yafsml.Dearxan
