import Yafsml.Dearxan.VmMemory
import Yafsml.Dearxan.VmRegisters

/-! # The virtual machine against x86-64

What the machine reports as known after a step, against what the instruction does to a processor in a
state that agreed before. -/

namespace Yafsml.Dearxan

open LittleEndian OpenAddressing X86

/-! ## Agreement -/

/-- All that the virtual machine reports as known is so in the processor. -/
structure Consistent (vm : Vm) (m : Machine) : Prop where
  registers : ∀ gpr value, dearxanVmReadRegister vm (.gpr64 gpr) = some value →
    m.registers gpr = value
  memory : ∀ a byte, vm.byte a = some byte → m.memory a = byte
  rip : vm.ripKnown = true → m.rip = vm.rip

/-- The address can be computed from known registers. -/
structure Computable (vm : Vm) (a : Address) : Prop where
  rip : a.base = .rip → vm.ripKnown = true
  base : ∀ gpr, a.base = .register gpr → (dearxanVmReadRegister vm (.gpr64 gpr)).isSome
  index : ∀ gpr, a.index = some gpr → (dearxanVmReadRegister vm (.gpr64 gpr)).isSome

def baseValue (m : Machine) (next : Word) : Base → Word
  | .absent => 0
  | .rip => next
  | .register gpr => m.registers gpr

def indexValue (m : Machine) (a : Address) : Word :=
  (a.index.map fun gpr => m.registers gpr * a.scale.setWidth 64).getD 0

theorem address_eq (m : Machine) (next : Word) (a : Address) :
    m.address next a = baseValue m next a.base + indexValue m a + a.displacement := by
  rw [Machine.address, indexValue]
  cases a.index with
  | none => cases a.base with
    | absent => rfl
    | rip => rfl
    | register gpr => rfl
  | some index => cases a.base with
    | absent => rfl
    | rip => rfl
    | register gpr => rfl

section Reads

variable {vm : Vm} {m : Machine} {instruction : ZydisDecodedInstruction}
  {operand : ZydisDecodedOperand} {operands : Operands} (consistent : Consistent vm m)

include consistent

theorem Consistent.get {gpr : Gpr} {value : Word} (known : vm.registers.get gpr = some value) :
    m.registers gpr = value :=
  consistent.registers gpr value (by rw [dearxanVmReadRegister_gpr64, known])

theorem Consistent.register {r : Register} {value : Word}
    (known : dearxanVmReadRegister vm (zydisOf r) = some value) :
    r.read (m.registers r.gpr) = value := by
  rw [dearxanVmReadRegister_zydisOf] at known
  obtain ⟨content, found, rfl⟩ := Option.map_eq_some_iff.mp known
  rw [consistent.get found]

theorem Consistent.load {address value : Word} {size : Nat}
    (known : readNumber vm address size = some value) : m.load address size = value := by
  obtain ⟨bytes, read, rfl⟩ := Option.map_eq_some_iff.mp known
  obtain ⟨length, stored⟩ := dearxanVmReadMemory_spec read
  apply ofBytes_congr
  intro k below
  apply consistent.memory
  rw [Vm.byte_eq_stored, stored k below, List.getD_eq_getElem?_getD,
    List.getElem?_eq_getElem (by omega), Option.getD_some]

variable (instruction) in
theorem Consistent.address {mem : ZydisDecodedOperandMem} {a : Address}
    (type : operand.type = .memory mem) (describes : DescribesAddress mem a)
    (computable : Computable vm a) :
    dearxanVmOperandAddress vm instruction operand =
      some (m.address (m.rip + instruction.size) a) := by
  have base : (if mem.base = .rip then some (vm.rip + instruction.size)
      else if mem.base ≠ .none then dearxanVmReadRegister vm mem.base else some 0) =
      some (baseValue m (m.rip + instruction.size) a.base) := by
    rw [describes.base]
    cases kind : a.base with
    | absent => rfl
    | rip =>
        rw [consistent.rip (computable.rip kind)]
        rfl
    | register gpr =>
        obtain ⟨value, known⟩ := Option.isSome_iff_exists.mp (computable.base gpr kind)
        change dearxanVmReadRegister vm (.gpr64 gpr) = some (m.registers gpr)
        rw [consistent.registers gpr value known, known]
  have index : (if mem.index ≠ .none then
        (dearxanVmReadRegister vm mem.index).map fun value => value * mem.scale.setWidth 64
      else some 0) =
      some (indexValue m a) := by
    rw [describes.index, describes.scale, indexValue]
    cases kind : a.index with
    | none => rfl
    | some gpr =>
        obtain ⟨value, known⟩ := Option.isSome_iff_exists.mp (computable.index gpr kind)
        change (dearxanVmReadRegister vm (.gpr64 gpr)).map (fun value => value * a.scale.setWidth 64) =
          some (m.registers gpr * a.scale.setWidth 64)
        rw [consistent.registers gpr value known, known, Option.map_some]
  unfold dearxanVmOperandAddress
  rw [type]
  simp only [base, index, describes.displacement]
  rw [address_eq]
  rfl

theorem Consistent.place {place : Place} {value : Word} (describes : DescribesPlace operand place)
    (computable : ∀ a ∈ place.addresses, Computable vm a)
    (known : dearxanVmOperandValue vm instruction operand = some value) :
    m.read (m.locate (m.rip + instruction.size) place) = value := by
  cases place with
  | register r =>
      obtain ⟨type, _⟩ := describes
      unfold dearxanVmOperandValue at known
      rw [type] at known
      exact consistent.register known
  | memory width a =>
      obtain ⟨mem, type, described, size⟩ := describes
      have addressed := consistent.address instruction type described (computable a (.head _))
      unfold dearxanVmOperandValue at known
      rw [type, addressed, size, Nat.mul_div_cancel_left _ (by decide)] at known
      simp only at known
      split_ifs at known
      exact consistent.load known

theorem Consistent.visible {index : Fin 10} {place : Place} {value : Word}
    (describes : DescribesPlace (operands index) place)
    (computable : ∀ a ∈ place.addresses, Computable vm a)
    (known : visibleOperandValue vm instruction operands index = some value) :
    m.read (m.locate (m.rip + instruction.size) place) = value := by
  unfold visibleOperandValue at known
  split_ifs at known
  exact consistent.place describes computable known

theorem Consistent.source {index : Fin 10} {src : Source} {value : Word}
    (describes : DescribesSource (operands index) src)
    (computable : ∀ a ∈ src.addresses, Computable vm a)
    (known : visibleOperandValue vm instruction operands index = some value) :
    m.value (m.rip + instruction.size) src = value := by
  cases src with
  | place place => exact consistent.visible describes computable known
  | immediate number =>
      obtain ⟨imm, type, absolute, rfl⟩ := describes
      unfold visibleOperandValue dearxanVmOperandValue at known
      rw [type] at known
      simp only [absolute, Bool.false_eq_true, if_false] at known
      split_ifs at known
      exact Option.some.inj known

end Reads

/-! ## Writes -/

def Locates (operand : ZydisDecodedOperand) (address : Option Word) : Location → Prop
  | .register r => operand.type = .register (zydisOf r)
  | .memory width a => (∃ mem, operand.type = .memory mem) ∧ operand.size = 8 * width.bytes ∧
      address = some a

def Agrees (value : Option Word) (v : Word) : Prop := ∀ v', value = some v' → v' = v

theorem agrees_some (v : Word) : Agrees (some v) v := fun _ same => (Option.some.inj same).symm

theorem agrees_none (v : Word) : Agrees none v := fun _ known => by cases known

section Writes

variable {calloc : Nat → Bool} {vm vm' : Vm} {m : Machine} {instruction : ZydisDecodedInstruction}
  {operand : ZydisDecodedOperand} (consistent : Consistent vm m)

include consistent

theorem Consistent.locates {place : Place} (describes : DescribesPlace operand place)
    (computable : ∀ a ∈ place.addresses, Computable vm a) :
    Locates operand (dearxanVmOperandAddress vm instruction operand)
      (m.locate (m.rip + instruction.size) place) := by
  cases place with
  | register r => exact describes.1
  | memory width a =>
      obtain ⟨mem, type, described, size⟩ := describes
      exact ⟨⟨mem, type⟩, size, consistent.address instruction type described (computable a (.head _))⟩

theorem Consistent.writeRegister {r : Register} {value : Option Word} {v : Word}
    (agrees : Agrees value v) :
    Consistent (dearxanVmWriteRegister vm (zydisOf r) value) (m.write v (.register r)) := by
  refine ⟨fun gpr known found => ?_, fun a byte known => ?_, consistent.rip⟩
  · rw [dearxanVmReadRegister_gpr64] at found
    change (vm.registers.write (zydisOf r) value).get gpr = some known at found
    rw [Registers.get_write] at found
    by_cases here : gpr = r.gpr
    · subst here
      rw [if_pos rfl] at found
      obtain ⟨v', written, found⟩ := Option.bind_eq_some_iff.mp found
      obtain rfl := agrees v' written
      change (m.setRegister r.gpr (r.write (m.registers r.gpr) v')).registers r.gpr = known
      rw [Machine.setRegister_self]
      split at found
      · rename_i covers
        rw [← Option.some.inj found]
        exact Register.write_of_covers covers ..
      · obtain ⟨content, held, rfl⟩ := Option.map_eq_some_iff.mp found
        rw [consistent.get held]
    · rw [if_neg here] at found
      exact (Machine.setRegister_other _ here).trans (consistent.get found)
  · apply consistent.memory
    rw [Vm.byte_eq_stored] at known ⊢
    exact known

theorem Consistent.edited {address v : Word} {size : Nat} {after : Nat → Option Byte}
    (edited : Edited vm vm' address size after)
    (agrees : ∀ k byte, after k = some byte → byte = byteOf v k) :
    Consistent vm' (m.store address size v) := by
  refine ⟨fun gpr value found => ?_, fun a byte known => ?_, fun known => ?_⟩
  · rw [dearxanVmReadRegister_gpr64, edited.cpu.registers] at found
    exact consistent.get found
  · rw [Vm.byte_eq_stored] at known
    simp only [Machine.store]
    split_ifs with inside
    · rw [(edited.inside a inside).1] at known
      exact (agrees _ byte known).symm
    · apply consistent.memory
      rw [Vm.byte_eq_stored]
      rcases edited.outside a (by omega) with kept | ⟨_, lost, _⟩
      · rw [← kept, known]
      · rw [lost] at known
        cases known
  · rw [edited.cpu.ripKnown] at known
    rw [edited.cpu.rip]
    exact consistent.rip known

theorem Consistent.storeOperand {address value : Option Word} {location : Location} {v : Word}
    (locates : Locates operand address location) (agrees : Agrees value v)
    (stored : storeOperand calloc vm operand address value = some vm') :
    Consistent vm' (m.write v location) := by
  unfold Dearxan.storeOperand at stored
  cases location with
  | register r =>
      have type : operand.type = .register (zydisOf r) := locates
      rw [type] at stored
      cases stored
      exact consistent.writeRegister agrees
  | memory width a =>
      obtain ⟨⟨mem, type⟩, size, rfl⟩ := locates
      rw [type, size, Nat.mul_div_cancel_left _ (by decide)] at stored
      have positive : width.bytes ≠ 0 := by cases width <;> decide
      have small : width.bytes ≤ 8 := by cases width <;> decide
      dsimp only at stored
      rw [if_neg positive] at stored
      cases value with
      | none =>
          exact consistent.edited (dearxanVmInvalidateMemory_spec (by omega) stored) (by simp)
      | some v' =>
          obtain rfl := agrees v' rfl
          dsimp only at stored
          rw [if_pos small] at stored
          exact consistent.edited (dearxanVmWriteMemory_spec (by omega) stored) (by simp)

theorem Consistent.advance (size : Word) :
    Consistent { vm with rip := vm.rip + size } { m with rip := m.rip + size } := by
  refine ⟨fun gpr value found => ?_, fun a byte known => ?_, fun known => ?_⟩
  · rw [dearxanVmReadRegister_gpr64] at found
    exact consistent.get found
  · apply consistent.memory
    rw [Vm.byte_eq_stored] at known ⊢
    exact known
  · simp only [consistent.rip known]

theorem Consistent.jump {target : Option Word} {address : Word}
    (agrees : vm.ripKnown = true → Agrees target address) :
    Consistent (vm.jump target) { m with rip := address } := by
  cases target with
  | some target =>
      refine ⟨consistent.registers, fun a byte known => consistent.memory a byte ?_,
        fun known => (agrees known target rfl).symm⟩
      rw [Vm.byte_eq_stored] at known ⊢
      exact known
  | none =>
      refine ⟨consistent.registers, fun a byte known => consistent.memory a byte ?_,
        fun known => by cases known⟩
      rw [Vm.byte_eq_stored] at known ⊢
      exact known

end Writes

/-! ## Steps -/

/-- A store on the stack at an unknown place does not meet memory that is known. -/
def Unaliased (vm : Vm) (m : Machine) : Instr → Prop
  | .push width _ => dearxanVmReadRegister vm zydisRegisterRsp = none →
      ∀ a, (a - (m.registers rsp - width.bytes)).toNat < width.toWidth.bytes → vm.byte a = none
  | .call _ => dearxanVmReadRegister vm zydisRegisterRsp = none →
      ∀ a, (a - (m.registers rsp - 8)).toNat < 8 → vm.byte a = none
  | _ => True

section Steps

variable {calloc : Nat → Bool} {vm vm' : Vm} {m : Machine} {instruction : ZydisDecodedInstruction}
  {operands : Operands} {instr : Instr} {fork : Option Vm}

theorem finishStep_other (category : ∃ value, instruction.category = .other value) (vm : Vm)
    (lhs : Option Word) :
    finishStep calloc vm instruction lhs = some ({ vm with rip := vm.rip + instruction.size }, none) := by
  obtain ⟨value, category⟩ := category
  cases lhs <;> simp [finishStep, forkAtBranch, category]

section Consistent

variable (consistent : Consistent vm m)

include consistent

theorem Consistent.setAndFinish {dst : Place} {value lhs : Option Word} {v : Word}
    (category : ∃ value, instruction.category = .other value)
    (describes : DescribesPlace (operands 0) dst)
    (computable : ∀ a ∈ dst.addresses, Computable vm a) (agrees : Agrees value v)
    (stepped : ((setOperand calloc vm instruction (operands 0) value).bind fun vm =>
      finishStep calloc vm instruction lhs) = some (vm', fork)) :
    Consistent vm' { m.write v (m.locate (m.rip + instruction.size) dst) with
      rip := m.rip + instruction.size } := by
  obtain ⟨middle, stored, finished⟩ := Option.bind_eq_some_iff.mp stepped
  rw [finishStep_other category] at finished
  cases finished
  have written := consistent.storeOperand (consistent.locates describes computable) agrees stored
  have advanced := written.advance instruction.size
  rwa [Machine.rip_write] at advanced

theorem Consistent.unknownRsp (unknown : dearxanVmReadRegister vm zydisRegisterRsp = none)
    (value : Word) : Consistent vm (m.setRegister rsp value) := by
  refine ⟨fun gpr known found => ?_, consistent.memory, consistent.rip⟩
  have apart : gpr ≠ rsp := by
    rintro rfl
    cases unknown.symm.trans found
  rw [Machine.setRegister_other _ apart]
  exact consistent.registers gpr known found

theorem Consistent.knownRsp {value : Option Word} {v : Word} (agrees : Agrees value v) :
    Consistent (dearxanVmWriteRegister vm zydisRegisterRsp value) (m.setRegister rsp v) :=
  consistent.writeRegister agrees (r := .r64 rsp)

theorem Consistent.unknownStore {address v : Word} {size : Nat}
    (unknown : ∀ a, (a - address).toNat < size → vm.byte a = none) :
    Consistent vm (m.store address size v) := by
  refine ⟨consistent.registers, fun a byte known => ?_, consistent.rip⟩
  simp only [Machine.store]
  split_ifs with inside
  · rw [unknown a inside] at known
    cases known
  · exact consistent.memory a byte known

theorem Consistent.push {top v : Word} {value : Option Word} (agrees : Agrees value v)
    (pushed : pushValue calloc vm top value = some vm') :
    Consistent vm' ((m.setRegister rsp top).store top 8 v) := by
  have moved := consistent.knownRsp (agrees_some top)
  unfold pushValue at pushed
  cases value with
  | none => exact moved.edited (dearxanVmInvalidateMemory_spec (by decide) pushed) (by simp)
  | some v' =>
      obtain rfl := agrees v' rfl
      exact moved.edited (dearxanVmWriteMemory_spec (by decide) pushed) (by simp)

theorem Consistent.agrees_result (f : Word → Word → Word) {dst : Place} {src : Source}
    (place : DescribesPlace (operands 0) dst) (source : DescribesSource (operands 1) src)
    (ofDst : ∀ a ∈ dst.addresses, Computable vm a) (ofSrc : ∀ a ∈ src.addresses, Computable vm a) :
    Agrees ((visibleOperandValue vm instruction operands 0).bind fun l =>
        (visibleOperandValue vm instruction operands 1).map (f l))
      (f (m.read (m.locate (m.rip + instruction.size) dst)) (m.value (m.rip + instruction.size) src)) := by
  intro v known
  obtain ⟨l, left, known⟩ := Option.bind_eq_some_iff.mp known
  obtain ⟨r, right, rfl⟩ := Option.map_eq_some_iff.mp known
  rw [consistent.visible place ofDst left, consistent.source source ofSrc right]

theorem Consistent.moves (describes : Describes instruction operands instr)
    (computable : ∀ a ∈ instr.addresses, Computable vm a)
    (stepped : dearxanVmStep calloc vm instruction operands = some (vm', fork))
    (plain : match instr with | .push .. | .pop .. | .call .. => False | _ => True) :
    Consistent vm' (m.exec (m.rip + instruction.size) instr) := by
  obtain ⟨category, described⟩ := describes
  obtain ⟨number, other⟩ := id category
  unfold dearxanVmStep at stepped
  cases instr with
  | push | pop | call => cases plain
  | mov dst src =>
      obtain ⟨mnemonic, _, place, source⟩ := described
      obtain ⟨ofDst, ofSrc⟩ := List.forall_mem_append.mp computable
      rw [if_neg (by simp [endsExecutionPath, mnemonic, other]), mnemonic] at stepped
      exact consistent.setAndFinish category place ofDst
        (fun v known => (consistent.source source ofSrc known).symm) stepped
  | movzx dst src =>
      obtain ⟨mnemonic, _, place, source⟩ := described
      rw [if_neg (by simp [endsExecutionPath, mnemonic, other]), mnemonic] at stepped
      exact consistent.setAndFinish category place (by simp [Place.addresses])
        (fun v known => (consistent.visible source computable known).symm) stepped
  | movsx dst src =>
      obtain ⟨mnemonic, _, place, source⟩ := described
      have size : (operands 1).size = 8 * src.width.bytes := by
        cases src with
        | register r => exact source.2
        | memory width a => exact source.choose_spec.2.2
      have agrees : Agrees ((visibleOperandValue vm instruction operands 1).map
          (signExtended (operands 1).size))
          (X86.signExtend (m.read (m.locate (m.rip + instruction.size) src)) src.width) := by
        intro v known
        obtain ⟨value, found, rfl⟩ := Option.map_eq_some_iff.mp known
        rw [consistent.visible source computable found, size, signExtended_bytes]
      rcases mnemonic with mnemonic | mnemonic <;>
        rw [if_neg (by simp [endsExecutionPath, mnemonic, other]), mnemonic] at stepped
      · exact consistent.setAndFinish category place (by simp [Place.addresses]) agrees stepped
      · exact consistent.setAndFinish category place (by simp [Place.addresses]) agrees stepped
  | lea dst src =>
      obtain ⟨mnemonic, _, place, mem, type, source⟩ := described
      rw [if_neg (by simp [endsExecutionPath, mnemonic, other]), mnemonic] at stepped
      have addressed := consistent.address instruction type source (computable src (.head _))
      exact consistent.setAndFinish category place (by simp [Place.addresses])
        (addressed ▸ agrees_some _) stepped
  | add dst src =>
      obtain ⟨mnemonic, _, place, source⟩ := described
      obtain ⟨ofDst, ofSrc⟩ := List.forall_mem_append.mp computable
      rw [if_neg (by simp [endsExecutionPath, mnemonic, other]), mnemonic] at stepped
      exact consistent.setAndFinish category place ofDst
        (consistent.agrees_result (· + ·) place source ofDst ofSrc) stepped
  | sub dst src =>
      obtain ⟨mnemonic, _, place, source⟩ := described
      obtain ⟨ofDst, ofSrc⟩ := List.forall_mem_append.mp computable
      rw [if_neg (by simp [endsExecutionPath, mnemonic, other]), mnemonic] at stepped
      exact consistent.setAndFinish category place ofDst
        (consistent.agrees_result (· - ·) place source ofDst ofSrc) stepped
  | xchg first second =>
      obtain ⟨mnemonic, _, left, right⟩ := described
      obtain ⟨ofLeft, ofRight⟩ := List.forall_mem_append.mp computable
      rw [if_neg (by simp [endsExecutionPath, mnemonic, other]), mnemonic] at stepped
      obtain ⟨middle, stored, stepped⟩ := Option.bind_eq_some_iff.mp stepped
      obtain ⟨after, stored', finished⟩ := Option.bind_eq_some_iff.mp stepped
      rw [finishStep_other category] at finished
      cases finished
      have once := consistent.storeOperand (consistent.locates left ofLeft)
        (fun v known => (consistent.visible right ofRight known).symm) stored
      have twice := once.storeOperand (consistent.locates right ofRight)
        (fun v known => (consistent.visible left ofLeft known).symm) stored'
      have advanced := twice.advance instruction.size
      rwa [Machine.rip_write, Machine.rip_write] at advanced
  | ret release =>
      obtain ⟨mnemonic, operand⟩ := described
      rw [if_neg (by simp [endsExecutionPath, mnemonic, other]), mnemonic] at stepped
      have increment : dearxanVmRetIncrement instruction operands = 8 + release := by
        unfold dearxanVmRetIncrement
        rcases operand with ⟨visible, rfl⟩ | ⟨visible, imm, type, rfl⟩
        · simp [visible]
        · simp [visible, type]
      have stepped := Option.some.inj stepped
      unfold stepRet at stepped
      cases found : dearxanVmReadRegister vm zydisRegisterRsp with
      | none =>
          rw [found] at stepped
          cases stepped
          exact (consistent.unknownRsp found _).jump fun _ => agrees_none _
      | some top =>
          rw [found, increment] at stepped
          cases stepped
          obtain rfl := consistent.registers rsp top found
          exact (consistent.knownRsp (agrees_some _)).jump fun _ v known => (consistent.load known).symm

end Consistent

end Steps

end Yafsml.Dearxan
