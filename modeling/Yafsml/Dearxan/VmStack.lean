import Yafsml.Dearxan.VmSound

/-! # Pushes, pops and calls in the virtual machine

A push and a pop of 16 bits, a pop with an unknown stack pointer and a call from an unknown place can
leave the virtual machine with a known value that is wrong; the other steps never do. -/

namespace Yafsml.Dearxan

open LittleEndian X86

/-! ## The condition -/

def poppedValue (m : Machine) (width : StackWidth) : Word :=
  m.load (m.registers rsp) width.toWidth.bytes

def HoldsAlready (vm : Vm) (m : Machine) (next value : Word) : Place → Prop
  | .register r => ∀ v, dearxanVmReadRegister vm (zydisOf r) = some v → v = value
  | .memory width a => ∀ k < width.bytes, ∀ b,
      vm.byte (m.address next a + BitVec.ofNat 64 k) = some b → b = byteOf value k

/-- The state before a step in which nothing known goes wrong. Only `pop sp` overwrites a stack pointer
that has moved too far. -/
def StackFaithful (vm : Vm) (m : Machine) (next : Word) : Instr → Prop
  | .push width _ => (dearxanVmReadRegister vm zydisRegisterRsp).isSome → width = .qword
  | .pop width dst =>
      match dearxanVmReadRegister vm zydisRegisterRsp with
      | some top => width = .qword ∨ (dst = .register (.r16 rsp) ∧
          (readNumber vm top 2 = none ∨ (top + 8) >>> 16 = (top + 2) >>> 16))
      | none => HoldsAlready vm m next (poppedValue m width) dst
  | .call _ => (dearxanVmReadRegister vm zydisRegisterRsp).isSome →
      vm.ripKnown = true ∨ vm.rip = m.rip
  | _ => True

/-! ## Registers and addresses -/

theorem write_eq_self_iff {r : Register} {width : StackWidth} (same : r.width = width.toWidth)
    {value : Word} (small : ∀ i, 8 * width.toWidth.bytes ≤ i → value.getLsbD i = false)
    (content : Word) : r.write content value = content ↔ r.read content = value := by
  cases r with
  | r8 | r8High | r32 => cases width <;> cases same
  | r64 gpr => exact eq_comm
  | r16 gpr =>
      obtain rfl : width = .word := by cases width <;> first | rfl | cases same
      have bound (i : Nat) (above : 16 ≤ i) : value.getLsbD i = false := small i above
      simp only [Register.write, Register.read]
      constructor
      · intro kept
        rw [← kept]
        apply BitVec.eq_of_getLsbD_eq
        intro i inside
        simp only [BitVec.getLsbD_setWidth, BitVec.getLsbD_append, inside, decide_true, Bool.true_and]
        by_cases low : i < 16
        · simp [low, inside]
        · simp [low, bound i (by omega)]
      · intro held
        rw [← held]
        apply BitVec.eq_of_getLsbD_eq
        intro i inside
        simp only [BitVec.getLsbD_append, BitVec.getLsbD_extractLsb', BitVec.getLsbD_setWidth]
        by_cases low : i < 16
        · simp [low, inside]
        · have upper : i - 16 < 48 := by omega
          have back : 16 + (i - 16) = i := by omega
          simp [low, upper, back]

theorem write_r16_eq_iff (gpr : Gpr) (content content' value : Word) :
    (Register.r16 gpr).write content value = (Register.r16 gpr).write content' value ↔
      content >>> 16 = content' >>> 16 := by
  simp only [Register.write]
  constructor
  · intro same
    apply BitVec.eq_of_getLsbD_eq
    intro i inside
    have bit := congrArg (fun word => word.getLsbD (16 + i)) same
    simp only [BitVec.getLsbD_append, BitVec.getLsbD_extractLsb', BitVec.getLsbD_ushiftRight] at bit ⊢
    by_cases upper : i < 48
    · have high : ¬ 16 + i < 16 := by omega
      simpa [upper, high] using bit
    · rw [BitVec.getLsbD_of_ge _ _ (by omega), BitVec.getLsbD_of_ge _ _ (by omega)]
  · intro same
    apply BitVec.eq_of_getLsbD_eq
    intro i inside
    simp only [BitVec.getLsbD_append, BitVec.getLsbD_extractLsb']
    by_cases low : i < 16
    · simp [low]
    · have bit := congrArg (fun word => word.getLsbD (i - 16)) same
      simp only [BitVec.getLsbD_ushiftRight] at bit
      simp [low, bit]

theorem address_of_unknown_rsp {vm : Vm} {m : Machine} {a : Address} (computable : Computable vm a)
    (unknown : dearxanVmReadRegister vm zydisRegisterRsp = none) (next value : Word) :
    (m.setRegister rsp value).address next a = m.address next a := by
  have apart (gpr : Gpr) (known : (dearxanVmReadRegister vm (.gpr64 gpr)).isSome) :
      (m.setRegister rsp value).registers gpr = m.registers gpr := by
    apply Machine.setRegister_other
    rintro rfl
    rw [show ZydisRegister.gpr64 rsp = zydisRegisterRsp from rfl, unknown] at known
    cases known
  unfold Machine.address
  cases base : a.base with
  | absent | rip =>
      cases index : a.index with
      | none => rfl
      | some gpr => simp only [apart gpr (computable.index gpr index)]
  | register gpr =>
      cases index : a.index with
      | none => simp only [apart gpr (computable.base gpr base)]
      | some other =>
          simp only [apart gpr (computable.base gpr base), apart other (computable.index other index)]

theorem Computable.knownRsp {vm : Vm} {a : Address} (computable : Computable vm a) (top : Word) :
    Computable (dearxanVmWriteRegister vm zydisRegisterRsp (some top)) a := by
  have kept (gpr : Gpr) (known : (dearxanVmReadRegister vm (.gpr64 gpr)).isSome) :
      (dearxanVmReadRegister (dearxanVmWriteRegister vm zydisRegisterRsp (some top))
        (.gpr64 gpr)).isSome := by
    rw [dearxanVmReadRegister_gpr64] at known ⊢
    change ((vm.registers.write (zydisOf (.r64 rsp)) (some top)).get gpr).isSome = true
    rw [Registers.get_write]
    split
    · rfl
    · exact known
  exact ⟨computable.rip, fun gpr base => kept gpr (computable.base gpr base),
    fun gpr index => kept gpr (computable.index gpr index)⟩

/-! ## Changes that the virtual machine does not see -/

theorem DescribesPlace.size {operand : ZydisDecodedOperand} {place : Place}
    (describes : DescribesPlace operand place) : operand.size = 8 * place.width.bytes := by
  cases place with
  | register r => exact describes.2
  | memory width a => exact describes.choose_spec.2.2

theorem consistent_advance_iff {vm : Vm} {m : Machine} (size : Word) :
    Consistent { vm with rip := vm.rip + size } { m with rip := m.rip + size } ↔ Consistent vm m := by
  refine ⟨fun after => ?_, fun consistent => consistent.advance size⟩
  refine ⟨after.registers, fun a byte known => after.memory a byte ?_, fun known => ?_⟩
  · rw [Vm.byte_eq_stored] at known ⊢
    exact known
  · have moved : m.rip + size = vm.rip + size := after.rip known
    bv_omega

def afterPop (m : Machine) (next : Word) (width : StackWidth) (dst : Place) : Machine :=
  let popped := m.setRegister rsp (m.registers rsp + width.bytes)
  popped.write (poppedValue m width) (popped.locate next dst)

theorem exec_pop (m : Machine) (size : Word) (width : StackWidth) (dst : Place) :
    m.exec (m.rip + size) (.pop width dst) =
      { afterPop m (m.rip + size) width dst with
        rip := (afterPop m (m.rip + size) width dst).rip + size } := by
  have rip : (afterPop m (m.rip + size) width dst).rip = m.rip := Machine.rip_write ..
  rw [rip]
  rfl

section Unseen

variable {vm vm' : Vm} {m : Machine} (consistent : Consistent vm m)

include consistent

theorem Consistent.writeRegister_iff {r : Register} {width : StackWidth}
    (same : r.width = width.toWidth) {value : Word}
    (small : ∀ i, 8 * width.toWidth.bytes ≤ i → value.getLsbD i = false) :
    Consistent vm (m.write value (.register r)) ↔
      ∀ v, dearxanVmReadRegister vm (zydisOf r) = some v → v = value := by
  simp only [dearxanVmReadRegister_zydisOf]
  constructor
  · intro after v known
    obtain ⟨content, found, rfl⟩ := Option.map_eq_some_iff.mp known
    have kept := after.get found
    rw [Machine.write, Machine.setRegister_self, consistent.get found] at kept
    exact (write_eq_self_iff same small content).mp kept
  · intro holds
    refine ⟨fun gpr content found => ?_, consistent.memory, consistent.rip⟩
    rw [dearxanVmReadRegister_gpr64] at found
    by_cases here : gpr = r.gpr
    · subst here
      rw [Machine.write, Machine.setRegister_self, consistent.get found]
      exact (write_eq_self_iff same small content).mpr
        (holds _ (Option.map_eq_some_iff.mpr ⟨content, found, rfl⟩))
    · exact (Machine.setRegister_other _ here).trans (consistent.get found)

theorem Consistent.store_iff {address value : Word} {size : Nat} (small : size ≤ 8) :
    Consistent vm (m.store address size value) ↔
      ∀ k < size, ∀ b, vm.byte (address + BitVec.ofNat 64 k) = some b → b = byteOf value k := by
  constructor
  · intro after k below b known
    have place : (address + BitVec.ofNat 64 k - address).toNat = k := by
      rw [add_comm, BitVec.add_sub_cancel, BitVec.toNat_ofNat]
      omega
    have kept := after.memory _ b known
    simp only [Machine.store, place, if_pos below] at kept
    exact kept.symm
  · intro holds
    refine ⟨consistent.registers, fun a byte known => ?_, consistent.rip⟩
    simp only [Machine.store]
    split_ifs with inside
    · refine (holds _ inside byte ?_).symm
      rwa [BitVec.ofNat_toNat, BitVec.setWidth_eq, add_comm, BitVec.sub_add_cancel]
    · exact consistent.memory a byte known

theorem Consistent.replaceRsp_iff (others : ∀ gpr ≠ rsp, vm'.registers.get gpr = vm.registers.get gpr)
    (bytes : ∀ a, vm'.byte a = vm.byte a) (rip : vm'.rip = vm.rip)
    (ripKnown : vm'.ripKnown = vm.ripKnown) (value : Word) :
    Consistent vm' (m.setRegister rsp value) ↔ Agrees (vm'.registers.get rsp) value := by
  constructor
  · intro after v known
    rw [← after.get known, Machine.setRegister_self]
  · intro agrees
    refine ⟨fun gpr content found => ?_, fun a byte known => ?_, fun known => ?_⟩
    · rw [dearxanVmReadRegister_gpr64] at found
      by_cases here : gpr = rsp
      · subst here
        rw [Machine.setRegister_self, agrees content found]
      · rw [Machine.setRegister_other _ here]
        exact consistent.get (others gpr here ▸ found)
    · exact consistent.memory a byte (bytes a ▸ known)
    · rw [rip]
      exact consistent.rip (ripKnown ▸ known)

end Unseen

/-! ## Steps -/

section Steps

variable {calloc : Nat → Bool} {vm vm' : Vm} {m : Machine} {instruction : ZydisDecodedInstruction}
  {operands : Operands} {fork : Option Vm} (consistent : Consistent vm m)
  (category : ∃ value, instruction.category = .other value)

theorem Vm.byte_jump (vm : Vm) (target : Option Word) (a : Word) : (vm.jump target).byte a = vm.byte a := by
  rw [Vm.byte_eq_stored, Vm.byte_eq_stored]
  cases target <;> rfl

theorem Registers.get_write_rsp (registers : Registers) (top : Word) (gpr : Gpr) :
    (registers.write zydisRegisterRsp (some top)).get gpr =
      if gpr = rsp then some top else registers.get gpr :=
  registers.get_write (.r64 rsp) (some top) gpr

theorem Registers.get_write_r16 (registers : Registers) (gpr other : Gpr) (value : Option Word) :
    (registers.write (zydisOf (.r16 gpr)) value).get other =
      if other = gpr then
        value.bind fun v => (registers.get other).map fun c => (Register.r16 gpr).write c v
      else registers.get other := by
  simpa [Register.covers, Register.gpr] using registers.get_write (.r16 gpr) value other

theorem pushValue_cpu {top : Word} {value : Option Word}
    (pushed : pushValue calloc vm top value = some vm') :
    SameCpu (dearxanVmWriteRegister vm zydisRegisterRsp (some top)) vm' := by
  unfold pushValue at pushed
  cases value with
  | none => exact (dearxanVmInvalidateMemory_spec (by decide) pushed).cpu
  | some value => exact (dearxanVmWriteMemory_spec (by decide) pushed).cpu

theorem setOperand_register {operand : ZydisDecodedOperand} {r : Register} {value : Option Word}
    (describes : DescribesPlace operand (.register r))
    (stored : setOperand calloc vm instruction operand value = some vm') :
    vm' = dearxanVmWriteRegister vm (zydisOf r) value := by
  unfold setOperand storeOperand at stored
  rw [describes.1] at stored
  exact (Option.some.inj stored).symm

theorem setOperand_memory_registers {operand : ZydisDecodedOperand} {width : Width} {a : Address}
    {value : Option Word} (describes : DescribesPlace operand (.memory width a))
    (stored : setOperand calloc vm instruction operand value = some vm') :
    vm'.registers = vm.registers := by
  obtain ⟨mem, type, _, size⟩ := describes
  have positive : width.bytes ≠ 0 := by cases width <;> decide
  have small : width.bytes ≤ 8 := by cases width <;> decide
  unfold setOperand storeOperand at stored
  rw [type, size, Nat.mul_div_cancel_left _ (by decide)] at stored
  cases address : dearxanVmOperandAddress vm instruction operand with
  | none =>
      rw [address] at stored
      exact (Option.some.inj stored) ▸ rfl
  | some address' =>
      rw [address] at stored
      dsimp only at stored
      rw [if_neg positive] at stored
      cases value with
      | none => exact (dearxanVmInvalidateMemory_spec (by omega) stored).cpu.registers
      | some value =>
          dsimp only at stored
          rw [if_pos small] at stored
          exact (dearxanVmWriteMemory_spec (by omega) stored).cpu.registers

theorem popSp_consistent_iff {vm : Vm} {m : Machine} (consistent : Consistent vm m) {next : Word}
    {value : Option Word} (agrees : Agrees value (poppedValue m .word)) :
    Consistent (dearxanVmWriteRegister
        (dearxanVmWriteRegister vm zydisRegisterRsp (some (m.registers rsp + 8)))
        (zydisOf (.r16 rsp)) value)
      (afterPop m next .word (.register (.r16 rsp))) ↔
    StackWidth.word = .qword ∨ (Place.register (.r16 rsp) = .register (.r16 rsp) ∧
      (value = none ∨ (m.registers rsp + 8) >>> 16 = (m.registers rsp + 2) >>> 16)) := by
  have written (gpr : Gpr) : (dearxanVmWriteRegister
        (dearxanVmWriteRegister vm zydisRegisterRsp (some (m.registers rsp + 8)))
        (zydisOf (.r16 rsp)) value).registers.get gpr =
      if gpr = rsp then value.map (Register.write (m.registers rsp + 8) · (.r16 rsp))
      else vm.registers.get gpr := by
    refine (Registers.get_write_r16 ..).trans ?_
    change (if gpr = rsp then _ else (vm.registers.write zydisRegisterRsp _).get gpr) = _
    split_ifs with here
    · change (value.bind fun v => ((vm.registers.write zydisRegisterRsp _).get gpr).map _) = _
      rw [Registers.get_write_rsp, if_pos here]
      cases value with
      | none => rfl
      | some v => rfl
    · rw [Registers.get_write_rsp, if_neg here]
  have twice : afterPop m next .word (.register (.r16 rsp)) =
      m.setRegister rsp ((Register.r16 rsp).write (m.registers rsp + 2) (poppedValue m .word)) := by
    change (m.setRegister rsp (m.registers rsp + 2)).setRegister rsp ((Register.r16 rsp).write
      ((m.setRegister rsp (m.registers rsp + 2)).registers rsp) (poppedValue m .word)) = _
    rw [Machine.setRegister_self, Machine.setRegister_setRegister]
  rw [twice, consistent.replaceRsp_iff (fun gpr apart => (written gpr).trans (if_neg apart))
    (fun a => by rw [Vm.byte_eq_stored, Vm.byte_eq_stored]; rfl) rfl rfl, written, if_pos rfl]
  cases value with
  | none => simp [Agrees]
  | some v =>
      obtain rfl := agrees v rfl
      simp only [Agrees, Option.map_some, Option.some.injEq, forall_eq', write_r16_eq_iff]
      simp

include consistent

include category in
theorem stepPush_consistent_iff {width : StackWidth} {src : Source}
    (describes : DescribesSource (operands 0) src)
    (computable : ∀ a ∈ src.addresses, Computable vm a)
    (unaliased : Unaliased vm m (.push width src))
    (stepped : stepPush calloc vm instruction operands = some (vm', fork)) :
    Consistent vm' (m.exec (m.rip + instruction.size) (.push width src)) ↔
      StackFaithful vm m (m.rip + instruction.size) (.push width src) := by
  obtain ⟨middle, pushed, finished⟩ := Option.bind_eq_some_iff.mp stepped
  rw [finishStep_other category] at finished
  cases finished
  unfold onStack at pushed
  cases found : dearxanVmReadRegister vm zydisRegisterRsp with
  | none =>
      rw [found] at pushed
      cases pushed
      have stored := (consistent.unknownRsp found (m.registers rsp - width.bytes)).unknownStore
        (v := m.value (m.rip + instruction.size) src) (unaliased found)
      refine iff_of_true (stored.advance instruction.size) ?_
      simp [StackFaithful, found]
  | some top =>
      rw [found] at pushed
      have held := consistent.registers rsp top found
      have agrees : Agrees (visibleOperandValue vm instruction operands 0)
          (m.value (m.rip + instruction.size) src) :=
        fun v known => (consistent.source describes computable known).symm
      simp only [StackFaithful, found, Option.isSome_some, forall_const]
      cases width with
      | qword =>
          refine iff_of_true ?_ rfl
          subst held
          exact (consistent.push agrees pushed).advance instruction.size
      | word =>
          refine iff_of_false (fun after => ?_) (by decide)
          have moved : middle.registers.get rsp = some (top - 8) := by
            rw [(pushValue_cpu pushed).registers]
            exact (Registers.get_write_rsp ..).trans (if_pos rfl)
          have wrong : top - 2 = top - 8 := by
            have right := after.get moved
            rw [← held] at right ⊢
            exact right
          bv_omega

theorem stepCall_consistent_iff {target : Target}
    (describes : DescribesTarget (operands 0) target)
    (computable : ∀ a ∈ (Instr.call target).addresses, Computable vm a)
    (unaliased : Unaliased vm m (.call target))
    (stepped : stepCall calloc vm instruction operands = some (vm', fork)) :
    Consistent vm' (m.exec (m.rip + instruction.size) (.call target)) ↔
      StackFaithful vm m (m.rip + instruction.size) (.call target) := by
  have agrees (known : vm.ripKnown = true) : Agrees (visibleOperandValue vm instruction operands 0)
      (m.callTarget (m.rip + instruction.size) target) := by
    intro v found
    cases target with
    | place place => exact (consistent.visible describes.1 computable found).symm
    | relative displacement =>
        obtain ⟨imm, type, signed, relative, rfl⟩ := describes
        unfold visibleOperandValue dearxanVmOperandValue zydisCalcAbsoluteAddress at found
        rw [type] at found
        simp only [signed, relative, Bool.and_self, if_true] at found
        split_ifs at found
        rw [← Option.some.inj found, ← consistent.rip known]
        rfl
  obtain ⟨middle, pushed, jumped⟩ := Option.map_eq_some_iff.mp stepped
  cases jumped
  unfold onStack at pushed
  cases found : dearxanVmReadRegister vm zydisRegisterRsp with
  | none =>
      rw [found] at pushed
      cases pushed
      have stored := (consistent.unknownRsp found (m.registers rsp - 8)).unknownStore
        (v := m.rip + instruction.size) (unaliased found)
      refine iff_of_true (stored.jump agrees) ?_
      simp [StackFaithful, found]
  | some top =>
      rw [found] at pushed
      obtain rfl := consistent.registers rsp top found
      have same := pushValue_cpu pushed
      simp only [StackFaithful, found, Option.isSome_some, forall_const]
      constructor
      · intro after
        by_contra apart
        obtain ⟨_, elsewhere⟩ := not_or.mp apart
        apply elsewhere
        have edited := dearxanVmWriteMemory_spec (by decide) pushed
        have bytes (k : Nat) (below : k < 8) :
            byteOf (vm.rip + instruction.size) k = byteOf (m.rip + instruction.size) k := by
          have place : (m.registers rsp - 8 + BitVec.ofNat 64 k - (m.registers rsp - 8)).toNat = k := by
            rw [add_comm, BitVec.add_sub_cancel, BitVec.toNat_ofNat]
            omega
          have written := (edited.inside (m.registers rsp - 8 + BitVec.ofNat 64 k)
            (by rw [place]; exact below)).1
          rw [place, ← Vm.byte_eq_stored] at written
          have right := after.memory _ _ (Vm.byte_jump .. ▸ written)
          change (if _ then _ else _) = _ at right
          rw [place, if_pos below] at right
          exact right.symm
        have := eq_of_byteOf bytes
        bv_omega
      · intro faithful
        have here : vm.rip = m.rip := faithful.elim (fun known => (consistent.rip known).symm) id
        have stored := consistent.push (agrees_some _) pushed
        rw [here] at stored
        exact stored.jump fun known => agrees (same.ripKnown ▸ known)

include category in
theorem stepPop_consistent_iff {width : StackWidth} {dst : Place} (same : dst.width = width.toWidth)
    (describes : DescribesPlace (operands 0) dst)
    (computable : ∀ a ∈ dst.addresses, Computable vm a)
    (stepped : stepPop calloc vm instruction operands = some (vm', fork)) :
    Consistent vm' (m.exec (m.rip + instruction.size) (.pop width dst)) ↔
      StackFaithful vm m (m.rip + instruction.size) (.pop width dst) := by
  unfold stepPop at stepped
  cases found : dearxanVmReadRegister vm zydisRegisterRsp with
  | none =>
      rw [found] at stepped
      rw [finishStep_other category] at stepped
      cases stepped
      simp only [StackFaithful, found]
      have moved := consistent.unknownRsp found (m.registers rsp + width.bytes)
      rw [exec_pop, consistent_advance_iff]
      cases dst with
      | register r => exact moved.writeRegister_iff same fun i above => getLsbD_ofBytes_above above
      | memory size a =>
          rw [HoldsAlready, ← address_of_unknown_rsp (computable a (.head _)) found]
          exact moved.store_iff (by cases size <;> decide)
  | some top =>
      rw [found] at stepped
      obtain rfl := consistent.registers rsp top found
      rw [describes.size, same, Nat.mul_div_cancel_left _ (by decide)] at stepped
      have agrees : Agrees (readNumber vm (m.registers rsp) width.toWidth.bytes) (poppedValue m width) :=
        fun v known => (consistent.load known).symm
      simp only [StackFaithful, found]
      cases width with
      | qword =>
          refine iff_of_true ?_ (.inl rfl)
          have moved := consistent.knownRsp (agrees_some (m.registers rsp + 8))
          exact moved.setAndFinish category describes (fun a among => (computable a among).knownRsp _)
            agrees stepped
      | word =>
          obtain ⟨middle, stored, finished⟩ := Option.bind_eq_some_iff.mp stepped
          rw [finishStep_other category] at finished
          cases finished
          rw [exec_pop, consistent_advance_iff]
          have wrong (ours : middle.registers.get rsp = some (m.registers rsp + 8))
              (theirs : (afterPop m (m.rip + instruction.size) .word dst).registers rsp =
                m.registers rsp + 2) :
              ¬ Consistent middle (afterPop m (m.rip + instruction.size) .word dst) := by
            intro after
            have := theirs.symm.trans (after.get ours)
            bv_omega
          cases dst with
          | memory size a =>
              have theirs := Machine.setRegister_self (m := m) rsp (m.registers rsp + 2)
              refine iff_of_false (wrong ?_ theirs) (by simp)
              rw [setOperand_memory_registers describes stored]
              exact (Registers.get_write_rsp ..).trans (if_pos rfl)
          | register r =>
              cases r with
              | r8 | r8High | r32 | r64 => cases same
              | r16 gpr =>
                  obtain rfl := setOperand_register describes stored
                  by_cases here : gpr = rsp
                  · subst here
                    exact popSp_consistent_iff consistent agrees
                  · have apart : rsp ≠ gpr := Ne.symm here
                    refine iff_of_false (wrong ?_ ?_) (by simp [here])
                    · refine (Registers.get_write_r16 ..).trans ((if_neg apart).trans ?_)
                      exact (Registers.get_write_rsp ..).trans (if_pos rfl)
                    · exact (Machine.setRegister_other _ apart).trans (Machine.setRegister_self ..)

/-- A step keeps what the virtual machine knows right exactly if the stack is treated as the processor
treats it. -/
theorem dearxanVmStep_consistent_iff {instr : Instr} (describes : Describes instruction operands instr)
    (computable : ∀ a ∈ instr.addresses, Computable vm a) (unaliased : Unaliased vm m instr)
    (stepped : dearxanVmStep calloc vm instruction operands = some (vm', fork)) :
    Consistent vm' (m.exec (m.rip + instruction.size) instr) ↔
      StackFaithful vm m (m.rip + instruction.size) instr := by
  have category := describes.category
  have described := describes.instr
  obtain ⟨number, other⟩ := id category
  cases instr with
  | mov | movzx | movsx | lea | add | sub | xchg | ret =>
      exact iff_of_true (consistent.moves describes computable stepped trivial) trivial
  | push width src =>
      obtain ⟨mnemonic, _, _, source⟩ := described
      unfold dearxanVmStep at stepped
      rw [if_neg (by simp [endsExecutionPath, mnemonic, other]), mnemonic] at stepped
      exact stepPush_consistent_iff consistent category source computable unaliased stepped
  | pop width dst =>
      obtain ⟨mnemonic, _, _, same, place⟩ := described
      unfold dearxanVmStep at stepped
      rw [if_neg (by simp [endsExecutionPath, mnemonic, other]), mnemonic] at stepped
      exact stepPop_consistent_iff consistent category same place computable stepped
  | call target =>
      obtain ⟨mnemonic, _, operand⟩ := described
      unfold dearxanVmStep at stepped
      rw [if_neg (by simp [endsExecutionPath, mnemonic, other]), mnemonic] at stepped
      exact stepCall_consistent_iff consistent operand computable unaliased stepped

end Steps

/-! ## `pop rcx` -/

def popRcx : Instr := .pop .qword (.register (.r64 1))

def popRcxInstruction : ZydisDecodedInstruction := ⟨.pop, 1, 3, 1, 64, .other 100⟩

def popRcxOperands : Operands := fun _ => ⟨64, true, .register (.gpr64 1)⟩

theorem popRcx_describes : Describes popRcxInstruction popRcxOperands popRcx :=
  ⟨⟨100, rfl⟩, rfl, rfl, rfl, rfl, rfl, rfl⟩

/-- A machine that knows the registers in the mask, all of them with the given value. -/
def vmKnowing (known : BitVec 16) (value : Word) : Vm :=
  ⟨none, 0x1000, true, ⟨fun _ => value, known⟩, .empty⟩

/-- A processor with the given value in all registers and zeros on the stack. -/
def machineHolding (value : Word) : Machine := ⟨fun _ => value, fun _ => 0, 0x1000⟩

theorem vmKnowing_consistent (known : BitVec 16) (value : Word) :
    Consistent (vmKnowing known value) (machineHolding value) := by
  refine ⟨fun gpr content found => ?_, fun a byte found => ?_, fun _ => rfl⟩
  · rw [dearxanVmReadRegister_gpr64, Registers.get] at found
    split at found
    · exact Option.some.inj found
    · cases found
  · rw [Vm.byte_eq_stored, Vm.stored] at found
    cases found

theorem dearxanVmStep_sound_not_of_popRcx :
    ¬ ∀ (calloc : Nat → Bool) (vm vm' : Vm) (m : Machine) (instruction : ZydisDecodedInstruction)
      (operands : Operands) (fork : Option Vm) (instr : Instr), Consistent vm m →
      Describes instruction operands instr → (∀ a ∈ instr.addresses, Computable vm a) →
      Unaliased vm m instr → dearxanVmStep calloc vm instruction operands = some (vm', fork) →
      Consistent vm' (m.exec (m.rip + instruction.size) instr) := by
  intro sound
  have after := sound (fun _ => true) (vmKnowing 2 1) _ (machineHolding 1) popRcxInstruction
    popRcxOperands _ popRcx (vmKnowing_consistent 2 1) popRcx_describes (fun a among => by cases among)
    trivial rfl
  have wrong := after.registers 1 1 (by decide)
  exact absurd wrong (by decide)

theorem dearxanVmStep_popRcx :
    ∃ vm', (dearxanVmStep (fun _ => true) (vmKnowing 18 0x2000) popRcxInstruction popRcxOperands).map
        Prod.fst = some vm' ∧
      Consistent vm' ((machineHolding 0x2000).exec 0x1001 popRcx) := by
  obtain ⟨⟨vm', fork⟩, stepped⟩ : ∃ stepped, dearxanVmStep (fun _ => true) (vmKnowing 18 0x2000)
      popRcxInstruction popRcxOperands = some stepped := ⟨_, rfl⟩
  refine ⟨vm', by rw [stepped]; rfl, ?_⟩
  exact (dearxanVmStep_consistent_iff (vmKnowing_consistent 18 0x2000) popRcx_describes
    (fun a among => by cases among) trivial stepped).mpr (.inl rfl)

end Yafsml.Dearxan
