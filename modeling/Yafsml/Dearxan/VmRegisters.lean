import Yafsml.Dearxan.VmMemory

/-! # The registers of the virtual machine

Reads and writes of a register or a part of it, in terms of the parts of `X86`. -/

namespace Yafsml.Dearxan

open LittleEndian X86

def Registers.get (registers : Registers) (gpr : Gpr) : Option Word :=
  if registers.isKnown gpr then some (registers.values gpr) else none

theorem and_low (content : Word) (size : Nat) (below : size < 64) :
    content &&& ((1#64 <<< size) - 1) = (content.setWidth size).setWidth 64 := by
  apply BitVec.eq_of_getLsbD_eq
  intro i inside
  rw [BitVec.getLsbD_and, getLsbD_low size i below, BitVec.getLsbD_setWidth, BitVec.getLsbD_setWidth]
  simp [inside, Bool.and_comm]

theorem gpr8Mapping_low (gpr : Gpr) :
    gpr8Mapping (if gpr < 4 then gpr.castLE (by decide) else gpr.addNat 4) = gpr := by
  revert gpr
  decide

theorem gpr8Mapping_high (gpr : Fin 4) :
    gpr8Mapping ((gpr.addNat 4).castLE (by decide)) = gpr.castLE (by decide) := by
  revert gpr
  decide

theorem registerIndex_zydisOf (r : Register) :
    registerIndex (zydisOf r) = some (r.gpr, r.width.bytes) := by
  cases r <;>
    simp [registerIndex, zydisOf, zydisRegisterGetLargestEnclosing, zydisRegisterGetWidth,
      gpr8Mapping_low, gpr8Mapping_high, Register.gpr, Register.width, Width.bytes]

def bitOffset : Register → Nat
  | .r8High _ => 8
  | _ => 0

theorem registerBitOffset_zydisOf (r : Register) : registerBitOffset (zydisOf r) = bitOffset r := by
  cases r with
  | r8 gpr => revert gpr; decide
  | r8High gpr => revert gpr; decide
  | r16 gpr | r32 gpr | r64 gpr => rfl

theorem read_eq (r : Register) (content : Word) :
    (content >>> bitOffset r) &&& sizeMask r.width.bytes = r.read content := by
  cases r with
  | r8 gpr => exact and_low content 8 (by decide)
  | r8High gpr =>
      refine (and_low (content >>> 8) 8 (by decide)).trans ?_
      congr 1
  | r16 gpr => exact and_low content 16 (by decide)
  | r32 gpr => exact and_low content 32 (by decide)
  | r64 gpr =>
      change content >>> 0 &&& BitVec.allOnes 64 = content
      rw [BitVec.and_allOnes]
      simp

theorem dearxanVmReadRegister_zydisOf (vm : Vm) (r : Register) :
    dearxanVmReadRegister vm (zydisOf r) = (vm.registers.get r.gpr).map r.read := by
  unfold dearxanVmReadRegister
  rw [registerIndex_zydisOf]
  simp only [registerBitOffset_zydisOf, read_eq, Registers.get]
  cases vm.registers.isKnown r.gpr <;> simp

@[simp] theorem dearxanVmReadRegister_gpr64 (vm : Vm) (gpr : Gpr) :
    dearxanVmReadRegister vm (.gpr64 gpr) = vm.registers.get gpr := by
  have := dearxanVmReadRegister_zydisOf vm (.r64 gpr)
  simpa [zydisOf, Register.read, Register.gpr] using this

theorem Registers.isKnown_eq (registers : Registers) (gpr : Gpr) :
    registers.isKnown gpr = registers.known.getLsbD gpr := by
  have bit : registers.known &&& (1#16 <<< gpr.val) =
      if registers.known.getLsbD gpr then BitVec.twoPow 16 gpr else 0 := BitVec.and_twoPow ..
  have nonzero : BitVec.twoPow 16 gpr ≠ 0 := by
    intro zero
    have := congrArg (fun word => word.getLsbD gpr) zero
    simp at this
  rw [Registers.isKnown, bit]
  cases known : registers.known.getLsbD gpr with
  | true => simpa using nonzero
  | false => simp

theorem getLsbD_bit (index other : Fin 16) :
    (1#16 <<< index.val).getLsbD other = decide (other = index) := by
  revert index other
  decide

namespace Registers

variable (registers : Registers)

theorem get_set (index other : Gpr) (value : Word) :
    (registers.set index value).get other =
      if other = index then some value else registers.get other := by
  simp only [get, isKnown_eq, set, BitVec.getLsbD_or, getLsbD_bit]
  by_cases here : other = index <;> simp [here]

theorem get_forget (index other : Gpr) :
    ({ registers with known := registers.known &&& ~~~(1#16 <<< index.val) } : Registers).get other =
      if other = index then none else registers.get other := by
  simp only [get, isKnown_eq, BitVec.getLsbD_and, BitVec.getLsbD_not, getLsbD_bit]
  by_cases here : other = index <;> simp [here]

theorem merge_eq {r : Register} (narrow : r.covers = false) (content value : Word) :
    (content &&& ~~~(sizeMask r.width.bytes <<< bitOffset r)) |||
        ((value <<< bitOffset r) &&& (sizeMask r.width.bytes <<< bitOffset r)) =
      r.write content value := by
  apply BitVec.eq_of_getLsbD_eq
  intro i inside
  have byte (k : Nat) : (sizeMask 1).getLsbD k = decide (k < 8) := getLsbD_low 8 k (by decide)
  have word (k : Nat) : (sizeMask 2).getLsbD k = decide (k < 16) := getLsbD_low 16 k (by decide)
  cases r with
  | r8 gpr =>
      simp only [Register.width, Width.bytes, bitOffset, Register.write, BitVec.getLsbD_or,
        BitVec.getLsbD_and, BitVec.getLsbD_not, BitVec.getLsbD_shiftLeft, byte, BitVec.getLsbD_append,
        BitVec.getLsbD_extractLsb', BitVec.getLsbD_setWidth, inside]
      by_cases low : i < 8
      · simp [low]
      · have upper : i - 8 < 56 := by omega
        have back : 8 + (i - 8) = i := by omega
        simp [low, upper, back]
  | r8High gpr =>
      simp only [Register.width, Width.bytes, bitOffset, Register.write, BitVec.getLsbD_or,
        BitVec.getLsbD_and, BitVec.getLsbD_not, BitVec.getLsbD_shiftLeft, byte, BitVec.getLsbD_append,
        BitVec.getLsbD_extractLsb', BitVec.getLsbD_setWidth, inside]
      by_cases low : i < 8
      · simp [low]
      by_cases middle : i - 8 < 8
      · simp [low, middle]
      · have upper : i - 8 - 8 < 48 := by omega
        have back : 16 + (i - 8 - 8) = i := by omega
        simp [low, middle, upper, back]
  | r16 gpr =>
      simp only [Register.width, Width.bytes, bitOffset, Register.write, BitVec.getLsbD_or,
        BitVec.getLsbD_and, BitVec.getLsbD_not, BitVec.getLsbD_shiftLeft, word, BitVec.getLsbD_append,
        BitVec.getLsbD_extractLsb', BitVec.getLsbD_setWidth, inside]
      by_cases low : i < 16
      · simp [low]
      · have upper : i - 16 < 48 := by omega
        have back : 16 + (i - 16) = i := by omega
        simp [low, upper, back]
  | r32 gpr | r64 gpr => cases narrow

theorem write_narrow {r : Register} (narrow : r.covers = false) (v : Word) :
    registers.write (zydisOf r) (some v) =
      if registers.isKnown r.gpr then
        registers.set r.gpr (r.write (registers.values r.gpr) v)
      else registers := by
  rw [← merge_eq narrow]
  unfold write
  rw [registerIndex_zydisOf, registerBitOffset_zydisOf]
  cases r with
  | r8 _ | r8High _ | r16 _ => rfl
  | r32 _ | r64 _ => cases narrow

theorem get_write (r : Register) (value : Option Word) (other : Gpr) :
    (registers.write (zydisOf r) value).get other =
      if other = r.gpr then
        value.bind fun v =>
          if r.covers then some (r.write 0 v) else (registers.get other).map fun c => r.write c v
      else registers.get other := by
  cases value with
  | none =>
      unfold write
      rw [registerIndex_zydisOf, Option.bind_none]
      exact registers.get_forget r.gpr other
  | some v =>
      rw [Option.bind_some]
      cases wide : r.covers with
      | true =>
          unfold write
          rw [registerIndex_zydisOf]
          cases r with
          | r64 gpr => exact registers.get_set gpr other v
          | r32 gpr => exact registers.get_set gpr other _
          | r8 _ | r8High _ | r16 _ => cases wide
      | false =>
          rw [write_narrow registers wide]
          by_cases here : other = r.gpr
          · subst here
            cases known : registers.isKnown r.gpr with
            | true =>
                rw [if_pos rfl, get_set, get, known]
                rfl
            | false =>
                have unknown : registers.get r.gpr = none := by
                  rw [get, known]
                  rfl
                simp [unknown]
          · rw [if_neg here]
            split
            · rw [get_set, if_neg here]
            · rfl

end Registers

theorem signExtended_eq (value : Word) {n : Nat} (positive : 0 < n) (below : n < 64) :
    signExtended n value = (value.setWidth n).signExtend 64 := by
  have nonzero : n ≠ 0 ∧ n < 64 := ⟨by omega, below⟩
  simp only [signExtended, if_pos nonzero, and_low value n below]
  generalize value.setWidth n = x
  have sign : 1#64 <<< (n - 1) = BitVec.twoPow 64 (n - 1) := rfl
  have top : (x.setWidth 64).getLsbD (n - 1) = x.msb := by
    rw [BitVec.getLsbD_setWidth, BitVec.msb_eq_getLsbD_last]
    simp [show n - 1 < 64 by omega]
  rw [sign]
  cases negative : x.msb with
  | false =>
      have apart : x.setWidth 64 &&& BitVec.twoPow 64 (n - 1) = 0 := by
        rw [BitVec.and_twoPow, top, negative]
        rfl
      have sum : x.setWidth 64 ^^^ BitVec.twoPow 64 (n - 1) =
          x.setWidth 64 + BitVec.twoPow 64 (n - 1) := by
        rw [BitVec.add_eq_or_of_and_eq_zero _ _ apart]
        apply BitVec.eq_of_getLsbD_eq
        intro i inside
        have bit := congrArg (fun word => word.getLsbD i) apart
        simp only [BitVec.getLsbD_and, BitVec.getLsbD_xor, BitVec.getLsbD_or] at bit ⊢
        revert bit
        cases (x.setWidth 64).getLsbD i <;> cases (BitVec.twoPow 64 (n - 1)).getLsbD i <;> simp
      rw [sum, BitVec.add_sub_cancel, BitVec.signExtend_eq_setWidth_of_msb_false negative]
  | true =>
      have rest : (x.setWidth 64 ^^^ BitVec.twoPow 64 (n - 1)) + BitVec.twoPow 64 (n - 1) =
          x.setWidth 64 := by
        have apart : (x.setWidth 64 ^^^ BitVec.twoPow 64 (n - 1)) &&& BitVec.twoPow 64 (n - 1) = 0 := by
          rw [BitVec.and_twoPow, BitVec.getLsbD_xor, top, negative, BitVec.getLsbD_twoPow]
          simp [show n - 1 < 64 by omega]
        rw [BitVec.add_eq_or_of_and_eq_zero _ _ apart]
        apply BitVec.eq_of_getLsbD_eq
        intro i inside
        rw [BitVec.getLsbD_or, BitVec.getLsbD_xor, BitVec.getLsbD_twoPow]
        by_cases here : n - 1 = i
        · subst here
          rw [top, negative]
          simp [show n - 1 < 64 by omega]
        · simp [here]
      rw [BitVec.signExtend_eq_not_setWidth_not_of_msb_true negative,
        BitVec.eq_sub_iff_add_eq.mpr rest]
      apply BitVec.eq_of_toNat_eq
      have small := x.isLt
      have large : 2 ^ (n - 1) ≤ x.toNat := BitVec.le_toNat_of_msb_true negative
      have double : 2 ^ n = 2 * 2 ^ (n - 1) := by
        rw [← Nat.pow_succ', show (n - 1).succ = n by omega]
      have bound : 2 ^ (n - 1) < 2 ^ 63 := Nat.pow_lt_pow_right (by omega) (by omega)
      simp only [BitVec.toNat_sub, BitVec.toNat_not, BitVec.toNat_setWidth, BitVec.toNat_twoPow]
      rw [double] at small ⊢
      generalize 2 ^ (n - 1) = power at *
      omega

theorem signExtended_bytes (value : Word) (width : Width) :
    signExtended (8 * width.bytes) value = X86.signExtend value width := by
  cases width with
  | byte => exact signExtended_eq value (by decide) (by decide)
  | word => exact signExtended_eq value (by decide) (by decide)
  | dword => exact signExtended_eq value (by decide) (by decide)
  | qword => rfl

end Yafsml.Dearxan
