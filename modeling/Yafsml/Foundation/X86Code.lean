import Mathlib.Logic.Relation
import Yafsml.Foundation.X86

/-! # Machine code of x86-64

A decoder for some of the instructions with 64-bit operands, and runs of the code in memory. -/

namespace Yafsml.X86

open LittleEndian

inductive Code
  | instr (instr : Instr)
  | jmp (target : Target)
  deriving DecidableEq, Repr

structure Rex where
  w : Bool
  r : Bool
  x : Bool
  b : Bool

def Rex.absent : Rex := ⟨false, false, false, false⟩

def Rex.ofByte (byte : Byte) : Option Rex :=
  if byte.toNat / 16 = 4 then
    some ⟨byte.getLsbD 3, byte.getLsbD 2, byte.getLsbD 1, byte.getLsbD 0⟩
  else none

def gprOf (high : Bool) (low : Nat) : Gpr := Fin.ofNat 16 (low % 8 + if high then 8 else 0)

def signedAt (code : Nat → Byte) (start : Nat) (width : Width) : Word :=
  signExtend (ofBytes (fun k => code (start + k)) width.bytes) width

/-- The operand that a ModRM byte describes, as one of 64 bits, and the number of bytes it takes. -/
def rmPlace (rex : Rex) (code : Nat → Byte) : Place × Nat :=
  let mode := (code 0).toNat / 64
  let rm := (code 0).toNat % 8
  if mode = 3 then (.register (.r64 (gprOf rex.b rm)), 1)
  else if rm = 4 then
    let sib := (code 1).toNat
    let index := if sib / 8 % 8 = 4 ∧ rex.x = false then none else some (gprOf rex.x (sib / 8))
    let scale := BitVec.ofNat 8 (2 ^ (sib / 64))
    let base := Base.register (gprOf rex.b sib)
    if mode = 0 then
      if sib % 8 = 5 then (.memory .qword ⟨.absent, index, scale, signedAt code 2 .dword⟩, 6)
      else (.memory .qword ⟨base, index, scale, 0⟩, 2)
    else if mode = 1 then (.memory .qword ⟨base, index, scale, signedAt code 2 .byte⟩, 3)
    else (.memory .qword ⟨base, index, scale, signedAt code 2 .dword⟩, 6)
  else if mode = 0 then
    if rm = 5 then (.memory .qword ⟨.rip, none, 1, signedAt code 1 .dword⟩, 5)
    else (.memory .qword ⟨.register (gprOf rex.b rm), none, 1, 0⟩, 1)
  else if mode = 1 then
    (.memory .qword ⟨.register (gprOf rex.b rm), none, 1, signedAt code 1 .byte⟩, 2)
  else (.memory .qword ⟨.register (gprOf rex.b rm), none, 1, signedAt code 1 .dword⟩, 5)

def decodeOpcode (rex : Rex) (code : Nat → Byte) : Option (Code × Nat) :=
  let opcode := (code 0).toNat
  let operands := fun k => code (1 + k)
  let reg := (operands 0).toNat / 8
  let (rm, size) := rmPlace rex operands
  if opcode = 0xe9 then some (.jmp (.relative (signedAt operands 0 .dword)), 5)
  else if opcode = 0xff then if reg % 8 = 4 then some (.jmp (.place rm), 1 + size) else none
  else if rex.w = false then none
  else if opcode = 0x8d then
    match rm with
    | .register _ => none
    | .memory _ address => some (.instr (.lea (.r64 (gprOf rex.r reg)) address), 1 + size)
  else if opcode = 0x89 then
    some (.instr (.mov rm (.place (.register (.r64 (gprOf rex.r reg))))), 1 + size)
  else if opcode = 0x83 then
    if reg % 8 = 0 then
      some (.instr (.add rm (.immediate (signedAt operands size .byte))), 1 + size + 1)
    else if reg % 8 = 5 then
      some (.instr (.sub rm (.immediate (signedAt operands size .byte))), 1 + size + 1)
    else none
  else if opcode / 8 = 0xb8 / 8 then
    some (.instr (.mov (.register (.r64 (gprOf rex.b opcode))) (.immediate (ofBytes operands 8))), 9)
  else none

def decode (code : Nat → Byte) : Option (Code × Nat) :=
  match Rex.ofByte (code 0) with
  | none => decodeOpcode .absent code
  | some rex =>
      (decodeOpcode rex fun k => code (1 + k)).map fun (decoded, size) => (decoded, 1 + size)

namespace Machine

def run (m : Machine) (next : Word) : Code → Machine
  | .instr instr => m.exec next instr
  | .jmp target => { m with rip := m.callTarget next target }

def step (m : Machine) : Option Machine :=
  (decode fun k => m.memory (m.rip + BitVec.ofNat 64 k)).map fun (code, size) =>
    m.run (m.rip + BitVec.ofNat 64 size) code

/-- Runs that change no byte outside of `slot`. -/
def Reaches (slot : Word → Prop) : Machine → Machine → Prop :=
  Relation.ReflTransGen fun m m' =>
    m.step = some m' ∧ ∀ a, ¬slot a → m'.memory a = m.memory a

/-- The machine after this many steps; it stays where it cannot go on. -/
def after : Nat → Machine → Machine
  | 0, m => m
  | n + 1, m => after n (m.step.getD m)

theorem Reaches.after {slot : Word → Prop} {m m' : Machine} (reaches : m.Reaches slot m') :
    ∃ n, m' = m.after n := by
  induction reaches using Relation.ReflTransGen.head_induction_on with
  | refl => exact ⟨0, rfl⟩
  | head first _ ih =>
      obtain ⟨n, reached⟩ := ih
      exact ⟨n + 1, by rw [Machine.after, first.1]; exact reached⟩

theorem after_add (n k : Nat) (m : Machine) : m.after (n + k) = (m.after n).after k := by
  induction n generalizing m with
  | zero => rw [Nat.zero_add]; rfl
  | succ n ih =>
      rw [Nat.succ_add]
      exact ih _

theorem after_fixed {m : Machine} (fixed : m.step = some m) (n : Nat) : m.after n = m := by
  induction n with
  | zero => rfl
  | succ n ih =>
      rw [after, fixed]
      exact ih

end Machine

def Holds (memory : Word → Byte) (address : Word) (bytes : List Byte) : Prop :=
  ∀ k, (below : k < bytes.length) → memory (address + BitVec.ofNat 64 k) = bytes[k]

theorem Holds.append {memory : Word → Byte} {address : Word} {bytes bytes' : List Byte}
    (holds : Holds memory address (bytes ++ bytes')) :
    Holds memory address bytes ∧
      Holds memory (address + BitVec.ofNat 64 bytes.length) bytes' := by
  constructor
  · intro k below
    rw [holds k (by rw [List.length_append]; omega), List.getElem_append_left below]
  · intro k below
    have inside := holds (bytes.length + k) (by rw [List.length_append]; omega)
    rw [List.getElem_append_right (by omega)] at inside
    rw [BitVec.add_assoc, ← BitVec.ofNat_add]
    simpa using inside

theorem Holds.ofBytes {memory : Word → Byte} {address : Word} {size : Nat} {value : Word}
    (holds : Holds memory address ((List.range size).map (byteOf value))) :
    ofBytes (fun k => memory (address + BitVec.ofNat 64 k)) size = ofBytes (byteOf value) size := by
  apply ofBytes_congr
  intro k below
  rw [holds k (by simpa using below)]
  simp

section Encodings

variable (code : Nat → Byte)

theorem decode_leaRip (c0 : code 0 = 0x48#8) (c1 : code 1 = 0x8d#8) (c2 : code 2 = 0x05#8) :
    decode code = some (.instr (.lea (.r64 0) ⟨.rip, none, 1, signedAt code 3 .dword⟩), 7) := by
  simp [decode, decodeOpcode, rmPlace, Rex.ofByte, gprOf, c0, c1, c2, signedAt, ← Nat.add_assoc]

theorem decode_storeByte (c0 : code 0 = 0x48#8) (c1 : code 1 = 0x89#8) (c2 : code 2 = 0x44#8)
    (c3 : code 3 = 0x24#8) :
    decode code = some (.instr (.mov (.memory .qword ⟨.register rsp, none, 1, signedAt code 4 .byte⟩)
      (.place (.register (.r64 0)))), 5) := by
  simp [decode, decodeOpcode, rmPlace, Rex.ofByte, gprOf, rsp, c0, c1, c2, c3, signedAt,
    ← Nat.add_assoc]

theorem decode_storeDword (c0 : code 0 = 0x48#8) (c1 : code 1 = 0x89#8) (c2 : code 2 = 0x84#8)
    (c3 : code 3 = 0x24#8) :
    decode code = some (.instr (.mov (.memory .qword ⟨.register rsp, none, 1, signedAt code 4 .dword⟩)
      (.place (.register (.r64 0)))), 8) := by
  simp [decode, decodeOpcode, rmPlace, Rex.ofByte, gprOf, rsp, c0, c1, c2, c3, signedAt,
    ← Nat.add_assoc]

theorem decode_subRsp (c0 : code 0 = 0x48#8) (c1 : code 1 = 0x83#8) (c2 : code 2 = 0xec#8) :
    decode code = some (.instr (.sub (.register (.r64 rsp)) (.immediate (signedAt code 3 .byte))), 4) := by
  simp [decode, decodeOpcode, rmPlace, Rex.ofByte, gprOf, rsp, c0, c1, c2, signedAt, ← Nat.add_assoc]

theorem decode_addRsp (c0 : code 0 = 0x48#8) (c1 : code 1 = 0x83#8) (c2 : code 2 = 0xc4#8) :
    decode code = some (.instr (.add (.register (.r64 rsp)) (.immediate (signedAt code 3 .byte))), 4) := by
  simp [decode, decodeOpcode, rmPlace, Rex.ofByte, gprOf, rsp, c0, c1, c2, signedAt, ← Nat.add_assoc]

theorem decode_movRax (c0 : code 0 = 0x48#8) (c1 : code 1 = 0xb8#8) :
    decode code = some (.instr (.mov (.register (.r64 0))
      (.immediate (ofBytes (fun k => code (2 + k)) 8))), 10) := by
  simp [decode, decodeOpcode, Rex.ofByte, gprOf, c0, c1, ← Nat.add_assoc]

theorem decode_jmpRax (c0 : code 0 = 0xff#8) (c1 : code 1 = 0xe0#8) :
    decode code = some (.jmp (.place (.register (.r64 0))), 2) := by
  simp [decode, decodeOpcode, rmPlace, Rex.ofByte, Rex.absent, gprOf, c0, c1]

theorem decode_jmpRip (c0 : code 0 = 0xff#8) (c1 : code 1 = 0x25#8) :
    decode code = some (.jmp (.place (.memory .qword ⟨.rip, none, 1, signedAt code 2 .dword⟩)), 6) := by
  simp [decode, decodeOpcode, rmPlace, Rex.ofByte, c0, c1, signedAt, ← Nat.add_assoc]

theorem decode_jmpNear (c0 : code 0 = 0xe9#8) :
    decode code = some (.jmp (.relative (signedAt code 1 .dword)), 5) := by
  simp [decode, decodeOpcode, Rex.ofByte, c0, signedAt]

end Encodings

section Steps

variable {m : Machine}

theorem signExtend_ofBytes (value : Word) (width : Width) :
    signExtend (ofBytes (byteOf value) width.bytes) width = signExtend value width := by
  have low : ∀ size ≤ 8, (ofBytes (byteOf value) width.bytes).setWidth (8 * size) =
      value.setWidth (8 * size) ∨ width.bytes < size := by
    intro size small
    by_cases fits : width.bytes < size
    · exact .inr fits
    · left
      apply BitVec.eq_of_getLsbD_eq
      intro i below
      rw [BitVec.getLsbD_setWidth, BitVec.getLsbD_setWidth,
        getLsbD_ofBytes_byteOf (by omega) (by omega)]
  cases width with
  | byte => simpa [signExtend] using congrArg _ ((low 1 (by decide)).resolve_right (by decide))
  | word => simpa [signExtend] using congrArg _ ((low 2 (by decide)).resolve_right (by decide))
  | dword => simpa [signExtend] using congrArg _ ((low 4 (by decide)).resolve_right (by decide))
  | qword => simpa [signExtend] using (low 8 (by decide)).resolve_right (by decide)

theorem signExtend_setWidth_self {n : Nat} (narrow : n ≤ 64) {x : Word} (low : -2 ^ n ≤ x.toInt * 2)
    (high : x.toInt * 2 < 2 ^ n) : (x.setWidth n).signExtend 64 = x := by
  have divides : 2 ^ n ∣ 2 ^ 64 := Nat.pow_dvd_pow 2 narrow
  apply BitVec.eq_of_toInt_eq
  rw [BitVec.toInt_signExtend_of_le narrow, BitVec.toInt_setWidth, ← Int.bmod_bmod_of_dvd divides,
    ← BitVec.toInt_eq_toNat_bmod]
  exact Int.bmod_eq_of_le_mul_two (by exact_mod_cast low) (by exact_mod_cast high)

theorem signExtend_byte_self {x : Word} (low : -2 ^ 7 ≤ x.toInt) (high : x.toInt ≤ 2 ^ 7 - 1) :
    signExtend x .byte = x :=
  signExtend_setWidth_self (by decide) (by omega) (by omega)

theorem signExtend_dword_self {x : Word} (low : -2 ^ 31 ≤ x.toInt) (high : x.toInt ≤ 2 ^ 31 - 1) :
    signExtend x .dword = x :=
  signExtend_setWidth_self (by decide) (by omega) (by omega)

theorem signedAt_holds {memory : Word → Byte} {address value : Word} {start : Nat} {width : Width}
    (holds : Holds memory (address + BitVec.ofNat 64 start)
      ((List.range width.bytes).map (byteOf value))) :
    signedAt (fun k => memory (address + BitVec.ofNat 64 k)) start width = signExtend value width := by
  have number := holds.ofBytes
  simp only [BitVec.add_assoc, ← BitVec.ofNat_add] at number
  rw [signedAt, number, signExtend_ofBytes]

namespace Machine

theorem step_of_decode {code : Code} {size : Nat}
    (decoded : decode (fun k => m.memory (m.rip + BitVec.ofNat 64 k)) = some (code, size)) :
    m.step = some (m.run (m.rip + BitVec.ofNat 64 size) code) := by
  rw [step, decoded]
  rfl

theorem step_leaRip {d : Word}
    (holds : Holds m.memory m.rip ([0x48#8, 0x8d#8, 0x05#8] ++ (List.range 4).map (byteOf d))) :
    m.step = some { m.setRegister 0 (m.rip + 7 + signExtend d .dword) with rip := m.rip + 7 } := by
  obtain ⟨opcode, number⟩ := holds.append
  rw [step_of_decode (decode_leaRip _ (opcode 0 (by decide)) (opcode 1 (by decide))
    (opcode 2 (by decide))), signedAt_holds number]
  simp [run, exec, write, address, setRegister, Register.write, Register.gpr]

theorem step_storeByte {d : Word} (holds : Holds m.memory m.rip
      ([0x48#8, 0x89#8, 0x44#8, 0x24#8] ++ (List.range 1).map (byteOf d))) :
    m.step = some { m.store (m.registers rsp + signExtend d .byte) 8 (m.registers 0) with
      rip := m.rip + 5 } := by
  obtain ⟨opcode, number⟩ := holds.append
  rw [step_of_decode (decode_storeByte _ (opcode 0 (by decide)) (opcode 1 (by decide))
    (opcode 2 (by decide)) (opcode 3 (by decide))), signedAt_holds number]
  simp [run, exec, write, address, value, read, locate, Register.read, Register.gpr, Width.bytes]

theorem step_storeDword {d : Word} (holds : Holds m.memory m.rip
      ([0x48#8, 0x89#8, 0x84#8, 0x24#8] ++ (List.range 4).map (byteOf d))) :
    m.step = some { m.store (m.registers rsp + signExtend d .dword) 8 (m.registers 0) with
      rip := m.rip + 8 } := by
  obtain ⟨opcode, number⟩ := holds.append
  rw [step_of_decode (decode_storeDword _ (opcode 0 (by decide)) (opcode 1 (by decide))
    (opcode 2 (by decide)) (opcode 3 (by decide))), signedAt_holds number]
  simp [run, exec, write, address, value, read, locate, Register.read, Register.gpr, Width.bytes]

theorem step_subRsp {n : Word} (holds : Holds m.memory m.rip
      ([0x48#8, 0x83#8, 0xec#8] ++ (List.range 1).map (byteOf n))) :
    m.step = some { m.setRegister rsp (m.registers rsp - signExtend n .byte) with
      rip := m.rip + 4 } := by
  obtain ⟨opcode, number⟩ := holds.append
  rw [step_of_decode (decode_subRsp _ (opcode 0 (by decide)) (opcode 1 (by decide))
    (opcode 2 (by decide))), signedAt_holds number]
  simp [run, exec, write, value, read, locate, Register.read, Register.write, Register.gpr]

theorem step_addRsp {n : Word} (holds : Holds m.memory m.rip
      ([0x48#8, 0x83#8, 0xc4#8] ++ (List.range 1).map (byteOf n))) :
    m.step = some { m.setRegister rsp (m.registers rsp + signExtend n .byte) with
      rip := m.rip + 4 } := by
  obtain ⟨opcode, number⟩ := holds.append
  rw [step_of_decode (decode_addRsp _ (opcode 0 (by decide)) (opcode 1 (by decide))
    (opcode 2 (by decide))), signedAt_holds number]
  simp [run, exec, write, value, read, locate, Register.read, Register.write, Register.gpr]

theorem step_movRax {n : Word} (holds : Holds m.memory m.rip
      ([0x48#8, 0xb8#8] ++ (List.range 8).map (byteOf n))) :
    m.step = some { m.setRegister 0 n with rip := m.rip + 10 } := by
  obtain ⟨opcode, number⟩ := holds.append
  have whole : signedAt (fun k => m.memory (m.rip + BitVec.ofNat 64 k)) 2 .qword = signExtend n .qword :=
    signedAt_holds number
  simp only [signedAt, signExtend, Width.bytes] at whole
  rw [step_of_decode (decode_movRax _ (opcode 0 (by decide)) (opcode 1 (by decide))), whole]
  simp [run, exec, write, value, locate, Register.write, Register.gpr]

theorem step_jmpRax (holds : Holds m.memory m.rip [0xff#8, 0xe0#8]) :
    m.step = some { m with rip := m.registers 0 } := by
  rw [step_of_decode (decode_jmpRax _ (holds 0 (by decide)) (holds 1 (by decide)))]
  simp [run, callTarget, read, locate, Register.read, Register.gpr]

theorem step_jmpRip {d : Word} (holds : Holds m.memory m.rip
      ([0xff#8, 0x25#8] ++ (List.range 4).map (byteOf d))) :
    m.step = some { m with rip := m.load (m.rip + 6 + signExtend d .dword) 8 } := by
  obtain ⟨opcode, number⟩ := holds.append
  rw [step_of_decode (decode_jmpRip _ (opcode 0 (by decide)) (opcode 1 (by decide))),
    signedAt_holds number]
  simp [run, callTarget, read, locate, address, Width.bytes]

theorem step_jmpNear {d : Word} (holds : Holds m.memory m.rip
      ([0xe9#8] ++ (List.range 4).map (byteOf d))) :
    m.step = some { m with rip := m.rip + 5 + signExtend d .dword } := by
  obtain ⟨opcode, number⟩ := holds.append
  rw [step_of_decode (decode_jmpNear _ (opcode 0 (by decide))), signedAt_holds number]
  simp [run, callTarget]

end Machine

end Steps

end Yafsml.X86
