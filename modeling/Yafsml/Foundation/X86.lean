import Yafsml.Foundation.LittleEndian

/-! # Data movement in x86-64

What the moves, additions, stack instructions and near calls of 64-bit mode do to the
general-purpose registers, the memory and the instruction pointer. Flags, faults and segments are
left out. -/

namespace Yafsml.X86

open LittleEndian

inductive Width
  | byte
  | word
  | dword
  | qword
  deriving DecidableEq, Repr

def Width.bytes : Width → Nat
  | .byte => 1
  | .word => 2
  | .dword => 4
  | .qword => 8

abbrev Gpr := Fin 16

-- The literals of the registers rest on this.
instance gprs : NeZero 16 := ⟨by decide⟩

def rsp : Gpr := 4

/-- A general-purpose register or a part of it; `r8High` is the second byte of the first four. -/
inductive Register
  | r8 (gpr : Gpr)
  | r8High (gpr : Fin 4)
  | r16 (gpr : Gpr)
  | r32 (gpr : Gpr)
  | r64 (gpr : Gpr)
  deriving DecidableEq, Repr

namespace Register

def gpr : Register → Gpr
  | r8 gpr | r16 gpr | r32 gpr | r64 gpr => gpr
  | r8High gpr => gpr.castLE (by decide)

def width : Register → Width
  | r8 _ | r8High _ => .byte
  | r16 _ => .word
  | r32 _ => .dword
  | r64 _ => .qword

def read (content : Word) : Register → Word
  | r8 _ => (content.setWidth 8).setWidth 64
  | r8High _ => (content.extractLsb' 8 8).setWidth 64
  | r16 _ => (content.setWidth 16).setWidth 64
  | r32 _ => (content.setWidth 32).setWidth 64
  | r64 _ => content

/-- A write of 32 bits clears the upper half, a narrower one keeps the rest of the register. -/
def write (content value : Word) : Register → Word
  | r8 _ => content.extractLsb' 8 56 ++ value.setWidth 8
  | r8High _ => content.extractLsb' 16 48 ++ value.setWidth 8 ++ content.setWidth 8
  | r16 _ => content.extractLsb' 16 48 ++ value.setWidth 16
  | r32 _ => (value.setWidth 32).setWidth 64
  | r64 _ => value

/-- Whether a write leaves nothing of the register's content. -/
def covers : Register → Bool
  | r32 _ | r64 _ => true
  | r8 _ | r8High _ | r16 _ => false

theorem write_of_covers {r : Register} (whole : r.covers = true) (content content' value : Word) :
    r.write content value = r.write content' value := by
  cases r with
  | r32 _ | r64 _ => rfl
  | r8 _ | r8High _ | r16 _ => cases whole

end Register

inductive Base
  | absent
  | rip
  | register (gpr : Gpr)
  deriving DecidableEq, Repr

structure Address where
  base : Base
  index : Option Gpr
  scale : BitVec 8
  displacement : Word
  deriving DecidableEq, Repr

inductive Place
  | register (register : Register)
  | memory (width : Width) (address : Address)
  deriving DecidableEq, Repr

def Place.width : Place → Width
  | register r => r.width
  | memory width _ => width

def Place.addresses : Place → List Address
  | register _ => []
  | memory _ address => [address]

inductive Source
  | place (place : Place)
  | immediate (value : Word)
  deriving DecidableEq, Repr

def Source.addresses : Source → List Address
  | place src => src.addresses
  | immediate _ => []

inductive Location
  | register (register : Register)
  | memory (width : Width) (address : Word)

structure Machine where
  registers : Gpr → Word
  memory : Word → Byte
  rip : Word

namespace Machine

variable (m : Machine)

def setRegister (gpr : Gpr) (value : Word) : Machine :=
  { m with registers := fun other => if other = gpr then value else m.registers other }

def load (address : Word) (size : Nat) : Word :=
  ofBytes (fun k => m.memory (address + BitVec.ofNat 64 k)) size

def store (address : Word) (size : Nat) (value : Word) : Machine :=
  { m with memory := fun a =>
      if (a - address).toNat < size then byteOf value (a - address).toNat else m.memory a }

/-- An address relative to `rip` counts from the next instruction. -/
def address (next : Word) (a : Address) : Word :=
  (match a.base with
    | .absent => 0
    | .rip => next
    | .register gpr => m.registers gpr) +
  (match a.index with
    | none => 0
    | some gpr => m.registers gpr * a.scale.setWidth 64) + a.displacement

def locate (next : Word) : Place → Location
  | .register r => .register r
  | .memory width a => .memory width (m.address next a)

def read : Location → Word
  | .register r => r.read (m.registers r.gpr)
  | .memory width address => m.load address width.bytes

def write (value : Word) : Location → Machine
  | .register r => m.setRegister r.gpr (r.write (m.registers r.gpr) value)
  | .memory width address => m.store address width.bytes value

def value (next : Word) : Source → Word
  | .place place => m.read (m.locate next place)
  | .immediate value => value

section Lemmas

variable {m}

@[simp] theorem setRegister_self (gpr : Gpr) (value : Word) :
    (m.setRegister gpr value).registers gpr = value := if_pos rfl

theorem setRegister_other {gpr other : Gpr} (value : Word) (apart : other ≠ gpr) :
    (m.setRegister gpr value).registers other = m.registers other := if_neg apart

@[simp] theorem setRegister_setRegister (gpr : Gpr) (value value' : Word) :
    (m.setRegister gpr value).setRegister gpr value' = m.setRegister gpr value' := by
  have registers : ((m.setRegister gpr value).setRegister gpr value').registers =
      (m.setRegister gpr value').registers := by
    funext other
    by_cases here : other = gpr <;> simp [setRegister, here]
  exact congrArg (fun registers => { m with registers := registers }) registers

@[simp] theorem rip_write (value : Word) (location : Location) : (m.write value location).rip = m.rip := by
  cases location <;> rfl

end Lemmas

end Machine

/-- The operand sizes of a push and a pop in 64-bit mode. -/
inductive StackWidth
  | word
  | qword
  deriving DecidableEq, Repr

def StackWidth.toWidth : StackWidth → Width
  | word => .word
  | qword => .qword

def StackWidth.bytes (width : StackWidth) : Word := BitVec.ofNat 64 width.toWidth.bytes

inductive Target
  | relative (displacement : Word)
  | place (place : Place)
  deriving DecidableEq, Repr

inductive Instr
  | mov (dst : Place) (src : Source)
  | movzx (dst : Register) (src : Place)
  | movsx (dst : Register) (src : Place)
  | lea (dst : Register) (src : Address)
  | add (dst : Place) (src : Source)
  | sub (dst : Place) (src : Source)
  | xchg (first second : Place)
  | push (width : StackWidth) (src : Source)
  | pop (width : StackWidth) (dst : Place)
  | call (target : Target)
  | ret (release : Word)
  deriving DecidableEq, Repr

def Instr.addresses : Instr → List Address
  | mov dst src | add dst src | sub dst src => dst.addresses ++ src.addresses
  | movzx _ src | movsx _ src => src.addresses
  | lea _ src => [src]
  | xchg first second => first.addresses ++ second.addresses
  | push _ src => src.addresses
  | pop _ dst => dst.addresses
  | call (.place target) => target.addresses
  | call (.relative _) | ret _ => []

/-- The lowest `width.bytes` bytes of `value`, taken as a signed number. -/
def signExtend (value : Word) : Width → Word
  | .byte => (value.setWidth 8).signExtend 64
  | .word => (value.setWidth 16).signExtend 64
  | .dword => (value.setWidth 32).signExtend 64
  | .qword => value

namespace Machine

def callTarget (m : Machine) (next : Word) : Target → Word
  | .relative displacement => next + displacement
  | .place place => m.read (m.locate next place)

/-- The next instruction starts at `next`. Operands are read before anything is written; a pop
moves the stack pointer before it computes where to write, and an exchange locates both places
before it writes. -/
def exec (m : Machine) (next : Word) : Instr → Machine
  | .mov dst src => { m.write (m.value next src) (m.locate next dst) with rip := next }
  | .movzx dst src =>
      { m.write (m.read (m.locate next src)) (.register dst) with rip := next }
  | .movsx dst src =>
      { m.write (signExtend (m.read (m.locate next src)) src.width) (.register dst) with rip := next }
  | .lea dst src => { m.write (m.address next src) (.register dst) with rip := next }
  | .add dst src =>
      { m.write (m.read (m.locate next dst) + m.value next src) (m.locate next dst) with rip := next }
  | .sub dst src =>
      { m.write (m.read (m.locate next dst) - m.value next src) (m.locate next dst) with rip := next }
  | .xchg first second =>
      let written := m.write (m.read (m.locate next second)) (m.locate next first)
      { written.write (m.read (m.locate next first)) (m.locate next second) with rip := next }
  | .push width src =>
      let top := m.registers rsp - width.bytes
      { (m.setRegister rsp top).store top width.toWidth.bytes (m.value next src) with rip := next }
  | .pop width dst =>
      let popped := m.setRegister rsp (m.registers rsp + width.bytes)
      { popped.write (m.load (m.registers rsp) width.toWidth.bytes) (popped.locate next dst) with
        rip := next }
  | .call target =>
      let top := m.registers rsp - 8
      { (m.setRegister rsp top).store top 8 next with rip := m.callTarget next target }
  | .ret release =>
      { m.setRegister rsp (m.registers rsp + (8 + release)) with rip := m.load (m.registers rsp) 8 }

end Machine

end Yafsml.X86
