import Yafsml.Foundation.X86Code
import Yafsml.Dearxan.RegionPatches

/-! # What the code of a patch does -/

namespace Yafsml.Dearxan

open LittleEndian X86

def slotAddress (gadget : ReturnGadget) (m : Machine) : Word :=
  m.registers rsp + gadget.stackOffset - 16

/-- From here the context is popped without the stub's checks, and a stub that returns does so
through its gadget. -/
def Diverts (stub : StubInfo) (m : Machine) : Prop :=
  match stub.returnGadget with
  | none => ∃ m', m.Reaches (fun _ => False) m' ∧ m'.rip = stub.contextPopVa ∧
      m'.registers rsp = m.registers rsp - 8
  | some gadget => ∃ m', m.Reaches (fun a => (a - slotAddress gadget m).toNat < 8) m' ∧
      m'.rip = stub.contextPopVa ∧ m'.registers rsp = m.registers rsp - 8 ∧
      ∀ w : Machine, w.memory = m'.memory → w.rip = m'.load (slotAddress gadget m) 8 →
        ∃ w', w.Reaches (fun _ => False) w' ∧ w'.rip = gadget.address ∧
          w'.registers rsp = w.registers rsp + 16

def behindStore (gadget : ReturnGadget) (patch : Write) : Write :=
  let size := 7 + ((storeSlot (gadget.stackOffset.toInt - 16)).getD []).length
  ⟨patch.address + BitVec.ofNat 64 size, patch.bytes.drop size⟩

/-- The slot is not inside of the code that runs after it is written. -/
def SlotClear (stub : StubInfo) (patch : Write) (m : Machine) : Prop :=
  ∀ gadget, stub.returnGadget = some gadget →
    ∀ a, (a - slotAddress gadget m).toNat < 8 → (behindStore gadget patch).covers a = false

def popContext (contextPopVa : Word) : List Byte :=
  [0x48#8, 0x83#8, 0xec#8, 0x08#8, 0x48#8, 0xb8#8] ++ littleEndian 8 contextPopVa ++ [0xff#8, 0xe0#8]

def returnThrough (address : Word) : List Byte :=
  [0x48#8, 0x83#8, 0xc4#8, 0x10#8, 0xff#8, 0x25#8] ++ littleEndian 4 0 ++ littleEndian 8 address

variable {m : Machine}

theorem reaches_step {slot : Word → Prop} {m m' m'' : Machine} (stepped : m.step = some m')
    (same : ∀ a, ¬slot a → m'.memory a = m.memory a) (reaches : m'.Reaches slot m'') :
    m.Reaches slot m'' :=
  Relation.ReflTransGen.head ⟨stepped, same⟩ reaches

theorem run_popContext {slot : Word → Prop} {contextPopVa : Word}
    (holds : Holds m.memory m.rip (popContext contextPopVa)) :
    ∃ m', m.Reaches slot m' ∧ m'.memory = m.memory ∧ m'.rip = contextPopVa ∧
      m'.registers rsp = m.registers rsp - 8 := by
  have pieces : popContext contextPopVa =
      ([0x48#8, 0x83#8, 0xec#8] ++ (List.range 1).map (byteOf 8)) ++
        (([0x48#8, 0xb8#8] ++ (List.range 8).map (byteOf contextPopVa)) ++ [0xff#8, 0xe0#8]) := rfl
  rw [pieces] at holds
  obtain ⟨lower, rest⟩ := holds.append
  obtain ⟨load, jump⟩ := rest.append
  have lowered := Machine.step_subRsp lower
  let m₁ : Machine := { m.setRegister rsp (m.registers rsp - 8) with rip := m.rip + 4 }
  have loaded : m₁.step = some _ := Machine.step_movRax load
  let m₂ : Machine := { m₁.setRegister 0 contextPopVa with rip := m₁.rip + 10 }
  have jumped : m₂.step = some _ := Machine.step_jmpRax (by
    rw [show m₂.rip = m.rip + 4 + 10 from rfl]
    exact jump)
  refine ⟨{ m₂ with rip := contextPopVa }, ?_, rfl, rfl, rfl⟩
  refine reaches_step (show m.step = some m₁ from lowered) (fun _ _ => rfl) ?_
  refine reaches_step loaded (fun _ _ => rfl) ?_
  exact reaches_step jumped (fun _ _ => rfl) .refl

theorem load_of_holds {memory : Word → Byte} {address value : Word}
    (holds : Holds memory address (littleEndian 8 value)) {m : Machine} (same : m.memory = memory) :
    m.load address 8 = value := by
  rw [Machine.load, same, holds.ofBytes]
  exact signExtend_ofBytes value .qword

theorem run_returnThrough {address : Word}
    (holds : Holds m.memory m.rip (returnThrough address)) :
    ∃ m', m.Reaches (fun _ => False) m' ∧ m'.rip = address ∧
      m'.registers rsp = m.registers rsp + 16 := by
  have pieces : returnThrough address =
      ([0x48#8, 0x83#8, 0xc4#8] ++ (List.range 1).map (byteOf 16)) ++
        (([0xff#8, 0x25#8] ++ (List.range 4).map (byteOf 0)) ++ littleEndian 8 address) := rfl
  rw [pieces] at holds
  obtain ⟨raise, rest⟩ := holds.append
  obtain ⟨jump, target⟩ := rest.append
  have raised := Machine.step_addRsp raise
  let m₁ : Machine := { m.setRegister rsp (m.registers rsp + 16) with rip := m.rip + 4 }
  have jumped : m₁.step = some _ := Machine.step_jmpRip jump
  have there : m₁.load (m₁.rip + 6 + signExtend 0 .dword) 8 = address :=
    load_of_holds (show Holds m.memory _ (littleEndian 8 address) by
      have apart : m₁.rip + 6 + signExtend 0 .dword = m.rip + 4 + 6 := by
        simp [signExtend, m₁]
      rw [apart]
      exact target) rfl
  rw [there] at jumped
  refine ⟨{ m₁ with rip := address }, ?_, rfl, rfl⟩
  refine reaches_step (show m.step = some m₁ from raised) (fun _ _ => rfl) ?_
  exact reaches_step jumped (fun _ _ => rfl) .refl

theorem toInt_ofInt_slot {x : Int} (low : -2 ^ 31 ≤ x) (high : x ≤ 2 ^ 31 - 1) :
    (BitVec.ofInt 64 x).toInt = x := by
  rw [BitVec.toInt_ofInt, Int.bmod_def]
  split_ifs <;> omega

theorem run_storeSlot {lowSlot : Int} {store : List Byte} (stores : storeSlot lowSlot = some store)
    (holds : Holds m.memory m.rip store) :
    m.step = some { m.store (m.registers rsp + BitVec.ofInt 64 lowSlot) 8 (m.registers 0) with
      rip := m.rip + BitVec.ofNat 64 store.length } := by
  unfold storeSlot at stores
  split at stores
  · rename_i range
    cases stores
    have exact := toInt_ofInt_slot (x := lowSlot) (by omega) (by omega)
    rw [Machine.step_storeByte holds, signExtend_byte_self (by omega) (by omega)]
    rfl
  · split at stores
    · rename_i range
      cases stores
      have exact := toInt_ofInt_slot range.1 range.2
      rw [Machine.step_storeDword holds, signExtend_dword_self (by omega) (by omega)]
      rfl
    · cases stores

theorem slot_eq (gadget : ReturnGadget) (m : Machine) :
    m.registers rsp + BitVec.ofInt 64 (gadget.stackOffset.toInt - 16) = slotAddress gadget m := by
  have split : BitVec.ofInt 64 (gadget.stackOffset.toInt - 16) = gadget.stackOffset - 16 := by
    apply BitVec.eq_of_toInt_eq
    rw [BitVec.toInt_ofInt, BitVec.toInt_sub]
    rfl
  rw [split, slotAddress, BitVec.sub_eq_add_neg, BitVec.sub_eq_add_neg, BitVec.add_assoc]

theorem store_other {address value a : Word} {size : Nat} (outside : ¬(a - address).toNat < size) :
    (m.store address size value).memory a = m.memory a := if_neg outside

theorem offset_of_start (address : Word) {k : Nat} (below : k < 2 ^ 64) :
    (address + BitVec.ofNat 64 k - address).toNat = k := by
  rw [BitVec.add_comm, BitVec.add_sub_cancel, BitVec.toNat_ofNat, Nat.mod_eq_of_lt below]

theorem load_store (address value : Word) : (m.store address 8 value).load address 8 = value := by
  have bytes : ∀ k < 8, (m.store address 8 value).memory (address + BitVec.ofNat 64 k) =
      byteOf value k := by
    intro k below
    have distance := offset_of_start address (show k < 2 ^ 64 by omega)
    show (if (address + BitVec.ofNat 64 k - address).toNat < 8 then _ else _) = _
    rw [distance, if_pos below]
  rw [Machine.load, ofBytes_congr bytes]
  exact signExtend_ofBytes value .qword

theorem holds_store {address slot value : Word} {bytes : List Byte}
    (holds : Holds m.memory address bytes) (small : bytes.length < 2 ^ 64)
    (clear : ∀ a, (a - slot).toNat < 8 → (⟨address, bytes⟩ : Write).covers a = false) :
    Holds (m.store slot 8 value).memory address bytes := by
  intro k below
  rw [store_other, holds k below]
  intro inside
  have covered := clear _ inside
  simp only [Write.covers, offset_of_start _ (below.trans small), decide_eq_false_iff_not] at covered
  exact covered below

theorem storeSlot_length {lowSlot : Int} {store : List Byte} (stores : storeSlot lowSlot = some store) :
    store.length = 5 ∨ store.length = 8 := by
  unfold storeSlot at stores
  split at stores
  · cases stores
    exact .inl rfl
  · split at stores
    · cases stores
      exact .inr rfl
    · cases stores

theorem emitStubPatch_plain {stub : StubInfo} {patch : List Byte} (plain : stub.returnGadget = none)
    (emitted : emitStubPatch stub 64 = some patch) : patch = popContext stub.contextPopVa := by
  simp only [emitStubPatch, plain] at emitted
  cases emitted
  rfl

theorem emitStubPatch_gadget {stub : StubInfo} {gadget : ReturnGadget} {patch : List Byte}
    (has : stub.returnGadget = some gadget) (emitted : emitStubPatch stub 64 = some patch) :
    ∃ store, storeSlot (gadget.stackOffset.toInt - 16) = some store ∧
      patch = ([0x48#8, 0x8d#8, 0x05#8] ++ littleEndian 4 (BitVec.ofNat 64 (store.length + 16))) ++
        (store ++ (popContext stub.contextPopVa ++ returnThrough gadget.address)) := by
  simp only [emitStubPatch, has] at emitted
  cases stores : storeSlot (gadget.stackOffset.toInt - 16) with
  | none => simp [stores] at emitted
  | some store =>
      refine ⟨store, rfl, ?_⟩
      simp only [stores, Option.bind_eq_bind, Option.bind_some, Option.pure_def] at emitted
      rw [if_neg (by decide), Option.some.injEq] at emitted
      rw [← emitted]
      simp [popContext, returnThrough, littleEndian]

theorem run_plain {stub : StubInfo} {patch : Write} (plain : stub.returnGadget = none)
    (emitted : emitStubPatch stub 64 = some patch.bytes)
    (holds : Holds m.memory patch.address patch.bytes) (there : m.rip = patch.address) :
    Diverts stub m := by
  rw [emitStubPatch_plain plain emitted, ← there] at holds
  obtain ⟨m', reaches, _, arrived, lowered⟩ := run_popContext holds
  simp only [Diverts, plain]
  exact ⟨m', reaches, arrived, lowered⟩

theorem run_gadget {stub : StubInfo} {gadget : ReturnGadget} {patch : Write}
    (has : stub.returnGadget = some gadget) (emitted : emitStubPatch stub 64 = some patch.bytes)
    (holds : Holds m.memory patch.address patch.bytes) (there : m.rip = patch.address)
    (clear : SlotClear stub patch m) : Diverts stub m := by
  obtain ⟨store, stores, bytes⟩ := emitStubPatch_gadget has emitted
  rw [bytes] at holds
  obtain ⟨lea, rest⟩ := holds.append
  obtain ⟨storing, tail⟩ := rest.append
  rw [← there] at lea
  have lengths := storeSlot_length stores
  -- the address of the code that returns through the gadget
  let back : Word := m.rip + 7 + BitVec.ofNat 64 (store.length + 16)
  let m₁ : Machine := { m.setRegister 0 back with rip := m.rip + 7 }
  have led : m.step = some m₁ := by
    rw [Machine.step_leaRip lea, signExtend_dword_self]
    · rcases lengths with short | long
      · rw [short]; decide
      · rw [long]; decide
    · rcases lengths with short | long
      · rw [short]; decide
      · rw [long]; decide
  let slot := slotAddress gadget m
  let m₂ : Machine := { m₁.store slot 8 back with rip := m₁.rip + BitVec.ofNat 64 store.length }
  have stored : m₁.step = some m₂ := by
    rw [run_storeSlot (m := m₁) stores (by rw [← there] at storing; exact storing), slot_eq]
    rfl
  have kept : Holds m₂.memory m₂.rip
      (popContext stub.contextPopVa ++ returnThrough gadget.address) := by
    apply holds_store (m := m₁)
    · rw [← there] at tail
      exact tail
    · simp [popContext, returnThrough, littleEndian]
    · intro a inside
      have behind : behindStore gadget patch =
          ⟨m₂.rip, popContext stub.contextPopVa ++ returnThrough gadget.address⟩ := by
        simp only [behindStore, stores, Option.getD_some, bytes, BitVec.ofNat_add]
        rw [← List.append_assoc, List.drop_left' (by simp [littleEndian]; omega), ← there,
          ← BitVec.add_assoc]
        rfl
      rw [← behind]
      exact clear gadget has a inside
  obtain ⟨popping, returning⟩ := kept.append
  have popped : ∃ m', m₂.Reaches (fun a => (a - slot).toNat < 8) m' ∧ m'.memory = m₂.memory ∧
      m'.rip = stub.contextPopVa ∧ m'.registers rsp = m₂.registers rsp - 8 := run_popContext popping
  obtain ⟨m₃, reaches, same, arrived, lowered⟩ := popped
  simp only [Diverts, has]
  refine ⟨m₃, ?_, arrived, lowered, ?_⟩
  · refine reaches_step led (fun _ _ => rfl) ?_
    exact reaches_step stored (fun a outside => store_other outside) reaches
  · intro w memory rip
    apply run_returnThrough
    have target : m₃.load (slotAddress gadget m) 8 = back := by
      rw [← load_store (m := m₁) slot back]
      simp only [Machine.load, same]
      rfl
    have place : m₂.rip + BitVec.ofNat 64 (popContext stub.contextPopVa).length = back := by
      show m.rip + 7 + BitVec.ofNat 64 store.length + BitVec.ofNat 64 16 = back
      rw [BitVec.add_assoc, ← BitVec.ofNat_add]
    rw [memory, rip, target, same, ← place]
    exact returning

end Yafsml.Dearxan
