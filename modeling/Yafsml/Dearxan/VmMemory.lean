import Yafsml.Dearxan.Vm
import Yafsml.Foundation.LittleEndian

/-! # The memory of the virtual machine

What the machine knows of one byte decides what it reads, and what a write or an invalidation of a
range leaves of it. -/

namespace Yafsml.Dearxan

open LittleEndian OpenAddressing

/-! ## Bytes -/

/-- What the machine reports of the byte at `a`. -/
def Vm.byte (vm : Vm) (a : Word) : Option Byte := (dearxanVmReadMemory vm a 1).bind List.head?

def imageByte (image : Option DearxanImage) (a : Word) : Option Byte :=
  (dearxanImageRead image a 1).bind List.head?

def blockOffset (a : Word) : Fin 64 := ⟨a.toNat % 64, by omega⟩

def Block.byte (block : Block) (i : Fin 64) : Option Byte :=
  if block.known.getLsbD i then some (block.bytes i) else none

def AlignedImage (image : Option DearxanImage) : Prop :=
  ∀ mapped, image = some mapped → mapped.baseVa.toNat % 64 = 0 ∧ mapped.bytes.length % 64 = 0

theorem dearxanImageRead_eq_some {image : Option DearxanImage} {va : Word} {size : Nat}
    {bytes : List Byte} (read : dearxanImageRead image va size = some bytes) :
    ∃ mapped, image = some mapped ∧ mapped.baseVa ≤ va ∧
      (va - mapped.baseVa).toNat + size ≤ mapped.bytes.length ∧
      bytes = mapped.bytes.drop (va - mapped.baseVa).toNat := by
  cases image with
  | none => cases read
  | some mapped =>
      simp only [dearxanImageRead] at read
      split_ifs at read with below outside short
      cases read
      exact ⟨mapped, rfl, BitVec.not_lt.mp below, by omega, rfl⟩

theorem imageByte_of_read {image : Option DearxanImage} {va : Word} {size k : Nat}
    {bytes : List Byte} (read : dearxanImageRead image va size = some bytes) (inside : k < size)
    (fits : va.toNat + k < 2 ^ 64) :
    imageByte image (va + BitVec.ofNat 64 k) = bytes[k]? ∧ k < bytes.length := by
  obtain ⟨mapped, rfl, above, room, rfl⟩ := dearxanImageRead_eq_some read
  rw [BitVec.le_def] at above
  have offset : (va - mapped.baseVa).toNat = va.toNat - mapped.baseVa.toNat := by
    rw [BitVec.toNat_sub]
    omega
  have shifted : (va + BitVec.ofNat 64 k - mapped.baseVa).toNat =
      (va - mapped.baseVa).toNat + k := by
    rw [BitVec.toNat_sub, BitVec.toNat_add, BitVec.toNat_ofNat, offset]
    omega
  have later : ¬ va + BitVec.ofNat 64 k < mapped.baseVa := by
    rw [BitVec.lt_def, BitVec.toNat_add, BitVec.toNat_ofNat]
    omega
  refine ⟨?_, by rw [List.length_drop]; omega⟩
  simp only [imageByte, dearxanImageRead]
  rw [if_neg later, shifted, if_neg (by omega), if_neg (by omega), Option.bind_some,
    List.head?_drop, List.getElem?_drop]

theorem dearxanImageRead_some_isSome_iff {mapped : DearxanImage} {va : Word} {size : Nat} :
    (dearxanImageRead (some mapped) va size).isSome ↔
      mapped.baseVa ≤ va ∧ (va - mapped.baseVa).toNat + size ≤ mapped.bytes.length := by
  simp only [dearxanImageRead]
  rw [← BitVec.not_lt]
  by_cases below : va < mapped.baseVa
  · simp [below]
  · rw [if_neg below]
    generalize (va - mapped.baseVa).toNat = offset
    simp only [below, not_false_eq_true, true_and]
    split_ifs with outside short
    · simp only [Option.isSome_none, Bool.false_eq_true, false_iff]
      omega
    · simp only [Option.isSome_none, Bool.false_eq_true, false_iff]
      omega
    · simp only [Option.isSome_some, true_iff]
      omega

theorem imageByte_some_isSome_iff {mapped : DearxanImage} {a : Word} :
    (imageByte (some mapped) a).isSome ↔
      mapped.baseVa ≤ a ∧ (a - mapped.baseVa).toNat + 1 ≤ mapped.bytes.length := by
  rw [← dearxanImageRead_some_isSome_iff]
  unfold imageByte
  constructor
  · intro has
    obtain ⟨byte, found⟩ := Option.isSome_iff_exists.mp has
    obtain ⟨bytes, read, _⟩ := Option.bind_eq_some_iff.mp found
    simp [read]
  · intro has
    obtain ⟨bytes, read⟩ := Option.isSome_iff_exists.mp has
    obtain ⟨mapped', same, _, room, rfl⟩ := dearxanImageRead_eq_some read
    cases same
    rw [read, Option.bind_some, List.head?_drop, List.getElem?_eq_getElem (by omega)]
    rfl

theorem dearxanImageRead_isSome_iff {image : Option DearxanImage} {va : Word} {size : Nat}
    (positive : 0 < size) (fits : va.toNat + size ≤ 2 ^ 64) :
    (dearxanImageRead image va size).isSome ↔
      (imageByte image va).isSome ∧ (imageByte image (va + BitVec.ofNat 64 (size - 1))).isSome := by
  cases image with
  | none => simp [dearxanImageRead, imageByte]
  | some mapped =>
      rw [dearxanImageRead_some_isSome_iff, imageByte_some_isSome_iff, imageByte_some_isSome_iff]
      have last : (va + BitVec.ofNat 64 (size - 1)).toNat = va.toNat + (size - 1) := by
        rw [BitVec.toNat_add, BitVec.toNat_ofNat]
        omega
      have := mapped.baseVa.isLt
      simp only [BitVec.le_def, BitVec.toNat_sub, last]
      omega

/-! ## Chunks -/

structure Chunk.Valid (chunk : Chunk) : Prop where
  positive : 0 < chunk.size
  fits : chunk.offset + chunk.size ≤ 64

theorem Chunk.offset_eq (chunk : Chunk) : chunk.offset = chunk.address.toNat % 64 := by
  rw [Chunk.offset, BitVec.toNat_umod]
  rfl

theorem getLsbD_low (size i : Nat) (below : size < 64) :
    ((1#64 <<< size) - 1).getLsbD i = decide (i < size) := by
  have value : (1#64 <<< size) - 1 = BitVec.ofNat 64 (2 ^ size - 1) := by
    apply BitVec.eq_of_toNat_eq
    have positive : 0 < 2 ^ size := Nat.two_pow_pos size
    have small : 2 ^ size < 2 ^ 64 := Nat.pow_lt_pow_right (by omega) below
    simp only [BitVec.ofNat_eq_ofNat, BitVec.toNat_sub, BitVec.toNat_shiftLeft, BitVec.toNat_ofNat,
      Nat.shiftLeft_eq]
    generalize 2 ^ size = power at positive small ⊢
    omega
  rw [value, BitVec.getLsbD_ofNat, Nat.testBit_two_pow_sub_one, Bool.and_eq_right_iff_imp]
  intro inside
  simp only [decide_eq_true_eq] at inside ⊢
  omega

namespace Chunk.Valid

variable {chunk : Chunk} (valid : chunk.Valid)

include valid

theorem getLsbD_mask (i : Fin 64) :
    chunk.mask.getLsbD i = decide (chunk.offset ≤ i ∧ i < chunk.offset + chunk.size) := by
  have := valid.fits
  have := i.isLt
  unfold Chunk.mask
  split_ifs with whole
  · simp only [BitVec.getLsbD_allOnes, decide_eq_decide]
    omega
  · rw [BitVec.getLsbD_shiftLeft, getLsbD_low _ _ (by omega), Bool.eq_iff_iff]
    simp only [Bool.and_eq_true, Bool.not_eq_true', decide_eq_true_eq, decide_eq_false_iff_not]
    omega

theorem inside_iff (a : Word) :
    (a - chunk.address).toNat < chunk.size ↔
      a / 64 = chunk.address / 64 ∧ chunk.offset ≤ blockOffset a ∧
        blockOffset a < chunk.offset + chunk.size := by
  have fits := valid.fits
  have divided (x : Word) : (x / 64).toNat = x.toNat / 64 := BitVec.toNat_udiv
  rw [Chunk.offset_eq] at fits ⊢
  rw [← BitVec.toNat_inj, divided, divided, BitVec.toNat_sub]
  have := a.isLt
  have := chunk.address.isLt
  simp only [blockOffset]
  omega

theorem start_eq {a : Word} (inside : (a - chunk.address).toNat < chunk.size) :
    (blockOffset a : Nat) - chunk.offset = (a - chunk.address).toNat := by
  have within := (valid.inside_iff a).mp inside
  have divided (x : Word) : (x / 64).toNat = x.toNat / 64 := BitVec.toNat_udiv
  rw [Chunk.offset_eq] at within ⊢
  rw [← BitVec.toNat_inj, divided, divided] at within
  rw [BitVec.toNat_sub]
  have := a.isLt
  have := chunk.address.isLt
  simp only [blockOffset] at within ⊢
  omega

end Chunk.Valid

/-! ## Reading -/

/-- The byte at `a` as the table and the image have it. -/
def Vm.stored (vm : Vm) (a : Word) : Option Byte :=
  match vm.blocks.find (a / 64) with
  | some block => block.byte (blockOffset a)
  | none => imageByte vm.image a

theorem Chunk.Valid.known_iff {chunk : Chunk} (valid : chunk.Valid) (known : Word) :
    known &&& chunk.mask = chunk.mask ↔
      ∀ i : Fin 64, chunk.offset ≤ i → i < chunk.offset + chunk.size → known.getLsbD i = true := by
  constructor
  · intro same i above below
    have bit := congrArg (fun word => word.getLsbD i) same
    rw [BitVec.getLsbD_and, valid.getLsbD_mask i] at bit
    simpa [above, below] using bit
  · intro all
    apply BitVec.eq_of_getLsbD_eq
    intro i below
    have bit := valid.getLsbD_mask ⟨i, below⟩
    simp only at bit
    rw [BitVec.getLsbD_and, bit]
    by_cases inside : chunk.offset ≤ i ∧ i < chunk.offset + chunk.size
    · rw [all ⟨i, below⟩ inside.1 inside.2, Bool.true_and]
    · simp [inside]

theorem Chunk.Valid.inside {chunk : Chunk} (valid : chunk.Valid) {k : Nat} (below : k < chunk.size) :
    (chunk.address + BitVec.ofNat 64 k - chunk.address).toNat = k := by
  have := valid.fits
  have := chunk.address.isLt
  rw [BitVec.toNat_sub, BitVec.toNat_add, BitVec.toNat_ofNat]
  omega

theorem readChunk_spec {vm : Vm} {chunk : Chunk} (valid : chunk.Valid) {bytes : List Byte}
    (read : readChunk vm chunk = some bytes) :
    bytes.length = chunk.size ∧
      ∀ k < chunk.size, vm.stored (chunk.address + BitVec.ofNat 64 k) = bytes[k]? := by
  unfold readChunk at read
  have place {k : Nat} (below : k < chunk.size) :=
    (valid.inside_iff (chunk.address + BitVec.ofNat 64 k)).mp (by rw [valid.inside below]; exact below)
  cases found : vm.blocks.find (chunk.address / 64) with
  | some block =>
      rw [found] at read
      simp only at read
      split_ifs at read with unknown
      cases read
      refine ⟨by simp, fun k below => ?_⟩
      obtain ⟨same, above, within⟩ := place below
      have start := valid.start_eq (a := chunk.address + BitVec.ofNat 64 k)
        (by rw [valid.inside below]; exact below)
      rw [valid.inside below] at start
      have offset : Fin.ofNat 64 (chunk.offset + k) = blockOffset (chunk.address + BitVec.ofNat 64 k) := by
        apply Fin.ext
        have := valid.fits
        rw [Fin.val_ofNat, Nat.mod_eq_of_lt (by omega)]
        omega
      have known := (valid.known_iff block.known).mp (not_not.mp unknown) _ above within
      rw [Vm.stored, same, found]
      simp only [Block.byte, known, if_true, List.getElem?_map, List.getElem?_range below, Option.map_some,
        offset]
  | none =>
      rw [found] at read
      obtain ⟨front, fetched, rfl⟩ := Option.map_eq_some_iff.mp read
      have length : (front.take chunk.size).length = chunk.size := by
        have := valid.positive
        have := (imageByte_of_read (k := chunk.size - 1) fetched (by omega) (by
          have := valid.fits
          have := chunk.offset_eq
          omega)).2
        rw [List.length_take]
        omega
      refine ⟨length, fun k below => ?_⟩
      have fetched := (imageByte_of_read (k := k) fetched below (by
        have := valid.fits
        have := chunk.offset_eq
        omega)).1
      rw [Vm.stored, (place below).1, found, List.getElem?_take_of_lt below]
      exact fetched

theorem chunksFrom_cons (fuel start : Nat) (address : Word) {size : Nat} (positive : 0 < size) :
    ∃ chunk : Chunk, chunk.Valid ∧ chunk.address = address ∧ chunk.start = start ∧
      chunk.size ≤ size ∧
      chunksFrom (fuel + 1) address start size =
        chunk :: chunksFrom fuel (address + BitVec.ofNat 64 chunk.size) (start + chunk.size)
          (size - chunk.size) := by
  have offset : (address % 64).toNat < 64 := by
    rw [BitVec.toNat_umod]
    exact Nat.mod_lt _ (by decide)
  refine ⟨⟨address, min (64 - (address % 64).toNat) size, start⟩, ⟨?_, ?_⟩, rfl, rfl, ?_, ?_⟩
  · simp only
    omega
  · simp only [Chunk.offset]
    omega
  · simp only
    omega
  · rw [chunksFrom, if_neg (by omega)]

theorem readChunks_spec {vm : Vm} {fuel start size : Nat} {address : Word} {bytes : List Byte}
    (enough : size ≤ fuel) (read : readChunks vm (chunksFrom fuel address start size) = some bytes) :
    bytes.length = size ∧ ∀ k < size, vm.stored (address + BitVec.ofNat 64 k) = bytes[k]? := by
  induction fuel generalizing address start size bytes with
  | zero =>
      obtain rfl : size = 0 := by omega
      cases read
      simp
  | succ fuel ih =>
      rcases Nat.eq_zero_or_pos size with rfl | positive
      · cases read
        simp
      obtain ⟨chunk, valid, rfl, rfl, small, cut⟩ := chunksFrom_cons fuel start address positive
      rw [cut, readChunks] at read
      obtain ⟨front, first, read⟩ := Option.bind_eq_some_iff.mp read
      obtain ⟨back, rest, read⟩ := Option.bind_eq_some_iff.mp read
      cases read
      obtain ⟨frontLength, frontBytes⟩ := readChunk_spec valid first
      have := valid.positive
      obtain ⟨backLength, backBytes⟩ := ih (by omega) rest
      refine ⟨by rw [List.length_append]; omega, fun k below => ?_⟩
      by_cases early : k < chunk.size
      · rw [List.getElem?_append_left (by omega)]
        exact frontBytes k early
      · rw [List.getElem?_append_right (by omega), frontLength, ← backBytes (k - chunk.size) (by omega),
          BitVec.add_assoc, BitVec.ofNat_add_ofNat, show chunk.size + (k - chunk.size) = k by omega]

theorem dearxanVmReadMemory_spec {vm : Vm} {address : Word} {size : Nat} {bytes : List Byte}
    (read : dearxanVmReadMemory vm address size = some bytes) :
    bytes.length = size ∧ ∀ k < size, vm.stored (address + BitVec.ofNat 64 k) = bytes[k]? :=
  readChunks_spec le_rfl read

theorem readChunk_isSome {vm : Vm} {chunk : Chunk} (valid : chunk.Valid)
    (known : ByteMap.Known vm.stored chunk.address chunk.size) : (readChunk vm chunk).isSome := by
  have place {k : Nat} (below : k < chunk.size) :=
    (valid.inside_iff (chunk.address + BitVec.ofNat 64 k)).mp (by rw [valid.inside below]; exact below)
  have positive := valid.positive
  unfold readChunk
  cases found : vm.blocks.find (chunk.address / 64) with
  | some block =>
      have all : block.known &&& chunk.mask = chunk.mask := by
        rw [valid.known_iff]
        intro i above below
        have within : i.val - chunk.offset < chunk.size := by omega
        have byte := known (i.val - chunk.offset) within
        obtain ⟨same, above', below'⟩ := place within
        have start := valid.start_eq (a := chunk.address + BitVec.ofNat 64 (i.val - chunk.offset))
          (by rw [valid.inside within]; exact within)
        rw [valid.inside within] at start
        have here : blockOffset (chunk.address + BitVec.ofNat 64 (i.val - chunk.offset)) = i := by
          apply Fin.ext
          omega
        rw [Vm.stored, same, found] at byte
        simp only [here, Block.byte] at byte
        by_contra unknown
        rw [if_neg unknown] at byte
        cases byte
      simp [all]
  | none =>
      have image {k : Nat} (below : k < chunk.size) :
          (imageByte vm.image (chunk.address + BitVec.ofNat 64 k)).isSome := by
        have byte := known k below
        rwa [Vm.stored, (place below).1, found] at byte
      rw [Option.isSome_map, dearxanImageRead_isSome_iff positive (by
        have := valid.fits
        have := chunk.offset_eq
        omega)]
      exact ⟨by simpa using image positive, image (by omega)⟩

theorem readChunks_isSome {vm : Vm} {fuel start size : Nat} {address : Word} (enough : size ≤ fuel)
    (known : ByteMap.Known vm.stored address size) :
    (readChunks vm (chunksFrom fuel address start size)).isSome := by
  induction fuel generalizing address start size with
  | zero => rfl
  | succ fuel ih =>
      rcases Nat.eq_zero_or_pos size with rfl | positive
      · rfl
      obtain ⟨chunk, valid, rfl, rfl, small, cut⟩ := chunksFrom_cons fuel start address positive
      have := valid.positive
      obtain ⟨front, first⟩ := Option.isSome_iff_exists.mp
        (readChunk_isSome valid fun k below => known k (by omega))
      have later : ByteMap.Known vm.stored (chunk.address + BitVec.ofNat 64 chunk.size)
          (size - chunk.size) := by
        intro k below
        rw [BitVec.add_assoc, BitVec.ofNat_add_ofNat]
        exact known _ (by omega)
      obtain ⟨back, rest⟩ := Option.isSome_iff_exists.mp
        (ih (by omega) later :
          (readChunks vm (chunksFrom fuel (chunk.address + BitVec.ofNat 64 chunk.size)
            (chunk.start + chunk.size) (size - chunk.size))).isSome = true)
      rw [cut, readChunks, first, Option.bind_eq_bind, Option.bind_some, rest]
      rfl

theorem dearxanVmReadMemory_eq (vm : Vm) (address : Word) (size : Nat) :
    dearxanVmReadMemory vm address size = ByteMap.read vm.stored address size := by
  cases read : dearxanVmReadMemory vm address size with
  | some bytes => exact (ByteMap.read_eq_some_iff.mpr (dearxanVmReadMemory_spec read)).symm
  | none =>
      refine (ByteMap.read_eq_none fun known => ?_).symm
      have found : (dearxanVmReadMemory vm address size).isSome = true := readChunks_isSome le_rfl known
      rw [read] at found
      cases found

theorem Vm.byte_eq_stored (vm : Vm) (a : Word) : vm.byte a = vm.stored a := by
  have offset : (a % 64).toNat = a.toNat % 64 := BitVec.toNat_umod
  have one : chunks a 1 = [⟨a, 1, 0⟩] := by
    simp only [chunks, chunksFrom]
    rw [if_neg (by decide), show min (64 - (a % 64).toNat) 1 = 1 by omega]
  have valid : (⟨a, 1, 0⟩ : Chunk).Valid := ⟨Nat.one_pos, by simp only [Chunk.offset]; omega⟩
  rw [Vm.byte, dearxanVmReadMemory, one]
  simp only [readChunks, readChunk, Vm.stored]
  cases vm.blocks.find (a / 64) with
  | none =>
      cases fetched : dearxanImageRead vm.image a 1 with
      | none => simp [imageByte, fetched]
      | some bytes => cases bytes <;> simp [imageByte, fetched]
  | some block =>
      have place : Fin.ofNat 64 (Chunk.offset ⟨a, 1, 0⟩ + 0) = blockOffset a := by
        apply Fin.ext
        simp only [Chunk.offset, blockOffset, Fin.val_ofNat]
        omega
      have known : block.known &&& Chunk.mask ⟨a, 1, 0⟩ = Chunk.mask ⟨a, 1, 0⟩ ↔
          block.known.getLsbD (blockOffset a) = true := by
        rw [valid.known_iff]
        constructor
        · intro all
          apply all <;> simp only [Chunk.offset, blockOffset] <;> omega
        · intro bit i above below
          have : i = blockOffset a := by
            apply Fin.ext
            simp only [Chunk.offset, blockOffset] at above below ⊢
            omega
          rwa [this]
      dsimp only
      by_cases bit : block.known.getLsbD (blockOffset a) = true
      · rw [Block.byte, if_pos bit, if_neg (not_not.mpr (known.mpr bit)), ← place]
        rfl
      · rw [Block.byte, if_neg bit, if_pos (mt known.mp bit)]
        rfl

/-! ## Changing a range -/

section Edit

variable {calloc : Nat → Bool} {vm vm' : Vm}

structure SameCpu (vm vm' : Vm) : Prop where
  image : vm'.image = vm.image
  rip : vm'.rip = vm.rip
  ripKnown : vm'.ripKnown = vm.ripKnown
  registers : vm'.registers = vm.registers

theorem SameCpu.trans {vm vm' vm'' : Vm} (first : SameCpu vm vm') (second : SameCpu vm' vm'') :
    SameCpu vm vm'' :=
  ⟨second.image.trans first.image, second.rip.trans first.rip,
    second.ripKnown.trans first.ripKnown, second.registers.trans first.registers⟩

theorem findBlock_spec {index : Word} {valid : index + 1 ≠ 0}
    (created : findBlock calloc vm index valid = some vm') :
    SameCpu vm vm' ∧ (∀ other ≠ index, vm'.blocks.find other = vm.blocks.find other) ∧
      vm'.blocks.find index =
        some ((vm.blocks.find index).getD (newBlock vm.image index)) := by
  unfold findBlock at created
  split_ifs at created with absent room
  · cases created
    refine ⟨⟨rfl, rfl, rfl, rfl⟩, fun other apart => ?_, ?_⟩
    · rw [Table.find_insert, if_neg apart]
    · rw [Table.find_insert, if_pos rfl, absent]
      rfl
  · split at created
    · cases created
    · rename_i grown grew
      cases created
      refine ⟨⟨rfl, rfl, rfl, rfl⟩, fun other apart => ?_, ?_⟩
      · rw [Table.find_insert, if_neg apart, (growBlocks_spec grew).1]
      · rw [Table.find_insert, if_pos rfl, absent]
        rfl
  · cases created
    obtain ⟨block, found⟩ := Option.ne_none_iff_exists'.mp absent
    exact ⟨⟨rfl, rfl, rfl, rfl⟩, fun _ _ => rfl, by rw [found]; rfl⟩

theorem editBlock_spec {address : Word} {edit : BlockEdit}
    (edited : editBlock calloc vm address edit = some vm') :
    SameCpu vm vm' ∧ (∀ other ≠ address / 64, vm'.blocks.find other = vm.blocks.find other) ∧
      vm'.blocks.find (address / 64) =
        some (edit.apply ((vm.blocks.find (address / 64)).getD (newBlock vm.image (address / 64)))) := by
  obtain ⟨middle, created, rfl⟩ := Option.map_eq_some_iff.mp edited
  obtain ⟨same, others, found⟩ := findBlock_spec created
  refine ⟨⟨same.image, same.rip, same.ripKnown, same.registers⟩, fun other apart => ?_, ?_⟩
  · rw [Table.find_modify, if_neg apart, others other apart]
  · rw [Table.find_modify, if_pos rfl, found, Option.map_some]

theorem toNat_blockStart (a : Word) : (a / 64 * 64).toNat = a.toNat / 64 * 64 := by
  have divided : (a / 64).toNat = a.toNat / 64 := BitVec.toNat_udiv
  rw [BitVec.toNat_mul, divided]
  change a.toNat / 64 * 64 % 2 ^ 64 = _
  have := a.isLt
  omega

theorem AlignedImage.block_of_byte {image : Option DearxanImage} (aligned : AlignedImage image) {a : Word}
    (has : imageByte image a ≠ none) : dearxanImageRead image (a / 64 * 64) 64 ≠ none := by
  obtain ⟨byte, found⟩ := Option.ne_none_iff_exists'.mp has
  obtain ⟨bytes, read, _⟩ := Option.bind_eq_some_iff.mp found
  obtain ⟨mapped, rfl, above, room, _⟩ := dearxanImageRead_eq_some read
  obtain ⟨base, size⟩ := aligned mapped rfl
  have start := toNat_blockStart a
  rw [BitVec.le_def] at above
  have later : ¬ a / 64 * 64 < mapped.baseVa := by
    rw [BitVec.lt_def, start]
    omega
  have offset : (a / 64 * 64 - mapped.baseVa).toNat = a.toNat / 64 * 64 - mapped.baseVa.toNat := by
    rw [BitVec.toNat_sub, start]
    have := a.isLt
    omega
  rw [BitVec.toNat_sub] at room
  have := a.isLt
  simp only [dearxanImageRead]
  rw [if_neg later, offset, if_neg (by omega), if_neg (by omega)]
  simp

/-- A fresh block knows what the image has, or nothing, where the image ends inside of it. -/
theorem newBlock_byte (image : Option DearxanImage) (a : Word) :
    (newBlock image (a / 64)).byte (blockOffset a) = imageByte image a ∨
      ((newBlock image (a / 64)).byte (blockOffset a) = none ∧ ¬ AlignedImage image) := by
  unfold newBlock
  split
  · rename_i bytes read
    have start := toNat_blockStart a
    have here : a / 64 * 64 + BitVec.ofNat 64 (blockOffset a).val = a := by
      apply BitVec.eq_of_toNat_eq
      rw [BitVec.toNat_add, start, BitVec.toNat_ofNat]
      simp only [blockOffset]
      have := a.isLt
      omega
    obtain ⟨fetched, within⟩ := imageByte_of_read read (blockOffset a).isLt (by
      rw [start]
      simp only [blockOffset]
      have := a.isLt
      omega)
    rw [here] at fetched
    left
    rw [fetched, Block.byte]
    simp only [BitVec.getLsbD_allOnes, (blockOffset a).isLt, decide_true, if_true]
    rw [List.getElem?_eq_getElem within, List.getD_eq_getElem _ _ within]
  · rename_i absent
    have unknown : (⟨a / 64 + 1, 0, fun _ => 0⟩ : Block).byte (blockOffset a) = none := by
      simp [Block.byte]
    rw [unknown]
    by_cases aligned : AlignedImage image
    · left
      by_contra has
      exact aligned.block_of_byte (Ne.symm has) absent
    · exact .inr ⟨rfl, aligned⟩

/-- `size` bytes at `address` are what `after` gives for their distance; the other ones are kept,
but that a new block may have lost them. -/
structure Edited (vm vm' : Vm) (address : Word) (size : Nat) (after : Nat → Option Byte) : Prop where
  cpu : SameCpu vm vm'
  inside : ∀ a, (a - address).toNat < size →
    vm'.stored a = after (a - address).toNat ∧ vm'.blocks.find (a / 64) ≠ none
  outside : ∀ a, size ≤ (a - address).toNat →
    vm'.stored a = vm.stored a ∨
      (vm.blocks.find (a / 64) = none ∧ vm'.stored a = none ∧ ¬ AlignedImage vm.image)
  blocks : ∀ index, vm.blocks.find index ≠ none → vm'.blocks.find index ≠ none

def EditsBytes (edit : BlockEdit) (chunk : Chunk) (after : Nat → Option Byte) : Prop :=
  ∀ (block : Block) (i : Fin 64), (edit.apply block).byte i =
    if chunk.offset ≤ i ∧ i < chunk.offset + chunk.size then after (chunk.start + (i - chunk.offset))
    else block.byte i

theorem copyEdit_edits (input : Nat → Byte) {chunk : Chunk} (valid : chunk.Valid) :
    EditsBytes (copyEdit input chunk) chunk (fun k => some (input k)) := by
  intro block i
  simp only [Block.byte, BlockEdit.apply, copyEdit, BitVec.getLsbD_or, valid.getLsbD_mask]
  by_cases inside : chunk.offset ≤ i ∧ i < chunk.offset + chunk.size <;> simp [inside]

theorem forgetEdit_edits {chunk : Chunk} (valid : chunk.Valid) :
    EditsBytes (forgetEdit chunk) chunk (fun _ => none) := by
  intro block i
  simp only [Block.byte, BlockEdit.apply, forgetEdit, BitVec.getLsbD_and, BitVec.getLsbD_not,
    valid.getLsbD_mask]
  by_cases inside : chunk.offset ≤ i ∧ i < chunk.offset + chunk.size <;> simp [inside]

theorem editBlock_edited {chunk : Chunk} (valid : chunk.Valid) {edit : BlockEdit}
    {after : Nat → Option Byte} (edits : EditsBytes edit chunk after)
    (edited : editBlock calloc vm chunk.address edit = some vm') :
    Edited vm vm' chunk.address chunk.size (fun k => after (chunk.start + k)) := by
  obtain ⟨same, others, found⟩ := editBlock_spec edited
  refine ⟨same, fun a inside => ?_, fun a outside => ?_, fun index exists_ => ?_⟩
  · obtain ⟨here, above, below⟩ := (valid.inside_iff a).mp inside
    rw [Vm.stored, here, found]
    refine ⟨?_, by simp⟩
    simp only [edits _ (blockOffset a), above, below, and_self, if_true]
    rw [valid.start_eq inside]
  · have outside := mt (valid.inside_iff a).mpr (not_lt.mpr outside)
    by_cases here : a / 64 = chunk.address / 64
    · rw [Vm.stored, Vm.stored, here, found]
      simp only [edits _ (blockOffset a)]
      rw [if_neg fun within => outside ⟨here, within⟩]
      cases old : vm.blocks.find (chunk.address / 64) with
      | some block => exact .inl rfl
      | none =>
          rw [← here]
          rcases newBlock_byte vm.image a with kept | lost
          · exact .inl kept
          · exact .inr ⟨rfl, lost⟩
    · left
      rw [Vm.stored, Vm.stored, others _ here, same.image]
  · by_cases here : index = chunk.address / 64
    · rw [here, found]
      simp
    · rwa [others index here]

theorem Edited.append {vm vm' vm'' : Vm} {address : Word} {first second : Nat}
    {after : Nat → Option Byte} (before : Edited vm vm' address first after)
    (behind : Edited vm' vm'' (address + BitVec.ofNat 64 first) second fun k => after (first + k))
    (fits : first + second ≤ 2 ^ 64) : Edited vm vm'' address (first + second) after := by
  have shift (a : Word) : (a - (address + BitVec.ofNat 64 first)).toNat =
      (2 ^ 64 + (a - address).toNat - first) % 2 ^ 64 := by
    have := a.isLt
    have := address.isLt
    rw [BitVec.toNat_sub, BitVec.toNat_sub, BitVec.toNat_add, BitVec.toNat_ofNat]
    omega
  refine ⟨before.cpu.trans behind.cpu, fun a inside => ?_, fun a outside => ?_, fun index held =>
    behind.blocks index (before.blocks index held)⟩
  · have := (a - address).isLt
    by_cases early : (a - address).toNat < first
    · obtain ⟨written, held⟩ := before.inside a early
      refine ⟨?_, behind.blocks _ held⟩
      rcases behind.outside a (by rw [shift]; omega) with kept | ⟨absent, _⟩
      · rw [kept, written]
      · exact absurd absent held
    · have later : (a - (address + BitVec.ofNat 64 first)).toNat = (a - address).toNat - first := by
        rw [shift]
        omega
      have written := behind.inside a (by rw [later]; omega)
      rwa [later, show first + ((a - address).toNat - first) = (a - address).toNat by omega] at written
  · have := (a - address).isLt
    have away := behind.outside a (by rw [shift]; omega)
    rcases before.outside a (by omega) with kept | ⟨absent, lost⟩
    · rcases away with kept' | ⟨absent, lost, ragged⟩
      · exact .inl (kept'.trans kept)
      · rw [before.cpu.image] at ragged
        exact .inr ⟨not_not.mp (mt (before.blocks _) (not_not.mpr absent)), lost, ragged⟩
    · refine .inr ⟨absent, ?_, lost.2⟩
      rcases away with kept' | ⟨_, lost', _⟩
      · rw [kept', lost.1]
      · exact lost'

theorem Edited.nil {vm : Vm} {address : Word} {after : Nat → Option Byte} :
    Edited vm vm address 0 after :=
  ⟨⟨rfl, rfl, rfl, rfl⟩, fun _ inside => absurd inside (Nat.not_lt_zero _), fun _ _ => .inl rfl,
    fun _ => id⟩

theorem editChunks_edited {edit : Chunk → BlockEdit} {after : Nat → Option Byte}
    (edits : ∀ chunk : Chunk, chunk.Valid → EditsBytes (edit chunk) chunk after)
    {fuel start size : Nat} {address : Word} (enough : size ≤ fuel) (fits : size ≤ 2 ^ 64)
    (edited : editChunks calloc edit vm (chunksFrom fuel address start size) = some vm') :
    Edited vm vm' address size (fun k => after (start + k)) := by
  induction fuel generalizing address start size vm with
  | zero =>
      obtain rfl : size = 0 := by omega
      cases edited
      exact .nil
  | succ fuel ih =>
      rcases Nat.eq_zero_or_pos size with rfl | positive
      · cases edited
        exact .nil
      obtain ⟨chunk, valid, rfl, rfl, small, cut⟩ := chunksFrom_cons fuel start address positive
      rw [cut, editChunks] at edited
      obtain ⟨middle, first, rest⟩ := Option.bind_eq_some_iff.mp edited
      have := valid.positive
      have before := editBlock_edited valid (edits chunk valid) first
      have behind := ih (by omega) (by omega) rest
      simp only [Nat.add_assoc] at behind
      have whole := before.append behind (by omega)
      rwa [show chunk.size + (size - chunk.size) = size by omega] at whole

theorem dearxanVmWriteMemory_spec {address : Word} {input : Nat → Byte} {size : Nat}
    (fits : size ≤ 2 ^ 64) (wrote : dearxanVmWriteMemory calloc vm address input size = some vm') :
    Edited vm vm' address size fun k => some (input k) := by
  have edited := editChunks_edited (fun chunk valid => copyEdit_edits input valid) le_rfl fits wrote
  simpa only [Nat.zero_add] using edited

theorem dearxanVmInvalidateMemory_spec {address : Word} {size : Nat} (fits : size ≤ 2 ^ 64)
    (forgot : dearxanVmInvalidateMemory calloc vm address size = some vm') :
    Edited vm vm' address size fun _ => none :=
  editChunks_edited (fun _ valid => forgetEdit_edits valid) le_rfl fits forgot

end Edit

end Yafsml.Dearxan
