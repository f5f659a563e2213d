import Mathlib.Data.BitVec

/-! # Little-endian words, and memories of their bytes -/

namespace Yafsml.LittleEndian

abbrev Byte := BitVec 8

abbrev Word := BitVec 64

def byteOf (value : Word) (k : Nat) : Byte := value.extractLsb' (8 * k) 8

/-- The word whose lowest bytes are the first `size` ones of `bytes`. -/
def ofBytes (bytes : Nat → Byte) : Nat → Word
  | 0 => 0
  | size + 1 => ofBytes bytes size ||| (bytes size).setWidth 64 <<< (8 * size)

theorem ofBytes_congr {bytes bytes' : Nat → Byte} {size : Nat}
    (same : ∀ k < size, bytes k = bytes' k) : ofBytes bytes size = ofBytes bytes' size := by
  induction size with
  | zero => rfl
  | succ size ih =>
      rw [ofBytes, ofBytes, ih fun k below => same k (by omega), same size (by omega)]

theorem getLsbD_ofBytes_above {bytes : Nat → Byte} {size i : Nat} (above : 8 * size ≤ i) :
    (ofBytes bytes size).getLsbD i = false := by
  induction size with
  | zero => simp [ofBytes]
  | succ size ih =>
      rw [ofBytes, BitVec.getLsbD_or, ih (by omega)]
      simp only [BitVec.getLsbD_shiftLeft, BitVec.getLsbD_setWidth, Bool.false_or]
      rw [BitVec.getLsbD_of_ge (bytes size) _ (by omega)]
      simp

theorem getLsbD_ofBytes_byteOf {value : Word} {size i : Nat} (below : i < 8 * size) (inside : i < 64) :
    (ofBytes (byteOf value) size).getLsbD i = value.getLsbD i := by
  induction size with
  | zero => omega
  | succ size ih =>
      rw [ofBytes, BitVec.getLsbD_or]
      by_cases lower : i < 8 * size
      · rw [ih lower]
        simp [lower]
      · rw [getLsbD_ofBytes_above (by omega)]
        simp only [BitVec.getLsbD_shiftLeft, BitVec.getLsbD_setWidth, byteOf, BitVec.getLsbD_extractLsb',
          Bool.false_or]
        rw [show 8 * size + (i - 8 * size) = i by omega]
        simp [lower, inside, show i - 8 * size < 64 by omega, show i - 8 * size < 8 by omega]

theorem eq_of_byteOf {value value' : Word} (same : ∀ k < 8, byteOf value k = byteOf value' k) :
    value = value' := by
  apply BitVec.eq_of_getLsbD_eq
  intro i below
  have bit := congrArg (fun byte => byte.getLsbD (i % 8)) (same (i / 8) (by omega))
  simp only [byteOf, BitVec.getLsbD_extractLsb', Nat.div_add_mod] at bit
  simpa [Nat.mod_lt] using bit

/-! ## Partial byte maps

A memory of which some bytes are known. A range may go over the end of the address space. -/

abbrev ByteMap := Word → Option Byte

namespace ByteMap

variable (map : ByteMap)

def Known (address : Word) (size : Nat) : Prop :=
  ∀ k < size, (map (address + BitVec.ofNat 64 k)).isSome

instance (address : Word) (size : Nat) : Decidable (map.Known address size) :=
  inferInstanceAs (Decidable (∀ k < size, _))

def read (address : Word) (size : Nat) : Option (List Byte) :=
  if map.Known address size then
    some ((List.range size).map fun k => (map (address + BitVec.ofNat 64 k)).getD 0)
  else none

/-- The bytes of the range become what `after` gives for their distance from its start. -/
def update (address : Word) (size : Nat) (after : Nat → Option Byte) : ByteMap := fun a =>
  if (a - address).toNat < size then after (a - address).toNat else map a

def write (address : Word) (input : Nat → Byte) (size : Nat) : ByteMap :=
  map.update address size fun k => some (input k)

def forget (address : Word) (size : Nat) : ByteMap := map.update address size fun _ => none

variable {map} {address : Word} {size : Nat} {bytes : List Byte}

theorem read_eq_some_iff :
    map.read address size = some bytes ↔
      bytes.length = size ∧ ∀ k < size, map (address + BitVec.ofNat 64 k) = bytes[k]? := by
  unfold read
  constructor
  · intro found
    split_ifs at found with known
    cases found
    refine ⟨by simp, fun k below => ?_⟩
    obtain ⟨byte, held⟩ := Option.isSome_iff_exists.mp (known k below)
    simp [below, held]
  · rintro ⟨rfl, same⟩
    have known : map.Known address bytes.length := fun k below => by
      rw [same k below, List.getElem?_eq_getElem below, Option.isSome_some]
    rw [if_pos known]
    congr 1
    apply List.ext_getElem?
    intro k
    by_cases below : k < bytes.length
    · simp [same k below, below]
    · simp [below]

theorem read_eq_none (unknown : ¬ map.Known address size) : map.read address size = none :=
  if_neg unknown

end ByteMap

end Yafsml.LittleEndian
