import Mathlib.Algebra.GroupWithZero.Nat
import Yafsml.Foundation.ArrayMemory
import Yafsml.Patches.DlDevice

/-!
# The game's vectors

A vector object is four words in one of two orders. Its items are in memory from `first` to `last`,
with room up to `end`.
-/

namespace Yafsml.Patches

open ArrayMemory

def sizeMax : Nat := 2 ^ 64 - 1

inductive StlAbi where
  | msvc2012
  | msvc2015
deriving DecidableEq, Repr

/-- `ml_dl_vector_t`, as its words lie in memory. -/
structure RawVector where
  word0 : Nat
  word1 : Nat
  word2 : Nat
  word3 : Nat
deriving DecidableEq, Repr

structure VectorFields where
  allocator : Nat
  first : Nat
  last : Nat
  finish : Nat
deriving DecidableEq, Repr

def vectorFields (abi : StlAbi) (vector : RawVector) : VectorFields :=
  match abi with
  | .msvc2012 => ⟨vector.word3, vector.word0, vector.word1, vector.word2⟩
  | .msvc2015 => ⟨vector.word0, vector.word1, vector.word2, vector.word3⟩

def vectorSet (abi : StlAbi) (vector : RawVector) (first last finish : Nat) : RawVector :=
  match abi with
  | .msvc2012 => { vector with word0 := first, word1 := last, word2 := finish }
  | .msvc2015 => { vector with word1 := first, word2 := last, word3 := finish }

@[simp] theorem vectorFields_vectorSet (abi : StlAbi) (vector : RawVector) (first last finish : Nat) :
    vectorFields abi (vectorSet abi vector first last finish) =
      ⟨(vectorFields abi vector).allocator, first, last, finish⟩ := by
  cases abi <;> rfl

def mlDlVectorCount (vector : RawVector) (abi : StlAbi) (itemSize : Nat) : Nat :=
  let fields := vectorFields abi vector
  if fields.first ≤ fields.last ∧ (fields.last - fields.first) % itemSize = 0 then
    (fields.last - fields.first) / itemSize
  else 0

/-- What `vector_valid` checks, of addresses; a vector without memory is empty. -/
structure VectorValid (abi : StlAbi) (vector : RawVector) : Prop where
  ordered : (vectorFields abi vector).first ≤ (vectorFields abi vector).last ∧
    (vectorFields abi vector).last ≤ (vectorFields abi vector).finish
  bounded : (vectorFields abi vector).finish ≤ sizeMax
  null : (vectorFields abi vector).first = 0 → (vectorFields abi vector).finish = 0

structure GameVector (α : Type) where
  vector : RawVector
  memory : Nat → α

/-- `allocate_aligned` of the allocator in a vector, by the number of bytes. -/
structure GameAllocator where
  allocate : Nat → Option Nat
  inside : ∀ bytes address, allocate bytes = some address → 0 < address ∧ address + bytes ≤ sizeMax

def GameAllocator.grants (allocator : GameAllocator) (itemSize wanted : Nat) : Bool :=
  decide (wanted ≤ sizeMax / itemSize) && (allocator.allocate (wanted * itemSize)).isSome

namespace GameVector

variable {α : Type} (abi : StlAbi) (itemSize : Nat) (v : GameVector α)

def count : Nat := mlDlVectorCount v.vector abi itemSize

def items : List α := itemsAt v.memory itemSize (vectorFields abi v.vector).first (v.count abi itemSize)

def capacity : Nat :=
  let fields := vectorFields abi v.vector
  if fields.first = 0 ∨ fields.finish = 0 then 0 else (fields.finish - fields.first) / itemSize

def toDlVector : DlVector α := ⟨v.items abi itemSize, v.capacity abi itemSize⟩

def reserve (allocator : GameAllocator) (wanted : Nat) : Option (GameVector α) :=
  if sizeMax / itemSize < wanted then none
  else if wanted ≤ v.capacity abi itemSize then some v
  else
    let used := v.count abi itemSize
    let first := (vectorFields abi v.vector).first
    (allocator.allocate (wanted * itemSize)).map fun address =>
      { vector := vectorSet abi v.vector address (address + used * itemSize) (address + wanted * itemSize)
        memory := if used ≠ 0 ∧ first ≠ 0 then move v.memory itemSize address first used else v.memory }

/-- `vector_set` with the `first` and `end` that `vector_fields` gave. -/
def setLast (last : Nat) : GameVector α :=
  let fields := vectorFields abi v.vector
  { v with vector := vectorSet abi v.vector fields.first last fields.finish }

/-- The loop of `ml_dl_device_extract_new` over a vector, and its new end. -/
def extract (wanted : α → Bool) (taken : List α) : GameVector α × List α :=
  let first := (vectorFields abi v.vector).first
  let count := v.count abi itemSize
  let swept := sweep wanted itemSize first count ⟨v.memory, count, taken⟩
  let last := if first = 0 then 0 else first + swept.count * itemSize
  ({ v with memory := swept.memory }.setLast abi last, swept.taken)

/-- The loop of `ml_dl_device_push_mounts_permanent` over a vector with enough room, and its new end. -/
def append (pushed : List α) : GameVector α :=
  let first := (vectorFields abi v.vector).first
  let count := v.count abi itemSize
  { v with memory := store v.memory itemSize (first + count * itemSize) pushed }.setLast abi
    (first + (count + pushed.length) * itemSize)

variable {abi itemSize v}

@[simp] theorem length_items : (v.items abi itemSize).length = v.count abi itemSize := length_itemsAt _

theorem count_mul_le (itemSize : Nat) (valid : VectorValid abi v.vector) :
    (vectorFields abi v.vector).first + v.count abi itemSize * itemSize ≤ (vectorFields abi v.vector).finish := by
  obtain ⟨lower, upper⟩ := valid.ordered
  unfold count mlDlVectorCount
  dsimp only
  split_ifs
  · have := Nat.div_mul_le_self ((vectorFields abi v.vector).last - (vectorFields abi v.vector).first) itemSize
    omega
  · omega

theorem capacity_mul_le (itemSize : Nat) (valid : VectorValid abi v.vector) :
    (vectorFields abi v.vector).first + v.capacity abi itemSize * itemSize ≤
      (vectorFields abi v.vector).finish := by
  obtain ⟨lower, upper⟩ := valid.ordered
  unfold capacity
  dsimp only
  split_ifs
  · omega
  · have := Nat.div_mul_le_self ((vectorFields abi v.vector).finish - (vectorFields abi v.vector).first) itemSize
    omega

theorem count_le_capacity (positive : 0 < itemSize) (valid : VectorValid abi v.vector) :
    v.count abi itemSize ≤ v.capacity abi itemSize := by
  have room := count_mul_le itemSize valid
  unfold capacity
  dsimp only
  split_ifs with empty
  · have finish : (vectorFields abi v.vector).finish = 0 := empty.elim valid.null id
    have none_left : v.count abi itemSize * itemSize = 0 := by omega
    exact Nat.le_of_eq ((Nat.mul_eq_zero.mp none_left).resolve_right (by omega))
  · exact (Nat.le_div_iff_mul_le positive).mpr (by omega)

theorem capacity_le (positive : 0 < itemSize) (valid : VectorValid abi v.vector) :
    v.capacity abi itemSize ≤ sizeMax / itemSize := by
  have := capacity_mul_le itemSize valid
  have := valid.bounded
  exact (Nat.le_div_iff_mul_le positive).mpr (by omega)

theorem items_of_last (positive : 0 < itemSize) {wanted : Nat}
    (at_last : (vectorFields abi v.vector).last = (vectorFields abi v.vector).first + wanted * itemSize) :
    v.items abi itemSize = itemsAt v.memory itemSize (vectorFields abi v.vector).first wanted := by
  have counted : v.count abi itemSize = wanted := by
    unfold count mlDlVectorCount
    dsimp only
    rw [at_last, Nat.add_sub_cancel_left, Nat.mul_mod_left, if_pos ⟨Nat.le_add_right .., rfl⟩,
      Nat.mul_div_cancel _ positive]
  rw [items, counted]

theorem reserve_of_room (positive : 0 < itemSize) (valid : VectorValid abi v.vector)
    (allocator : GameAllocator) {wanted : Nat} (room : wanted ≤ v.capacity abi itemSize) :
    v.reserve abi itemSize allocator wanted = some v := by
  have := capacity_le positive valid
  rw [reserve, if_neg (by omega), if_pos room]

theorem reserve_spec (positive : 0 < itemSize) (valid : VectorValid abi v.vector) {allocator : GameAllocator}
    {wanted : Nat} {grown : GameVector α} (reserved : v.reserve abi itemSize allocator wanted = some grown) :
    VectorValid abi grown.vector ∧ grown.items abi itemSize = v.items abi itemSize ∧
      wanted ≤ grown.capacity abi itemSize := by
  have count_le := count_le_capacity positive valid
  rw [reserve] at reserved
  split_ifs at reserved with huge room
  · cases reserved
    exact ⟨valid, rfl, room⟩
  · obtain ⟨address, allocated, rfl⟩ := Option.map_eq_some_iff.mp reserved
    obtain ⟨above, inside⟩ := allocator.inside _ _ allocated
    have used_le : v.count abi itemSize * itemSize ≤ wanted * itemSize := Nat.mul_le_mul_right _ (by omega)
    refine ⟨⟨?_, ?_, ?_⟩, ?_, ?_⟩
    · simp only [vectorFields_vectorSet]
      omega
    · simp only [vectorFields_vectorSet]
      exact inside
    · simp only [vectorFields_vectorSet]
      omega
    · rw [items_of_last positive (by simp only [vectorFields_vectorSet]; rfl)]
      simp only [vectorFields_vectorSet]
      split_ifs with copied
      · exact itemsAt_move positive _ _
      · have unused : v.count abi itemSize = 0 := by
          by_contra used
          have null : (vectorFields abi v.vector).first = 0 := by
            by_contra some_first
            exact copied ⟨used, some_first⟩
          have : v.capacity abi itemSize = 0 := if_pos (.inl null)
          omega
        have nothing : ∀ first, itemsAt v.memory itemSize first 0 = [] := fun _ => rfl
        rw [items, unused, nothing, nothing]
    · unfold capacity
      simp only [vectorFields_vectorSet]
      have room : (address + wanted * itemSize - address) / itemSize = wanted := by
        rw [Nat.add_sub_cancel_left, Nat.mul_div_cancel _ positive]
      rw [if_neg (by omega)]
      exact Nat.le_of_eq room.symm

theorem reserve_refines (positive : 0 < itemSize) (valid : VectorValid abi v.vector) (allocator : GameAllocator)
    (wanted : Nat) :
    (v.reserve abi itemSize allocator wanted).map (toDlVector abi itemSize) =
      vectorReserve (allocator.grants itemSize wanted) (v.toDlVector abi itemSize) wanted := by
  rw [GameAllocator.grants]
  by_cases room : wanted ≤ v.capacity abi itemSize
  · have roomy : wanted ≤ (v.toDlVector abi itemSize).capacity := room
    rw [reserve_of_room positive valid allocator room, vectorReserve, if_pos roomy]
    rfl
  · have full : ¬wanted ≤ (v.toDlVector abi itemSize).capacity := room
    rw [vectorReserve, if_neg full]
    cases reserved : v.reserve abi itemSize allocator wanted with
    | none =>
        rw [reserve, if_neg room] at reserved
        split_ifs at reserved with huge
        · simp [Nat.not_le.mpr huge]
        · simp [Option.map_eq_none_iff.mp reserved]
    | some grown =>
        obtain ⟨-, items, -⟩ := reserve_spec positive valid reserved
        rw [reserve, if_neg room] at reserved
        split_ifs at reserved with huge
        obtain ⟨address, allocated, rfl⟩ := Option.map_eq_some_iff.mp reserved
        obtain ⟨above, -⟩ := allocator.inside _ _ allocated
        rw [Option.map_some, toDlVector, items, capacity]
        simp only [vectorFields_vectorSet]
        rw [if_neg (by omega), Nat.add_sub_cancel_left, Nat.mul_div_cancel _ positive, allocated]
        simp [Nat.not_lt.mp huge, toDlVector]

theorem capacity_setLast (last : Nat) (memory : Nat → α) :
    (({ v with memory := memory } : GameVector α).setLast abi last).capacity abi itemSize =
      v.capacity abi itemSize := by
  simp only [capacity, setLast, vectorFields_vectorSet]

theorem setLast_spec (positive : 0 < itemSize) (valid : VectorValid abi v.vector) {last wanted : Nat}
    (room : wanted ≤ v.capacity abi itemSize)
    (at_last : last = (vectorFields abi v.vector).first + wanted * itemSize) (memory : Nat → α) :
    VectorValid abi (({ v with memory := memory } : GameVector α).setLast abi last).vector ∧
      (({ v with memory := memory } : GameVector α).setLast abi last).items abi itemSize =
        itemsAt memory itemSize (vectorFields abi v.vector).first wanted := by
  have fits := capacity_mul_le itemSize valid
  have inside : wanted * itemSize ≤ v.capacity abi itemSize * itemSize := Nat.mul_le_mul_right _ room
  constructor
  · constructor
    · simp only [setLast, vectorFields_vectorSet]
      omega
    · simp only [setLast, vectorFields_vectorSet]
      exact valid.bounded
    · simp only [setLast, vectorFields_vectorSet]
      exact valid.null
  · rw [items_of_last positive (by simp only [setLast, vectorFields_vectorSet]; exact at_last)]
    simp only [setLast, vectorFields_vectorSet]

theorem extract_spec (positive : 0 < itemSize) (valid : VectorValid abi v.vector) (wanted : α → Bool)
    (taken : List α) :
    VectorValid abi (v.extract abi itemSize wanted taken).1.vector ∧
      ((v.extract abi itemSize wanted taken).1.items abi itemSize, (v.extract abi itemSize wanted taken).2) =
        BackwardSweep.sweep wanted (v.items abi itemSize).length (v.items abi itemSize) taken ∧
      (v.extract abi itemSize wanted taken).1.capacity abi itemSize = v.capacity abi itemSize := by
  generalize swept : sweep wanted itemSize (vectorFields abi v.vector).first (v.count abi itemSize)
    ⟨v.memory, v.count abi itemSize, taken⟩ = result
  have count_le := count_le_capacity positive valid
  have fewer : result.count ≤ v.count abi itemSize := by
    rw [← swept]
    exact sweep_count_le ..
  have room : result.count ≤ v.capacity abi itemSize := Nat.le_trans fewer count_le
  have last : (if (vectorFields abi v.vector).first = 0 then 0
      else (vectorFields abi v.vector).first + result.count * itemSize) =
        (vectorFields abi v.vector).first + result.count * itemSize := by
    split_ifs with null
    · have : v.capacity abi itemSize = 0 := if_pos (.inl null)
      have none_left : result.count = 0 := by omega
      rw [null, none_left, Nat.zero_mul]
    · rfl
  have made : v.extract abi itemSize wanted taken = (({ v with memory := result.memory } : GameVector α).setLast abi
      ((vectorFields abi v.vector).first + result.count * itemSize), result.taken) := by
    rw [extract, swept, last]
  have spec := setLast_spec positive valid room rfl result.memory
  rw [made]
  refine ⟨spec.1, ?_, capacity_setLast ..⟩
  have items := sweep_items wanted positive (vectorFields abi v.vector).first
    ⟨v.memory, v.count abi itemSize, taken⟩ (Nat.le_refl _)
  rw [swept] at items
  rw [spec.2, items, length_items]
  rfl

theorem append_spec (positive : 0 < itemSize) (valid : VectorValid abi v.vector) {pushed : List α}
    (room : v.count abi itemSize + pushed.length ≤ v.capacity abi itemSize) :
    VectorValid abi (v.append abi itemSize pushed).vector ∧
      (v.append abi itemSize pushed).items abi itemSize = v.items abi itemSize ++ pushed ∧
      (v.append abi itemSize pushed).capacity abi itemSize = v.capacity abi itemSize := by
  have spec := setLast_spec positive valid room rfl (store v.memory itemSize
    ((vectorFields abi v.vector).first + v.count abi itemSize * itemSize) pushed)
  exact ⟨spec.1, spec.2.trans (itemsAt_store positive _ _), capacity_setLast ..⟩

theorem reserve_append (positive : 0 < itemSize) (valid : VectorValid abi v.vector) {allocator : GameAllocator}
    {pushed : List α} {grown : GameVector α}
    (reserved : v.reserve abi itemSize allocator (v.count abi itemSize + pushed.length) = some grown) :
    VectorValid abi (grown.append abi itemSize pushed).vector ∧
      (grown.append abi itemSize pushed).items abi itemSize = v.items abi itemSize ++ pushed ∧
      (grown.append abi itemSize pushed).capacity abi itemSize = grown.capacity abi itemSize := by
  obtain ⟨grown_valid, items, room⟩ := reserve_spec positive valid reserved
  have same_count : grown.count abi itemSize = v.count abi itemSize := by
    rw [← length_items, items, length_items]
  rw [← items]
  exact append_spec positive grown_valid (by rwa [same_count])

end GameVector

end Yafsml.Patches
