import Mathlib.Logic.Function.Basic
import Yafsml.Foundation.BackwardSweep

/-!
# Arrays in memory

A memory has an item at every address; an array is where its first item is, how many there are and how
far they are apart.
-/

namespace Yafsml.ArrayMemory

variable {α : Type*}

def itemsAt (memory : Nat → α) (size first count : Nat) : List α :=
  (List.range count).map fun i => memory (first + i * size)

/-- The `count` items at `source` are copied to `target`; the two may overlap. -/
def move (memory : Nat → α) (size target source count : Nat) : Nat → α := fun address =>
  if target ≤ address ∧ address < target + count * size then memory (source + (address - target))
  else memory address

def store (memory : Nat → α) (size : Nat) : Nat → List α → Nat → α
  | _, [] => memory
  | address, item :: items => store (Function.update memory address item) size (address + size) items

variable {memory : Nat → α} {size first : Nat}

@[simp] theorem length_itemsAt (count : Nat) : (itemsAt memory size first count).length = count := by
  simp [itemsAt]

theorem getElem?_itemsAt (count i : Nat) : (itemsAt memory size first count)[i]? =
    if i < count then some (memory (first + i * size)) else none := by
  rw [itemsAt, List.getElem?_map]
  split_ifs with inside
  · rw [List.getElem?_range inside, Option.map_some]
  · rw [List.getElem?_eq_none (by simpa using inside), Option.map_none]

theorem itemsAt_succ (count : Nat) : itemsAt memory size first (count + 1) =
    itemsAt memory size first count ++ [memory (first + count * size)] := by
  simp [itemsAt, List.range_succ]

theorem itemsAt_congr {memory' : Nat → α} {count : Nat}
    (same : ∀ i < count, memory' (first + i * size) = memory (first + i * size)) :
    itemsAt memory' size first count = itemsAt memory size first count := by
  apply List.map_congr_left
  intro i member
  exact same i (List.mem_range.mp member)

theorem itemsAt_move (positive : 0 < size) (target count : Nat) :
    itemsAt (move memory size target first count) size target count = itemsAt memory size first count := by
  apply List.map_congr_left
  intro i member
  have inside : i * size < count * size := Nat.mul_lt_mul_of_pos_right (List.mem_range.mp member) positive
  rw [move, if_pos ⟨Nat.le_add_right .., Nat.add_lt_add_left inside _⟩, Nat.add_sub_cancel_left]

theorem itemsAt_move_eraseIdx (positive : 0 < size) {i count : Nat} (inside : i < count) :
    itemsAt (move memory size (first + i * size) (first + (i + 1) * size) (count - (i + 1))) size first
      (count - 1) = (itemsAt memory size first count).eraseIdx i := by
  apply List.ext_getElem?
  intro j
  rw [getElem?_itemsAt, List.getElem?_eraseIdx, getElem?_itemsAt, getElem?_itemsAt]
  by_cases before : j < i
  · have lower : j * size < i * size := Nat.mul_lt_mul_of_pos_right before positive
    rw [if_pos before, if_pos (by omega), if_pos (by omega), move, if_neg (by omega)]
  · rw [if_neg before]
    by_cases present : j + 1 < count
    · obtain ⟨k, rfl⟩ := Nat.exists_eq_add_of_le (Nat.not_lt.mp before)
      have offset : (i + k) * size = i * size + k * size := Nat.add_mul ..
      have next : (i + k + 1) * size = (i + 1) * size + k * size := by
        rw [Nat.add_right_comm, Nat.add_mul]
      have moved : k * size < (count - (i + 1)) * size := Nat.mul_lt_mul_of_pos_right (by omega) positive
      rw [if_pos (by omega), if_pos present, move, if_pos (by omega)]
      congr 2
      omega
    · rw [if_neg (by omega), if_neg present]

theorem itemsAt_store (positive : 0 < size) (count : Nat) (items : List α) :
    itemsAt (store memory size (first + count * size) items) size first (count + items.length) =
      itemsAt memory size first count ++ items := by
  induction items generalizing memory count with
  | nil => simp [store]
  | cons item items ih =>
      have next : first + count * size + size = first + (count + 1) * size := by
        rw [Nat.succ_mul, Nat.add_assoc]
      have kept : itemsAt (Function.update memory (first + count * size) item) size first count =
          itemsAt memory size first count := by
        apply itemsAt_congr
        intro i below
        have : i * size < count * size := Nat.mul_lt_mul_of_pos_right below positive
        exact Function.update_of_ne (by omega) _ _
      rw [store, next, List.length_cons, Nat.add_comm items.length, ← Nat.add_assoc, ih, itemsAt_succ, kept,
        Function.update_self, List.append_assoc, List.singleton_append]

/-- What is left: the memory, the number of the items in the array, and what was taken. -/
structure Swept (α : Type*) where
  memory : Nat → α
  count : Nat
  taken : List α

/-- The loop over the array at `first` from its end; what is behind a wanted item moves over it. -/
def sweep (wanted : α → Bool) (size first : Nat) : Nat → Swept α → Swept α
  | 0, swept => swept
  | i + 1, swept =>
      let item := swept.memory (first + i * size)
      if wanted item then
        sweep wanted size first i
          { memory := move swept.memory size (first + i * size) (first + (i + 1) * size)
              (swept.count - (i + 1))
            count := swept.count - 1
            taken := item :: swept.taken }
      else sweep wanted size first i swept

theorem sweep_items (wanted : α → Bool) (positive : 0 < size) (first : Nat) {i : Nat} (swept : Swept α)
    (inside : i ≤ swept.count) :
    (itemsAt (sweep wanted size first i swept).memory size first (sweep wanted size first i swept).count,
        (sweep wanted size first i swept).taken) =
      BackwardSweep.sweep wanted i (itemsAt swept.memory size first swept.count) swept.taken := by
  induction i generalizing swept with
  | zero => rfl
  | succ i ih =>
      have item : (itemsAt swept.memory size first swept.count)[i]? =
          some (swept.memory (first + i * size)) := by
        rw [getElem?_itemsAt, if_pos (Nat.lt_of_succ_le inside)]
      rw [sweep, BackwardSweep.sweep, item]
      dsimp only
      split_ifs
      · rw [← itemsAt_move_eraseIdx positive inside]
        exact ih ⟨move swept.memory size (first + i * size) (first + (i + 1) * size)
          (swept.count - (i + 1)), swept.count - 1, swept.memory (first + i * size) :: swept.taken⟩
          (by dsimp only; omega)
      · exact ih swept (by omega)

theorem sweep_count_le (wanted : α → Bool) (i : Nat) (swept : Swept α) :
    (sweep wanted size first i swept).count ≤ swept.count := by
  induction i generalizing swept with
  | zero => exact Nat.le_refl _
  | succ i ih =>
      rw [sweep]
      split_ifs
      · exact Nat.le_trans (ih _) (Nat.sub_le ..)
      · exact ih _

end Yafsml.ArrayMemory
