import Mathlib.Data.List.TakeDrop
import Mathlib.Tactic.Common

/-!
# Cursors over a sequence

The elements a read delivers, and the moves of a position by a signed distance. A position may lie
behind the end of the sequence, but not behind `limit`.
-/

namespace Yafsml.Cursor

variable {α : Type*}

/-- The elements at `offset`, at most `size` of them. -/
def slice (data : List α) (offset size : Nat) : List α := (data.drop offset).take size

@[simp]
theorem length_slice (data : List α) (offset size : Nat) :
    (slice data offset size).length = min size (data.length - offset) := by
  rw [slice, List.length_take, List.length_drop]

@[simp]
theorem slice_zero (data : List α) (offset : Nat) : slice data offset 0 = [] := List.take_zero

theorem slice_past {data : List α} {offset : Nat} (past : data.length ≤ offset) (size : Nat) :
    slice data offset size = [] := by
  rw [slice, List.drop_eq_nil_of_le past, List.take_nil]

theorem slice_clip (data : List α) (offset size : Nat) :
    slice data offset (min size (data.length - offset)) = slice data offset size := by
  rw [slice, slice, List.take_eq_take_iff, List.length_drop]
  omega

theorem slice_append (data : List α) (offset size more : Nat) :
    slice data offset size ++ slice data (offset + size) more =
      slice data offset (size + more) := by
  rw [slice, slice, slice, List.take_add, List.drop_drop]

theorem slice_resume (data : List α) (offset size more : Nat) :
    slice data offset size ++ slice data (offset + (slice data offset size).length) more =
      slice data offset (size + more) := by
  rw [length_slice]
  rcases Nat.le_total size (data.length - offset) with inside | beyond
  · rw [Nat.min_eq_left inside, slice_append]
  · have past : data.length ≤ offset + (data.length - offset) := by omega
    rw [Nat.min_eq_right beyond, slice_past past, List.append_nil, ← slice_clip, Nat.min_eq_right beyond,
      ← slice_clip data offset (size + more), Nat.min_eq_right (by omega)]

/-- Where `distance` leads from `base`. -/
def move (limit base : Nat) (distance : Int) : Option Nat :=
  if 0 ≤ base + distance ∧ base + distance ≤ limit then some (base + distance).toNat else none

theorem move_le {limit base next : Nat} {distance : Int}
    (moved : move limit base distance = some next) : next ≤ limit := by
  unfold move at moved
  split at moved
  · cases moved
    omega
  · cases moved

theorem move_back {limit base distance : Nat} (within : distance ≤ base) (bounded : base ≤ limit) :
    move limit base (-distance) = some (base - distance) := by
  rw [move, if_pos (by omega), Option.some.injEq]
  omega

theorem move_forth {limit base distance : Nat} (room : distance ≤ limit - base)
    (bounded : base ≤ limit) : move limit base distance = some (base + distance) := by
  rw [move, if_pos (by omega), Option.some.injEq]
  omega

theorem move_before {limit base : Nat} {distance : Int} (negative : base + distance < 0) :
    move limit base distance = none := if_neg (by omega)

theorem move_beyond {limit base : Nat} {distance : Int} (beyond : (limit : Int) < base + distance) :
    move limit base distance = none := if_neg (by omega)

end Yafsml.Cursor
