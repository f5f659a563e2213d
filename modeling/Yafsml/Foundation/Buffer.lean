import Mathlib.Data.List.Basic

/-!
# Buffers

Writes into a block of fixed size. A write outside of the block has no result.
-/

namespace Yafsml.Foundation.Buffer

variable {α : Type*}

def put (block : List α) (i : Nat) (a : α) : Option (List α) :=
  if i < block.length then some (block.set i a) else none

/-- Write a text from `i` on; also the position behind it. -/
def putAll (block : List α) (i : Nat) : List α → Option (List α × Nat)
  | [] => some (block, i)
  | a :: rest => (put block i a).bind fun block => putAll block (i + 1) rest

theorem put_of_lt {block : List α} {i : Nat} (room : i < block.length) (a : α) :
    ∃ written, put block i a = some written ∧ written.length = block.length ∧
      written.take (i + 1) = block.take i ++ [a] := by
  refine ⟨block.set i a, if_pos room, List.length_set, ?_⟩
  rw [List.take_add_one, List.take_set_of_le (Nat.le_refl i), List.getElem?_set_self room]
  rfl

theorem putAll_of_room {block : List α} {i : Nat} {text : List α}
    (room : i + text.length ≤ block.length) :
    ∃ written, putAll block i text = some (written, i + text.length) ∧
      written.length = block.length ∧
      written.take (i + text.length) = block.take i ++ text := by
  induction text generalizing block i with
  | nil => exact ⟨block, rfl, rfl, by simp⟩
  | cons a rest ih =>
      rw [List.length_cons] at room
      obtain ⟨first, wrote, length, front⟩ := put_of_lt (by omega : i < block.length) a
      obtain ⟨written, wrote_rest, length_rest, whole⟩ :=
        ih (by omega : i + 1 + rest.length ≤ first.length)
      have position : i + 1 + rest.length = i + (rest.length + 1) := by omega
      rw [position] at wrote_rest whole
      refine ⟨written, ?_, length_rest.trans length, ?_⟩
      · rw [putAll, wrote, Option.bind_some, List.length_cons]
        exact wrote_rest
      · rw [List.length_cons, whole, front, List.append_assoc, List.singleton_append]

end Yafsml.Foundation.Buffer
