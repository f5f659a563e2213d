import Mathlib.Data.List.TakeDrop
import Yafsml.Foundation.LittleEndian

/-! # Ranges of a byte string -/

namespace Yafsml.LittleEndian

structure Range where
  start : Nat
  size : Nat
  deriving DecidableEq, Repr

namespace Range

def Mem (k : Nat) (r : Range) : Prop := r.start ≤ k ∧ k < r.start + r.size

instance (k : Nat) (r : Range) : Decidable (r.Mem k) := inferInstanceAs (Decidable (_ ∧ _))

def Apart (r s : Range) : Prop := ∀ k, r.Mem k → ¬ s.Mem k

theorem Apart.symm {r s : Range} (apart : Apart r s) : Apart s r := fun k inside inside' =>
  apart k inside' inside

theorem apart_of_le {r s : Range} (before : r.start + r.size ≤ s.start) : Apart r s := by
  rintro k ⟨-, inside⟩ ⟨inside', -⟩
  omega

def read (r : Range) (bytes : List Byte) : List Byte := (bytes.drop r.start).take r.size

theorem getElem?_read (r : Range) (bytes : List Byte) (k : Nat) :
    (r.read bytes)[k]? = if k < r.size then bytes[r.start + k]? else none := by
  rw [read, List.getElem?_take]
  split_ifs
  · rw [List.getElem?_drop]
  · rfl

theorem length_read {r : Range} {bytes : List Byte} (fits : r.start + r.size ≤ bytes.length) :
    (r.read bytes).length = r.size := by
  rw [read, List.length_take, List.length_drop]
  omega

end Range

theorem Range.apart_of_or {r s : Range}
    (apart : r.start + r.size ≤ s.start ∨ s.start + s.size ≤ r.start) : r.Apart s := by
  cases apart with
  | inl before => exact Range.apart_of_le before
  | inr behind => exact (Range.apart_of_le behind).symm

/-- The bytes from `start` on are replaced. -/
def overwrite (bytes : List Byte) (start : Nat) (data : List Byte) : List Byte :=
  bytes.take start ++ data ++ bytes.drop (start + data.length)

theorem length_overwrite {bytes data : List Byte} {start : Nat}
    (fits : start + data.length ≤ bytes.length) : (overwrite bytes start data).length = bytes.length := by
  simp only [overwrite, List.length_append, List.length_take, List.length_drop]
  omega

theorem overwrite_nil (bytes : List Byte) (start : Nat) : overwrite bytes start [] = bytes := by
  simp [overwrite]

theorem getElem?_overwrite {bytes data : List Byte} {start : Nat}
    (fits : start + data.length ≤ bytes.length) (k : Nat) :
    (overwrite bytes start data)[k]?
      = if start ≤ k ∧ k < start + data.length then data[k - start]? else bytes[k]? := by
  have first : (bytes.take start).length = start := by
    rw [List.length_take]
    omega
  unfold overwrite
  by_cases before : k < start
  · rw [List.append_assoc, List.getElem?_append_left (by omega), List.getElem?_take_of_lt before]
    rw [if_neg (by omega)]
  · by_cases inside : k < start + data.length
    · rw [List.getElem?_append_left (by rw [List.length_append]; omega),
        List.getElem?_append_right (by omega), first, if_pos (by omega)]
    · rw [List.getElem?_append_right (by rw [List.length_append]; omega), if_neg (by omega),
        List.getElem?_drop, List.length_append, first]
      congr 1
      omega

theorem read_overwrite {bytes data : List Byte} {start : Nat}
    (fits : start + data.length ≤ bytes.length) :
    Range.read ⟨start, data.length⟩ (overwrite bytes start data) = data := by
  apply List.ext_getElem?
  intro k
  rw [Range.getElem?_read]
  split_ifs with inside
  · rw [getElem?_overwrite fits, if_pos (by simp only at inside ⊢; omega)]
    simp
  · exact (List.getElem?_eq_none (by simpa using inside)).symm

theorem read_overwrite_apart {bytes data : List Byte} {start : Nat} {r : Range}
    (fits : start + data.length ≤ bytes.length) (apart : r.Apart ⟨start, data.length⟩) :
    r.read (overwrite bytes start data) = r.read bytes := by
  apply List.ext_getElem?
  intro k
  rw [Range.getElem?_read, Range.getElem?_read]
  split_ifs with inside
  · rw [getElem?_overwrite fits, if_neg]
    exact apart (r.start + k) ⟨Nat.le_add_right .., Nat.add_lt_add_left inside _⟩
  · rfl

end Yafsml.LittleEndian
