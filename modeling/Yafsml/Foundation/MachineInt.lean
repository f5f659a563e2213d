import Mathlib.Tactic.Common

/-!
# Checked 64-bit arithmetic

`none` is an overflow: what C leaves undefined for signed values, and a wrap-around for unsigned ones.
-/

namespace Yafsml.MachineInt

def int64Max : Nat := 0x7FFFFFFFFFFFFFFF

def int64 (x : Int) : Option Int :=
  if -0x8000000000000000 ≤ x ∧ x ≤ 0x7FFFFFFFFFFFFFFF then some x else none

def uint64 (x : Int) : Option Nat := if 0 ≤ x ∧ x < 0x10000000000000000 then some x.toNat else none

theorem int64_eq {x : Int} (lower : -0x8000000000000000 ≤ x) (upper : x ≤ 0x7FFFFFFFFFFFFFFF) :
    int64 x = some x :=
  if_pos ⟨lower, upper⟩

theorem uint64_eq {x : Int} {n : Nat} (exact : x = n) (fits : n < 0x10000000000000000) :
    uint64 x = some n := by
  subst exact
  rw [uint64, if_pos (by omega), Int.toNat_natCast]

/-- `(uint64_t)(-(distance + 1)) + 1`. -/
def magnitude (distance : Int) : Option Nat :=
  (int64 (distance + 1)).bind fun successor =>
    (int64 (-successor)).bind fun negated =>
      (uint64 negated).bind fun unsigned => uint64 (unsigned + 1)

/-- The detour over `distance + 1` reaches also the least distance, which has no opposite. -/
theorem magnitude_eq {distance : Int} {m : Nat} (negative : distance < 0)
    (lower : -0x8000000000000000 ≤ distance) (opposite : distance = -m) :
    magnitude distance = some m := by
  have successor : int64 (distance + 1) = some (distance + 1) := int64_eq (by omega) (by omega)
  have negated : int64 (-(distance + 1)) = some (-(distance + 1)) := int64_eq (by omega) (by omega)
  have unsigned : uint64 (-(distance + 1)) = some (m - 1) := uint64_eq (by omega) (by omega)
  have last : uint64 ((m - 1 : Nat) + 1) = some m := uint64_eq (by omega) (by omega)
  rw [magnitude, successor, Option.bind_some, negated, Option.bind_some, unsigned, Option.bind_some,
    last]

example : magnitude (-0x8000000000000000) = some 0x8000000000000000 := by decide

end Yafsml.MachineInt
