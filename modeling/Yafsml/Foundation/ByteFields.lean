import Mathlib.Data.List.TakeDrop
import Mathlib.Tactic.Common
import Mathlib.Tactic.Ring
import Yafsml.Foundation.Cursor

/-!
# Fields of a record in bytes

Numbers in little-endian bytes, and records that are their fields one behind the other.
-/

namespace Yafsml.ByteFields

def ofNat : Nat → Nat → List UInt8
  | 0, _ => []
  | size + 1, value => UInt8.ofNat value :: ofNat size (value / 256)

def toNat : List UInt8 → Nat
  | [] => 0
  | byte :: rest => byte.toNat + 256 * toNat rest

@[simp]
theorem length_ofNat (size value : Nat) : (ofNat size value).length = size := by
  induction size generalizing value with
  | zero => rfl
  | succ size ih => rw [ofNat, List.length_cons, ih]

theorem toNat_ofNat {size value : Nat} (fits : value < 256 ^ size) :
    toNat (ofNat size value) = value := by
  induction size generalizing value with
  | zero =>
      have zero : value = 0 := Nat.lt_one_iff.mp fits
      rw [zero]
      rfl
  | succ size ih =>
      have rest : value / 256 < 256 ^ size := by
        rw [Nat.div_lt_iff_lt_mul (by decide)]
        rwa [pow_succ] at fits
      have lowest : (UInt8.ofNat value).toNat = value % 256 := UInt8.toNat_ofNat'
      rw [ofNat, toNat, ih rest, lowest]
      exact Nat.mod_add_div value 256

def word32 (bytes : List UInt8) : UInt32 := UInt32.ofNat (toNat bytes)

def word64 (bytes : List UInt8) : UInt64 := UInt64.ofNat (toNat bytes)

theorem word32_ofNat (value : UInt32) : word32 (ofNat 4 value.toNat) = value := by
  have fits : value.toNat < 256 ^ 4 := value.toNat_lt
  rw [word32, toNat_ofNat fits, UInt32.ofNat_toNat]

theorem word64_ofNat (value : UInt64) : word64 (ofNat 8 value.toNat) = value := by
  have fits : value.toNat < 256 ^ 8 := value.toNat_lt
  rw [word64, toNat_ofNat fits, UInt64.ofNat_toNat]

theorem slice_flatten {fields after : List (List UInt8)} {field : List UInt8} {offset size : Nat}
    (before : List (List UInt8)) (split : fields = before ++ field :: after)
    (start : before.flatten.length = offset) (length : field.length = size) :
    Cursor.slice fields.flatten offset size = field := by
  subst split start length
  rw [Cursor.slice, List.flatten_append, List.flatten_cons, List.drop_left, List.take_left]

end Yafsml.ByteFields
