import Mathlib.Tactic.Ring
import Yafsml.Foundation.LittleEndian

/-! # Numbers in base 128

Seven bits a byte, the lowest first; every byte but the last has its high bit set. -/

namespace Yafsml.Leb128

open LittleEndian

/-- A number has longer spellings than its shortest one. -/
inductive Spells : List Byte → Nat → Prop
  | last {b : Byte} (ends : b.toNat < 128) : Spells [b] b.toNat
  | more {b : Byte} {rest : List Byte} {value : Nat} (continues : 128 ≤ b.toNat)
      (tail : Spells rest value) : Spells (b :: rest) (b.toNat % 128 + 128 * value)

def encode (n : Nat) : List Byte :=
  if n < 128 then [BitVec.ofNat 8 n] else BitVec.ofNat 8 (n % 128 + 128) :: encode (n / 128)

theorem Spells.pos {spelling : List Byte} {value : Nat} (spells : Spells spelling value) :
    0 < spelling.length := by
  cases spells with
  | last ends => exact Nat.one_pos
  | more continues tail => exact Nat.succ_pos _

theorem toNat_ofNat_byte {n : Nat} (below : n < 256) : (BitVec.ofNat 8 n).toNat = n := by
  rw [BitVec.toNat_ofNat, Nat.mod_eq_of_lt below]

theorem encode_spells (n : Nat) : Spells (encode n) n := by
  induction n using Nat.strongRecOn with
  | ind n ih =>
      rw [encode]
      split
      · rename_i small
        have byte := toNat_ofNat_byte (show n < 256 by omega)
        have spells := Spells.last (b := BitVec.ofNat 8 n) (by omega)
        rwa [byte] at spells
      · rename_i large
        have byte := toNat_ofNat_byte (show n % 128 + 128 < 256 by omega)
        have spells := Spells.more (b := BitVec.ofNat 8 (n % 128 + 128)) (by omega)
          (ih (n / 128) (by omega))
        rwa [byte, show (n % 128 + 128) % 128 + 128 * (n / 128) = n by omega] at spells

theorem length_encode {n : Nat} : ∀ {k : Nat}, n < 128 ^ (k + 1) → (encode n).length ≤ k + 1 := by
  intro k
  induction k generalizing n with
  | zero =>
      intro below
      rw [encode, if_pos (by omega)]
      exact Nat.le_refl 1
  | succ k ih =>
      intro below
      rw [encode]
      split
      · exact Nat.succ_le_succ (Nat.zero_le _)
      · rw [Nat.pow_succ] at below
        have shorter := ih (show n / 128 < 128 ^ (k + 1) by omega)
        rw [List.length_cons]
        omega

/-- A number below `2 ^ bits`, in as many bytes as have a bit below `bits` from `shift` on. -/
def Fits (bits shift : Nat) (result : Nat) (spelling : List Byte) (value : Nat) : Prop :=
  Spells spelling value ∧ shift + 7 * (spelling.length - 1) < bits ∧
    result + value * 2 ^ shift < 2 ^ bits

theorem fits_more {bits shift result value : Nat} {b : Byte} {rest : List Byte}
    (continues : 128 ≤ b.toNat) (nonempty : 0 < rest.length) :
    Fits bits shift result (b :: rest) (b.toNat % 128 + 128 * value) ↔
      Fits bits (shift + 7) (result + b.toNat % 128 * 2 ^ shift) rest value := by
  have sum : result + (b.toNat % 128 + 128 * value) * 2 ^ shift =
      result + b.toNat % 128 * 2 ^ shift + value * 2 ^ (shift + 7) := by
    rw [Nat.pow_add]
    ring
  have spelled : Spells (b :: rest) (b.toNat % 128 + 128 * value) ↔ Spells rest value := by
    refine ⟨fun spells => ?_, fun spells => .more continues spells⟩
    generalize named : b.toNat % 128 + 128 * value = whole at spells
    cases spells with
    | last ends => exact absurd continues (Nat.not_le.mpr ends)
    | more continues tail =>
        rename_i value'
        obtain rfl : value' = value := by omega
        exact tail
  rw [Fits, Fits, sum, spelled, List.length_cons]
  constructor
  · rintro ⟨spells, short, small⟩
    exact ⟨spells, by omega, small⟩
  · rintro ⟨spells, short, small⟩
    exact ⟨spells, by omega, small⟩

end Yafsml.Leb128
