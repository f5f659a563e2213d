import Mathlib.Algebra.GroupWithZero.Nat
import Mathlib.Algebra.Group.Basic
import Mathlib.Tactic.Common
import Mathlib.Tactic.SplitIfs

/-!
# Base 64

Bytes as sextets and back. The reader carries the bits that are not a byte yet.
-/

namespace Yafsml.Base64

def sextets : List UInt8 → List Nat
  | [] => []
  | [a] => [a.toNat / 4, a.toNat % 4 * 16]
  | [a, b] => [a.toNat / 4, a.toNat % 4 * 16 + b.toNat / 16, b.toNat % 16 * 4]
  | a :: b :: c :: rest =>
      a.toNat / 4 :: (a.toNat % 4 * 16 + b.toNat / 16) :: (b.toNat % 16 * 4 + c.toNat / 64) ::
        c.toNat % 64 :: sextets rest

theorem sextets_lt (bytes : List UInt8) : ∀ value ∈ sextets bytes, value < 64 := by
  fun_induction sextets bytes with
  | case1 => simp
  | case2 a =>
      have := a.toNat_lt
      simp only [List.mem_cons, List.not_mem_nil, or_false]
      omega
  | case3 a b =>
      have := a.toNat_lt
      have := b.toNat_lt
      simp only [List.mem_cons, List.not_mem_nil, or_false]
      omega
  | case4 a b c rest ih =>
      have := a.toNat_lt
      have := b.toNat_lt
      have := c.toNat_lt
      intro value member
      simp only [List.mem_cons] at member
      obtain rfl | rfl | rfl | rfl | member := member
      · omega
      · omega
      · omega
      · omega
      · exact ih value member

theorem length_sextets (bytes : List UInt8) : bytes.length ≤ (sextets bytes).length := by
  fun_induction sextets bytes with
  | case1 => exact Nat.le_refl 0
  | case2 a => exact Nat.le_succ 1
  | case3 a b => exact Nat.le_succ 2
  | case4 a b c rest ih =>
      simp only [List.length_cons]
      omega

def letter (value : Nat) : UInt8 :=
  if value < 26 then (65 + value).toUInt8
  else if value < 52 then (71 + value).toUInt8
  else if value < 62 then (value - 4).toUInt8
  else if value = 62 then 43
  else 47

/-- `value` holds the last `bits` bits. -/
structure Carry where
  bits : Nat
  value : Nat
deriving DecidableEq, Repr

structure Carry.Good (carry : Carry) : Prop where
  few : carry.bits < 8
  below : carry.value < 2 ^ carry.bits

def Carry.empty : Carry := ⟨0, 0⟩

theorem Carry.good_empty : Carry.empty.Good := ⟨by decide, by decide⟩

def Carry.feed (carry : Carry) (sextet : Nat) : Carry × Option UInt8 :=
  let value := carry.value * 64 + sextet
  let bits := carry.bits + 6
  if 8 ≤ bits then (⟨bits - 8, value % 2 ^ (bits - 8)⟩, some (UInt8.ofNat (value / 2 ^ (bits - 8))))
  else (⟨bits, value⟩, none)

theorem Carry.Good.feed {carry : Carry} (good : carry.Good) {sextet : Nat} (small : sextet < 64) :
    (carry.feed sextet).1.Good := by
  have value : carry.value * 64 + sextet < 2 ^ (carry.bits + 6) := by
    have below := good.below
    rw [Nat.pow_add]
    omega
  unfold Carry.feed
  dsimp only
  split_ifs with enough
  · have few := good.few
    exact ⟨by simp only; omega, Nat.mod_lt _ (Nat.two_pow_pos _)⟩
  · exact ⟨Nat.not_le.mp enough, value⟩

def read : Carry → List Nat → List UInt8
  | _, [] => []
  | carry, sextet :: rest => (carry.feed sextet).2.toList ++ read (carry.feed sextet).1 rest

theorem ofNat_eq {value : Nat} {byte : UInt8} (same : value = byte.toNat) : UInt8.ofNat value = byte := by
  rw [same, UInt8.ofNat_toNat]

section Group

variable {a b c : UInt8} {value : Nat} (rest : List Nat)

theorem read_first : read .empty (a.toNat / 4 :: rest) = read ⟨6, a.toNat / 4⟩ rest := by
  rw [read, Carry.feed]
  simp [Carry.empty]

theorem read_second (small : value < 16) :
    read ⟨6, a.toNat / 4⟩ ((a.toNat % 4 * 16 + value) :: rest) = a :: read ⟨4, value⟩ rest := by
  have byte : UInt8.ofNat ((a.toNat / 4 * 64 + (a.toNat % 4 * 16 + value)) / 16) = a := ofNat_eq (by omega)
  have left : (a.toNat / 4 * 64 + (a.toNat % 4 * 16 + value)) % 16 = value := by omega
  simp [read, Carry.feed, byte, left]

theorem read_third (small : value < 4) :
    read ⟨4, b.toNat / 16⟩ ((b.toNat % 16 * 4 + value) :: rest) = b :: read ⟨2, value⟩ rest := by
  have byte : UInt8.ofNat ((b.toNat / 16 * 64 + (b.toNat % 16 * 4 + value)) / 4) = b := ofNat_eq (by omega)
  have left : (b.toNat / 16 * 64 + (b.toNat % 16 * 4 + value)) % 4 = value := by omega
  simp [read, Carry.feed, byte, left]

theorem read_fourth : read ⟨2, c.toNat / 64⟩ (c.toNat % 64 :: rest) = c :: read .empty rest := by
  have byte : UInt8.ofNat (c.toNat / 64 * 64 + c.toNat % 64) = c := ofNat_eq (by omega)
  simp [read, Carry.feed, Carry.empty, byte, Nat.mod_one]

end Group

theorem read_sextets (bytes : List UInt8) : read .empty (sextets bytes) = bytes := by
  fun_induction sextets bytes with
  | case1 => rfl
  | case2 a =>
      rw [read_first]
      exact read_second [] (by decide : 0 < 16)
  | case3 a b =>
      have small : b.toNat / 16 < 16 := by
        have := b.toNat_lt
        omega
      rw [read_first, read_second _ small]
      exact congrArg (a :: ·) (read_third [] (by decide : 0 < 4))
  | case4 a b c rest ih =>
      have small_b : b.toNat / 16 < 16 := by
        have := b.toNat_lt
        omega
      have small_c : c.toNat / 64 < 4 := by
        have := c.toNat_lt
        omega
      rw [read_first, read_second _ small_b, read_third _ small_c, read_fourth, ih]

end Yafsml.Base64
