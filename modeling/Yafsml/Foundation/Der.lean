import Mathlib.Data.Nat.Digits.Defs
import Mathlib.Data.Nat.Digits.Lemmas
import Mathlib.Data.Nat.Size
import Mathlib.Tactic.Common
import Mathlib.Tactic.SplitIfs

/-!
# Distinguished encoding

Positive integers and sequences of them in their shortest form, and the length fields that stand in
front of them.
-/

namespace Yafsml.Der

def bigEndian (n : Nat) : List UInt8 := ((Nat.digits 256 n).map UInt8.ofNat).reverse

def ofBigEndian (bytes : List UInt8) : Nat := bytes.foldl (fun value byte => value * 256 + byte.toNat) 0

theorem ofBigEndian_bigEndian (n : Nat) : ofBigEndian (bigEndian n) = n := by
  have digits : ∀ digits : List Nat, (∀ d ∈ digits, d < 256) →
      (digits.map UInt8.ofNat).foldr (fun byte value => value * 256 + byte.toNat) 0 =
        Nat.ofDigits 256 digits := by
    intro digits small
    induction digits with
    | nil => rfl
    | cons d rest ih =>
        have byte : (UInt8.ofNat d).toNat = d :=
          UInt8.toNat_ofNat_of_lt (small d List.mem_cons_self)
        rw [List.map_cons, List.foldr_cons, ih fun d member => small d (List.mem_cons_of_mem _ member), byte,
          Nat.ofDigits_cons, Nat.mul_comm, Nat.add_comm]
  rw [ofBigEndian, bigEndian, List.foldl_reverse, digits _ fun d member => Nat.digits_lt_base (by decide) member,
    Nat.ofDigits_digits]

def byteLength (n : Nat) : Nat := (n.size + 7) / 8

theorem length_bigEndian (n : Nat) : (bigEndian n).length = byteLength n := by
  apply eq_of_forall_ge_iff
  intro k
  have power : 256 ^ k = 2 ^ (8 * k) := by rw [Nat.pow_mul]
  rw [bigEndian, List.length_reverse, List.length_map, Nat.digits_length_le_iff (by decide), power,
    ← Nat.size_le, byteLength]
  omega

theorem bigEndian_ne_nil {n : Nat} (positive : 0 < n) : bigEndian n ≠ [] := by
  have bits : 0 < n.size := Nat.size_pos.mpr positive
  apply List.ne_nil_of_length_pos
  rw [length_bigEndian, byteLength]
  omega

theorem head_bigEndian {n : Nat} (positive : 0 < n) : (bigEndian n).head? ≠ some 0 := by
  have nonempty : Nat.digits 256 n ≠ [] := Nat.digits_ne_nil_iff_ne_zero.mpr positive.ne'
  have last := Nat.getLast_digit_ne_zero 256 positive.ne'
  have small : (Nat.digits 256 n).getLast nonempty < 256 :=
    Nat.digits_lt_base (by decide) (List.getLast_mem nonempty)
  rw [bigEndian, List.head?_reverse, List.getLast?_map, List.getLast?_eq_some_getLast nonempty, Option.map_some]
  intro zero
  have byte : (UInt8.ofNat ((Nat.digits 256 n).getLast nonempty)).toNat = (Nat.digits 256 n).getLast nonempty :=
    UInt8.toNat_ofNat_of_lt small
  exact last (byte.symm.trans (congrArg UInt8.toNat (Option.some.inj zero)))

def lengthField (n : Nat) : List UInt8 :=
  if n < 128 then [UInt8.ofNat n] else UInt8.ofNat (128 + (bigEndian n).length) :: bigEndian n

/-- The length fields that a reader with words of eight bytes understands. -/
inductive LengthField : List UInt8 → Nat → Prop
  | short {byte : UInt8} (small : byte.toNat < 128) : LengthField [byte] byte.toNat
  | long {first : UInt8} {bytes : List UInt8} (count : first.toNat = 128 + bytes.length)
      (nonempty : bytes ≠ []) (few : bytes.length ≤ 8) : LengthField (first :: bytes) (ofBigEndian bytes)

theorem lengthField_reads {n : Nat} (word : n < 2 ^ 64) : LengthField (lengthField n) n := by
  unfold lengthField
  split_ifs with small
  · have byte : (UInt8.ofNat n).toNat = n := UInt8.toNat_ofNat_of_lt (small.trans (by decide))
    have short : LengthField [UInt8.ofNat n] (UInt8.ofNat n).toNat := .short (byte.symm ▸ small)
    rwa [byte] at short
  · have few : (bigEndian n).length ≤ 8 := by
      have bits : n.size ≤ 64 := Nat.size_le.mpr word
      rw [length_bigEndian, byteLength]
      omega
    have count : (UInt8.ofNat (128 + (bigEndian n).length)).toNat = 128 + (bigEndian n).length :=
      UInt8.toNat_ofNat_of_lt (lt_of_le_of_lt (Nat.add_le_add_left few 128) (by decide))
    have long := LengthField.long count (bigEndian_ne_nil (by omega)) few
    rwa [ofBigEndian_bigEndian] at long

def integerContent (n : Nat) : List UInt8 :=
  if 128 ≤ ((bigEndian n).headD 0).toNat then 0 :: bigEndian n else bigEndian n

theorem length_integerContent {n : Nat} (positive : 0 < n) :
    integerContent n ≠ [] ∧
      (integerContent n).length -
        (if 1 < (integerContent n).length ∧ (integerContent n).head? = some 0 then 1 else 0) =
        byteLength n := by
  have nonempty := bigEndian_ne_nil positive
  unfold integerContent
  split_ifs with negative signed
  · exact ⟨List.cons_ne_nil _ _, length_bigEndian n⟩
  · refine absurd ⟨?_, rfl⟩ signed
    rw [List.length_cons]
    exact Nat.succ_lt_succ (List.length_pos_of_ne_nil nonempty)
  · rename_i signed
    exact absurd signed.2 (head_bigEndian positive)
  · exact ⟨nonempty, length_bigEndian n⟩

def element (tag : UInt8) (content : List UInt8) : List UInt8 :=
  tag :: (lengthField content.length ++ content)

def rsaPublicKey (n e : Nat) : List UInt8 :=
  element 0x30 (element 0x02 (integerContent n) ++ element 0x02 (integerContent e))

end Yafsml.Der
