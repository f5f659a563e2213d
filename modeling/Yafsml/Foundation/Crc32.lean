import Mathlib.Tactic.Common

/-! # The CRC of ZIP archives -/

namespace Yafsml.Crc32

def crcTable (byte : UInt32) : UInt32 :=
  (List.range 8).foldl (fun c _ => if c &&& 1 = 1 then (c >>> 1) ^^^ 0xEDB88320 else c >>> 1) byte

def absorb (crc : UInt32) (byte : UInt8) : UInt32 :=
  (crc >>> 8) ^^^ crcTable ((crc ^^^ byte.toUInt32) &&& 0xFF)

def mzCrc32 (crc : UInt32) (bytes : List UInt8) : UInt32 :=
  ~~~ (bytes.foldl absorb (crc ^^^ 0xFFFFFFFF))

theorem xor_ones (x : UInt32) : x ^^^ 0xFFFFFFFF = ~~~x := UInt32.xor_neg_one

@[simp]
theorem mzCrc32_nil (crc : UInt32) : mzCrc32 crc [] = crc := by
  rw [mzCrc32, List.foldl_nil, xor_ones, UInt32.not_not]

theorem mzCrc32_append (crc : UInt32) (bytes more : List UInt8) :
    mzCrc32 crc (bytes ++ more) = mzCrc32 (mzCrc32 crc bytes) more := by
  rw [mzCrc32, mzCrc32, mzCrc32, List.foldl_append, xor_ones (~~~ _), UInt32.not_not]

example : mzCrc32 (mzCrc32 0 [0x31]) [0x32, 0x33] = 0x884863D2 := by decide +kernel

end Yafsml.Crc32
