import Yafsml.Dearxan.Image
import Yafsml.Foundation.ChainedXor

/-! # The base relocations of an image -/

namespace Yafsml.Dearxan

open LittleEndian

def word16At (bytes : List Byte) (offset : Nat) : Nat :=
  (bytes.getD offset 0).toNat + 256 * (bytes.getD (offset + 1) 0).toNat

def word32At (bytes : List Byte) (offset : Nat) : Nat := (field32 bytes offset).toNat

def sizeofDosHeader : Nat := 64

def sizeofNtHeaders64 : Nat := 264

/-- `image_headers`, where the size of the image is known: the offset of the NT headers. -/
def imageNtHeaders (bytes : List Byte) : Option Nat :=
  if bytes.length < sizeofDosHeader then none
  else if word16At bytes 0 ≠ 0x5A4D || (field32 bytes 60).toInt ≤ 0 then none
  else
    let ntOffset := word32At bytes 60
    if bytes.length < ntOffset || bytes.length - ntOffset < sizeofNtHeaders64 then none
    else if word32At bytes ntOffset = 0x4550 && word16At bytes (ntOffset + 24) = 0x20B then some ntOffset
    else none

/-- `IMAGE_DIRECTORY_ENTRY_BASERELOC`: its address and size. -/
def relocationDirectory (bytes : List Byte) (ntOffset : Nat) : Nat × Nat :=
  (word32At bytes (ntOffset + 176), word32At bytes (ntOffset + 180))

def imageRelBasedDir64 : Nat := 10

/-- The entries of a block of the address `page` that are 64-bit relocations. -/
def blockRelocations (bytes : List Byte) (page entries count : Nat) : List Nat :=
  ((List.range count).map fun i => word16At bytes (entries + 2 * i)).filterMap fun entry =>
    if entry / 2 ^ 12 = imageRelBasedDir64 then some ((page + entry % 2 ^ 12) % 2 ^ 32) else none

/-- The blocks of the directory from `offset` on. -/
def relocationBlocks (bytes : List Byte) (directory size offset : Nat) : Option (List Nat) :=
  if _more : offset < size then
    if _cut : size - offset < 8 then none
    else
      let block := directory + offset
      let blockSize := word32At bytes (block + 4)
      if _bad : blockSize < 8 ∨ size - offset < blockSize ∨ (blockSize - 8) % 2 ≠ 0 then none
      else
        (relocationBlocks bytes directory size (offset + blockSize)).map fun rest =>
          blockRelocations bytes (word32At bytes block) (block + 8) ((blockSize - 8) / 2) ++ rest
  else if offset = size then some []
  else none
termination_by size - offset
decreasing_by
  show size - (offset + blockSize) < size - offset
  omega

/-- What `dearxan_image_for_each_relocation64` calls back with when every call succeeds. -/
def dearxanImageForEachRelocation64 (image : DearxanImage) : Option (List Nat) :=
  match imageNtHeaders image.bytes with
  | none => none
  | some ntOffset =>
      let (address, size) := relocationDirectory image.bytes ntOffset
      if address = 0 || size = 0 then some []
      else if image.bytes.length ≤ address || image.bytes.length - address < size then none
      else relocationBlocks image.bytes address size 0

end Yafsml.Dearxan
