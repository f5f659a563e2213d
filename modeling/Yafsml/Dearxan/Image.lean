import Yafsml.Foundation.LittleEndian

/-! # The mapped image -/

namespace Yafsml.Dearxan

open LittleEndian

def sizeMax : Nat := 2 ^ 64 - 1

/-- The bytes from the base of the image on, and the address of the base. -/
structure DearxanImage where
  bytes : List Byte
  baseVa : Word

/-- The bytes from `va` on, where the image has at least `minSize` of them. -/
def dearxanImageRead (image : Option DearxanImage) (va : Word) (minSize : Nat) :
    Option (List Byte) :=
  match image with
  | none => none
  | some image =>
      if va < image.baseVa then none
      else
        let offset := (va - image.baseVa).toNat
        if image.bytes.length < offset then none
        else if image.bytes.length - offset < minSize then none
        else some (image.bytes.drop offset)

end Yafsml.Dearxan
