import Yafsml.Foundation.Base64
import Yafsml.Foundation.Buffer
import Yafsml.Foundation.Der
import Yafsml.Foundation.Returns

/-!
# The block size of an RSA key

A computation gives nothing where it reads or writes outside of a buffer.
-/

namespace Yafsml.Patches.AssetSig

open Foundation

def letters (s : String) : List UInt8 := s.toList.map fun c => c.toNat.toUInt8

def beginMarker : List UInt8 := letters "-----BEGIN RSA PUBLIC KEY-----"

def pemEnd : List UInt8 := letters "-----END RSA PUBLIC KEY-----"

def base64Value (value : UInt8) : Int :=
  if 65 ≤ value ∧ value ≤ 90 then value.toNat - 65
  else if 97 ≤ value ∧ value ≤ 122 then value.toNat - 97 + 26
  else if 48 ≤ value ∧ value ≤ 57 then value.toNat - 48 + 52
  else if value = 43 then 62
  else if value = 47 then 63
  else -1

/-- What the loop over the text between the markers changes. -/
structure Base64Decoder where
  der : List UInt8
  derLength : Nat
  accumulator : Nat
  bits : Nat
deriving DecidableEq, Repr

def Base64Decoder.next (d : Base64Decoder) (c : UInt8) : Option Base64Decoder :=
  let value := base64Value c
  if value < 0 then some d
  else
    let accumulator := (d.accumulator <<< 6) % 2 ^ 32 ||| value.toNat
    let bits := d.bits + 6
    if 8 ≤ bits then
      (Buffer.put d.der d.derLength (UInt8.ofNat (accumulator >>> (bits - 8)))).map fun der =>
        ⟨der, d.derLength + 1, accumulator &&& ((1 <<< (bits - 8)) - 1), bits - 8⟩
    else some ⟨d.der, d.derLength, accumulator, bits⟩

/-- The loop over `count` characters from `i` on. -/
def decodeText (pem : List UInt8) : Nat → Nat → Base64Decoder → Option Base64Decoder
  | 0, _, d => some d
  | count + 1, i, d => do
      let c ← pem[i]?
      let d ← d.next c
      decodeText pem count (i + 1) d

def readBytes (der : List UInt8) : Nat → Nat → Nat → Option (Nat × Nat)
  | 0, cursor, value => some (value, cursor)
  | count + 1, cursor, value => do
      let byte ← der[cursor]?
      readBytes der count (cursor + 1) ((value <<< 8) % 2 ^ 64 ||| byte.toNat)

def derReadLength (der : List UInt8) (cursor stop : Nat) : Option (Option (Nat × Nat)) :=
  if stop ≤ cursor then some none
  else do
    let first ← der[cursor]?
    if first.toNat &&& 0x80 = 0 then some (some (first.toNat, cursor + 1))
    else
      let bytes := first.toNat &&& 0x7f
      if bytes = 0 ∨ 8 < bytes ∨ stop - (cursor + 1) < bytes then some none
      else (readBytes der bytes (cursor + 1) 0).map some

/-- `modulus_length > 1 && cursor[0] == 0` -/
def leadingZero (der : List UInt8) (cursor modulusLength : Nat) : Option Bool :=
  if 1 < modulusLength then (der[cursor]?).map (· == 0) else some false

def parseModulus (der : List UInt8) (cursor sequenceEnd : Nat) : Option (Option Nat) :=
  if sequenceEnd ≤ cursor then some none
  else do
    let tag ← der[cursor]?
    if tag ≠ 0x02 then some none
    else
      match ← derReadLength der (cursor + 1) sequenceEnd with
      | none => some none
      | some (modulusLength, cursor) =>
          if modulusLength = 0 ∨ sequenceEnd - cursor < modulusLength then some none
          else
            (leadingZero der cursor modulusLength).map fun signed =>
              let blockSize := modulusLength - if signed then 1 else 0
              if blockSize ≠ 0 then some blockSize else none

def parseSequence (der : List UInt8) : Option (Option Nat) :=
  if der.length = 0 then some none
  else do
    let tag ← der[0]?
    if tag ≠ 0x30 then some none
    else
      match ← derReadLength der 1 der.length with
      | none => some none
      | some (sequenceLength, cursor) =>
          if der.length - cursor < sequenceLength then some none
          else parseModulus der cursor (cursor + sequenceLength)

def memcmpAt (pem marker : List UInt8) (i : Nat) : Option Bool :=
  if i + marker.length ≤ pem.length then some ((pem.drop i).take marker.length == marker) else none

/-- The loop over `count` positions from `i` on. -/
def findMarker (pem marker : List UInt8) : Nat → Nat → Option (Option Nat)
  | 0, _ => some none
  | count + 1, i => do
      if ← memcmpAt pem marker i then some (some i) else findMarker pem marker count (i + 1)

def positions (pem marker : List UInt8) (start : Nat) : Nat := pem.length + 1 - (start + marker.length)

/-- `none` for `false`, and the block size otherwise. The markers have a NUL behind them. -/
def mlAssetSigRsaBlockSize (allocate : Bool) (pem : Option (List UInt8)) (hasBlockSize : Bool) :
    Option (Option Nat) :=
  match pem with
  | none => some none
  | some pem =>
      if !hasBlockSize || pem.length < (beginMarker.length + 1) + (pemEnd.length + 1) then some none
      else do
        match ← findMarker pem beginMarker (positions pem beginMarker 0) 0 with
        | none => some none
        | some found =>
            let beginOffset := found + beginMarker.length
            match ← findMarker pem pemEnd (positions pem pemEnd beginOffset) beginOffset with
            | none => some none
            | some endOffset =>
                if !allocate then some none
                else
                  let size := endOffset - beginOffset
                  let d ← decodeText pem size beginOffset ⟨List.replicate size 0, 0, 0, 0⟩
                  parseSequence (d.der.take d.derLength)

end Yafsml.Patches.AssetSig
