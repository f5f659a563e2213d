import Yafsml.Foundation.ChainedXor
import Yafsml.Dearxan.Image

/-! # SteamStub

The header in front of the entry point and the strings it refers to are encrypted, each block with the
one before it. -/

namespace Yafsml.Dearxan

open LittleEndian

def steamstubHashBit (hash : BitVec 32) : BitVec 32 :=
  if hash &&& 0x80000000#32 ≠ 0 then hash <<< 1 ^^^ 0x488781ed#32 else hash <<< 1

def dearxanSteamstubHash (bytes : List Byte) (hash : BitVec 32) : BitVec 32 :=
  bytes.foldl (fun hash byte => steamstubHashBit^[8] (hash ^^^ (byte.setWidth 32 : BitVec 32) <<< 24)) hash

def dearxanSteamstubCryptStrings (bytes : List Byte) (key : Block) : List Byte × Block :=
  chainDecrypt key bytes

def steamstubEncryptStrings (bytes : List Byte) (key : Block) : List Byte × Block :=
  chainEncrypt key bytes

structure DrmpRound where
  first : BitVec 32
  second : BitVec 32
  sum : BitVec 32

instance keyWords : NeZero 4 := ⟨by decide⟩

def drmpMix (word : BitVec 32) : BitVec 32 := word + (word <<< 4 ^^^ word >>> 5)

def drmpRound (key : Fin 4 → BitVec 32) (state : DrmpRound) : DrmpRound :=
  let second := state.second -
    (drmpMix state.first ^^^ (state.sum + key (Fin.ofNat 4 (state.sum >>> 11).toNat)))
  let sum := state.sum - 0x9E3779B9#32
  ⟨state.first - (drmpMix second ^^^ (sum + key (Fin.ofNat 4 sum.toNat))), second, sum⟩

def decryptDrmp (key : Fin 4 → BitVec 32) (xor : Block × Block) : List Byte → List Byte
  | a :: b :: c :: d :: e :: f :: g :: h :: rest =>
      let first := blockOf a b c d
      let second := blockOf e f g h
      let state := (drmpRound key)^[32] ⟨first, second, 0xC6EF3720#32⟩
      blockBytes (state.first ^^^ xor.1) ++ blockBytes (state.second ^^^ xor.2)
        ++ decryptDrmp key (first, second) rest
  | short => short

def dearxanSteamstubDecryptDrmp (bytes : List Byte) (key : Fin 4 → BitVec 32) : List Byte :=
  decryptDrmp key (0x55555555#32, 0x55555555#32) bytes

def headerSize : Nat := 240

structure SteamstubHeader where
  bytes : List Byte
  size : bytes.length = headerSize
  deriving DecidableEq

namespace SteamstubHeader

theorem ext_bytes {h h' : SteamstubHeader} (same : h.bytes = h'.bytes) : h = h' := by
  cases h
  cases h'
  cases same
  rfl

variable (h : SteamstubHeader)

theorem fits {offset size : Nat} (inside : offset + size ≤ headerSize) : offset + size ≤ h.bytes.length := by
  rw [h.size]
  exact inside

def xorKey : BitVec 32 := field32 h.bytes 0
def signature : BitVec 32 := field32 h.bytes 4
def bindSectionEpOffset : BitVec 32 := field32 h.bytes 24
def steamstubEpCodeSize : BitVec 32 := field32 h.bytes 28
def originalEntryPoint : Word := field64 h.bytes 32
def stringsBindOffset : BitVec 32 := field32 h.bytes 40
def stringsDataSize : BitVec 32 := field32 h.bytes 44
def drmpDllBindOffset : BitVec 32 := field32 h.bytes 48
def drmpDllSize : BitVec 32 := field32 h.bytes 52
def drmFlags : BitVec 32 := field32 h.bytes 60
def integrityHash : BitVec 32 := field32 h.bytes 68
def drmpXteaKey (i : Fin 4) : BitVec 32 := field32 h.bytes (152 + 4 * i)

theorem size_setField32 {offset : Nat} (inside : offset + 4 ≤ headerSize) (value : BitVec 32) :
    (setField32 h.bytes offset value).length = headerSize := by
  rw [length_setField32 (h.fits inside), h.size]

theorem size_setField64 {offset : Nat} (inside : offset + 8 ≤ headerSize) (value : Word) :
    (setField64 h.bytes offset value).length = headerSize := by
  rw [length_setField64 (h.fits inside), h.size]

theorem inside_drmFlags : 60 + 4 ≤ headerSize := by decide
theorem inside_integrityHash : 68 + 4 ≤ headerSize := by decide
theorem inside_originalEntryPoint : 32 + 8 ≤ headerSize := by decide

def setDrmFlags (value : BitVec 32) : SteamstubHeader :=
  ⟨setField32 h.bytes 60 value, h.size_setField32 inside_drmFlags value⟩

def setOriginalEntryPoint (value : Word) : SteamstubHeader :=
  ⟨setField64 h.bytes 32 value, h.size_setField64 inside_originalEntryPoint value⟩

def setIntegrityHash (value : BitVec 32) : SteamstubHeader :=
  ⟨setField32 h.bytes 68 value, h.size_setField32 inside_integrityHash value⟩

theorem size_chain (next : Block → Block → Block) : (chain next 0 h.bytes).1.length = headerSize := by
  rw [length_chain, h.size]

end SteamstubHeader

/-- The key that is left is the last encrypted block. -/
def dearxanSteamstubDecryptHeader (h : SteamstubHeader) : SteamstubHeader × Block :=
  (⟨(chainDecrypt 0 h.bytes).1, h.size_chain _⟩, (chainDecrypt 0 h.bytes).2)

def steamstubEncryptHeader (h : SteamstubHeader) : SteamstubHeader × Block :=
  (⟨(chainEncrypt 0 h.bytes).1, h.size_chain _⟩, (chainEncrypt 0 h.bytes).2)

structure SteamstubImage extends DearxanImage where
  entrypointRva : BitVec 32

def SteamstubImage.entry (image : SteamstubImage) : Word := image.entrypointRva.setWidth 64

def readRva (image : DearxanImage) (rva : Word) (size : Nat) : Option (List Byte) :=
  (dearxanImageRead (some image) (image.baseVa + rva) size).map (·.take size)

theorem length_of_readRva {image : DearxanImage} {rva : Word} {size : Nat} {bytes : List Byte}
    (found : readRva image rva size = some bytes) : bytes.length = size := by
  unfold readRva dearxanImageRead at found
  simp only at found
  split_ifs at found with outside short shorter
  · cases found
  · cases found
  · cases found
  · cases found
    rw [List.length_take, List.length_drop]
    omega

def align16 (value : Nat) : Nat := if sizeMax - 15 < value then sizeMax else (value + 15) / 16 * 16

/-- The encrypted parts are given by where they start in the image. -/
structure SteamstubContext where
  header : SteamstubHeader
  encryptedHeader : Nat
  encryptedStrings : Nat
  decryptedStrings : List Byte
  stringsSize : Nat
  decryptedDrmp : List Byte
  drmpSize : Nat
  deriving DecidableEq

inductive SteamstubProbeResult where
  | absent
  | present (context : SteamstubContext)
  | error
  deriving DecidableEq

def steamstubSignature : BitVec 32 := 0xC0DEC0DF#32

def bindRva (image : SteamstubImage) (header : SteamstubHeader) (offset : BitVec 32) : Word :=
  image.entry - header.bindSectionEpOffset.setWidth 64 + offset.setWidth 64

def probeContents (malloc : Nat → Bool) (image : SteamstubImage) (header : SteamstubHeader) (key : Block)
    (headerRva : Word) : SteamstubProbeResult :=
  let stringsSize := align16 header.stringsDataSize.toNat
  let drmpSize := header.drmpDllSize.toNat
  let stringsRva := bindRva image header header.stringsBindOffset
  let drmpRva := bindRva image header header.drmpDllBindOffset
  if stringsSize = sizeMax then .error
  else if image.entrypointRva < header.bindSectionEpOffset then .error
  else if 0xFFFFFFFF#64 < stringsRva ∨ 0xFFFFFFFF#64 < drmpRva then .error
  else
    match readRva image.toDearxanImage stringsRva stringsSize,
        readRva image.toDearxanImage drmpRva drmpSize with
    | some strings, some drmp =>
        if (stringsSize ≠ 0 ∧ malloc stringsSize = false) ∨ (drmpSize ≠ 0 ∧ malloc drmpSize = false) then
          .error
        else
          .present
            { header, encryptedHeader := headerRva.toNat, encryptedStrings := stringsRva.toNat
              decryptedStrings := (dearxanSteamstubCryptStrings strings key).1, stringsSize
              decryptedDrmp := dearxanSteamstubDecryptDrmp drmp header.drmpXteaKey, drmpSize }
    | _, _ => .error

def dearxanSteamstubProbe (malloc : Nat → Bool) (image : SteamstubImage) : SteamstubProbeResult :=
  if image.entrypointRva < 240#32 then .absent
  else
    let headerRva := image.entry - 240#64
    match found : readRva image.toDearxanImage headerRva headerSize with
    | none => .error
    | some bytes =>
        let encrypted : SteamstubHeader := ⟨bytes, length_of_readRva found⟩
        if encrypted.xorKey ^^^ encrypted.signature ≠ steamstubSignature then .absent
        else
          let (header, key) := dearxanSteamstubDecryptHeader encrypted
          probeContents malloc image header key headerRva

structure PatchGrants where
  stringsBuffer : Bool
  headerWrite : Bool
  stringsWrite : Bool

def noChecks : BitVec 32 := 1#32 <<< 1 ||| 1#32 <<< 4 ||| 1#32 <<< 5

def disableChecks (image : SteamstubImage) (header : SteamstubHeader) (replacement : Word) :
    SteamstubHeader :=
  ((header.setDrmFlags (header.drmFlags ||| noChecks)).setOriginalEntryPoint
    (replacement - image.baseVa)).setIntegrityHash 0

def patchedHash (strings : List Byte) (header : SteamstubHeader) (code drmp : List Byte) : BitVec 32 :=
  let hash := dearxanSteamstubHash strings 0
  let hash := dearxanSteamstubHash header.bytes hash
  let hash := dearxanSteamstubHash code hash
  dearxanSteamstubHash drmp hash

def SteamstubImage.overwrite (image : SteamstubImage) (start : Nat) (data : List Byte) : SteamstubImage :=
  { image with bytes := LittleEndian.overwrite image.bytes start data }

/-- The result, with the image and the context as they are left. -/
def dearxanSteamstubPatch (grants : PatchGrants) (image : SteamstubImage) (context : SteamstubContext)
    (replacement : Word) : Bool × SteamstubImage × SteamstubContext :=
  let header := disableChecks image context.header replacement
  let codeSize := align16 header.steamstubEpCodeSize.toNat
  if codeSize = sizeMax then (false, image, { context with header })
  else
    match readRva image.toDearxanImage image.entry codeSize with
    | none => (false, image, { context with header })
    | some code =>
        let header := header.setIntegrityHash
          (patchedHash context.decryptedStrings header code context.decryptedDrmp)
        let context' := { context with header }
        let (encrypted, key) := steamstubEncryptHeader header
        if context.stringsSize ≠ 0 ∧ grants.stringsBuffer = false then (false, image, context')
        else
          let strings := (steamstubEncryptStrings context.decryptedStrings key).1
          if grants.headerWrite = false then (false, image, context')
          else
            let image := image.overwrite context.encryptedHeader encrypted.bytes
            if context.stringsSize = 0 then (true, image, context')
            else if grants.stringsWrite = false then (false, image, context')
            else (true, image.overwrite context.encryptedStrings strings, context')

end Yafsml.Dearxan
