import Mathlib.Data.List.Sort
import Yafsml.Dearxan.Image

/-! # Encrypted regions

The lists of regions that the stubs decrypt: how they are parsed, and which of them are kept when
several lists claim the same bytes. -/

namespace Yafsml.Dearxan

open LittleEndian

structure EncryptedRegion where
  streamOffset : Nat
  size : Nat
  rva : Nat
  deriving DecidableEq, Repr

structure EncryptedRegionList where
  regions : List EncryptedRegion
  decryptedStream : List Byte
  deriving DecidableEq, Repr

def EncryptedRegion.finish (region : EncryptedRegion) : Nat := (region.rva + region.size) % 2 ^ 64

def uint32Max : Nat := 2 ^ 32 - 1

def readVarint (shift result : Nat) : List Byte → Option (Nat × List Byte)
  | [] => none
  | byte :: rest =>
      let payload := byte.toNat % 128
      if 32 ≤ shift ∨ (payload ≠ 0 ∧ uint32Max / 2 ^ shift < payload) then none
      else
        let payload := payload * 2 ^ shift
        if uint32Max - payload < result then none
        else if byte.toNat < 128 then some (result + payload, rest)
        else readVarint (shift + 7) (result + payload) rest

def dearxanReadVarint (bytes : List Byte) : Option (Nat × List Byte) := readVarint 0 0 bytes

/-- `fuel` bounds the number of regions; each one takes two bytes at least. -/
def parseRegions : Nat → (rva streamOffset : Nat) → List Byte → Option (List EncryptedRegion × Nat)
  | 0, _, _, _ => none
  | fuel + 1, rva, streamOffset, bytes => do
      let (delta, bytes) ← dearxanReadVarint bytes
      if delta = 0 ∨ uint32Max - delta < rva then none
      else
        let rva := rva + delta
        if rva = uint32Max then some ([], streamOffset)
        else do
          let (size, bytes) ← dearxanReadVarint bytes
          if size = 0 ∨ uint32Max - size < rva ∨ 2 ^ 64 - 1 - size < streamOffset then none
          else do
            let (regions, streamSize) ← parseRegions fuel (rva + size) (streamOffset + size) bytes
            return (⟨streamOffset, size, rva⟩ :: regions, streamSize)

def dearxanParseEncryptedRegions (bytes : List Byte) : Option (List EncryptedRegion × Nat) :=
  parseRegions (bytes.length + 1) 0 0 bytes

structure RegionReference where
  listIndex : Nat
  region : EncryptedRegion
  deriving DecidableEq, Repr

def compareRegionReferences (a b : RegionReference) : Bool :=
  a.region.rva < b.region.rva || (a.region.rva = b.region.rva && a.region.size ≤ b.region.size)

/-- A sort that may order equal elements in any way, as `qsort` may. -/
structure Sorting {α : Type*} (le : α → α → Bool) where
  sort : List α → List α
  perm : ∀ l, (sort l).Perm l
  sorted : ∀ l, (sort l).Pairwise fun a b => le a b = true

def writeWord (stream : List Byte) (offset : Nat) (value : Word) : List Byte :=
  stream.take offset ++ (List.range 8).map (byteOf value) ++ stream.drop (offset + 8)

/-- Rebases the pointers of a region; `none` for one that is cut off or does not point into the image. -/
def relocateRegion (image : DearxanImage) (baseDiff : Word) (region : EncryptedRegion) :
    List Nat → List Byte → Option (List Byte)
  | [], stream => some stream
  | rva :: relocations, stream =>
      if region.finish < rva + 8 then some stream
      else
        let offset := (region.streamOffset + (rva - region.rva)) % 2 ^ 64
        if stream.length < offset ∨ stream.length - offset < 8 then none
        else
          let value := ofBytes (fun k => stream.getD (offset + k) 0) 8 + baseDiff
          if dearxanImageRead (some image) value 1 = none then none
          else relocateRegion image baseDiff region relocations (writeWord stream offset value)

/-- The streams of the lists and the lists that are given up. -/
structure Lists where
  streams : Nat → List Byte
  eliminated : Nat → Bool

def Lists.eliminate (lists : Lists) (i : Nat) : Lists :=
  { lists with eliminated := Function.update lists.eliminated i true }

def relocateRegions (image : DearxanImage) (baseDiff : Word) :
    List RegionReference → List Nat → Lists → Lists
  | [], _, lists => lists
  | reference :: references, relocations, lists =>
      if lists.eliminated reference.listIndex then relocateRegions image baseDiff references relocations lists
      else
        let relocations := relocations.dropWhile (· < reference.region.rva)
        if relocations = [] then lists
        else
          match relocateRegion image baseDiff reference.region relocations
              (lists.streams reference.listIndex) with
          | none =>
              relocateRegions image baseDiff references relocations (lists.eliminate reference.listIndex)
          | some stream =>
              relocateRegions image baseDiff references relocations
                { lists with streams := Function.update lists.streams reference.listIndex stream }

def regionsIntersect (left right : EncryptedRegion) : Bool :=
  if left.finish < right.finish then right.rva < left.finish else left.rva < right.finish

/-- The outcomes of the comparisons of entropies: of a list with the image, and of two lists. -/
structure Entropies where
  atLeastImage : Nat → Bool
  exceeds : Nat → Nat → Bool

/-- The sweep; the list of `best` is not eliminated. -/
def sweep (exceeds : Nat → Nat → Bool) :
    RegionReference → List RegionReference → (Nat → Bool) → (Nat → Bool)
  | _, [], eliminated => eliminated
  | best, current :: rest, eliminated =>
      if current.listIndex = best.listIndex then sweep exceeds current rest eliminated
      else if eliminated current.listIndex then sweep exceeds best rest eliminated
      else if !regionsIntersect best.region current.region then sweep exceeds current rest eliminated
      else if exceeds best.listIndex current.listIndex then
        sweep exceeds current rest (Function.update eliminated best.listIndex true)
      else sweep exceeds best rest (Function.update eliminated current.listIndex true)

def sweepAll (exceeds : Nat → Nat → Bool) (references : List RegionReference) (eliminated : Nat → Bool) :
    Nat → Bool :=
  match references.dropWhile fun reference => eliminated reference.listIndex with
  | [] => eliminated
  | best :: rest => sweep exceeds best rest eliminated

def processedLists (lists : List (Option EncryptedRegionList)) : List EncryptedRegionList :=
  lists.reduceOption.filter fun list => list.regions ≠ []

def regionReferences (processed : List EncryptedRegionList) : List RegionReference :=
  processed.zipIdx.flatMap fun (list, i) => list.regions.map fun region => ⟨i, region⟩

/-- The lists that are left, with their relocated streams. -/
def keptLists (processed : List EncryptedRegionList) (lists : Lists) : List EncryptedRegionList :=
  processed.zipIdx.filterMap fun (list, i) =>
    if lists.eliminated i then none else some { list with decryptedStream := lists.streams i }

/-- `relocations` is what the image's directory has, or `none` where it is malformed. -/
def dearxanResolveEncryptedRegionLists (qsort : Sorting compareRegionReferences) (entropies : Entropies)
    (image : DearxanImage) (preferredBase : Word) (relocations : Option (List Nat))
    (lists : List (Option EncryptedRegionList)) : Option (List EncryptedRegionList) :=
  if lists = [] then some []
  else
    relocations.map fun relocations =>
      let processed := processedLists lists
      let references := qsort.sort (regionReferences processed)
      let relocated := relocateRegions image (image.baseVa - preferredBase) references
        (relocations.insertionSort (· ≤ ·))
        ⟨fun i => (processed[i]?.map EncryptedRegionList.decryptedStream).getD [], fun _ => false⟩
      let lowered := fun i => relocated.eliminated i || entropies.atLeastImage i
      keptLists processed { relocated with eliminated := sweepAll entropies.exceeds references lowered }

end Yafsml.Dearxan
