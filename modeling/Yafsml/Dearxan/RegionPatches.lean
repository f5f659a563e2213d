import Mathlib.Data.List.TakeWhile
import Yafsml.Foundation.Writes
import Yafsml.Dearxan.RegionSweep
import Yafsml.Dearxan.Relocations

/-! # Patching the stubs

The decrypted regions are written first, then a jump is installed at each stub. -/

namespace Yafsml.Dearxan

open LittleEndian

structure ReturnGadget where
  stackOffset : Word
  address : Word
  deriving DecidableEq, Repr

structure StubInfo where
  testRspVa : Word
  contextPopVa : Word
  returnGadget : Option ReturnGadget
  encryptedRegions : Option EncryptedRegionList
  deriving DecidableEq, Repr

def littleEndian (size : Nat) (value : Word) : List Byte := (List.range size).map (byteOf value)

/-- The store of `rax` into the slot at this distance from `rsp`. -/
def storeSlot (lowSlot : Int) : Option (List Byte) :=
  if -2 ^ 7 ≤ lowSlot ∧ lowSlot ≤ 2 ^ 7 - 1 then
    some ([0x48#8, 0x89#8, 0x44#8, 0x24#8] ++ littleEndian 1 (BitVec.ofInt 64 lowSlot))
  else if -2 ^ 31 ≤ lowSlot ∧ lowSlot ≤ 2 ^ 31 - 1 then
    some ([0x48#8, 0x89#8, 0x84#8, 0x24#8] ++ littleEndian 4 (BitVec.ofInt 64 lowSlot))
  else none

def emitStubPatch (stub : StubInfo) (capacity : Nat) : Option (List Byte) :=
  if capacity < 64 then none
  else
    let popContext := [0x48#8, 0x83#8, 0xec#8, 0x08#8, 0x48#8, 0xb8#8] ++ littleEndian 8 stub.contextPopVa
      ++ [0xff#8, 0xe0#8]
    match stub.returnGadget with
    | none => some popContext
    | some gadget => do
        let store ← storeSlot (gadget.stackOffset.toInt - 16)
        let middle := store ++ popContext
        let lea := [0x48#8, 0x8d#8, 0x05#8] ++ littleEndian 4 (BitVec.ofNat 64 middle.length)
        return lea ++ middle ++ [0x48#8, 0x83#8, 0xc4#8, 0x10#8, 0xff#8, 0x25#8] ++ littleEndian 4 0
          ++ littleEndian 8 gadget.address

def codeBufferSize : Nat := 16 * 1024 * 1024

/-- The buffer for the generated code, once it is allocated, and the part of it that is taken. -/
structure CodeBuffer where
  base : Option Word
  offset : Nat
  deriving DecidableEq, Repr

/-- What the process has: its image, the buffer near it that it can get, the ranges it can write. -/
structure Process where
  image : DearxanImage
  preferredBase : Word
  relocations : Option (List Nat)
  near : Option Word
  writable : Word → Nat → Bool

variable (process : Process)

def allocateNearCode (buffer : CodeBuffer) (size : Nat) : CodeBuffer × Option Word :=
  match buffer.base.or process.near with
  | none => (buffer, none)
  | some base =>
      if codeBufferSize < size ∨ codeBufferSize - size < buffer.offset then (⟨some base, buffer.offset⟩, none)
      else (⟨some base, buffer.offset + size⟩, some (base + BitVec.ofNat 64 buffer.offset))

/-- The writes of a run in their order, and what it ended with. -/
structure StubPatches where
  decrypted : List Write
  installed : List Write
  buffer : CodeBuffer
  error : Option String
  deriving DecidableEq, Repr

def StubPatches.memory (patches : StubPatches) (memory : Memory) : Memory :=
  Write.all (patches.decrypted ++ patches.installed) memory

def regionVa (region : EncryptedRegion) : Word := process.image.baseVa + BitVec.ofNat 64 region.rva

def regionWrite (stream : List Byte) (region : EncryptedRegion) : Write :=
  ⟨regionVa process region, (stream.drop region.streamOffset).take region.size⟩

def regionWritable (stream : List Byte) (region : EncryptedRegion) : Bool :=
  region.streamOffset ≤ stream.length && region.size ≤ stream.length - region.streamOffset
    && (dearxanImageRead (some process.image) (regionVa process region) region.size).isSome
    && process.writable (regionVa process region) region.size

def writeRegions : List (List Byte × EncryptedRegion) → List Write × Bool
  | [] => ([], true)
  | (stream, region) :: rest =>
      if regionWritable process stream region then
        let (writes, written) := writeRegions rest
        (regionWrite process stream region :: writes, written)
      else ([], false)

def installJumps : List StubInfo → CodeBuffer → List Write × CodeBuffer × Option String
  | [], buffer => ([], buffer, none)
  | stub :: stubs, buffer =>
      match emitStubPatch stub 64 with
      | none => ([], buffer, some "unsupported Arxan return gadget")
      | some patch =>
          match allocateNearCode process buffer patch.length with
          | (buffer, none) => ([], buffer, some "failed to allocate patch code")
          | (buffer, some code) =>
              let displacement := code - (stub.testRspVa + 5)
              if displacement.toInt < -2 ^ 31 ∨ 2 ^ 31 - 1 < displacement.toInt then
                ([⟨code, patch⟩], buffer, some "patch code is outside rel32 range")
              else if !process.writable stub.testRspVa 5 then
                ([⟨code, patch⟩], buffer, some "failed to install stub jump")
              else
                let (writes, buffer, error) := installJumps stubs buffer
                (⟨code, patch⟩ :: ⟨stub.testRspVa, 0xe9#8 :: littleEndian 4 displacement⟩ :: writes,
                  buffer, error)

def regionsToWrite (resolved : List EncryptedRegionList) : List (List Byte × EncryptedRegion) :=
  resolved.flatMap fun list => list.regions.map fun region => (list.decryptedStream, region)

def applyResolved (stubs : List StubInfo) (buffer : CodeBuffer) (resolved : List EncryptedRegionList) :
    StubPatches :=
  match writeRegions process (regionsToWrite resolved) with
  | (decrypted, false) => ⟨decrypted, [], buffer, some "failed to write decrypted region"⟩
  | (decrypted, true) =>
      let (installed, buffer, error) := installJumps process stubs buffer
      ⟨decrypted, installed, buffer, error⟩

def stubRegionLists (stubs : List StubInfo) : List (Option EncryptedRegionList) :=
  (stubs.filter fun stub => stub.encryptedRegions.isSome).map StubInfo.encryptedRegions

def dearxanApplyStubPatches (qsort : Sorting compareRegionReferences) (entropies : Entropies)
    (stubs : List StubInfo) (buffer : CodeBuffer) : StubPatches :=
  match dearxanResolveEncryptedRegionLists qsort entropies process.image process.preferredBase
      process.relocations (stubRegionLists stubs) with
  | none => ⟨[], [], buffer, some "failed to process encrypted regions"⟩
  | some resolved => applyResolved process stubs buffer resolved

variable {process}

theorem writeRegions_takeWhile (regions : List (List Byte × EncryptedRegion)) :
    (writeRegions process regions).1
      = (regions.takeWhile fun entry => regionWritable process entry.1 entry.2).map
          fun entry => regionWrite process entry.1 entry.2 := by
  induction regions with
  | nil => rfl
  | cons entry rest ih =>
      rw [writeRegions, List.takeWhile_cons]
      cases regionWritable process entry.1 entry.2 with
      | true => simp [ih]
      | false => rfl

theorem writeRegions_written (regions : List (List Byte × EncryptedRegion)) :
    (writeRegions process regions).2 = regions.all fun entry => regionWritable process entry.1 entry.2 := by
  induction regions with
  | nil => rfl
  | cons entry rest ih =>
      rw [writeRegions, List.all_cons]
      cases regionWritable process entry.1 entry.2 with
      | true => simp [ih]
      | false => rfl

theorem writeRegions_all {regions : List (List Byte × EncryptedRegion)}
    (written : (writeRegions process regions).2 = true) :
    (writeRegions process regions).1 = regions.map fun entry => regionWrite process entry.1 entry.2 := by
  rw [writeRegions_written, List.all_eq_true] at written
  rw [writeRegions_takeWhile, List.takeWhile_eq_self_iff.mpr written]

theorem covers_regionWrite {stream : List Byte} {region : EncryptedRegion} {a : Word}
    (covered : (regionWrite process stream region).covers a = true) (bounded : region.InBounds) :
    region.rva ≤ (a - process.image.baseVa).toNat ∧
      (a - process.image.baseVa).toNat < region.rva + region.size := by
  have inside := of_decide_eq_true covered
  simp only [regionWrite, List.length_take, regionVa, ← BitVec.sub_sub] at inside
  have inside : (a - process.image.baseVa - BitVec.ofNat 64 region.rva).toNat < region.size :=
    Nat.lt_of_lt_of_le inside (Nat.min_le_left _ _)
  generalize a - process.image.baseVa = offset at inside ⊢
  unfold EncryptedRegion.InBounds at bounded
  rw [BitVec.toNat_sub, BitVec.toNat_ofNat] at inside
  have := offset.isLt
  omega

theorem regionWrite_apart {stream stream' : List Byte} {p q : EncryptedRegion} (bounded : p.InBounds)
    (bounded' : q.InBounds) (apart : p.Apart q) :
    (regionWrite process stream p).Apart (regionWrite process stream' q) := by
  intro a covered
  by_contra other
  have first := covers_regionWrite covered bounded
  have second := covers_regionWrite (by simpa using other) bounded'
  simp only [EncryptedRegion.Apart, EncryptedRegion.Before] at apart
  omega

theorem regionsToWrite_regions (resolved : List EncryptedRegionList) :
    (regionsToWrite resolved).map Prod.snd = resolved.flatMap EncryptedRegionList.regions := by
  simp [regionsToWrite, List.map_flatMap, Function.comp_def]

theorem regionWrites_apart (process : Process) {resolved : List EncryptedRegionList}
    (apart : (resolved.flatMap EncryptedRegionList.regions).Pairwise EncryptedRegion.Apart)
    (bounded : ∀ r ∈ resolved.flatMap EncryptedRegionList.regions, r.InBounds) :
    ((regionsToWrite resolved).map fun entry => regionWrite process entry.1 entry.2).Pairwise Write.Apart := by
  rw [← regionsToWrite_regions] at apart bounded
  apply List.pairwise_map.mpr
  apply (List.pairwise_map.mp apart).imp_of_mem
  intro p q p_among q_among apart
  apply regionWrite_apart _ _ apart
  · exact bounded _ (List.mem_map_of_mem p_among)
  · exact bounded _ (List.mem_map_of_mem q_among)

theorem decrypted_eq (stubs : List StubInfo) (buffer : CodeBuffer) (resolved : List EncryptedRegionList) :
    (applyResolved process stubs buffer resolved).decrypted
      = (writeRegions process (regionsToWrite resolved)).1 := by
  unfold applyResolved
  rcases writeRegions process (regionsToWrite resolved) with ⟨decrypted, written | written⟩ <;> rfl

theorem decrypted_once {stubs : List StubInfo} {buffer : CodeBuffer} {resolved : List EncryptedRegionList}
    (apart : ((regionsToWrite resolved).map fun entry => regionWrite process entry.1 entry.2).Pairwise
      Write.Apart) (a : Word) :
    (applyResolved process stubs buffer resolved).decrypted.countP (·.covers a) ≤ 1 := by
  rw [decrypted_eq, writeRegions_takeWhile]
  apply Write.covered_once
  exact apart.sublist ((List.takeWhile_sublist _).map _)

theorem installed_of_written {stubs : List StubInfo} {buffer : CodeBuffer}
    {resolved : List EncryptedRegionList}
    (written : (writeRegions process (regionsToWrite resolved)).2 = true) :
    applyResolved process stubs buffer resolved =
      ⟨(regionsToWrite resolved).map fun entry => regionWrite process entry.1 entry.2,
        (installJumps process stubs buffer).1, (installJumps process stubs buffer).2.1,
        (installJumps process stubs buffer).2.2⟩ := by
  rw [← writeRegions_all written]
  unfold applyResolved
  rcases regions : writeRegions process (regionsToWrite resolved) with ⟨decrypted, ok⟩
  rw [regions] at written
  change ok = true at written
  subst written
  rfl

theorem error_of_not_written {stubs : List StubInfo} {buffer : CodeBuffer}
    {resolved : List EncryptedRegionList}
    (failed : (writeRegions process (regionsToWrite resolved)).2 = false) :
    (applyResolved process stubs buffer resolved).error = some "failed to write decrypted region" := by
  unfold applyResolved
  rcases regions : writeRegions process (regionsToWrite resolved) with ⟨decrypted, ok⟩
  rw [regions] at failed
  change ok = false at failed
  subst failed
  rfl

theorem written_perm (process : Process) {resolved order : List EncryptedRegionList} (perm : order.Perm resolved) :
    (writeRegions process (regionsToWrite order)).2
      = (writeRegions process (regionsToWrite resolved)).2 := by
  rw [writeRegions_written, writeRegions_written]
  exact (perm.flatMap_right _).all_eq

theorem applyResolved_perm {stubs : List StubInfo} {buffer : CodeBuffer}
    {resolved order : List EncryptedRegionList} (perm : order.Perm resolved)
    (apart : ((regionsToWrite resolved).map fun entry => regionWrite process entry.1 entry.2).Pairwise
      Write.Apart) :
    (applyResolved process stubs buffer order).error = (applyResolved process stubs buffer resolved).error ∧
      ((applyResolved process stubs buffer resolved).error ≠ some "failed to write decrypted region" →
        ∀ memory, (applyResolved process stubs buffer order).memory memory
          = (applyResolved process stubs buffer resolved).memory memory) := by
  have same := written_perm process perm
  cases written : (writeRegions process (regionsToWrite resolved)).2 with
  | false =>
      rw [written] at same
      rw [error_of_not_written written, error_of_not_written same]
      exact ⟨rfl, fun other => (other rfl).elim⟩
  | true =>
      rw [written] at same
      rw [installed_of_written written, installed_of_written same]
      refine ⟨rfl, fun _ memory => ?_⟩
      simp only [StubPatches.memory, Write.all, List.foldl_append]
      congr 1
      exact Write.all_perm (apart.perm ((perm.flatMap_right _).symm.map _) Write.Apart.symm)
        ((perm.flatMap_right _).map _) memory

theorem resolved_apart (process : Process) (qsort : Sorting compareRegionReferences) (entropies : Entropies)
    (lists : List (Option EncryptedRegionList)) (resolved : List EncryptedRegionList)
    (wellFormed : ∀ list, some list ∈ lists → WellFormedRegions list.regions)
    (resolves : dearxanResolveEncryptedRegionLists qsort entropies process.image process.preferredBase
      process.relocations lists = some resolved) :
    (resolved.flatMap EncryptedRegionList.regions).Pairwise EncryptedRegion.Apart ∧
      ∀ stubs buffer, stubRegionLists stubs = lists →
        dearxanApplyStubPatches process qsort entropies stubs buffer
          = applyResolved process stubs buffer resolved ∧
        (∀ a, (applyResolved process stubs buffer resolved).decrypted.countP (·.covers a) ≤ 1) ∧
        ∀ order, order.Perm resolved →
          (applyResolved process stubs buffer order).error
            = (applyResolved process stubs buffer resolved).error ∧
          ((applyResolved process stubs buffer resolved).error ≠ some "failed to write decrypted region" →
            ∀ memory, (applyResolved process stubs buffer order).memory memory
              = (applyResolved process stubs buffer resolved).memory memory) := by
  obtain ⟨apart, bounded⟩ := dearxanResolveEncryptedRegionLists_apart wellFormed resolves
  have writes_apart := regionWrites_apart process apart bounded
  refine ⟨apart, fun stubs buffer from_stubs => ⟨?_, decrypted_once writes_apart, fun order perm =>
    applyResolved_perm perm writes_apart⟩⟩
  unfold dearxanApplyStubPatches
  rw [from_stubs, resolves]

theorem compareRegionReferences_total (a b : RegionReference) :
    compareRegionReferences a b = true ∨ compareRegionReferences b a = true := by
  simp only [compareRegionReferences, Bool.or_eq_true, Bool.and_eq_true, decide_eq_true_eq]
  omega

theorem compareRegionReferences_trans (a b c : RegionReference) (ab : compareRegionReferences a b = true)
    (bc : compareRegionReferences b c = true) : compareRegionReferences a c = true := by
  simp only [compareRegionReferences, Bool.or_eq_true, Bool.and_eq_true, decide_eq_true_eq] at *
  omega

instance : Std.Total fun a b => compareRegionReferences a b = true := ⟨compareRegionReferences_total⟩

instance : IsTrans RegionReference fun a b => compareRegionReferences a b = true :=
  ⟨compareRegionReferences_trans⟩

def insertionSorting : Sorting compareRegionReferences where
  sort l := l.insertionSort fun a b => compareRegionReferences a b = true
  perm := List.perm_insertionSort _
  sorted := List.pairwise_insertionSort _

def headerByte (i : Nat) : Byte :=
  match i with
  | 0 => 0x4d | 1 => 0x5a | 60 => 0x40 | 64 => 0x50 | 65 => 0x45 | 88 => 0x0b | 89 => 0x02
  | _ => 0

def sixteenBytes : List Byte := (List.range 0x150).map headerByte ++ (List.range 16).map (BitVec.ofNat 8)

def smallProcess : Process where
  image := ⟨sixteenBytes, 0x1000#64⟩
  preferredBase := 0x1000#64
  relocations := some []
  near := some 0x2000#64
  writable := fun _ _ => true

/-- The first list meets the second one and loses; the third one stays too. -/
def overlappingStubs : List StubInfo :=
  [⟨0x1158#64, 0x115c#64, none, some ⟨[⟨0, 2, 0x152⟩, ⟨2, 2, 0x156⟩], [1#8, 2#8, 3#8, 4#8]⟩⟩,
    ⟨0x1158#64, 0x115c#64, none, some ⟨[⟨0, 4, 0x153⟩], [5#8, 5#8, 5#8, 5#8]⟩⟩,
    ⟨0x1158#64, 0x115c#64, none, some ⟨[⟨0, 2, 0x151⟩], [6#8, 6#8]⟩⟩]

def stubsLeft : List EncryptedRegionList :=
  [⟨[⟨0, 4, 0x153⟩], [5#8, 5#8, 5#8, 5#8]⟩, ⟨[⟨0, 2, 0x151⟩], [6#8, 6#8]⟩]

def firstLoses : Entropies := ⟨fun _ => false, fun i _ => i = 0⟩

theorem overlappingStubs_wellFormed :
    ∀ list, some list ∈ stubRegionLists overlappingStubs → WellFormedRegions list.regions := by
  intro list among
  simp only [stubRegionLists, overlappingStubs, List.filter_cons, Option.isSome_some, if_true,
    List.filter_nil, List.map_cons, List.map_nil, List.mem_cons, Option.some.injEq, List.not_mem_nil,
    or_false] at among
  rcases among with rfl | rfl | rfl <;>
    simp [WellFormedRegions, EncryptedRegion.Before, EncryptedRegion.InBounds]

theorem resolved_apart_overlapping :
    (stubsLeft.flatMap EncryptedRegionList.regions).Pairwise EncryptedRegion.Apart ∧
      (applyResolved smallProcess overlappingStubs ⟨none, 0⟩ stubsLeft.reverse).memory (fun _ => 0)
        = (dearxanApplyStubPatches smallProcess insertionSorting firstLoses overlappingStubs
            ⟨none, 0⟩).memory fun _ => 0 := by
  obtain ⟨apart, patches⟩ := resolved_apart smallProcess insertionSorting firstLoses
    (stubRegionLists overlappingStubs) stubsLeft overlappingStubs_wellFormed (by decide +kernel)
  obtain ⟨applied, -, reordered⟩ := patches overlappingStubs ⟨none, 0⟩ rfl
  refine ⟨apart, ?_⟩
  rw [applied]
  exact (reordered stubsLeft.reverse stubsLeft.reverse_perm).2 (by decide +kernel) fun _ => 0

def straddlingStubs : List StubInfo :=
  [⟨0x1152#64, 0x115c#64, none, some ⟨[⟨0, 2, 0x152⟩], [5#8, 5#8]⟩⟩,
    ⟨0x1152#64, 0x115c#64, none, some ⟨[⟨0, 2, 0x170⟩], [6#8, 6#8]⟩⟩]

def straddlingLists : List EncryptedRegionList :=
  [⟨[⟨0, 2, 0x152⟩], [5#8, 5#8]⟩, ⟨[⟨0, 2, 0x170⟩], [6#8, 6#8]⟩]

def noneLoses : Entropies := ⟨fun _ => false, fun _ _ => false⟩

/-- A failed run keeps what it wrote, which depends on the order; a jump is written over decrypted bytes. -/
theorem patches_depend_on_order :
    dearxanImageForEachRelocation64 smallProcess.image = smallProcess.relocations ∧
    (dearxanResolveEncryptedRegionLists insertionSorting noneLoses smallProcess.image
        smallProcess.preferredBase smallProcess.relocations (stubRegionLists straddlingStubs)
      = some straddlingLists ∧
    (applyResolved smallProcess straddlingStubs ⟨none, 0⟩ straddlingLists).memory (fun _ => 0) 0x1152#64 = 5#8 ∧
    (applyResolved smallProcess straddlingStubs ⟨none, 0⟩ straddlingLists.reverse).memory (fun _ => 0) 0x1152#64
      = 0#8) ∧
    (dearxanApplyStubPatches smallProcess insertionSorting noneLoses (straddlingStubs.take 1)
        ⟨none, 0⟩).error = none ∧
    ((dearxanApplyStubPatches smallProcess insertionSorting noneLoses (straddlingStubs.take 1)
        ⟨none, 0⟩).decrypted ++
      (dearxanApplyStubPatches smallProcess insertionSorting noneLoses (straddlingStubs.take 1)
        ⟨none, 0⟩).installed).countP (·.covers 0x1152#64) = 2 := by
  decide +kernel

end Yafsml.Dearxan
