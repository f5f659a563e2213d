import Mathlib.Algebra.GroupWithZero.Nat
import Yafsml.Patches.DlDevice

/-! # Mounting archives from the cache -/

namespace Yafsml.Patches

abbrev Bytes := List UInt8

/-- A little-endian 32-bit value, `memcpy`ed out of `bytes`. -/
def dwordAt (bytes : Bytes) (at' : Nat) : Nat :=
  (bytes.getD at' 0).toNat + 2 ^ 8 * (bytes.getD (at' + 1) 0).toNat +
    2 ^ 16 * (bytes.getD (at' + 2) 0).toNat + 2 ^ 24 * (bytes.getD (at' + 3) 0).toNat

/-- The letters `BHD5`. -/
def bhd5Magic : Bytes := [66, 72, 68, 53]

/-- `buckets` is the offset of the bucket table in `header`. -/
structure Bhd5Holder where
  header : Option Bytes
  bucketCount : Nat
  buckets : Nat
deriving DecidableEq, Repr

def assignBhdContents (contents : Bytes) (bucketCount bucketOffset : Nat) : Bhd5Holder :=
  ⟨some contents, bucketCount, bucketOffset⟩

def mlBhd5HeaderValid (data : Bytes) (size : Nat) : Bool :=
  let fileSize := dwordAt data 12
  let bucketCount := dwordAt data 16
  let bucketOffset := dwordAt data 20
  decide (24 ≤ size) && data.take 4 == bhd5Magic && fileSize == size &&
    decide (bucketOffset ≤ fileSize) && decide (bucketCount ≤ (fileSize - bucketOffset) / 4)

/-- `decoded` is the output buffer after a cache file with the right header, key and sizes was
read, inflated without rest and found to have its checksum; `none` if any of this failed. -/
def mlBootBoostCacheLoad (decoded : Option Bytes) (bhdHeader : Bytes) (outputSize : Nat) :
    Option Bytes :=
  match decoded with
  | none => none
  | some output =>
      if output.length = outputSize ∧ mlBhd5HeaderValid output outputSize ∧
        output.take 24 = bhdHeader.take 24 then some output else none

/-- What a successful `MountEbl` leaves behind: a mount, its device, the holder inside the device
and the vectors' new capacities, which are up to the game. -/
structure NewMount where
  root : Option WString
  device : Nat
  holder : Bhd5Holder
  devicesCapacity : Nat
  mountsCapacity : Nat

/-- How every step of `mount_ebl_hooked` ends that the loader does not decide itself. The steps
stand in the order in which the code takes them. -/
structure MountEnvironment where
  /-- the devices and mounts there are, the mounts by root and device -/
  devices : DlVector Nat
  mounts : DlVector (Option WString × Nat)
  holders : Nat → Bhd5Holder
  bootBoost : Bool
  gameKeyValid : Bool
  bhdPath : Bool
  allocator : Bool
  deviceManager : Bool
  rsaKey : Bool
  rsaBlockSize : Option Nat
  lock : Bool
  expandPath : Bool
  createSource : Bool
  sourceSize : Option Int
  allocateEncrypted : Bool
  readSource : Bool
  cacheKey : Bool
  cacheDirectory : Bool
  cachePath : Bool
  writeStub : Bool
  snapshotMemory : Bool
  mountStub : Option NewMount
  relockStub : Bool
  extractStubMemory : Bool
  gameContext : Bool
  eblBhdHolderOffset : Nat
  allocateCached : Bool
  cacheDecoded : Option Bytes
  pushStubDevices : Bool
  pushStubMounts : Bool
  resnapshotMemory : Bool
  mountFull : Option NewMount
  relockFull : Bool
  extractFullMemory : Bool
  pushFullDevices : Bool
  pushFullMounts : Bool
  mountPlain : Option NewMount

structure MountWorld where
  manager : DeviceManager
  holders : Nat → Bhd5Holder

def MountEnvironment.world (env : MountEnvironment) : MountWorld where
  manager :=
    { devices := env.devices
      bnd4Mounts :=
        { items := env.mounts.items.map fun mount => ⟨mount.1, mount.2, .game⟩
          capacity := env.mounts.capacity } }
  holders := env.holders

/-- The game's `MountEbl`, on the stub file or on the real BHD path. -/
def mountEbl (source : MountSource) (outcome : Option NewMount) (world : MountWorld) :
    MountWorld × Bool :=
  match outcome with
  | none => (world, false)
  | some new =>
      ({ manager :=
          { devices := ⟨world.manager.devices.items ++ [new.device], new.devicesCapacity⟩
            bnd4Mounts :=
              ⟨world.manager.bnd4Mounts.items ++ [⟨new.root, new.device, source⟩],
                new.mountsCapacity⟩ }
         holders := fun device => if device = new.device then new.holder else world.holders device },
       true)

/-- Where a call ends: `result` and `*handled`, what `ml_boot_boost_cache_load` validated and what
`ml_boot_boost_cache_store` was given. -/
structure BoostOutcome where
  world : MountWorld
  result : Bool
  handled : Bool
  loaded : Option Bytes
  stored : Option Bytes

/-- The checks of `boot_boost_mount` before the first lock. -/
def boostPossible (env : MountEnvironment) : Bool :=
  env.gameKeyValid && env.bhdPath && env.allocator && env.deviceManager && env.rsaKey &&
    env.rsaBlockSize.isSome

/-- The steps of `boot_boost_mount` from the first lock to the stub file. -/
def stubWritten (env : MountEnvironment) : Bool :=
  env.lock && env.expandPath && env.createSource &&
    env.sourceSize.any (fun size => decide (0 < size) && decide (size ≤ 64 * 1024 * 1024)) &&
    env.allocateEncrypted && env.readSource && env.cacheKey &&
    (env.cacheDirectory && env.cachePath) && env.writeStub

def holderHeader (env : MountEnvironment) (holder : Bhd5Holder) : Option (Bytes × Nat) :=
  if !env.gameContext || env.eblBhdHolderOffset == 0 then none
  else
    match holder.header with
    | none => none
    | some header =>
        let size := dwordAt header 12
        if header.take 4 != bhd5Magic || decide (size < 24) || decide (64 * 1024 * 1024 < size) then
          none
        else some (header, size)

/-- `boot_boost_mount` from the label `full_mount` on. -/
def fullMount (env : MountEnvironment) (snapshot : MountSnapshot) (stubMounts : VfsMounts)
    (world : MountWorld) (handled : Bool) : BoostOutcome :=
  let retaken :=
    if stubMounts.items.length ≠ 0 then mlDlMountSnapshot env.resnapshotMemory world.manager
    else some snapshot
  match retaken with
  | none => ⟨world, false, false, none, none⟩
  | some snapshot =>
      let (world, result) := mountEbl .full env.mountFull world
      let handled := handled || result
      if !result || !env.relockFull then ⟨world, result, handled, none, none⟩
      else
        match mlDlDeviceExtractNew env.extractFullMemory world.manager snapshot mlDlMountsInit with
        | none => ⟨world, result, handled, none, none⟩
        | some (manager, fullMounts) =>
            match fullMounts.items with
            | [] => ⟨{ world with manager := manager }, result, handled, none, none⟩
            | mount :: _ =>
                let stored :=
                  match holderHeader env (world.holders mount.device) with
                  | none => none
                  | some (header, size) =>
                      if mlBhd5HeaderValid header size then some header else none
                let pushed := mlDlDevicePushMountsPermanent env.pushFullDevices env.pushFullMounts
                  manager fullMounts
                if !pushed.2 then ⟨{ world with manager := pushed.1 }, false, false, none, stored⟩
                else ⟨{ world with manager := pushed.1 }, result, handled, none, stored⟩

def cacheHit (env : MountEnvironment) (holder : Bhd5Holder) : Option Bytes :=
  match holderHeader env holder with
  | none => none
  | some (header, size) =>
      if env.allocateCached then mlBootBoostCacheLoad env.cacheDecoded header size else none

/-- `boot_boost_mount` from the `MountEbl` of the stub on. -/
def stubMount (env : MountEnvironment) (snapshot : MountSnapshot) (world : MountWorld) :
    BoostOutcome :=
  let (world, result) := mountEbl .stub env.mountStub world
  let handled := result
  if !result || !env.relockStub then ⟨world, result, handled, none, none⟩
  else
    match mlDlDeviceExtractNew env.extractStubMemory world.manager snapshot mlDlMountsInit with
    | none => ⟨world, result, handled, none, none⟩
    | some (manager, stubMounts) =>
        let world := { world with manager := manager }
        match stubMounts.items with
        | [] => fullMount env snapshot stubMounts world handled
        | mount :: _ =>
            match cacheHit env (world.holders mount.device) with
            | none => fullMount env snapshot stubMounts world handled
            | some cached =>
                let bucketCount := dwordAt cached 16
                let bucketOffset := dwordAt cached 20
                let pushed := mlDlDevicePushMountsPermanent env.pushStubDevices env.pushStubMounts
                  manager stubMounts
                if !pushed.2 then ⟨{ world with manager := pushed.1 }, false, false, cached, none⟩
                else
                  ⟨{ manager := pushed.1
                     holders := fun device =>
                       if device = mount.device then
                         assignBhdContents cached bucketCount bucketOffset
                       else world.holders device },
                    result, handled, cached, none⟩

def bootBoostMount (env : MountEnvironment) : BoostOutcome :=
  if !boostPossible env || !stubWritten env then ⟨env.world, false, false, none, none⟩
  else
    match mlDlMountSnapshot env.snapshotMemory env.world.manager with
    | none => ⟨env.world, false, false, none, none⟩
    | some snapshot => stubMount env snapshot env.world

def mountEblHooked (env : MountEnvironment) : BoostOutcome :=
  let boosted :=
    if env.bootBoost then bootBoostMount env else ⟨env.world, false, false, none, none⟩
  if boosted.result then boosted
  else if boosted.handled then boosted
  else
    let (world, result) := mountEbl .full env.mountPlain boosted.world
    { boosted with world := world, result := result }

end Yafsml.Patches
