import Mathlib.Data.List.Nodup
import Mathlib.Data.List.Perm.Basic
import Yafsml.Patches.DlVector

/-!
# Detaching mounts and attaching them again

`ml_dl_device_extract_new` and `ml_dl_device_push_mounts_permanent` on the vectors of the game. What the
manager holds are the two sequences of items.
-/

namespace Yafsml.Patches

/-- `sizeof(ml_dl_device_t *)`. -/
def sizeofDevicePointer : Nat := 8

/-- `sizeof(ml_dl_virtual_mount_t)`. -/
def sizeofVirtualMount : Nat := 64

/-- The two vectors of `ml_dl_device_manager_t`. -/
structure RawManager where
  devices : GameVector Nat
  bnd4Mounts : GameVector VirtualMount

namespace RawManager

variable (abi : StlAbi) (manager : RawManager)

def deviceItems : List Nat := manager.devices.items abi sizeofDevicePointer

def mountItems : List VirtualMount := manager.bnd4Mounts.items abi sizeofVirtualMount

structure Valid : Prop where
  devices : VectorValid abi manager.devices.vector
  bnd4Mounts : VectorValid abi manager.bnd4Mounts.vector

/-- `ml_dl_device_extract_new`; `memory` tells whether the loader's own allocation succeeds. -/
def extractNew (memory : Bool) (snapshot : MountSnapshot) (mounts : VfsMounts) :
    RawManager × VfsMounts × Bool :=
  let newCount := ((manager.mountItems abi).filter (isNewMount snapshot)).length
  if sizeMax - mounts.items.length < newCount ∨
      sizeMax / sizeofVirtualMount < mounts.items.length + newCount then (manager, mounts, false)
  else
    match mountsReserve memory mounts (mounts.items.length + newCount) with
    | none => (manager, mounts, false)
    | some mounts =>
        let (bnd4Mounts, taken) :=
          manager.bnd4Mounts.extract abi sizeofVirtualMount (isNewMount snapshot) mounts.items
        let used := fun device => taken.any fun mount => mount.device == device
        let (devices, _) := manager.devices.extract abi sizeofDevicePointer used []
        ({ devices, bnd4Mounts }, { mounts with items := taken }, true)

/-- `ml_dl_device_push_mounts_permanent`, with the allocators of the two vectors. -/
def pushMounts (devicesAllocator mountsAllocator : GameAllocator) (mounts : VfsMounts) :
    RawManager × VfsMounts × Bool :=
  let deviceCount := manager.devices.count abi sizeofDevicePointer
  let mountCount := manager.bnd4Mounts.count abi sizeofVirtualMount
  let pushed := mounts.items.length
  if pushed = 0 then (manager, mounts, true)
  else if sizeMax - deviceCount < pushed ∨ sizeMax - mountCount < pushed then (manager, mounts, false)
  else
    match manager.devices.reserve abi sizeofDevicePointer devicesAllocator (deviceCount + pushed) with
    | none => (manager, mounts, false)
    | some devices =>
        match manager.bnd4Mounts.reserve abi sizeofVirtualMount mountsAllocator (mountCount + pushed) with
        | none => ({ manager with devices }, mounts, false)
        | some bnd4Mounts =>
            ({ devices := devices.append abi sizeofDevicePointer (mounts.items.map (·.device))
               bnd4Mounts := bnd4Mounts.append abi sizeofVirtualMount mounts.items },
              mlDlMountsInit, true)

variable {abi manager}

/-! ## Detaching -/

theorem sizeofDevicePointer_pos : 0 < sizeofDevicePointer := by decide

theorem sizeofVirtualMount_pos : 0 < sizeofVirtualMount := by decide

theorem newCount_le (valid : manager.Valid abi) (snapshot : MountSnapshot) :
    ((manager.mountItems abi).filter (isNewMount snapshot)).length ≤ sizeMax / sizeofVirtualMount := by
  calc ((manager.mountItems abi).filter (isNewMount snapshot)).length
    _ ≤ (manager.mountItems abi).length := List.length_filter_le ..
    _ = manager.bnd4Mounts.count abi sizeofVirtualMount := GameVector.length_items
    _ ≤ manager.bnd4Mounts.capacity abi sizeofVirtualMount :=
        GameVector.count_le_capacity sizeofVirtualMount_pos valid.bnd4Mounts
    _ ≤ sizeMax / sizeofVirtualMount := GameVector.capacity_le sizeofVirtualMount_pos valid.bnd4Mounts

theorem mountsReserve_items {memory : Bool} {mounts grown : VfsMounts} {wanted : Nat}
    (reserved : mountsReserve memory mounts wanted = some grown) : grown.items = mounts.items := by
  unfold mountsReserve at reserved
  split_ifs at reserved
  · cases reserved
    rfl
  · cases reserved
    rfl

structure Extracted (abi : StlAbi) (snapshot : MountSnapshot) (before after : RawManager)
    (taken : List VirtualMount) : Prop where
  valid : after.Valid abi
  mounts : after.mountItems abi = (before.mountItems abi).filter fun mount => !isNewMount snapshot mount
  fresh : taken = (before.mountItems abi).filter (isNewMount snapshot)
  devices : after.deviceItems abi = (before.deviceItems abi).filter
    fun device => !taken.any fun mount => mount.device == device
  deviceRoom : after.devices.capacity abi sizeofDevicePointer = before.devices.capacity abi sizeofDevicePointer
  mountRoom : after.bnd4Mounts.capacity abi sizeofVirtualMount =
    before.bnd4Mounts.capacity abi sizeofVirtualMount

theorem extractNew_cases (valid : manager.Valid abi) (memory : Bool) (snapshot : MountSnapshot)
    {mounts : VfsMounts} (empty : mounts.items = []) :
    (memory = false ∧ manager.extractNew abi memory snapshot mounts = (manager, mounts, false)) ∨
      ∃ after taken capacity, manager.extractNew abi memory snapshot mounts = (after, ⟨taken, capacity⟩, true) ∧
        Extracted abi snapshot manager after taken := by
  have few := newCount_le valid snapshot
  have small : sizeMax / sizeofVirtualMount ≤ sizeMax := Nat.div_le_self ..
  unfold extractNew
  dsimp only
  rw [if_neg (by rw [empty, List.length_nil]; omega)]
  cases reserved : mountsReserve memory mounts (mounts.items.length +
      ((manager.mountItems abi).filter (isNewMount snapshot)).length) with
  | none =>
      refine .inl ⟨?_, rfl⟩
      unfold mountsReserve at reserved
      split_ifs at reserved with room granted
      simpa using granted
  | some grown =>
      have nothing : grown.items = [] := (mountsReserve_items reserved).trans empty
      right
      dsimp only
      rw [nothing]
      obtain ⟨mounts_valid, mounts_swept, mounts_room⟩ :=
        GameVector.extract_spec sizeofVirtualMount_pos valid.bnd4Mounts (isNewMount snapshot) []
      rw [BackwardSweep.sweep_eq] at mounts_swept
      obtain ⟨left, fresh⟩ := Prod.mk.inj mounts_swept
      generalize manager.bnd4Mounts.extract abi sizeofVirtualMount (isNewMount snapshot) [] = swept at *
      obtain ⟨bnd4Mounts, taken⟩ := swept
      dsimp only at *
      obtain ⟨devices_valid, devices_swept, devices_room⟩ := GameVector.extract_spec sizeofDevicePointer_pos
        valid.devices (fun device => taken.any fun mount => mount.device == device) []
      rw [BackwardSweep.sweep_eq] at devices_swept
      obtain ⟨devices_left, -⟩ := Prod.mk.inj devices_swept
      exact ⟨_, taken, grown.capacity, rfl, ⟨devices_valid, mounts_valid⟩, left, fresh, devices_left,
        devices_room, mounts_room⟩

/-! ## Attaching -/

theorem pushMounts_false (valid : manager.Valid abi) {devicesAllocator mountsAllocator : GameAllocator}
    {mounts mounts' : VfsMounts} {after : RawManager}
    (failed : manager.pushMounts abi devicesAllocator mountsAllocator mounts = (after, mounts', false)) :
    after.deviceItems abi = manager.deviceItems abi ∧ after.mountItems abi = manager.mountItems abi ∧
      mounts' = mounts := by
  unfold pushMounts at failed
  dsimp only at failed
  split_ifs at failed with none_pushed huge
  · cases failed
  · cases failed
    exact ⟨rfl, rfl, rfl⟩
  · split at failed
    · cases failed
      exact ⟨rfl, rfl, rfl⟩
    · rename_i devices reserved
      split at failed
      · cases failed
        obtain ⟨-, items, -⟩ := GameVector.reserve_spec sizeofDevicePointer_pos valid.devices reserved
        exact ⟨items, rfl, rfl⟩
      · cases failed

theorem pushMounts_true (valid : manager.Valid abi) {devicesAllocator mountsAllocator : GameAllocator}
    {mounts mounts' : VfsMounts} {after : RawManager}
    (pushed : manager.pushMounts abi devicesAllocator mountsAllocator mounts = (after, mounts', true)) :
    after.deviceItems abi = manager.deviceItems abi ++ mounts.items.map (·.device) ∧
      after.mountItems abi = manager.mountItems abi ++ mounts.items ∧ mounts'.items = [] ∧ after.Valid abi := by
  unfold pushMounts at pushed
  dsimp only at pushed
  split_ifs at pushed with none_pushed huge
  · cases pushed
    have nothing : mounts.items = [] := List.length_eq_zero_iff.mp none_pushed
    simp [nothing, valid]
  · cases pushed
  · split at pushed
    · cases pushed
    · rename_i devices devices_reserved
      split at pushed
      · cases pushed
      · rename_i bnd4Mounts mounts_reserved
        cases pushed
        have asked : manager.devices.count abi sizeofDevicePointer + mounts.items.length =
            manager.devices.count abi sizeofDevicePointer + (mounts.items.map (·.device)).length := by
          rw [List.length_map]
        rw [asked] at devices_reserved
        obtain ⟨devices_valid, devices_appended, -⟩ :=
          GameVector.reserve_append sizeofDevicePointer_pos valid.devices devices_reserved
        obtain ⟨mounts_valid, mounts_appended, -⟩ :=
          GameVector.reserve_append sizeofVirtualMount_pos valid.bnd4Mounts mounts_reserved
        exact ⟨devices_appended, mounts_appended, rfl, devices_valid, mounts_valid⟩

theorem pushMounts_of_room (valid : manager.Valid abi) (devicesAllocator mountsAllocator : GameAllocator)
    {mounts : VfsMounts}
    (deviceRoom : manager.devices.count abi sizeofDevicePointer + mounts.items.length ≤
      manager.devices.capacity abi sizeofDevicePointer)
    (mountRoom : manager.bnd4Mounts.count abi sizeofVirtualMount + mounts.items.length ≤
      manager.bnd4Mounts.capacity abi sizeofVirtualMount) :
    ∃ after mounts', manager.pushMounts abi devicesAllocator mountsAllocator mounts =
      (after, mounts', true) := by
  have devices_small := GameVector.capacity_le sizeofDevicePointer_pos valid.devices
  have mounts_small := GameVector.capacity_le sizeofVirtualMount_pos valid.bnd4Mounts
  have : sizeMax / sizeofDevicePointer ≤ sizeMax := Nat.div_le_self ..
  have : sizeMax / sizeofVirtualMount ≤ sizeMax := Nat.div_le_self ..
  unfold pushMounts
  dsimp only
  split_ifs with none_pushed huge
  · exact ⟨_, _, rfl⟩
  · omega
  · rw [GameVector.reserve_of_room sizeofDevicePointer_pos valid.devices devicesAllocator deviceRoom,
      GameVector.reserve_of_room sizeofVirtualMount_pos valid.bnd4Mounts mountsAllocator mountRoom]
    exact ⟨_, _, rfl⟩

/-! ## The manager as the hooks see it -/

def toDeviceManager (abi : StlAbi) (manager : RawManager) : DeviceManager :=
  ⟨manager.devices.toDlVector abi sizeofDevicePointer, manager.bnd4Mounts.toDlVector abi sizeofVirtualMount⟩

theorem extractNew_refines (valid : manager.Valid abi) (memory : Bool) (snapshot : MountSnapshot)
    {mounts : VfsMounts} (empty : mounts.items = []) :
    let extracted := manager.extractNew abi memory snapshot mounts
    mlDlDeviceExtractNew memory (manager.toDeviceManager abi) snapshot mounts =
      if extracted.2.2 then some (extracted.1.toDeviceManager abi, extracted.2.1) else none := by
  have few := newCount_le valid snapshot
  have small : sizeMax / sizeofVirtualMount ≤ sizeMax := Nat.div_le_self ..
  have start : (manager.toDeviceManager abi).bnd4Mounts.items = manager.mountItems abi := rfl
  have no_overflow : ¬(sizeMax - mounts.items.length < ((manager.mountItems abi).filter (isNewMount snapshot)).length ∨
      sizeMax / sizeofVirtualMount <
        mounts.items.length + ((manager.mountItems abi).filter (isNewMount snapshot)).length) := by
    rw [empty, List.length_nil]
    omega
  unfold extractNew mlDlDeviceExtractNew
  dsimp only
  rw [if_neg no_overflow, start]
  cases mountsReserve memory mounts (mounts.items.length +
      ((manager.mountItems abi).filter (isNewMount snapshot)).length) with
  | none => rfl
  | some grown =>
      obtain ⟨-, mounts_swept, mounts_room⟩ := GameVector.extract_spec sizeofVirtualMount_pos
        valid.bnd4Mounts (isNewMount snapshot) grown.items
      obtain ⟨-, devices_swept, devices_room⟩ := GameVector.extract_spec sizeofDevicePointer_pos valid.devices
        (fun device => (manager.bnd4Mounts.extract abi sizeofVirtualMount (isNewMount snapshot) grown.items).2.any
          fun mount => mount.device == device) []
      simp only [if_true, toDeviceManager, GameVector.toDlVector, mounts_room, devices_room, mountItems,
        ← mounts_swept, ← devices_swept]

theorem vectorReserve_false {α : Type} {vector : DlVector α} {wanted : Nat} (full : vector.capacity < wanted) :
    vectorReserve false vector wanted = none := by
  rw [vectorReserve, if_neg (Nat.not_le.mpr full)]
  rfl

theorem pushMounts_refines (valid : manager.Valid abi) (devicesAllocator mountsAllocator : GameAllocator)
    (mounts : VfsMounts) :
    let pushed := manager.pushMounts abi devicesAllocator mountsAllocator mounts
    ∃ devicesMemory mountsMemory,
      mlDlDevicePushMountsPermanent devicesMemory mountsMemory (manager.toDeviceManager abi) mounts =
        (pushed.1.toDeviceManager abi, pushed.2.2) := by
  have devices_small := GameVector.capacity_le sizeofDevicePointer_pos valid.devices
  have mounts_small := GameVector.capacity_le sizeofVirtualMount_pos valid.bnd4Mounts
  have : sizeMax / sizeofDevicePointer ≤ sizeMax := Nat.div_le_self ..
  have : sizeMax / sizeofVirtualMount ≤ sizeMax := Nat.div_le_self ..
  obtain ⟨items, capacity⟩ := mounts
  cases items with
  | nil => exact ⟨true, true, rfl⟩
  | cons mount rest =>
      have device_count : (manager.toDeviceManager abi).devices.items.length =
          manager.devices.count abi sizeofDevicePointer := GameVector.length_items
      have mount_count : (manager.toDeviceManager abi).bnd4Mounts.items.length =
          manager.bnd4Mounts.count abi sizeofVirtualMount := GameVector.length_items
      have devices_reserve := GameVector.reserve_refines sizeofDevicePointer_pos valid.devices devicesAllocator
        (manager.devices.count abi sizeofDevicePointer + (mount :: rest).length)
      have mounts_reserve := GameVector.reserve_refines sizeofVirtualMount_pos valid.bnd4Mounts mountsAllocator
        (manager.bnd4Mounts.count abi sizeofVirtualMount + (mount :: rest).length)
      have pushing : ¬(mount :: rest).length = 0 := Nat.succ_ne_zero _
      have devices_seen : (manager.toDeviceManager abi).devices =
          manager.devices.toDlVector abi sizeofDevicePointer := rfl
      have mounts_seen : (manager.toDeviceManager abi).bnd4Mounts =
          manager.bnd4Mounts.toDlVector abi sizeofVirtualMount := rfl
      unfold pushMounts mlDlDevicePushMountsPermanent
      dsimp only
      rw [device_count, mount_count, if_neg pushing]
      split_ifs with huge
      · refine ⟨false, false, ?_⟩
        rcases huge with huge | huge
        · have full : (manager.toDeviceManager abi).devices.capacity <
              manager.devices.count abi sizeofDevicePointer + (mount :: rest).length := by
            rw [devices_seen, GameVector.toDlVector]
            dsimp only
            omega
          rw [vectorReserve_false full]
        · have full : (manager.toDeviceManager abi).bnd4Mounts.capacity <
              manager.bnd4Mounts.count abi sizeofVirtualMount + (mount :: rest).length := by
            rw [mounts_seen, GameVector.toDlVector]
            dsimp only
            omega
          rw [vectorReserve_false full, vectorReserve]
          split_ifs with _ granted
          · rfl
          · cases granted
          · rfl
      · refine ⟨devicesAllocator.grants sizeofDevicePointer
            (manager.devices.count abi sizeofDevicePointer + (mount :: rest).length),
          mountsAllocator.grants sizeofVirtualMount
            (manager.bnd4Mounts.count abi sizeofVirtualMount + (mount :: rest).length), ?_⟩
        rw [devices_seen, mounts_seen, ← devices_reserve, ← mounts_reserve]
        cases devices_reserved : manager.devices.reserve abi sizeofDevicePointer devicesAllocator
            (manager.devices.count abi sizeofDevicePointer + (mount :: rest).length) with
        | none => rfl
        | some devices =>
            cases mounts_reserved : manager.bnd4Mounts.reserve abi sizeofVirtualMount mountsAllocator
                (manager.bnd4Mounts.count abi sizeofVirtualMount + (mount :: rest).length) with
            | none => rfl
            | some bnd4Mounts =>
                have asked : (mount :: rest).length = ((mount :: rest).map (·.device)).length := by
                  rw [List.length_map]
                obtain ⟨-, mounts_items, -⟩ :=
                  GameVector.reserve_spec sizeofVirtualMount_pos valid.bnd4Mounts mounts_reserved
                obtain ⟨-, mounts_appended, mounts_room⟩ :=
                  GameVector.reserve_append sizeofVirtualMount_pos valid.bnd4Mounts mounts_reserved
                obtain ⟨-, devices_items, -⟩ :=
                  GameVector.reserve_spec sizeofDevicePointer_pos valid.devices devices_reserved
                rw [asked] at devices_reserved
                obtain ⟨-, devices_appended, devices_room⟩ :=
                  GameVector.reserve_append sizeofDevicePointer_pos valid.devices devices_reserved
                simp only [Option.map_some, toDeviceManager, GameVector.toDlVector, devices_appended,
                  devices_room, mounts_appended, mounts_room, devices_items, mounts_items]

end RawManager

/-! ## There and back -/

/-- The mounts that a snapshot does not know have devices of their own, each once in the vector. -/
structure OwnDevices (snapshot : MountSnapshot) (mounts : List VirtualMount) (devices : List Nat) : Prop where
  distinct : (mounts.filter (isNewMount snapshot)).Pairwise fun a b => a.device ≠ b.device
  once : ∀ mount ∈ mounts, isNewMount snapshot mount = true → devices.count mount.device = 1

namespace OwnDevices

variable {snapshot : MountSnapshot} {mounts : List VirtualMount} {devices : List Nat}

theorem perm (own : OwnDevices snapshot mounts devices) :
    (devices.filter fun device => (mounts.filter (isNewMount snapshot)).any fun mount => mount.device == device).Perm
      ((mounts.filter (isNewMount snapshot)).map (·.device)) := by
  have nodup : ((mounts.filter (isNewMount snapshot)).map (·.device)).Nodup := List.pairwise_map.mpr own.distinct
  rw [List.perm_iff_count]
  intro device
  by_cases used : device ∈ (mounts.filter (isNewMount snapshot)).map (·.device)
  · obtain ⟨mount, fresh, rfl⟩ := List.mem_map.mp used
    obtain ⟨member, new⟩ := List.mem_filter.mp fresh
    rw [List.count_eq_one_of_mem nodup used, List.count_filter]
    · exact own.once mount member new
    · exact List.any_eq_true.mpr ⟨mount, fresh, beq_self_eq_true _⟩
  · rw [List.count_eq_zero_of_not_mem used, List.count_eq_zero]
    intro member
    obtain ⟨mount, fresh, same⟩ := List.any_eq_true.mp (List.mem_filter.mp member).2
    exact used (List.mem_map.mpr ⟨mount, fresh, beq_iff_eq.mp same⟩)

theorem filter_front {others : List Nat}
    (own : OwnDevices snapshot mounts (others ++ (mounts.filter (isNewMount snapshot)).map (·.device))) :
    (others ++ (mounts.filter (isNewMount snapshot)).map (·.device)).filter
      (fun device => !(mounts.filter (isNewMount snapshot)).any fun mount => mount.device == device) = others := by
  rw [List.filter_append]
  have kept : others.filter (fun device =>
      !(mounts.filter (isNewMount snapshot)).any fun mount => mount.device == device) = others := by
    apply List.filter_eq_self.mpr
    intro device member
    rw [Bool.not_eq_true', List.any_eq_false]
    rintro mount fresh same
    obtain rfl : mount.device = device := beq_iff_eq.mp same
    obtain ⟨listed, new⟩ := List.mem_filter.mp fresh
    have once := own.once mount listed new
    have here := List.count_pos_iff.mpr member
    have there := List.count_pos_iff.mpr (List.mem_map_of_mem (f := (·.device)) fresh)
    rw [List.count_append] at once
    omega
  have gone : ((mounts.filter (isNewMount snapshot)).map (·.device)).filter (fun device =>
      !(mounts.filter (isNewMount snapshot)).any fun mount => mount.device == device) = [] := by
    apply List.filter_eq_nil_iff.mpr
    intro device member
    obtain ⟨mount, fresh, rfl⟩ := List.mem_map.mp member
    rw [Bool.not_eq_true', Bool.not_eq_false]
    exact List.any_eq_true.mpr ⟨mount, fresh, beq_self_eq_true _⟩
  rw [kept, gone, List.append_nil]

end OwnDevices

namespace RawManager.Extracted

variable {abi : StlAbi} {snapshot : MountSnapshot} {before after : RawManager} {taken : List VirtualMount}
  (spec : Extracted abi snapshot before after taken)
  (own : OwnDevices snapshot (before.mountItems abi) (before.deviceItems abi))

include spec

theorem mounts_perm : (after.mountItems abi ++ taken).Perm (before.mountItems abi) := by
  rw [spec.mounts, spec.fresh]
  exact List.perm_append_comm.trans (List.filter_append_perm _ _)

include own

theorem devices_perm : (after.deviceItems abi ++ taken.map (·.device)).Perm (before.deviceItems abi) := by
  have used := own.perm
  rw [← spec.fresh] at used
  rw [spec.devices]
  exact (used.symm.append_left _).trans (List.perm_append_comm.trans (List.filter_append_perm _ _))

theorem pushes (valid : before.Valid abi) (capacity : Nat) (devicesAllocator mountsAllocator : GameAllocator) :
    ∃ final mounts', after.pushMounts abi devicesAllocator mountsAllocator ⟨taken, capacity⟩ =
      (final, mounts', true) := by
  have devices := (spec.devices_perm own).length_eq
  have mounts := spec.mounts_perm.length_eq
  rw [List.length_append, List.length_map] at devices
  rw [List.length_append] at mounts
  apply pushMounts_of_room spec.valid
  · rw [spec.deviceRoom, ← GameVector.length_items]
    refine Nat.le_trans (Nat.le_of_eq devices) ?_
    rw [deviceItems, GameVector.length_items]
    exact GameVector.count_le_capacity sizeofDevicePointer_pos valid.devices
  · rw [spec.mountRoom, ← GameVector.length_items]
    refine Nat.le_trans (Nat.le_of_eq mounts) ?_
    rw [mountItems, GameVector.length_items]
    exact GameVector.count_le_capacity sizeofVirtualMount_pos valid.bnd4Mounts

theorem same_of_end {known : List VirtualMount} {others : List Nat}
    (mounts_end : before.mountItems abi = known ++ taken)
    (devices_end : before.deviceItems abi = others ++ taken.map (·.device)) :
    after.mountItems abi ++ taken = before.mountItems abi ∧
      after.deviceItems abi ++ taken.map (·.device) = before.deviceItems abi := by
  have fresh := spec.fresh
  have none_new : known.filter (isNewMount snapshot) = [] := by
    have all_new : taken.filter (isNewMount snapshot) = taken := by
      rw [spec.fresh, List.filter_filter]
      simp
    rw [mounts_end, List.filter_append, all_new] at fresh
    exact List.self_eq_append_left.mp fresh
  have all_old : known.filter (fun mount => !isNewMount snapshot mount) = known := by
    simpa [List.filter_eq_nil_iff, List.filter_eq_self] using none_new
  have none_old : taken.filter (fun mount => !isNewMount snapshot mount) = [] := by
    rw [spec.fresh, List.filter_filter]
    simp
  constructor
  · rw [spec.mounts, mounts_end, List.filter_append, all_old, none_old, List.append_nil]
  · rw [devices_end, spec.fresh] at own
    have front := own.filter_front
    rw [← spec.fresh, ← devices_end] at front
    rw [spec.devices, front, devices_end]

end RawManager.Extracted

/-- Detaching takes out the mounts the snapshot does not know, and attaching them again loses nothing. The
manager that the asset hooks are modelled on does the same. -/
theorem extractNew_pushMounts (abi : StlAbi) {manager : RawManager} (valid : manager.Valid abi)
    {snapshot : MountSnapshot} (own : OwnDevices snapshot (manager.mountItems abi) (manager.deviceItems abi))
    (mounts : VfsMounts) (empty : mounts.items = []) (memory : Bool)
    (devicesAllocator mountsAllocator : GameAllocator) :
    let extracted := manager.extractNew abi memory snapshot mounts
    let taken := extracted.2.1.items
    (extracted.2.2 = false → memory = false ∧ extracted.1 = manager ∧ extracted.2.1 = mounts) ∧
    (extracted.2.2 = true →
      extracted.1.mountItems abi = (manager.mountItems abi).filter (fun mount => !isNewMount snapshot mount) ∧
      taken = (manager.mountItems abi).filter (isNewMount snapshot) ∧
      extracted.1.deviceItems abi = (manager.deviceItems abi).filter
        (fun device => !taken.any fun mount => mount.device == device) ∧
      ∃ after mounts', extracted.1.pushMounts abi devicesAllocator mountsAllocator extracted.2.1 =
          (after, mounts', true) ∧ mounts'.items = [] ∧
        after.mountItems abi = extracted.1.mountItems abi ++ taken ∧
        after.deviceItems abi = extracted.1.deviceItems abi ++ taken.map (·.device) ∧
        (after.mountItems abi).Perm (manager.mountItems abi) ∧
        (after.deviceItems abi).Perm (manager.deviceItems abi) ∧
        ∀ known others, manager.mountItems abi = known ++ taken →
          manager.deviceItems abi = others ++ taken.map (·.device) →
          after.mountItems abi = manager.mountItems abi ∧ after.deviceItems abi = manager.deviceItems abi) ∧
    (∀ (other after : RawManager) (pushed left : VfsMounts), other.Valid abi →
      other.pushMounts abi devicesAllocator mountsAllocator pushed = (after, left, false) →
      after.deviceItems abi = other.deviceItems abi ∧ after.mountItems abi = other.mountItems abi ∧
        left = pushed) ∧
    mlDlDeviceExtractNew memory (manager.toDeviceManager abi) snapshot mounts =
      (if extracted.2.2 then some (extracted.1.toDeviceManager abi, extracted.2.1) else none) ∧
    ∀ (other : RawManager) (pushed : VfsMounts), other.Valid abi → ∃ devicesMemory mountsMemory,
      mlDlDevicePushMountsPermanent devicesMemory mountsMemory (other.toDeviceManager abi) pushed =
        ((other.pushMounts abi devicesAllocator mountsAllocator pushed).1.toDeviceManager abi,
          (other.pushMounts abi devicesAllocator mountsAllocator pushed).2.2) := by
  intro extracted taken
  refine ⟨?_, ?_, fun other after pushed left valid failed => RawManager.pushMounts_false valid failed,
    RawManager.extractNew_refines valid memory snapshot empty,
    fun other pushed valid => RawManager.pushMounts_refines valid devicesAllocator mountsAllocator pushed⟩
  · intro failed
    rcases RawManager.extractNew_cases valid memory snapshot empty with
      ⟨refused, same⟩ | ⟨after, taken, capacity, done, -⟩
    · exact ⟨refused, by simp only [extracted, same], by simp only [extracted, same]⟩
    · simp only [extracted, done] at failed
      cases failed
  · intro succeeded
    rcases RawManager.extractNew_cases valid memory snapshot empty with
      ⟨-, same⟩ | ⟨detached, fresh, capacity, done, spec⟩
    · simp only [extracted, same] at succeeded
      cases succeeded
    simp only [extracted, taken, done]
    obtain ⟨after, mounts', pushed⟩ := spec.pushes own valid capacity devicesAllocator mountsAllocator
    obtain ⟨devices, mounts_after, emptied, -⟩ := RawManager.pushMounts_true spec.valid pushed
    dsimp only at devices mounts_after
    have mounts_perm := spec.mounts_perm
    have devices_perm := spec.devices_perm own
    rw [← mounts_after] at mounts_perm
    rw [← devices] at devices_perm
    refine ⟨spec.mounts, spec.fresh, spec.devices, after, mounts', pushed, emptied, mounts_after, devices,
      mounts_perm, devices_perm, fun known others mounts_end devices_end => ?_⟩
    rw [mounts_after, devices]
    exact spec.same_of_end own mounts_end devices_end

/-- Two mounts of two devices; the snapshot knows the first. -/
def twoMounts : RawManager where
  devices := ⟨⟨16, 32, 32, 8⟩, fun address => if address = 16 then 1 else 2⟩
  bnd4Mounts := ⟨⟨4096, 4224, 4224, 8⟩,
    fun address => if address = 4096 then ⟨some (wide "a"), 1, .game⟩ else ⟨some (wide "b"), 2, .full⟩⟩

theorem extractNew_pushMounts_two : ∃ after mounts', (twoMounts.extractNew .msvc2012 true [some (wide "a")]
    mlDlMountsInit).1.pushMounts .msvc2012 ⟨fun _ => none, by simp⟩ ⟨fun _ => none, by simp⟩
      (twoMounts.extractNew .msvc2012 true [some (wide "a")] mlDlMountsInit).2.1 = (after, mounts', true) ∧
    after.mountItems .msvc2012 = twoMounts.mountItems .msvc2012 ∧
    after.deviceItems .msvc2012 = twoMounts.deviceItems .msvc2012 := by
  have valid : twoMounts.Valid .msvc2012 := ⟨⟨by decide, by decide, by decide⟩, ⟨by decide, by decide, by decide⟩⟩
  have own : OwnDevices [some (wide "a")] (twoMounts.mountItems .msvc2012) (twoMounts.deviceItems .msvc2012) :=
    ⟨by decide, by decide⟩
  have there_and_back := extractNew_pushMounts .msvc2012 valid own mlDlMountsInit rfl true
    ⟨fun _ => none, by simp⟩ ⟨fun _ => none, by simp⟩
  obtain ⟨-, -, -, after, mounts', pushed, -, -, -, -, -, same⟩ := there_and_back.2.1 (by decide)
  obtain ⟨mounts, devices⟩ := same [⟨some (wide "a"), 1, .game⟩] [1] (by decide) (by decide)
  exact ⟨after, mounts', pushed, mounts, devices⟩

end Yafsml.Patches
