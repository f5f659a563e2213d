import Yafsml.Foundation.BackwardSweep
import Yafsml.Text.Wide

/-! # The game's device manager -/

namespace Yafsml.Patches

/-- What was mounted: something the game mounted earlier, the truncated stub file of
`boot_boost_mount`, or the archive at the real BHD path. -/
inductive MountSource where
  | game
  | stub
  | full
deriving DecidableEq, Repr

/-- `root` is what `ml_dl_string_data` returns for the mount's root string. -/
structure VirtualMount where
  root : Option WString
  device : Nat
  source : MountSource
deriving DecidableEq, Repr

/-- A vector of the game: `first` to `last`, and the number of items `first` to `end` has room
for. -/
structure DlVector (α : Type) where
  items : List α
  capacity : Nat
deriving DecidableEq, Repr

structure DeviceManager where
  devices : DlVector Nat
  bnd4Mounts : DlVector VirtualMount
deriving DecidableEq, Repr

/-- The loader's own list of detached mounts, an `ml_dl_vfs_mounts_t`. -/
structure VfsMounts where
  items : List VirtualMount
  capacity : Nat
deriving DecidableEq, Repr

def mlDlMountsInit : VfsMounts := ⟨[], 0⟩

abbrev MountSnapshot := List (Option WString)

/-- `memory` tells whether its allocations succeed. -/
def mlDlMountSnapshot (memory : Bool) (manager : DeviceManager) : Option MountSnapshot :=
  match manager.bnd4Mounts.items with
  | [] => some []
  | _ :: _ => if memory then some (manager.bnd4Mounts.items.map (·.root)) else none

def snapshotContains (snapshot : MountSnapshot) (root : Option WString) : Bool :=
  match root with
  | none => false
  | some root => snapshot.any (fun taken => taken == some root)

def isNewMount (snapshot : MountSnapshot) (mount : VirtualMount) : Bool :=
  mount.root.isSome && !snapshotContains snapshot mount.root

def mountsReserve (memory : Bool) (mounts : VfsMounts) (capacity : Nat) : Option VfsMounts :=
  if capacity ≤ mounts.capacity then some mounts
  else if memory then some { mounts with capacity := capacity } else none

def vectorReserve {α : Type} (memory : Bool) (vector : DlVector α) (count : Nat) :
    Option (DlVector α) :=
  if count ≤ vector.capacity then some vector
  else if memory then some { vector with capacity := count } else none

def mlDlDeviceExtractNew (memory : Bool) (manager : DeviceManager) (snapshot : MountSnapshot)
    (mounts : VfsMounts) : Option (DeviceManager × VfsMounts) :=
  let newCount := (manager.bnd4Mounts.items.filter (isNewMount snapshot)).length
  match mountsReserve memory mounts (mounts.items.length + newCount) with
  | none => none
  | some mounts =>
      let swept := BackwardSweep.sweep (isNewMount snapshot) manager.bnd4Mounts.items.length
        manager.bnd4Mounts.items mounts.items
      let used := fun device => swept.2.any (fun mount => mount.device == device)
      let devices := BackwardSweep.sweep used manager.devices.items.length manager.devices.items []
      some ({ devices := { manager.devices with items := devices.1 }
              bnd4Mounts := { manager.bnd4Mounts with items := swept.1 } },
            { mounts with items := swept.2 })

/-- The two flags tell whether growing `devices` and `bnd4_mounts` finds memory. -/
def mlDlDevicePushMountsPermanent (devicesMemory mountsMemory : Bool) (manager : DeviceManager)
    (mounts : VfsMounts) : DeviceManager × Bool :=
  match mounts.items with
  | [] => (manager, true)
  | _ :: _ =>
      match vectorReserve devicesMemory manager.devices
          (manager.devices.items.length + mounts.items.length) with
      | none => (manager, false)
      | some devices =>
          match vectorReserve mountsMemory manager.bnd4Mounts
              (manager.bnd4Mounts.items.length + mounts.items.length) with
          | none => ({ manager with devices := devices }, false)
          | some bnd4Mounts =>
              ({ devices :=
                   { devices with items := devices.items ++ mounts.items.map (·.device) }
                 bnd4Mounts := { bnd4Mounts with items := bnd4Mounts.items ++ mounts.items } },
               true)

/-- In the manager's list, and the device is still one the manager opens files with. -/
def DeviceManager.Attached (manager : DeviceManager) (mount : VirtualMount) : Prop :=
  mount ∈ manager.bnd4Mounts.items ∧ mount.device ∈ manager.devices.items

def DeviceManager.Known (manager : DeviceManager) (snapshot : MountSnapshot) : Prop :=
  ∀ mount ∈ manager.bnd4Mounts.items, isNewMount snapshot mount = false

theorem known_of_snapshot {memory : Bool} {manager : DeviceManager} {snapshot : MountSnapshot}
    (taken : mlDlMountSnapshot memory manager = some snapshot) : manager.Known snapshot := by
  intro mount member
  unfold mlDlMountSnapshot at taken
  split at taken
  · rename_i nothing
    rw [nothing] at member
    cases member
  · split at taken
    · cases taken
      cases root : mount.root with
      | none => simp [isNewMount, root]
      | some root' =>
          simp only [isNewMount, root, snapshotContains, Option.isSome_some, Bool.true_and,
            Bool.not_eq_false', List.any_map, List.any_eq_true]
          exact ⟨mount, member, by simp [root]⟩
    · cases taken

theorem vectorReserve_items {α : Type} {memory : Bool} {vector grown : DlVector α} {count : Nat}
    (reserved : vectorReserve memory vector count = some grown) : grown.items = vector.items := by
  unfold vectorReserve at reserved
  split at reserved
  · cases reserved
    rfl
  · split at reserved
    · cases reserved
      rfl
    · cases reserved

theorem extractNew_spec {memory : Bool} {manager manager' : DeviceManager}
    {snapshot : MountSnapshot} {mounts : VfsMounts}
    (extracted : mlDlDeviceExtractNew memory manager snapshot mlDlMountsInit =
      some (manager', mounts)) :
    manager'.bnd4Mounts.items =
        manager.bnd4Mounts.items.filter (fun mount => !isNewMount snapshot mount) ∧
      mounts.items = manager.bnd4Mounts.items.filter (isNewMount snapshot) ∧
      manager'.devices.items = manager.devices.items.filter
        (fun device => !mounts.items.any (fun mount => mount.device == device)) := by
  unfold mlDlDeviceExtractNew mountsReserve mlDlMountsInit at extracted
  simp only [List.length_nil, Nat.zero_add] at extracted
  split at extracted
  · cases extracted
  · rename_i reserved found
    have nothing : reserved.items = [] := by
      split at found
      · cases found
        rfl
      · split at found
        · cases found
          rfl
        · cases found
    simp only [nothing, BackwardSweep.sweep_eq, Option.some.injEq, Prod.mk.injEq] at extracted
    obtain ⟨rfl, rfl⟩ := extracted
    exact ⟨rfl, rfl, rfl⟩

theorem extractNew_none {memory : Bool} {manager : DeviceManager} {snapshot : MountSnapshot} :
    mlDlDeviceExtractNew memory manager snapshot mlDlMountsInit = none ↔
      memory = false ∧ ∃ mount ∈ manager.bnd4Mounts.items, isNewMount snapshot mount = true := by
  have none_new : (manager.bnd4Mounts.items.filter (isNewMount snapshot)).length = 0 ↔
      ¬∃ mount ∈ manager.bnd4Mounts.items, isNewMount snapshot mount = true := by
    simp [List.length_eq_zero_iff, List.filter_eq_nil_iff]
  unfold mlDlDeviceExtractNew mountsReserve mlDlMountsInit
  simp only [List.length_nil, Nat.zero_add, Nat.le_zero]
  by_cases empty : (manager.bnd4Mounts.items.filter (isNewMount snapshot)).length = 0
  · simp [empty, none_new.mp empty]
  · have some_new := not_not.mp (mt none_new.mpr empty)
    cases memory with
    | true => simp [empty]
    | false => simp [empty, some_new]

theorem pushMounts_spec (devicesMemory mountsMemory : Bool) (manager : DeviceManager)
    (mounts : VfsMounts) :
    let pushed := mlDlDevicePushMountsPermanent devicesMemory mountsMemory manager mounts
    (pushed.2 = true →
      pushed.1.bnd4Mounts.items = manager.bnd4Mounts.items ++ mounts.items ∧
        pushed.1.devices.items = manager.devices.items ++ mounts.items.map (·.device)) ∧
      (pushed.2 = false → pushed.1.bnd4Mounts.items = manager.bnd4Mounts.items) := by
  unfold mlDlDevicePushMountsPermanent
  split
  · rename_i nothing
    simp [nothing]
  · split
    · simp
    · rename_i devices devicesReserved
      split
      · simp
      · rename_i bnd4Mounts mountsReserved
        simp [vectorReserve_items devicesReserved, vectorReserve_items mountsReserved]

/-- A mount that `MountEbl` has just added is the only one a snapshot from before can miss. -/
theorem filter_new_append {snapshot : MountSnapshot} {known : List VirtualMount}
    (mount : VirtualMount) (old : ∀ other ∈ known, isNewMount snapshot other = false) :
    (known ++ [mount]).filter (isNewMount snapshot) =
        (if isNewMount snapshot mount then [mount] else []) ∧
      (known ++ [mount]).filter (fun other => !isNewMount snapshot other) =
        known ++ if isNewMount snapshot mount then [] else [mount] := by
  have none_new : known.filter (isNewMount snapshot) = [] := by
    simpa [List.filter_eq_nil_iff] using old
  have all_old : known.filter (fun other => !isNewMount snapshot other) = known := by
    simpa [List.filter_eq_self] using old
  rw [List.filter_append, List.filter_append, none_new, all_old]
  cases fresh : isNewMount snapshot mount with
  | true => simp [fresh]
  | false => simp [fresh]

end Yafsml.Patches
