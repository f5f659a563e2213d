import Yafsml.Patches.BootBoost

/-! # A mount reported as done is done -/

namespace Yafsml.Patches

def NewMount.mount (new : NewMount) (source : MountSource) : VirtualMount :=
  ⟨new.root, new.device, source⟩

def MountWorld.mounts (world : MountWorld) : List VirtualMount := world.manager.bnd4Mounts.items

def MountWorld.fullCount (world : MountWorld) : Nat :=
  world.mounts.countP fun mount => mount.source == .full

def MountWorld.NoFull (world : MountWorld) : Prop :=
  ∀ mount ∈ world.mounts, mount.source ≠ .full

def BoostOutcome.FullAttached (outcome : BoostOutcome) : Prop :=
  ∃ mount, outcome.world.manager.Attached mount ∧ mount.source = .full

def BoostOutcome.StubFilled (outcome : BoostOutcome) : Prop :=
  ∃ mount contents, outcome.world.manager.Attached mount ∧ mount.source = .stub ∧
    outcome.loaded = some contents ∧
    outcome.world.holders mount.device =
      assignBhdContents contents (dwordAt contents 16) (dwordAt contents 20)

structure BoostOutcome.Complete (outcome : BoostOutcome) : Prop where
  mounted : outcome.result = true → outcome.FullAttached ∨ outcome.StubFilled
  single : outcome.world.fullCount ≤ 1

/-- The stub was mounted and is what the call leaves: the manager could not be locked again, or
the stub's root is a new one and there was no memory to detach its mount. -/
def LeavesStub (env : MountEnvironment) : Prop :=
  env.bootBoost = true ∧ boostPossible env = true ∧ stubWritten env = true ∧
    ∃ snapshot, mlDlMountSnapshot env.snapshotMemory env.world.manager = some snapshot ∧
      ∃ new, env.mountStub = some new ∧
        (env.relockStub = false ∨
          isNewMount snapshot (new.mount .stub) = true ∧ env.extractStubMemory = false)

/-! ## The stages of the call -/

theorem MountWorld.NoFull.single {world : MountWorld} (none_full : world.NoFull) :
    world.fullCount ≤ 1 := by
  have none_counted : world.fullCount = 0 := by
    rw [fullCount, List.countP_eq_zero]
    simpa using fun mount member => none_full mount member
  rw [none_counted]
  exact Nat.zero_le 1

theorem fullCount_append {world : MountWorld} {known : List VirtualMount} {mount : VirtualMount}
    (items : world.mounts = known ++ [mount])
    (old : ∀ other ∈ known, other.source ≠ .full) : world.fullCount ≤ 1 := by
  have none_old : known.countP (fun other => other.source == .full) = 0 := by
    simpa [List.countP_eq_zero] using old
  unfold MountWorld.fullCount
  rw [items, List.countP_append, none_old, Nat.zero_add]
  exact List.countP_le_length

theorem world_noFull (env : MountEnvironment) : env.world.NoFull := by
  intro mount member
  obtain ⟨_, _, rfl⟩ := List.mem_map.mp member
  simp

theorem mountEbl_mounts (source : MountSource) (new : NewMount) (world : MountWorld) :
    (mountEbl source (some new) world).1.mounts = world.mounts ++ [new.mount source] := rfl

theorem mountEbl_attached (source : MountSource) (new : NewMount) (world : MountWorld) :
    (mountEbl source (some new) world).1.manager.Attached (new.mount source) := by
  simp [mountEbl, DeviceManager.Attached, NewMount.mount]

/-- What extraction leaves after `MountEbl`: either the new mount's root is old and nothing
changes, or exactly the new mount is taken out. -/
theorem extract_mounted {memory : Bool} {source : MountSource} {new : NewMount}
    {world : MountWorld} {snapshot : MountSnapshot} {manager : DeviceManager}
    {mounts : VfsMounts} (known : world.manager.Known snapshot)
    (extracted : mlDlDeviceExtractNew memory (mountEbl source (some new) world).1.manager snapshot
      mlDlMountsInit = some (manager, mounts)) :
    isNewMount snapshot (new.mount source) = false ∧ mounts.items = [] ∧
        manager.bnd4Mounts.items = world.mounts ++ [new.mount source] ∧
        manager.Attached (new.mount source) ∨
      isNewMount snapshot (new.mount source) = true ∧ mounts.items = [new.mount source] ∧
        manager.bnd4Mounts.items = world.mounts := by
  obtain ⟨kept, taken, devices⟩ := extractNew_spec extracted
  obtain ⟨fresh, old⟩ := filter_new_append (new.mount source) known
  change manager.bnd4Mounts.items = (world.mounts ++ [new.mount source]).filter _ at kept
  change mounts.items = (world.mounts ++ [new.mount source]).filter _ at taken
  rw [show world.mounts = world.manager.bnd4Mounts.items from rfl] at kept taken ⊢
  rw [old] at kept
  rw [fresh] at taken
  cases isNew : isNewMount snapshot (new.mount source) with
  | true =>
      right
      simp only [isNew, if_true, List.append_nil] at kept taken
      exact ⟨rfl, taken, kept⟩
  | false =>
      left
      simp only [isNew, Bool.false_eq_true, if_false] at kept taken
      refine ⟨rfl, taken, kept, ?_, ?_⟩
      · simp [kept]
      · rw [devices, taken]
        simp [mountEbl, NewMount.mount]

theorem push_one (devicesMemory mountsMemory : Bool) (manager : DeviceManager)
    {mounts : VfsMounts} {mount : VirtualMount} (items : mounts.items = [mount]) :
    let pushed := mlDlDevicePushMountsPermanent devicesMemory mountsMemory manager mounts
    (pushed.2 = true → pushed.1.bnd4Mounts.items = manager.bnd4Mounts.items ++ [mount] ∧
      pushed.1.Attached mount) ∧
    (pushed.2 = false → pushed.1.bnd4Mounts.items = manager.bnd4Mounts.items) := by
  have spec := pushMounts_spec devicesMemory mountsMemory manager mounts
  simp only [items, List.map_cons, List.map_nil] at spec
  constructor
  · intro done
    obtain ⟨pushedMounts, pushedDevices⟩ := spec.1 done
    exact ⟨pushedMounts, by simp [pushedMounts], by simp [pushedDevices]⟩
  · exact spec.2

/-- What the caller relies on at the exit: `result` means that a usable archive is attached, its
absence that no full mount is left. -/
structure BoostOutcome.Settled (outcome : BoostOutcome) : Prop where
  attached : outcome.result = true → outcome.FullAttached ∨ outcome.StubFilled
  single : outcome.world.fullCount ≤ 1
  failed : outcome.result = false → outcome.world.NoFull

theorem BoostOutcome.Settled.of_noFull {outcome : BoostOutcome} (failed : outcome.result = false)
    (none_full : outcome.world.NoFull) : outcome.Settled where
  attached := by simp [failed]
  single := none_full.single
  failed := fun _ => none_full

theorem BoostOutcome.Settled.of_full {outcome : BoostOutcome} {known : List VirtualMount}
    {mount : VirtualMount} (done : outcome.result = true)
    (items : outcome.world.mounts = known ++ [mount])
    (old : ∀ other ∈ known, other.source ≠ .full) (source : mount.source = .full)
    (attached : outcome.world.manager.Attached mount) : outcome.Settled where
  attached := fun _ => .inl ⟨mount, attached, source⟩
  single := fullCount_append items old
  failed := by simp [done]

theorem fullMount_settled {env : MountEnvironment} {snapshot : MountSnapshot}
    {stubMounts : VfsMounts} {world : MountWorld} {handled : Bool} (none_full : world.NoFull)
    (known : stubMounts.items = [] → world.manager.Known snapshot) :
    (fullMount env snapshot stubMounts world handled).Settled := by
  unfold fullMount
  dsimp only
  split
  · exact .of_noFull rfl none_full
  · rename_i snapshot' retaken
    have known' : world.manager.Known snapshot' := by
      split at retaken
      · exact known_of_snapshot retaken
      · cases retaken
        exact known (by simpa using ‹¬stubMounts.items.length ≠ 0›)
    cases mounted : env.mountFull with
    | none => exact .of_noFull rfl none_full
    | some new =>
        have attached := mountEbl_attached .full new world
        have items := mountEbl_mounts .full new world
        split
        · exact .of_full rfl items none_full rfl attached
        · split
          · exact .of_full rfl items none_full rfl attached
          · rename_i manager fullMounts extracted
            rcases extract_mounted known' extracted with
              ⟨_, nothing, kept, still⟩ | ⟨_, taken, kept⟩
            · rw [nothing]
              exact .of_full rfl kept none_full rfl still
            · rw [taken]
              dsimp only
              have pushed := push_one env.pushFullDevices env.pushFullMounts manager taken
              split
              · rename_i refused
                refine .of_noFull rfl ?_
                intro mount member
                have back := pushed.2 (by simpa using refused)
                rw [MountWorld.mounts, back, kept] at member
                exact none_full mount member
              · rename_i done
                obtain ⟨pushedItems, still⟩ := pushed.1 (by simpa using done)
                rw [kept] at pushedItems
                exact .of_full rfl pushedItems none_full rfl still

/-- The cases in which `stubMount` ends with the stub attached and nothing else done. -/
def StubLeft (env : MountEnvironment) (snapshot : MountSnapshot) : Prop :=
  ∃ new, env.mountStub = some new ∧
    (env.relockStub = false ∨
      isNewMount snapshot (new.mount .stub) = true ∧ env.extractStubMemory = false)

theorem mountStub_noFull (new : NewMount) {world : MountWorld} (none_full : world.NoFull) :
    (mountEbl .stub (some new) world).1.NoFull := by
  intro mount member
  rw [mountEbl_mounts, List.mem_append, List.mem_singleton] at member
  rcases member with old | rfl
  · exact none_full mount old
  · simp [NewMount.mount]

theorem extract_mounted_none {memory : Bool} (source : MountSource) {new : NewMount}
    {world : MountWorld} {snapshot : MountSnapshot} (known : world.manager.Known snapshot) :
    mlDlDeviceExtractNew memory (mountEbl source (some new) world).1.manager snapshot
        mlDlMountsInit = none ↔
      isNewMount snapshot (new.mount source) = true ∧ memory = false := by
  rw [extractNew_none, and_comm]
  refine and_congr_left fun _ => ?_
  change (∃ mount ∈ world.manager.bnd4Mounts.items ++ [new.mount source], _) ↔ _
  constructor
  · rintro ⟨mount, member, fresh⟩
    rcases List.mem_append.mp member with old | added
    · rw [known mount old] at fresh
      cases fresh
    · rw [← List.mem_singleton.mp added]
      exact fresh
  · intro fresh
    exact ⟨_, by simp, fresh⟩

theorem stubMount_left {env : MountEnvironment} {snapshot : MountSnapshot} {world : MountWorld}
    (known : world.manager.Known snapshot) (left : StubLeft env snapshot) :
    ∃ new, stubMount env snapshot world =
      ⟨(mountEbl .stub (some new) world).1, true, true, none, none⟩ := by
  obtain ⟨new, mounted, stuck⟩ := left
  refine ⟨new, ?_⟩
  unfold stubMount
  rw [mounted]
  cases relock : env.relockStub with
  | false => rfl
  | true =>
      have extraction := (extract_mounted_none .stub known).mpr
        (stuck.resolve_left (by simp [relock]))
      dsimp only
      rw [if_neg (by simp [mountEbl]), extraction]
      rfl

theorem stubMount_settled {env : MountEnvironment} {snapshot : MountSnapshot}
    {world : MountWorld} (none_full : world.NoFull) (known : world.manager.Known snapshot)
    (kept : ¬StubLeft env snapshot) : (stubMount env snapshot world).Settled := by
  unfold stubMount
  cases mounted : env.mountStub with
  | none => exact .of_noFull rfl none_full
  | some new =>
      have stub_noFull := mountStub_noFull new none_full
      dsimp only
      split
      · rename_i unlocked
        exact (kept ⟨new, mounted, .inl (by simpa [mountEbl] using unlocked)⟩).elim
      · split
        · rename_i stuck
          exact (kept ⟨new, mounted, .inr ((extract_mounted_none .stub known).mp stuck)⟩).elim
        · rename_i manager stubMounts extracted
          rcases extract_mounted known extracted with
            ⟨old, nothing, items, _⟩ | ⟨_, taken, items⟩
          · rw [nothing]
            refine fullMount_settled ?_ fun _ => ?_
            · intro mount member
              rw [MountWorld.mounts, items, ← mountEbl_mounts .stub new world] at member
              exact stub_noFull mount member
            · intro mount member
              rw [items] at member
              rcases List.mem_append.mp member with before | added
              · exact known mount before
              · rw [List.mem_singleton.mp added]
                exact old
          · have rest_noFull : ∀ mount ∈ manager.bnd4Mounts.items, mount.source ≠ .full := by
              rw [items]
              exact none_full
            rw [taken]
            dsimp only
            split
            · refine fullMount_settled rest_noFull fun nothing => ?_
              rw [taken] at nothing
              cases nothing
            · rename_i cached hit
              have pushed := push_one env.pushStubDevices env.pushStubMounts manager taken
              split
              · rename_i refused
                refine .of_noFull rfl ?_
                intro mount member
                have back := pushed.2 (by simpa using refused)
                rw [MountWorld.mounts, back] at member
                exact rest_noFull mount member
              · rename_i done
                obtain ⟨pushedItems, still⟩ := pushed.1 (by simpa using done)
                have no_full : ∀ mount ∈ manager.bnd4Mounts.items ++ [new.mount .stub],
                    mount.source ≠ .full := by
                  rw [items]
                  exact stub_noFull
                rw [← pushedItems] at no_full
                refine ⟨fun _ => .inr ⟨new.mount .stub, cached, still, rfl, rfl, ?_⟩, ?_, ?_⟩
                · simp
                · exact MountWorld.NoFull.single fun mount member => no_full mount member
                · intro failed
                  cases failed

/-! ## The hook -/

theorem mountPlain_complete {boosted : BoostOutcome} {plain : Option NewMount}
    (failed : boosted.world.NoFull) :
    BoostOutcome.Complete
      { boosted with
        world := (mountEbl .full plain boosted.world).1
        result := (mountEbl .full plain boosted.world).2 } := by
  cases plain with
  | none =>
      refine ⟨fun done => ?_, ?_⟩
      · cases done
      · exact failed.single
  | some new =>
      refine ⟨fun _ => .inl ⟨_, mountEbl_attached .full new boosted.world, rfl⟩, ?_⟩
      exact fullCount_append (mountEbl_mounts .full new boosted.world) failed

theorem mountEblHooked_settled {env : MountEnvironment}
    (settled : env.bootBoost = true → (bootBoostMount env).Settled) :
    (mountEblHooked env).Complete := by
  have settled_first : BoostOutcome.Settled (if env.bootBoost then bootBoostMount env
      else ⟨env.world, false, false, none, none⟩) := by
    split
    · exact settled ‹_›
    · exact .of_noFull rfl (world_noFull env)
  unfold mountEblHooked
  dsimp only
  generalize (if env.bootBoost then bootBoostMount env
      else ⟨env.world, false, false, none, none⟩) = boosted at settled_first ⊢
  split
  · exact ⟨settled_first.attached, settled_first.single⟩
  · rename_i failed
    have noFull := settled_first.failed (by simpa using failed)
    split
    · exact ⟨settled_first.attached, settled_first.single⟩
    · exact mountPlain_complete noFull

theorem not_complete_of_left {env : MountEnvironment} (left : LeavesStub env) :
    ¬(mountEblHooked env).Complete := by
  obtain ⟨on, possible, written, snapshot, taken, stuck⟩ := left
  have known := known_of_snapshot taken
  obtain ⟨new, outcome⟩ := stubMount_left known stuck
  have boosted : bootBoostMount env =
      ⟨(mountEbl .stub (some new) env.world).1, true, true, none, none⟩ := by
    unfold bootBoostMount
    simp [possible, written, taken, outcome]
  have hooked : mountEblHooked env =
      ⟨(mountEbl .stub (some new) env.world).1, true, true, none, none⟩ := by
    unfold mountEblHooked
    simp [on, boosted]
  rw [hooked]
  intro complete
  rcases complete.mounted rfl with ⟨mount, attached, source⟩ | ⟨_, _, _, _, loaded, _⟩
  · exact mountStub_noFull _ (world_noFull env) mount attached.1 source
  · cases loaded

theorem mountEblHooked_complete_iff (env : MountEnvironment) :
    (mountEblHooked env).Complete ↔ ¬LeavesStub env := by
  constructor
  · intro complete left
    exact not_complete_of_left left complete
  · intro kept
    apply mountEblHooked_settled
    intro on
    unfold bootBoostMount
    split
    · exact .of_noFull rfl (world_noFull env)
    · rename_i ready
      split
      · exact .of_noFull rfl (world_noFull env)
      · rename_i snapshot taken
        simp only [Bool.or_eq_true, Bool.not_eq_true', not_or, Bool.not_eq_false] at ready
        exact stubMount_settled (world_noFull env) (known_of_snapshot taken) fun left =>
          kept ⟨on, ready.1, ready.2, snapshot, taken, left⟩

/-- Nothing is mounted yet, the stub's `MountEbl` succeeds with a new root, and there is no memory
for the list of detached mounts. -/
def shortOfMemory : MountEnvironment where
  devices := ⟨[], 0⟩
  mounts := ⟨[], 0⟩
  holders := fun _ => ⟨none, 0, 0⟩
  bootBoost := true
  gameKeyValid := true
  bhdPath := true
  allocator := true
  deviceManager := true
  rsaKey := true
  rsaBlockSize := some 256
  lock := true
  expandPath := true
  createSource := true
  sourceSize := some 4096
  allocateEncrypted := true
  readSource := true
  cacheKey := true
  cacheDirectory := true
  cachePath := true
  writeStub := true
  snapshotMemory := true
  mountStub := some ⟨some [100, 97, 116, 97, 49], 7, ⟨none, 0, 0⟩, 1, 1⟩
  relockStub := true
  extractStubMemory := false
  gameContext := true
  eblBhdHolderOffset := 16
  allocateCached := true
  cacheDecoded := none
  pushStubDevices := true
  pushStubMounts := true
  resnapshotMemory := true
  mountFull := some ⟨some [100, 97, 116, 97, 49], 8, ⟨none, 0, 0⟩, 1, 1⟩
  relockFull := true
  extractFullMemory := true
  pushFullDevices := true
  pushFullMounts := true
  mountPlain := some ⟨some [100, 97, 116, 97, 49], 8, ⟨none, 0, 0⟩, 1, 1⟩

theorem mountEblHooked_truncated :
    (mountEblHooked shortOfMemory).result = true ∧
      (mountEblHooked shortOfMemory).world.mounts =
        [⟨some [100, 97, 116, 97, 49], 7, .stub⟩] ∧
      ¬(mountEblHooked shortOfMemory).Complete := by
  refine ⟨by decide, by decide, not_complete_of_left ⟨rfl, by decide, by decide, [], rfl, _, rfl, ?_⟩⟩
  exact .inr ⟨by decide, rfl⟩

end Yafsml.Patches
