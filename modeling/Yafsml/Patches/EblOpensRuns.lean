import Yafsml.Patches.EblOpensRollback

/-! # Open hooks over whole runs -/

namespace Yafsml.Patches.EblOpens
open MinHook

variable {τ ω : Type} [DecidableEq τ] (answers : Answers τ ω)

/-! ## Hooking devices -/

theorem removeEblDeviceOpensFrom_passes (count : Nat) (s : AssetHooks τ ω) :
    Passes s (removeEblDeviceOpensFrom answers count s) :=
  removeRounds_passes answers _ s

theorem hookEach_passes (startCount : Nat) (mounts : List (DlVirtualMount τ))
    (s : AssetHooks τ ω) : Passes s (hookEach answers startCount mounts s).1 := by
  induction mounts generalizing s with
  | nil => exact .refl s
  | cons mount rest ih =>
      unfold hookEach
      cases mount.device.bind DlDevice.vtable with
      | none => exact ih s
      | some target =>
          dsimp only
          split_ifs with known full
          · exact ih s
          · exact removeEblDeviceOpensFrom_passes answers startCount s
          · have installs := (Passes.enter s s.hooks (s.eblOpenHooks.add target full)).trans
              (mlHookInstall_passes answers target .eblOpenFile
                (.storeOriginal s.eblOpenHooks.count) _)
            cases ended : mlHookInstall answers target .eblOpenFile
              (.storeOriginal s.eblOpenHooks.count)
              (s.enter s.hooks (s.eblOpenHooks.add target full)) with
            | mk s' result =>
                rw [ended] at installs
                have rolls := (installs.trans (.enter s' s'.hooks s'.eblOpenHooks.removeLast)).trans
                  (removeEblDeviceOpensFrom_passes answers startCount _)
                cases result with
                | applied => exact installs.trans (ih s')
                | signatureNotFound => exact rolls
                | failed => exact rolls

theorem mlHookInstall_count (target : Option τ) (index : Nat) (s : AssetHooks τ ω) :
    (mlHookInstall answers target .eblOpenFile (.storeOriginal index) s).1.eblOpenHooks.count =
      s.eblOpenHooks.count := by
  cases target with
  | none => rfl
  | some target =>
      rcases mlHookInstall_cases answers target .eblOpenFile (.storeOriginal index) s with
        ⟨_, _, _, _, ended⟩ | ⟨_, _, _, _, ended⟩ | ⟨_, ended⟩
      all_goals
        rw [ended]
        simp [AssetHooks.enter, EblOpenHooks.count, EblOpenHooks.storeOriginal]

theorem hookEach_count (startCount : Nat) (mounts : List (DlVirtualMount τ))
    (s : AssetHooks τ ω) (below : startCount ≤ s.eblOpenHooks.count)
    (failed : (hookEach answers startCount mounts s).2 = false) :
    (hookEach answers startCount mounts s).1.eblOpenHooks.count = startCount := by
  induction mounts generalizing s with
  | nil => cases failed
  | cons mount rest ih =>
      unfold hookEach at failed ⊢
      cases points : mount.device.bind DlDevice.vtable with
      | none =>
          rw [points] at failed
          exact ih s below failed
      | some target =>
          rw [points] at failed
          dsimp only at failed ⊢
          split_ifs at failed ⊢ with known full
          · exact ih s below failed
          · exact removeEblDeviceOpensFrom_count answers startCount s below
          · have count := mlHookInstall_count answers target s.eblOpenHooks.count
              (s.enter s.hooks (s.eblOpenHooks.add target full))
            have one : (s.eblOpenHooks.add target full).count = s.eblOpenHooks.count + 1 := by
              simp [EblOpenHooks.add, EblOpenHooks.count]
            cases ended : mlHookInstall answers target .eblOpenFile
              (.storeOriginal s.eblOpenHooks.count)
              (s.enter s.hooks (s.eblOpenHooks.add target full)) with
            | mk s' result =>
                rw [ended] at count failed
                have count' : s'.eblOpenHooks.count = s.eblOpenHooks.count + 1 := count.trans one
                have rolls := removeEblDeviceOpensFrom_count answers startCount
                  (s'.enter s'.hooks s'.eblOpenHooks.removeLast) (by
                    have shorter : s'.eblOpenHooks.removeLast.count =
                        s'.eblOpenHooks.count - 1 := by
                      simp [EblOpenHooks.removeLast, EblOpenHooks.count]
                    simp only [AssetHooks.enter, shorter]
                    omega)
                cases result with
                | applied => exact ih s' (by omega) failed
                | signatureNotFound => exact rolls
                | failed => exact rolls

/-- Every hook that the rollback of `hook_ebl_device_opens` takes off is removed. -/
def TakesBack (mounts : List (DlVirtualMount τ)) (s : AssetHooks τ ω) : Prop :=
  s.deviceManager = true → s.diskDevice = true →
    ∀ target ∈ takenBack answers s.hooks s.eblOpenHooks.targets [] mounts,
      answers.remove .removeEblDeviceOpensFrom target = true

theorem hookEblDeviceOpens_passes (mounts : List (DlVirtualMount τ)) (s : AssetHooks τ ω) :
    Passes s (hookEblDeviceOpens answers mounts s).1 := by
  unfold hookEblDeviceOpens
  split
  · exact .refl s
  · exact hookEach_passes answers _ mounts s

theorem hookEblDeviceOpens_settles (mounts : List (DlVirtualMount τ)) (s : AssetHooks τ ω)
    (good : Good s) :
    Settles (hookEblDeviceOpens answers mounts s).1 (TakesBack answers mounts s) := by
  unfold hookEblDeviceOpens TakesBack
  cases s.deviceManager with
  | false => exact (Settles.of_good good).iff (by simp)
  | true =>
      cases s.diskDevice with
      | false => exact (Settles.of_good good).iff (by simp)
      | true =>
          have underway : Underway s.eblOpenHooks.count s.hooks [] s := by
            refine ⟨good, Nat.le_refl _, ?_, nofun, fun _ _ => rfl⟩
            simp [EblOpenHooks.targets, EblOpenHooks.count]
          exact (hookEach_settles mounts underway).iff (by simp)

theorem hookEblDeviceOpens_count (mounts : List (DlVirtualMount τ)) (s : AssetHooks τ ω)
    (failed : (hookEblDeviceOpens answers mounts s).2 = false) :
    (hookEblDeviceOpens answers mounts s).1.eblOpenHooks.count = s.eblOpenHooks.count := by
  unfold hookEblDeviceOpens at failed ⊢
  split_ifs at failed ⊢
  · rfl
  · exact hookEach_count answers _ mounts s (Nat.le_refl _) failed

/-! ## The callers -/

theorem installPreHooks_keeps (found : PreHooks τ) (s : AssetHooks τ ω) :
    Keeps s (installPreHooks answers found s).1 := by
  unfold installPreHooks
  dsimp only
  split_ifs
  · exact .same rfl rfl
  · exact .same rfl rfl
  · exact .same rfl rfl
  · have disk := mlHookInstallOther_keeps answers found.diskOpenFile .diskOpenFile
      { s with deviceManager := found.deviceManager, diskDevice := true } nofun
    cases ended : mlHookInstallOther answers found.diskOpenFile .diskOpenFile
      { s with deviceManager := found.deviceManager, diskDevice := true } with
    | mk s₁ result =>
        rw [ended] at disk
        replace disk : Keeps s s₁ := by
          refine .trans ?_ disk
          exact .same rfl rfl
        cases result with
        | signatureNotFound => exact disk.trans (.same rfl rfl)
        | failed => exact disk.trans (.same rfl rfl)
        | applied =>
            dsimp only
            have mount := mlHookInstallOther_keeps answers found.mount .mountEbl
              { s₁ with diskOpenHookTarget := found.diskOpenFile } nofun
            cases ended' : mlHookInstallOther answers found.mount .mountEbl
              { s₁ with diskOpenHookTarget := found.diskOpenFile } with
            | mk s₂ result =>
                rw [ended'] at mount
                replace mount : Keeps s s₂ := by
                  refine (disk.trans ?_).trans mount
                  exact .same rfl rfl
                have rolled := mount.trans (removeAssetHook_lessens answers .installPreHooks
                  s₂.diskOpenHookTarget s₂).toKeeps
                cases result with
                | applied => exact mount.trans (.same rfl rfl)
                | signatureNotFound => exact rolled.trans (.same rfl rfl)
                | failed => exact rolled.trans (.same rfl rfl)

/-- Whether the rollback of `hook_ebl_device_opens` takes its hooks off, where `install_post_hooks`
comes to it. -/
def PostTakesBack (found : PostHooks τ) (s : AssetHooks τ ω) : Prop :=
  s.postHooksInstalled = false → found.makeEblObjectInText = true → found.locked = true →
    (mlHookInstallOther answers found.makeEblObject .makeEblObject s).2 = .applied →
    TakesBack answers found.mounts
      (mlHookInstallOther answers found.makeEblObject .makeEblObject s).1

theorem hookInitialOpens_settles (found : PostHooks τ) (s : AssetHooks τ ω) (good : Good s) :
    Settles (hookInitialOpens answers found s).1
      (found.locked = true → TakesBack answers found.mounts s) := by
  have opens : ∃ s₁ hooked,
      (if found.locked then hookEblDeviceOpens answers found.mounts s else (s, false)) =
        (s₁, hooked) ∧
      Settles s₁ (found.locked = true → TakesBack answers found.mounts s) ∧
      (hooked = false → s₁.eblOpenHooks.count = s.eblOpenHooks.count) := by
    cases found.locked with
    | false => exact ⟨s, false, by simp, (Settles.of_good good).iff (by simp), fun _ => rfl⟩
    | true =>
        exact ⟨_, _, by simp, (hookEblDeviceOpens_settles answers found.mounts s good).iff (by simp),
          hookEblDeviceOpens_count answers found.mounts s⟩
  obtain ⟨s₁, hooked, ended, settles, count⟩ := opens
  unfold hookInitialOpens
  dsimp only
  rw [ended]
  cases hooked with
  | true => exact settles.keeps (.same rfl rfl)
  | false =>
      have nothing : removeEblDeviceOpensFrom answers s.eblOpenHooks.count s₁ = s₁ := by
        rw [removeEblDeviceOpensFrom, count rfl, Nat.sub_self]
        rfl
      dsimp only
      rw [nothing]
      have removed := settles.keeps (removeAssetHook_lessens answers .installPostHooks
        s₁.makeEblObjectHookTarget s₁).toKeeps
      exact removed.keeps (.same rfl rfl)

theorem installPostHooks_settles (found : PostHooks τ) (s : AssetHooks τ ω) (good : Good s) :
    Settles (installPostHooks answers found s).1 (PostTakesBack answers found s) := by
  have made := mlHookInstallOther_keeps answers found.makeEblObject .makeEblObject s nofun
  unfold installPostHooks PostTakesBack
  cases s.postHooksInstalled with
  | true => exact (Settles.of_good good).iff (by simp)
  | false =>
      rw [if_neg Bool.false_ne_true]
      by_cases unfit : (found.makeEblObject.isNone || !found.makeEblObjectInText) = true
      · rw [if_pos unfit]
        refine (Settles.of_good good).iff ?_
        simp only [true_iff]
        intro _ inText _ applied
        cases target : found.makeEblObject with
        | none => simp [target, mlHookInstallOther, mlHookInstall] at applied
        | some target => simp [target, inText] at unfit
      · rw [if_neg unfit]
        have inText : found.makeEblObjectInText = true := by simp_all
        cases ended : mlHookInstallOther answers found.makeEblObject .makeEblObject s with
        | mk s₁ result =>
            rw [ended] at made
            cases result with
            | signatureNotFound => exact (Settles.of_good (made.good good)).iff (by simp)
            | failed => exact (Settles.of_good (made.good good)).iff (by simp)
            | applied =>
                have targeted := Keeps.good (.same rfl rfl : Keeps s₁
                  { s₁ with makeEblObjectHookTarget := found.makeEblObject }) (made.good good)
                refine (hookInitialOpens_settles answers found _ targeted).iff ?_
                simp [inText, TakesBack]

theorem hookInitialOpens_passes (found : PostHooks τ) (s : AssetHooks τ ω) :
    Passes s (hookInitialOpens answers found s).1 := by
  have opens : Passes s
      (if found.locked then hookEblDeviceOpens answers found.mounts s else (s, false)).1 := by
    split
    · exact hookEblDeviceOpens_passes answers found.mounts s
    · exact .refl s
  unfold hookInitialOpens
  cases ended : if found.locked then hookEblDeviceOpens answers found.mounts s else (s, false) with
  | mk s₁ hooked =>
      rw [ended] at opens
      cases hooked with
      | true => exact ⟨opens.older, opens.now⟩
      | false =>
          have removed := (opens.trans (removeEblDeviceOpensFrom_passes answers
            s.eblOpenHooks.count s₁)).trans
              (removeAssetHook_lessens answers .installPostHooks
                (removeEblDeviceOpensFrom answers s.eblOpenHooks.count s₁).makeEblObjectHookTarget
                _).toPasses
          exact ⟨removed.older, removed.now⟩

theorem installPostHooks_passes (found : PostHooks τ) (s : AssetHooks τ ω) :
    Passes s (installPostHooks answers found s).1 := by
  have made := mlHookInstallOther_keeps answers found.makeEblObject .makeEblObject s nofun
  unfold installPostHooks
  split_ifs
  · exact .refl s
  · exact .refl s
  · cases ended : mlHookInstallOther answers found.makeEblObject .makeEblObject s with
    | mk s₁ result =>
        rw [ended] at made
        cases result with
        | signatureNotFound => exact made.toPasses
        | failed => exact made.toPasses
        | applied =>
            have targeted : Passes s
                { s₁ with makeEblObjectHookTarget := found.makeEblObject } :=
              ⟨made.older, made.now⟩
            exact targeted.trans (hookInitialOpens_passes answers found _)

/-! ## Uninstalling -/

theorem Good.clear {s s' : AssetHooks τ ω} (good : Good s) (lessens : Lessens s s')
    (gone : ∀ target, some target ∈ s.eblOpenHooks.targets → s'.hooks target = none) :
    Good (s'.enter s'.hooks .empty) := by
  have good' := lessens.good good
  refine good'.enter ⟨List.nodup_nil, ?_⟩
  intro target hook installed detour
  have member := good'.tidy.kept target hook installed detour
  rw [lessens.opens] at member
  have absent := gone target (List.mem_map.mpr ⟨_, member, rfl⟩)
  rw [installed] at absent
  cases absent

theorem mlAssetHooksUninstall_keeps (s : AssetHooks τ ω) :
    Keeps s (mlAssetHooksUninstall answers s).1 := by
  unfold mlAssetHooksUninstall
  have first := mlHookDisable_lessens answers .fileStepInit s.fileStepHookTarget s
  cases disable₁ : mlHookDisable answers .fileStepInit s.fileStepHookTarget s with
  | mk s₁ fileStep =>
  rw [disable₁] at first
  have second := mlHookDisable_lessens answers .renderReadyStepInit s₁.renderReadyHookTarget s₁
  dsimp only
  cases disable₂ : mlHookDisable answers .renderReadyStepInit s₁.renderReadyHookTarget s₁ with
  | mk s₂ renderReady =>
  rw [disable₂] at second
  have disabled : Lessens s s₂ := first.trans second
  dsimp only
  by_cases running : (!(fileStep && renderReady)) = true
  · rw [if_pos running]
    exact disabled.toKeeps
  rw [if_neg running]
  have third := removeAssetHooks_lessens answers
    [(.fileStepInit, s₂.fileStepHookTarget), (.renderReadyStepInit, s₂.renderReadyHookTarget)] s₂
  cases remove₁ : removeAssetHooks answers
    [(.fileStepInit, s₂.fileStepHookTarget), (.renderReadyStepInit, s₂.renderReadyHookTarget)]
    s₂ with
  | mk s₃ steps =>
  rw [remove₁] at third
  have removed : Lessens s s₃ := disabled.trans third
  dsimp only
  cases steps with
  | false => exact removed.toKeeps
  | true =>
      simp only [Bool.not_true, Bool.false_eq_true, if_false]
      generalize reset : ({ s₃ with fileStepHookTarget := none, renderReadyHookTarget := none } :
        AssetHooks τ ω) = s₄
      have same : Keeps s₃ s₄ := by
        rw [← reset]
        exact .same rfl rfl
      have fourth := removeAssetHooks_lessens answers s₄.assetTargets s₄
      have absent := removeAssetHooks_absent answers s₄.assetTargets s₄
      cases remove₂ : removeAssetHooks answers s₄.assetTargets s₄ with
      | mk s₅ assets =>
      rw [remove₂] at fourth absent
      have before : Keeps s s₅ := (removed.toKeeps.trans same).trans fourth.toKeeps
      cases assets with
      | false => exact before
      | true =>
          simp only [Bool.not_true, Bool.false_eq_true, if_false]
          refine ⟨⟨?_, ?_⟩, fun good => ?_⟩
          · exact fun view member => List.mem_cons_of_mem _ (before.older view member)
          · exact fun _ => List.mem_cons_self
          · have good₄ := same.good (removed.good good)
            have cleared := good₄.clear fourth fun target member =>
              absent rfl .eblOpenFile target (by simp [AssetHooks.assetTargets, member])
            exact ⟨cleared.tidy, cleared.views⟩

/-! ## Runs -/

/-- No hook that `remove_ebl_device_opens_from` is to take off in this step stays. -/
def Step.RollsBack (step : Step τ ω) (s : AssetHooks τ ω) : Prop :=
  match step.call with
  | .hookEblDeviceOpens mounts => TakesBack step.answers mounts s
  | .removeEblDeviceOpensFrom count =>
      Removable step.answers s (s.eblOpenHooks.targets.drop count)
  | .uninstall => True
  | .installPreHooks _ => True
  | .installPostHooks found => PostTakesBack step.answers found s

def RollsBack : List (Step τ ω) → AssetHooks τ ω → Prop
  | [], _ => True
  | step :: rest, s => step.RollsBack s ∧ RollsBack rest (step.run s)

theorem Step.run_settles (step : Step τ ω) (s : AssetHooks τ ω) (good : Good s) :
    Settles (step.run s) (step.RollsBack s) := by
  unfold Step.run Step.RollsBack
  cases step.call with
  | hookEblDeviceOpens mounts => exact hookEblDeviceOpens_settles step.answers mounts s good
  | removeEblDeviceOpensFrom count =>
      exact removeEblDeviceOpensFrom_settles step.answers count s good
  | uninstall => exact (Settles.of_good good).keeps (mlAssetHooksUninstall_keeps step.answers s)
  | installPreHooks found =>
      exact (Settles.of_good good).keeps (installPreHooks_keeps step.answers found s)
  | installPostHooks found => exact installPostHooks_settles step.answers found s good

theorem Step.run_passes (step : Step τ ω) (s : AssetHooks τ ω) : Passes s (step.run s) := by
  unfold Step.run
  cases step.call with
  | hookEblDeviceOpens mounts => exact hookEblDeviceOpens_passes step.answers mounts s
  | removeEblDeviceOpensFrom count => exact removeEblDeviceOpensFrom_passes step.answers count s
  | uninstall => exact (mlAssetHooksUninstall_keeps step.answers s).toPasses
  | installPreHooks found => exact (installPreHooks_keeps step.answers found s).toPasses
  | installPostHooks found => exact installPostHooks_passes step.answers found s

theorem run_passes (steps : List (Step τ ω)) (s : AssetHooks τ ω) : Passes s (run steps s) := by
  induction steps generalizing s with
  | nil => exact .refl s
  | cons step rest ih => exact (step.run_passes s).trans (ih (step.run s))

theorem run_settles (steps : List (Step τ ω)) (s : AssetHooks τ ω) (good : Good s) :
    Settles (run steps s) (RollsBack steps s) := by
  induction steps generalizing s with
  | nil => exact .of_good good
  | cons step rest ih =>
      have settles := step.run_settles s good
      constructor
      · rintro ⟨clean, later⟩
        exact (ih (step.run s) (settles.good clean)).good later
      · intro unclean
        by_cases clean : step.RollsBack s
        · exact (ih (step.run s) (settles.good clean)).bad fun later => unclean ⟨clean, later⟩
        · exact (settles.bad clean).passes (run_passes rest (step.run s))

/-- Nothing is hooked on an open of a BND4 device and the table is empty. -/
structure AssetHooks.Fresh (s : AssetHooks τ ω) : Prop where
  unhooked : ∀ target hook, s.hooks target = some hook → hook.detour ≠ .eblOpenFile
  empty : s.eblOpenHooks.entries = []
  views : s.views = [s.toView]

theorem AssetHooks.Fresh.good {s : AssetHooks τ ω} (fresh : s.Fresh) : Good s := by
  have tidy : s.toView.Tidy := by
    refine ⟨?_, fun target hook installed detour => ?_⟩
    · simp [EblOpenHooks.targets, fresh.empty]
    · exact absurd detour (fresh.unhooked target hook installed)
  refine ⟨tidy, ?_⟩
  intro view member
  rw [fresh.views, List.mem_singleton] at member
  exact member ▸ tidy.keepsOriginals

/-- Over every run from a fresh start, whatever the mounts and the answers: what is seen keeps the
originals all the time exactly if no hook that `remove_ebl_device_opens_from` is to take off
stays. -/
theorem eblOpens_keep_originals (start : AssetHooks τ ω) (fresh : start.Fresh)
    (steps : List (Step τ ω)) :
    (run steps start).toView ∈ (run steps start).views ∧
      ((∀ view ∈ (run steps start).views, view.KeepsOriginals) ↔ RollsBack steps start) := by
  have settles := run_settles steps start fresh.good
  refine ⟨(run_passes steps start).now (by simp [fresh.views]), ?_, ?_⟩
  · intro keeps
    by_contra unclean
    obtain ⟨view, member, broken⟩ := settles.bad unclean
    exact broken (keeps view member)
  · exact fun clean => (settles.good clean).views

/-- The state after `install_pre_hooks`, with nothing else hooked. -/
def attached : AssetHooks Nat Nat where
  hooks _ := none
  eblOpenHooks := .empty
  deviceManager := true
  diskDevice := true
  fileStepHookTarget := none
  renderReadyHookTarget := none
  makeEblObjectHookTarget := none
  mountEblHookTarget := none
  setPathHookTargets := [none, none, none]
  diskOpenHookTarget := none
  preHooksInstalled := true
  postHooksInstalled := false
  views := [⟨fun _ => none, .empty⟩]

/-- Two devices are mounted, with `open_file` at 1 and at 2, and the hook of the second fails. -/
def secondFails (removed : Bool) : Step Nat Nat where
  call := .hookEblDeviceOpens [⟨some ⟨some (some 1)⟩⟩, ⟨some ⟨some (some 2)⟩⟩]
  answers :=
    { trampoline := fun target => if target = 1 then some 101 else none
      enable := fun _ => true
      disable := fun _ => true
      remove := fun _ _ => removed }

theorem eblOpens_keep_originals_rollback :
    (run [secondFails true] attached).hooks 1 = none ∧
      ∀ view ∈ (run [secondFails true] attached).views, view.KeepsOriginals :=
  ⟨rfl, (eblOpens_keep_originals attached ⟨nofun, rfl, rfl⟩ [secondFails true]).2.mpr
    ⟨fun _ _ _ _ => rfl, trivial⟩⟩

/-- The removal of the first hook fails as well: it stays, the table is empty, and the game gets
`NULL` for each open of the first device. -/
theorem eblOpens_forget_original :
    (run [secondFails false] attached).hooks 1 = some ⟨.eblOpenFile, 101, true⟩ ∧
      eblOpenFileHooked (run [secondFails false] attached).toView (some ⟨some (some 1)⟩) false =
        .null ∧
      ¬ ∀ steps : List (Step Nat Nat), ∀ view ∈ (run steps attached).views,
        view.KeepsOriginals := by
  have hooked : (run [secondFails false] attached).hooks 1 = some ⟨.eblOpenFile, 101, true⟩ := rfl
  have answered : eblOpenFileHooked (run [secondFails false] attached).toView
      (some ⟨some (some 1)⟩) false = .null := rfl
  refine ⟨hooked, answered, fun claim => ?_⟩
  have kept := claim [secondFails false] _ List.mem_cons_self 1 _ hooked rfl rfl
  have passed := kept.2 ⟨some (some 1)⟩ rfl
  cases answered.symm.trans passed

end Yafsml.Patches.EblOpens
