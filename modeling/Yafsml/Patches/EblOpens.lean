import Mathlib.Data.List.Basic
import Yafsml.Patches.HookBatch
import Yafsml.Patches.MinHook

/-! # The hooks on the opens of BND4 devices -/

namespace Yafsml.Patches.EblOpens
open MinHook

/-- The functions of `asset_hooks.c` that a hook can lead to. -/
inductive Detour where
  | fileStepInit
  | renderReadyStepInit
  | diskOpenFile
  | mountEbl
  | makeEblObject
  | setPath
  | eblOpenFile
deriving DecidableEq, Repr

/-- `ebl_open_hook_t`; `NULL` is `none`. -/
structure EblOpenHook (τ ω : Type) where
  target : Option τ
  original : Option ω
deriving DecidableEq, Repr

def eblOpenCapacity : Nat := 64

/-- The entries of `ebl_open_hooks` below `ebl_open_hook_count`; the others are zero. -/
structure EblOpenHooks (τ ω : Type) where
  entries : List (EblOpenHook τ ω)
  within : entries.length ≤ eblOpenCapacity

variable {τ ω : Type}

namespace EblOpenHooks

def empty : EblOpenHooks τ ω := ⟨[], by simp⟩

def count (opens : EblOpenHooks τ ω) : Nat := opens.entries.length

def targets (opens : EblOpenHooks τ ω) : List (Option τ) := opens.entries.map EblOpenHook.target

def add (opens : EblOpenHooks τ ω) (target : Option τ) (room : opens.count ≠ eblOpenCapacity) :
    EblOpenHooks τ ω :=
  ⟨opens.entries ++ [⟨target, none⟩], by
    have within := opens.within
    simp only [count] at room
    simp only [List.length_append, List.length_singleton]
    omega⟩

/-- What `ml_hook_install` writes through `&ebl_open_hooks[index].original`. -/
def storeOriginal (index : Nat) (original : ω) (opens : EblOpenHooks τ ω) : EblOpenHooks τ ω :=
  ⟨opens.entries.modify index fun entry => { entry with original := some original }, by
    simpa using opens.within⟩

def removeLast (opens : EblOpenHooks τ ω) : EblOpenHooks τ ω :=
  ⟨opens.entries.dropLast, by
    have within := opens.within
    simp only [List.length_dropLast]
    omega⟩

end EblOpenHooks

structure View (τ ω : Type) where
  hooks : Hooks τ Detour ω
  eblOpenHooks : EblOpenHooks τ ω

/-- The statics of `asset_hooks.c` that decide what is hooked, beside MinHook's own. -/
structure AssetHooks (τ ω : Type) extends View τ ω where
  deviceManager : Bool
  diskDevice : Bool
  fileStepHookTarget : Option τ
  renderReadyHookTarget : Option τ
  makeEblObjectHookTarget : Option τ
  mountEblHookTarget : Option τ
  setPathHookTargets : List (Option τ)
  diskOpenHookTarget : Option τ
  preHooksInstalled : Bool
  postHooksInstalled : Bool
  /-- one for each write to a hook or to the table, most recent first -/
  views : List (View τ ω)

def AssetHooks.enter (s : AssetHooks τ ω) (hooks : Hooks τ Detour ω) (opens : EblOpenHooks τ ω) :
    AssetHooks τ ω :=
  { s with hooks := hooks, eblOpenHooks := opens, views := ⟨hooks, opens⟩ :: s.views }

/-- Where in `asset_hooks.c` a removal is asked for. -/
inductive RemovalSite where
  | removeEblDeviceOpensFrom
  | installPreHooks
  | installPostHooks
  | uninstall (detour : Detour)
deriving DecidableEq, Repr

/-- What the system answers during one call; no call of the file asks the same thing twice. -/
structure Answers (τ ω : Type) where
  trampoline : τ → Option ω
  enable : τ → Bool
  disable : Detour → Bool
  remove : RemovalSite → τ → Bool

/-- `ml_dl_device_t`: `NULL` for the vtable is `none`, `NULL` for its `open_file` is `some none`. -/
structure DlDevice (τ : Type) where
  vtable : Option (Option τ)

structure DlVirtualMount (τ : Type) where
  device : Option (DlDevice τ)

section Code

variable [DecidableEq τ]

theorem lawfulTargets : LawfulBEq (Option τ) := inferInstance

attribute [local instance] lawfulTargets

/-- `store` is what the write through `original` does to the table. -/
def mlHookInstall (answers : Answers τ ω) (target : Option τ) (detour : Detour)
    (store : ω → EblOpenHooks τ ω → EblOpenHooks τ ω) (s : AssetHooks τ ω) :
    AssetHooks τ ω × HookResult :=
  match target with
  | none => (s, .signatureNotFound)
  | some target =>
      match mhCreateHook s.hooks target detour (answers.trampoline target) with
      | (hooks, .ok, some original) =>
          let s := s.enter hooks (store original s.eblOpenHooks)
          match mhEnableHook s.hooks target (answers.enable target) with
          | (hooks, .ok) => (s.enter hooks s.eblOpenHooks, .applied)
          -- the hook is not enabled, so nothing has to be patched to remove it
          | (hooks, _) => (s.enter (mhRemoveHook hooks target false).1 s.eblOpenHooks, .failed)
      | (hooks, _, _) => (s.enter hooks s.eblOpenHooks, .failed)

/-- `ml_hook_install` for the hooks whose original is not in the table. -/
def mlHookInstallOther (answers : Answers τ ω) (target : Option τ) (detour : Detour)
    (s : AssetHooks τ ω) : AssetHooks τ ω × HookResult :=
  mlHookInstall answers target detour (fun _ opens => opens) s

/-- `ml_hook_remove`. -/
def removeAssetHook (answers : Answers τ ω) (site : RemovalSite) (target : Option τ)
    (s : AssetHooks τ ω) : AssetHooks τ ω × Bool :=
  match target with
  | none => (s, true)
  | some target =>
      match mhRemoveHook s.hooks target (answers.remove site target) with
      | (hooks, status) =>
          (s.enter hooks s.eblOpenHooks, status == .ok || status == .notCreated)

def mlHookDisable (answers : Answers τ ω) (detour : Detour) (target : Option τ)
    (s : AssetHooks τ ω) : AssetHooks τ ω × Bool :=
  match target with
  | none => (s, true)
  | some target =>
      match mhDisableHook s.hooks target (answers.disable detour) with
      | (hooks, status) =>
          (s.enter hooks s.eblOpenHooks,
            status == .ok || status == .disabled || status == .notCreated)

inductive Opened (ω : Type) where
  | null
  | passedOn (original : ω)
  /-- by `disk_open_file_hooked`, with the replacement's path -/
  | redirected
deriving DecidableEq, Repr

def eblOpenOriginal (view : View τ ω) (target : Option τ) : Option ω :=
  (view.eblOpenHooks.entries.find? fun entry => entry.target = target).bind EblOpenHook.original

/-- `overridden` is what `make_override_path` returns. -/
def eblOpenFileHooked (view : View τ ω) (device : Option (DlDevice τ)) (overridden : Bool) :
    Opened ω :=
  let original := (device.bind DlDevice.vtable).bind (eblOpenOriginal view)
  if overridden then .redirected
  else
    match original with
    | none => .null
    | some original => .passedOn original

/-- The body of the loop of `remove_ebl_device_opens_from`. -/
def removeRound (answers : Answers τ ω) (s : AssetHooks τ ω) : AssetHooks τ ω :=
  let target := s.eblOpenHooks.entries.getLast?.bind EblOpenHook.target
  let (s, _) := removeAssetHook answers .removeEblDeviceOpensFrom target s
  s.enter s.hooks s.eblOpenHooks.removeLast

def removeRounds (answers : Answers τ ω) : Nat → AssetHooks τ ω → AssetHooks τ ω
  | 0, s => s
  | rounds + 1, s => removeRounds answers rounds (removeRound answers s)

def removeEblDeviceOpensFrom (answers : Answers τ ω) (count : Nat) (s : AssetHooks τ ω) :
    AssetHooks τ ω :=
  removeRounds answers (s.eblOpenHooks.count - count) s

/-- The loop of `hook_ebl_device_opens` over the mounts. -/
def hookEach (answers : Answers τ ω) (startCount : Nat) :
    List (DlVirtualMount τ) → AssetHooks τ ω → AssetHooks τ ω × Bool
  | [], s => (s, true)
  | mount :: rest, s =>
      match mount.device.bind DlDevice.vtable with
      | none => hookEach answers startCount rest s
      | some target =>
          if target ∈ s.eblOpenHooks.targets then hookEach answers startCount rest s
          else if room : s.eblOpenHooks.count = eblOpenCapacity then
            (removeEblDeviceOpensFrom answers startCount s, false)
          else
            let before := s.eblOpenHooks
            let s := s.enter s.hooks (before.add target room)
            match mlHookInstall answers target .eblOpenFile (.storeOriginal before.count) s with
            | (s, .applied) => hookEach answers startCount rest s
            | (s, _) =>
                let s := s.enter s.hooks s.eblOpenHooks.removeLast
                (removeEblDeviceOpensFrom answers startCount s, false)

def hookEblDeviceOpens (answers : Answers τ ω) (mounts : List (DlVirtualMount τ))
    (s : AssetHooks τ ω) : AssetHooks τ ω × Bool :=
  if !s.deviceManager || !s.diskDevice then (s, false)
  else hookEach answers s.eblOpenHooks.count mounts s

/-- What `install_pre_hooks` finds in the game. -/
structure PreHooks (τ : Type) where
  deviceManager : Bool
  mount : Option τ
  diskOpenFile : Option τ
  diskOpenFileInText : Bool

def installPreHooks (answers : Answers τ ω) (found : PreHooks τ) (s : AssetHooks τ ω) :
    AssetHooks τ ω × Bool :=
  if s.preHooksInstalled then (s, true)
  else
    let s := { s with deviceManager := found.deviceManager }
    if !found.deviceManager || found.mount.isNone then (s, false)
    else if found.diskOpenFile.isNone || !found.diskOpenFileInText then
      ({ s with diskDevice := false }, false)
    else
      match mlHookInstallOther answers found.diskOpenFile .diskOpenFile
          { s with diskDevice := true } with
      | (s, .applied) =>
          match mlHookInstallOther answers found.mount .mountEbl
              { s with diskOpenHookTarget := found.diskOpenFile } with
          | (s, .applied) =>
              ({ s with mountEblHookTarget := found.mount, preHooksInstalled := true }, true)
          | (s, _) =>
              let (s, _) := removeAssetHook answers .installPreHooks s.diskOpenHookTarget s
              ({ s with diskOpenHookTarget := none, diskDevice := false }, false)
      | (s, _) => ({ s with diskDevice := false }, false)

/-- What `install_post_hooks` finds in the game, and whether it gets the device manager's lock. -/
structure PostHooks (τ : Type) where
  makeEblObject : Option τ
  makeEblObjectInText : Bool
  locked : Bool
  mounts : List (DlVirtualMount τ)

/-- The block of `install_post_hooks` after the MakeEblObject hook. -/
def hookInitialOpens (answers : Answers τ ω) (found : PostHooks τ) (s : AssetHooks τ ω) :
    AssetHooks τ ω × Bool :=
  let previousOpenCount := s.eblOpenHooks.count
  match if found.locked then hookEblDeviceOpens answers found.mounts s else (s, false) with
  | (s, true) => ({ s with postHooksInstalled := true }, true)
  | (s, false) =>
      let s := removeEblDeviceOpensFrom answers previousOpenCount s
      let (s, _) := removeAssetHook answers .installPostHooks s.makeEblObjectHookTarget s
      ({ s with makeEblObjectHookTarget := none }, false)

def installPostHooks (answers : Answers τ ω) (found : PostHooks τ) (s : AssetHooks τ ω) :
    AssetHooks τ ω × Bool :=
  if s.postHooksInstalled then (s, true)
  else if found.makeEblObject.isNone || !found.makeEblObjectInText then (s, false)
  else
    match mlHookInstallOther answers found.makeEblObject .makeEblObject s with
    | (s, .applied) =>
        hookInitialOpens answers found { s with makeEblObjectHookTarget := found.makeEblObject }
    | (s, _) => (s, false)

/-- The targets that `ml_hook_targets_remove_unique` removes, over the targets last to first. -/
def uniqueTargets : List (Option τ) → List (Option τ)
  | [] => []
  | none :: earlier => uniqueTargets earlier
  | some target :: earlier =>
      if some target ∈ earlier then uniqueTargets earlier
      else some target :: uniqueTargets earlier

def removeAssetHooks (answers : Answers τ ω) :
    List (Detour × Option τ) → AssetHooks τ ω → AssetHooks τ ω × Bool
  | [], s => (s, true)
  | (detour, target) :: rest, s =>
      let (s, removed) := removeAssetHook answers (.uninstall detour) target s
      let (s, result) := removeAssetHooks answers rest s
      (s, removed && result)

/-- The hooks that `ml_asset_hooks_uninstall` removes after those of the two steps, in its order. -/
def AssetHooks.assetTargets (s : AssetHooks τ ω) : List (Detour × Option τ) :=
  [(.makeEblObject, s.makeEblObjectHookTarget), (.mountEbl, s.mountEblHookTarget)] ++
    (uniqueTargets s.setPathHookTargets.reverse).map (Detour.setPath, ·) ++
    [(.diskOpenFile, s.diskOpenHookTarget)] ++ s.eblOpenHooks.targets.map (Detour.eblOpenFile, ·)

def mlAssetHooksUninstall (answers : Answers τ ω) (s : AssetHooks τ ω) : AssetHooks τ ω × Bool :=
  let (s, fileStep) := mlHookDisable answers .fileStepInit s.fileStepHookTarget s
  let (s, renderReady) := mlHookDisable answers .renderReadyStepInit s.renderReadyHookTarget s
  if !(fileStep && renderReady) then (s, false)
  else
    let (s, steps) := removeAssetHooks answers
      [(.fileStepInit, s.fileStepHookTarget), (.renderReadyStepInit, s.renderReadyHookTarget)] s
    if !steps then (s, false)
    else
      let s := { s with fileStepHookTarget := none, renderReadyHookTarget := none }
      let (s, assets) := removeAssetHooks answers s.assetTargets s
      if !assets then (s, false)
      else
        let s := s.enter s.hooks .empty
        ({ s with
            setPathHookTargets := s.setPathHookTargets.map fun _ => none
            diskOpenHookTarget := none
            deviceManager := false
            diskDevice := false
            mountEblHookTarget := none
            makeEblObjectHookTarget := none
            preHooksInstalled := false
            postHooksInstalled := false }, true)

inductive Call (τ : Type) where
  | hookEblDeviceOpens (mounts : List (DlVirtualMount τ))
  | removeEblDeviceOpensFrom (count : Nat)
  | uninstall
  | installPreHooks (found : PreHooks τ)
  | installPostHooks (found : PostHooks τ)

structure Step (τ ω : Type) where
  call : Call τ
  answers : Answers τ ω

def Step.run (step : Step τ ω) (s : AssetHooks τ ω) : AssetHooks τ ω :=
  match step.call with
  | .hookEblDeviceOpens mounts => (hookEblDeviceOpens step.answers mounts s).1
  | .removeEblDeviceOpensFrom count => removeEblDeviceOpensFrom step.answers count s
  | .uninstall => (mlAssetHooksUninstall step.answers s).1
  | .installPreHooks found => (installPreHooks step.answers found s).1
  | .installPostHooks found => (installPostHooks step.answers found s).1

def run (steps : List (Step τ ω)) (s : AssetHooks τ ω) : AssetHooks τ ω :=
  steps.foldl (fun s step => step.run s) s

end Code

end Yafsml.Patches.EblOpens
