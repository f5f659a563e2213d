import Mathlib.Data.List.Nodup
import Mathlib.Tactic.Common
import Yafsml.Patches.EblOpens

/-! # Open hooks keep their originals -/

namespace Yafsml.Patches.EblOpens
open MinHook

variable {τ ω : Type} [DecidableEq τ]

/-- Each target on which `ebl_open_file_hooked` is installed has exactly one entry, with its
original, to which the open of a device that no mod overrides goes. -/
def View.KeepsOriginals (view : View τ ω) : Prop :=
  ∀ target hook, view.hooks target = some hook → hook.detour = .eblOpenFile →
    hook.isEnabled = true →
    (view.eblOpenHooks.entries.filter fun entry => entry.target = some target) =
      [⟨some target, some hook.trampoline⟩] ∧
    ∀ device : DlDevice τ, device.vtable = some (some target) →
      eblOpenFileHooked view (some device) false = .passedOn hook.trampoline

/-- The invariant; it holds of hooks that are created and not yet enabled as well. -/
structure View.Tidy (view : View τ ω) : Prop where
  once : view.eblOpenHooks.targets.Nodup
  kept : ∀ target hook, view.hooks target = some hook → hook.detour = .eblOpenFile →
    ⟨some target, some hook.trampoline⟩ ∈ view.eblOpenHooks.entries

theorem filter_target {entries : List (EblOpenHook τ ω)} {entry : EblOpenHook τ ω}
    (once : (entries.map EblOpenHook.target).Nodup) (member : entry ∈ entries) :
    (entries.filter fun other => other.target = entry.target) = [entry] := by
  induction entries with
  | nil => cases member
  | cons first rest ih =>
      obtain ⟨apart, once⟩ := List.nodup_cons.mp once
      rcases List.mem_cons.mp member with rfl | later
      · have none : (rest.filter fun other => other.target = entry.target) = [] := by
          rw [List.filter_eq_nil_iff]
          intro other inside same
          exact apart (List.mem_map.mpr ⟨other, inside, by simpa using same⟩)
        simp [none]
      · have differ : first.target ≠ entry.target := by
          intro same
          exact apart (List.mem_map.mpr ⟨entry, later, same.symm⟩)
        simp [differ, ih once later]

theorem View.Tidy.keepsOriginals {view : View τ ω} (tidy : view.Tidy) : view.KeepsOriginals := by
  intro target hook installed detour _
  have only := filter_target tidy.once (tidy.kept target hook installed detour)
  refine ⟨only, ?_⟩
  intro device points
  have found : eblOpenOriginal view (some target) = some hook.trampoline := by
    unfold eblOpenOriginal
    rw [← List.head?_filter, only]
    rfl
  simp [eblOpenFileHooked, points, found]

theorem View.not_keepsOriginals {view : View τ ω} {target : τ} {hook : HookEntry Detour ω}
    (installed : view.hooks target = some hook) (detour : hook.detour = .eblOpenFile)
    (enabled : hook.isEnabled = true) (missing : some target ∉ view.eblOpenHooks.targets) :
    ¬ view.KeepsOriginals := by
  intro keeps
  have only := (keeps target hook installed detour enabled).1
  have member : (⟨some target, some hook.trampoline⟩ : EblOpenHook τ ω) ∈
      view.eblOpenHooks.entries.filter fun entry => entry.target = some target := by
    rw [only]
    exact List.mem_singleton_self _
  exact missing (List.mem_map.mpr ⟨_, (List.mem_filter.mp member).1, rfl⟩)

structure Good (s : AssetHooks τ ω) : Prop where
  tidy : s.toView.Tidy
  views : ∀ view ∈ s.views, view.KeepsOriginals

def Bad (s : AssetHooks τ ω) : Prop := ∃ view ∈ s.views, ¬ view.KeepsOriginals

/-- `clean` decides about the views up to `s`. -/
structure Settles (s : AssetHooks τ ω) (clean : Prop) : Prop where
  good : clean → Good s
  bad : ¬ clean → Bad s

/-- Nothing that was seen is forgotten, and the state itself is among what is seen. -/
structure Passes (s s' : AssetHooks τ ω) : Prop where
  older : ∀ view ∈ s.views, view ∈ s'.views
  now : s.toView ∈ s.views → s'.toView ∈ s'.views

omit [DecidableEq τ] in
theorem Passes.refl (s : AssetHooks τ ω) : Passes s s := ⟨fun _ member => member, id⟩

omit [DecidableEq τ] in
theorem Passes.trans {s₁ s₂ s₃ : AssetHooks τ ω} (first : Passes s₁ s₂) (second : Passes s₂ s₃) :
    Passes s₁ s₃ :=
  ⟨fun view member => second.older view (first.older view member),
    fun seen => second.now (first.now seen)⟩

omit [DecidableEq τ] in
theorem Passes.enter (s : AssetHooks τ ω) (hooks : Hooks τ Detour ω) (opens : EblOpenHooks τ ω) :
    Passes s (s.enter hooks opens) :=
  ⟨fun _ member => List.mem_cons_of_mem _ member, fun _ => List.mem_cons_self⟩

theorem Bad.passes {s s' : AssetHooks τ ω} (bad : Bad s) (passes : Passes s s') : Bad s' := by
  obtain ⟨view, member, broken⟩ := bad
  exact ⟨view, passes.older view member, broken⟩

theorem Good.enter {s : AssetHooks τ ω} {hooks : Hooks τ Detour ω} {opens : EblOpenHooks τ ω}
    (good : Good s) (tidy : (⟨hooks, opens⟩ : View τ ω).Tidy) : Good (s.enter hooks opens) := by
  refine ⟨tidy, ?_⟩
  intro view member
  rcases List.mem_cons.mp member with rfl | older
  · exact tidy.keepsOriginals
  · exact good.views view older

/-- A piece of work that leaves no hook without its entry. -/
structure Keeps (s s' : AssetHooks τ ω) : Prop extends Passes s s' where
  good : Good s → Good s'

theorem Keeps.same {s s' : AssetHooks τ ω} (view : s'.toView = s.toView)
    (views : s'.views = s.views) : Keeps s s' := by
  refine ⟨⟨?_, ?_⟩, ?_⟩
  · exact fun _ member => views ▸ member
  · exact fun seen => by rwa [view, views]
  · exact fun good => ⟨view ▸ good.tidy, views ▸ good.views⟩

theorem Keeps.trans {s₁ s₂ s₃ : AssetHooks τ ω} (first : Keeps s₁ s₂) (second : Keeps s₂ s₃) :
    Keeps s₁ s₃ :=
  ⟨first.toPasses.trans second.toPasses, fun good => second.good (first.good good)⟩

theorem Settles.of_good {s : AssetHooks τ ω} (good : Good s) : Settles s True :=
  ⟨fun _ => good, fun unclean => absurd trivial unclean⟩

theorem Settles.iff {s : AssetHooks τ ω} {clean clean' : Prop} (settles : Settles s clean)
    (same : clean ↔ clean') : Settles s clean' :=
  ⟨fun holds => settles.good (same.mpr holds),
    fun fails => settles.bad fun holds => fails (same.mp holds)⟩

theorem Settles.keeps {s s' : AssetHooks τ ω} {clean : Prop} (settles : Settles s clean)
    (keeps : Keeps s s') : Settles s' clean :=
  ⟨fun holds => keeps.good (settles.good holds),
    fun fails => (settles.bad fails).passes keeps.toPasses⟩

variable (answers : Answers τ ω)

/-- The hooks of `after` are among those of `before`, each with its detour and its trampoline. -/
def Fewer (before after : Hooks τ Detour ω) : Prop :=
  ∀ target hook, after target = some hook → ∃ hook', before target = some hook' ∧
    hook'.detour = hook.detour ∧ hook'.trampoline = hook.trampoline

omit [DecidableEq τ] in
theorem Fewer.refl (hooks : Hooks τ Detour ω) : Fewer hooks hooks :=
  fun _ hook installed => ⟨hook, installed, rfl, rfl⟩

theorem Fewer.remove (hooks : Hooks τ Detour ω) (target : τ) :
    Fewer hooks (Function.update hooks target none) := by
  intro other hook installed
  by_cases same : other = target
  · simp [same] at installed
  · rw [Function.update_of_ne same] at installed
    exact ⟨hook, installed, rfl, rfl⟩

omit [DecidableEq τ] in
theorem View.Tidy.fewer {hooks hooks' : Hooks τ Detour ω} {opens : EblOpenHooks τ ω}
    (tidy : (⟨hooks, opens⟩ : View τ ω).Tidy) (fewer : Fewer hooks hooks') :
    (⟨hooks', opens⟩ : View τ ω).Tidy := by
  refine ⟨tidy.once, ?_⟩
  intro target hook installed detour
  obtain ⟨hook', before, sameDetour, sameTrampoline⟩ := fewer target hook installed
  have member := tidy.kept target hook' before (sameDetour.trans detour)
  rwa [sameTrampoline] at member

/-- A piece of work that only takes hooks off or disables them. -/
structure Lessens (s s' : AssetHooks τ ω) : Prop extends Keeps s s' where
  opens : s'.eblOpenHooks = s.eblOpenHooks
  absent : ∀ target, s.hooks target = none → s'.hooks target = none

theorem Lessens.refl (s : AssetHooks τ ω) : Lessens s s := ⟨.same rfl rfl, rfl, fun _ => id⟩

theorem Lessens.trans {s₁ s₂ s₃ : AssetHooks τ ω} (first : Lessens s₁ s₂)
    (second : Lessens s₂ s₃) : Lessens s₁ s₃ :=
  ⟨first.toKeeps.trans second.toKeeps, second.opens.trans first.opens,
    fun target none => second.absent target (first.absent target none)⟩

theorem Lessens.enter {s : AssetHooks τ ω} {hooks : Hooks τ Detour ω}
    (fewer : Fewer s.hooks hooks) : Lessens s (s.enter hooks s.eblOpenHooks) := by
  refine ⟨⟨.enter s _ _, fun good => good.enter (good.tidy.fewer fewer)⟩, rfl, ?_⟩
  intro target none
  cases installed : hooks target with
  | none => exact installed
  | some hook =>
      obtain ⟨hook', before, _⟩ := fewer target hook installed
      simp [none] at before

theorem removeAssetHook_lessens (site : RemovalSite) (target : Option τ) (s : AssetHooks τ ω) :
    Lessens s (removeAssetHook answers site target s).1 := by
  cases target with
  | none => exact .refl s
  | some target =>
      rcases mhRemoveHook_cases s.hooks target (answers.remove site target) with
        ⟨removed, -⟩ | ⟨-, -, -, -, stuck⟩
      · simp only [removeAssetHook, removed]
        exact .enter (.remove s.hooks target)
      · simp only [removeAssetHook, stuck]
        exact .enter (.refl s.hooks)

theorem removeAssetHook_absent (site : RemovalSite) (target : τ) (s : AssetHooks τ ω)
    (removed : (removeAssetHook answers site (some target) s).2 = true) :
    (removeAssetHook answers site (some target) s).1.hooks target = none := by
  rcases mhRemoveHook_cases s.hooks target (answers.remove site target) with
    ⟨gone, -⟩ | ⟨-, -, -, -, stuck⟩
  · simp [removeAssetHook, gone, AssetHooks.enter]
  · simp [removeAssetHook, stuck] at removed

theorem mhDisableHook_fewer (hooks : Hooks τ Detour ω) (target : τ) (patched : Bool) :
    Fewer hooks (mhDisableHook hooks target patched).1 := by
  unfold mhDisableHook
  cases installed : hooks target with
  | none => exact .refl hooks
  | some entry =>
      dsimp only
      split_ifs
      · exact .refl hooks
      · intro other hook present
        dsimp only at present
        by_cases same : other = target
        · subst same
          simp only [Function.update_self, Option.some.injEq] at present
          exact ⟨entry, installed, by simp [← present], by simp [← present]⟩
        · rw [Function.update_of_ne same] at present
          exact ⟨hook, present, rfl, rfl⟩
      · exact .refl hooks

theorem mlHookDisable_lessens (detour : Detour) (target : Option τ) (s : AssetHooks τ ω) :
    Lessens s (mlHookDisable answers detour target s).1 := by
  cases target with
  | none => exact .refl s
  | some target => exact .enter (mhDisableHook_fewer s.hooks target (answers.disable detour))

theorem removeAssetHooks_lessens (targets : List (Detour × Option τ)) (s : AssetHooks τ ω) :
    Lessens s (removeAssetHooks answers targets s).1 := by
  induction targets generalizing s with
  | nil => exact .refl s
  | cons pair rest ih =>
      exact (removeAssetHook_lessens answers (.uninstall pair.1) pair.2 s).trans (ih _)

theorem removeAssetHooks_absent (targets : List (Detour × Option τ)) (s : AssetHooks τ ω)
    (removed : (removeAssetHooks answers targets s).2 = true) (detour : Detour) (target : τ)
    (member : (detour, some target) ∈ targets) :
    (removeAssetHooks answers targets s).1.hooks target = none := by
  induction targets generalizing s with
  | nil => cases member
  | cons pair rest ih =>
      simp only [removeAssetHooks, Bool.and_eq_true] at removed
      rcases List.mem_cons.mp member with rfl | later
      · have gone := removeAssetHook_absent answers (.uninstall detour) target s removed.1
        exact (removeAssetHooks_lessens answers rest _).absent target gone
      · exact ih _ removed.2 later

/-- What an installation can end in. `hooks` and `opens` are what is seen between the two calls to
MinHook. -/
theorem mlHookInstall_cases (target : τ) (detour : Detour)
    (store : ω → EblOpenHooks τ ω → EblOpenHooks τ ω) (s : AssetHooks τ ω) :
    (∃ original, s.hooks target = none ∧ answers.trampoline target = some original ∧
      answers.enable target = true ∧
      mlHookInstall answers (some target) detour store s =
        (((s.enter (Function.update s.hooks target (some ⟨detour, original, false⟩))
            (store original s.eblOpenHooks)).enter
          (Function.update s.hooks target (some ⟨detour, original, true⟩))
          (store original s.eblOpenHooks)), .applied)) ∨
    (∃ original, s.hooks target = none ∧ answers.trampoline target = some original ∧
      answers.enable target = false ∧
      mlHookInstall answers (some target) detour store s =
        (((s.enter (Function.update s.hooks target (some ⟨detour, original, false⟩))
            (store original s.eblOpenHooks)).enter s.hooks (store original s.eblOpenHooks)),
          .failed)) ∨
    (¬ (s.hooks target = none ∧ (answers.trampoline target).isSome) ∧
      mlHookInstall answers (some target) detour store s =
        (s.enter s.hooks s.eblOpenHooks, .failed)) := by
  rcases mhCreateHook_cases s.hooks target detour (answers.trampoline target) with
    ⟨original, absent, granted, created⟩ | ⟨impossible, status, notOk, refused⟩
  · cases enabled : answers.enable target with
    | true =>
        left
        refine ⟨original, absent, granted, rfl, ?_⟩
        simp [mlHookInstall, created, mhEnableHook, enabled, AssetHooks.enter]
    | false =>
        right; left
        refine ⟨original, absent, granted, rfl, ?_⟩
        have back : Function.update s.hooks target none = s.hooks := by
          rw [← absent, Function.update_eq_self]
        simp [mlHookInstall, created, mhEnableHook, enabled, AssetHooks.enter, mhRemoveHook, back]
  · right; right
    refine ⟨impossible, ?_⟩
    simp only [mlHookInstall, refused]

theorem View.Tidy.update {hooks : Hooks τ Detour ω} {opens : EblOpenHooks τ ω} {target : τ}
    {hook : HookEntry Detour ω} (tidy : (⟨hooks, opens⟩ : View τ ω).Tidy)
    (listed : hook.detour = .eblOpenFile →
      ⟨some target, some hook.trampoline⟩ ∈ opens.entries) :
    (⟨Function.update hooks target (some hook), opens⟩ : View τ ω).Tidy := by
  refine ⟨tidy.once, ?_⟩
  intro other hook' installed detour
  by_cases same : other = target
  · subst same
    simp only [Function.update_self, Option.some.injEq] at installed
    subst installed
    exact listed detour
  · exact tidy.kept other hook' (by simpa [Function.update_of_ne same] using installed) detour

theorem mlHookInstall_passes (target : Option τ) (detour : Detour)
    (store : ω → EblOpenHooks τ ω → EblOpenHooks τ ω) (s : AssetHooks τ ω) :
    Passes s (mlHookInstall answers target detour store s).1 := by
  cases target with
  | none => exact .refl s
  | some target =>
      rcases mlHookInstall_cases answers target detour store s with
        ⟨_, _, _, _, ended⟩ | ⟨_, _, _, _, ended⟩ | ⟨_, ended⟩
      · rw [ended]
        exact (Passes.enter s _ _).trans (.enter _ _ _)
      · rw [ended]
        exact (Passes.enter s _ _).trans (.enter _ _ _)
      · rw [ended]
        exact .enter s _ _

theorem mlHookInstallOther_keeps (target : Option τ) (detour : Detour) (s : AssetHooks τ ω)
    (other : detour ≠ .eblOpenFile) : Keeps s (mlHookInstallOther answers target detour s).1 := by
  refine ⟨mlHookInstall_passes answers target detour _ s, fun good => ?_⟩
  unfold mlHookInstallOther
  cases target with
  | none => exact good
  | some target =>
      rcases mlHookInstall_cases answers target detour (fun _ opens => opens) s with
        ⟨_, _, _, _, ended⟩ | ⟨_, _, _, _, ended⟩ | ⟨_, ended⟩
      · rw [ended]
        refine (good.enter (good.tidy.update ?_)).enter (good.tidy.update ?_)
        · exact fun same => absurd same other
        · exact fun same => absurd same other
      · rw [ended]
        exact (good.enter (good.tidy.update fun same => absurd same other)).enter good.tidy
      · rw [ended]
        exact good.enter good.tidy

end Yafsml.Patches.EblOpens
