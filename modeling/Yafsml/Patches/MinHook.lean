import Mathlib.Logic.Function.Basic

/-! # MinHook -/

namespace Yafsml.Patches.MinHook

/-- The statuses that a caller tells apart; `refused` is any failure of the system. -/
inductive MhStatus where
  | ok
  | alreadyCreated
  | notCreated
  | enabled
  | disabled
  | refused
deriving DecidableEq, Repr

/-- `HOOK_ENTRY`: `trampoline` runs the target as it was before the hook. -/
structure HookEntry (δ ω : Type) where
  detour : δ
  trampoline : ω
  isEnabled : Bool
deriving DecidableEq, Repr

/-- `g_hooks`; no target has two entries. -/
abbrev Hooks (τ δ ω : Type) := τ → Option (HookEntry δ ω)

variable {τ δ ω : Type} [DecidableEq τ]

/-- `trampoline` is `none` where the target can not be hooked or there is no memory. The last
component is what `*ppOriginal` is set to. -/
def mhCreateHook (hooks : Hooks τ δ ω) (target : τ) (detour : δ) (trampoline : Option ω) :
    Hooks τ δ ω × MhStatus × Option ω :=
  match hooks target, trampoline with
  | some _, _ => (hooks, .alreadyCreated, none)
  | none, none => (hooks, .refused, none)
  | none, some trampoline =>
      (Function.update hooks target (some ⟨detour, trampoline, false⟩), .ok, some trampoline)

/-- `patched`: the threads are suspended and the target's code is written. -/
def mhEnableHook (hooks : Hooks τ δ ω) (target : τ) (patched : Bool) : Hooks τ δ ω × MhStatus :=
  match hooks target with
  | none => (hooks, .notCreated)
  | some entry =>
      if entry.isEnabled then (hooks, .enabled)
      else if patched then
        (Function.update hooks target (some { entry with isEnabled := true }), .ok)
      else (hooks, .refused)

def mhDisableHook (hooks : Hooks τ δ ω) (target : τ) (patched : Bool) : Hooks τ δ ω × MhStatus :=
  match hooks target with
  | none => (hooks, .notCreated)
  | some entry =>
      if !entry.isEnabled then (hooks, .disabled)
      else if patched then
        (Function.update hooks target (some { entry with isEnabled := false }), .ok)
      else (hooks, .refused)

def mhRemoveHook (hooks : Hooks τ δ ω) (target : τ) (patched : Bool) : Hooks τ δ ω × MhStatus :=
  match hooks target with
  | none => (hooks, .notCreated)
  | some entry =>
      if entry.isEnabled && !patched then (hooks, .refused)
      else (Function.update hooks target none, .ok)

theorem mhCreateHook_cases (hooks : Hooks τ δ ω) (target : τ) (detour : δ)
    (trampoline : Option ω) :
    (∃ original, hooks target = none ∧ trampoline = some original ∧
      mhCreateHook hooks target detour trampoline =
        (Function.update hooks target (some ⟨detour, original, false⟩), .ok, some original)) ∨
    (¬ (hooks target = none ∧ trampoline.isSome) ∧ ∃ status, status ≠ .ok ∧
      mhCreateHook hooks target detour trampoline = (hooks, status, none)) := by
  unfold mhCreateHook
  cases present : hooks target with
  | some entry => exact .inr ⟨by simp, .alreadyCreated, by simp, rfl⟩
  | none =>
      cases trampoline with
      | none => exact .inr ⟨by simp, .refused, by simp, rfl⟩
      | some original => exact .inl ⟨original, rfl, rfl, rfl⟩

/-- A removal fails only where the code can not be patched back, and then leaves everything. -/
theorem mhRemoveHook_cases (hooks : Hooks τ δ ω) (target : τ) (patched : Bool) :
    ((mhRemoveHook hooks target patched).1 = Function.update hooks target none ∧
      ∀ entry, hooks target = some entry → entry.isEnabled = true → patched = true) ∨
    (∃ entry, hooks target = some entry ∧ entry.isEnabled = true ∧ patched = false ∧
      mhRemoveHook hooks target patched = (hooks, .refused)) := by
  unfold mhRemoveHook
  cases present : hooks target with
  | none =>
      left
      refine ⟨?_, nofun⟩
      simp only [← present, Function.update_eq_self]
  | some entry =>
      by_cases stuck : (entry.isEnabled && !patched) = true
      · obtain ⟨enabled, unpatched⟩ := Bool.and_eq_true_iff.mp stuck
        exact .inr ⟨entry, rfl, enabled, by simpa using unpatched, by simp [stuck]⟩
      · left
        refine ⟨by simp [stuck], ?_⟩
        rintro _ ⟨rfl⟩ enabled
        simpa [enabled] using stuck

end Yafsml.Patches.MinHook
