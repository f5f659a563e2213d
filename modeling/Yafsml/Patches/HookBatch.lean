import Mathlib.Logic.Function.Basic
import Mathlib.Data.List.Basic

/-! # Batches of hooks -/

namespace Yafsml.Patches

inductive HookResult where
  | applied
  | signatureNotFound
  | failed
deriving DecidableEq, Repr

inductive HookOperation (τ : Type) where
  | install (target : τ)
  | remove (target : τ)
deriving DecidableEq, Repr

/-- What every thread sees right before one hook is installed or removed. `σ` is what the caller
keeps beside the hooks. -/
structure Moment (τ σ : Type) where
  operation : HookOperation τ
  installed : τ → Bool
  flags : σ

structure Hooking (τ σ : Type) where
  installed : τ → Bool
  flags : σ
  /-- most recent first -/
  moments : List (Moment τ σ)

/-- How single operations on targets end, each by its place in the order of all operations. -/
structure HookWorld (τ : Type) where
  install : Nat → τ → HookResult
  remove : Nat → τ → Bool

variable {τ σ : Type}

def Hooking.record (h : Hooking τ σ) (operation : HookOperation τ) : Hooking τ σ :=
  { h with moments := ⟨operation, h.installed, h.flags⟩ :: h.moments }

section Batches

variable [DecidableEq τ]

/-- `ml_hook_install`; a target that is `NULL` is `none`. -/
def mlHookInstall (world : HookWorld τ) (target : Option τ) (h : Hooking τ σ) :
    Hooking τ σ × HookResult :=
  match target with
  | none => (h, .signatureNotFound)
  | some target =>
      let after := h.record (.install target)
      match world.install h.moments.length target with
      | .applied =>
          ({ after with installed := Function.update h.installed target true }, .applied)
      | failure => (after, failure)

def mlHookRemove (world : HookWorld τ) (target : Option τ) (h : Hooking τ σ) :
    Hooking τ σ × Bool :=
  match target with
  | none => (h, true)
  | some target =>
      let after := h.record (.remove target)
      if h.installed target && !world.remove h.moments.length target then (after, false)
      else ({ after with installed := Function.update h.installed target false }, true)

/-- The loops of the rollback and of `ml_hook_batch_remove`, over the targets in the order in which
they take them. -/
def removeEach (world : HookWorld τ) : List (Option τ) → Hooking τ σ → Hooking τ σ × Bool
  | [], h => (h, true)
  | target :: rest, h =>
      let (h, removed) := mlHookRemove world target h
      let (h, result) := removeEach world rest h
      (h, removed && result)

/-- The loop of `ml_hook_batch_install`: the result, and whether the rollback is complete.
`installed` are the targets done so far, most recent first. -/
def installEach (world : HookWorld τ) :
    List (Option τ) → List (Option τ) → Hooking τ σ → Hooking τ σ × Bool × Bool
  | [], _, h => (h, true, true)
  | target :: rest, installed, h =>
      match mlHookInstall world target h with
      | (h, .applied) => installEach world rest (target :: installed) h
      | (h, _) =>
          let (h, rollbackComplete) := removeEach world installed h
          (h, false, rollbackComplete)

def mlHookBatchInstall (world : HookWorld τ) (specs : List (Option τ)) (h : Hooking τ σ) :
    Hooking τ σ × Bool × Bool :=
  match specs with
  | [] => (h, false, true)
  | _ :: _ => installEach world specs [] h

def mlHookBatchRemove (world : HookWorld τ) (specs : List (Option τ)) (h : Hooking τ σ) :
    Hooking τ σ × Bool :=
  removeEach world specs.reverse h

end Batches

def HookOperation.target : HookOperation τ → τ
  | .install target => target
  | .remove target => target

/-- A piece of work on the targets of `specs` only, with the flags as they are. -/
structure Confined (specs : List (Option τ)) (h h' : Hooking τ σ) : Prop where
  flags : h'.flags = h.flags
  others : ∀ target, some target ∉ specs → h'.installed target = h.installed target
  moments : ∀ moment ∈ h'.moments, moment ∈ h.moments ∨
    some moment.operation.target ∈ specs ∧ moment.flags = h.flags ∧
      ∀ target, some target ∉ specs → moment.installed target = h.installed target

theorem Confined.refl (specs : List (Option τ)) (h : Hooking τ σ) : Confined specs h h :=
  ⟨rfl, fun _ _ => rfl, fun _ member => .inl member⟩

theorem Confined.trans {specs : List (Option τ)} {h₁ h₂ h₃ : Hooking τ σ}
    (first : Confined specs h₁ h₂) (second : Confined specs h₂ h₃) : Confined specs h₁ h₃ := by
  refine ⟨second.flags.trans first.flags, ?_, ?_⟩
  · intro target other
    rw [second.others target other, first.others target other]
  · intro moment member
    rcases second.moments moment member with old | ⟨inside, flags, others⟩
    · exact first.moments moment old
    · right
      refine ⟨inside, flags.trans first.flags, fun target other => ?_⟩
      rw [others target other, first.others target other]

theorem Confined.mono {specs specs' : List (Option τ)} {h h' : Hooking τ σ}
    (within : ∀ target ∈ specs, target ∈ specs') (confined : Confined specs h h') :
    Confined specs' h h' := by
  refine ⟨confined.flags, ?_, ?_⟩
  · intro target other
    exact confined.others target (mt (within _) other)
  · intro moment member
    rcases confined.moments moment member with old | ⟨inside, flags, others⟩
    · exact .inl old
    · exact .inr ⟨within _ inside, flags, fun target other => others target (mt (within _) other)⟩

variable [DecidableEq τ]

theorem confined_record_update {h : Hooking τ σ} (operation : HookOperation τ) (value : Bool) :
    Confined [some operation.target] h
      { h.record operation with
        installed := Function.update h.installed operation.target value } := by
  refine ⟨rfl, ?_, ?_⟩
  · intro target other
    exact Function.update_of_ne (by simpa using other) _ _
  · intro moment member
    cases member with
    | head => exact .inr ⟨by simp, rfl, fun _ _ => rfl⟩
    | tail _ old => exact .inl old

theorem confined_record {h : Hooking τ σ} (operation : HookOperation τ) :
    Confined [some operation.target] h (h.record operation) := by
  have unchanged := confined_record_update (h := h) operation
    (h.installed operation.target)
  rwa [Function.update_eq_self] at unchanged

theorem mlHookInstall_spec (world : HookWorld τ) (target : Option τ) (h : Hooking τ σ) :
    Confined [target] h (mlHookInstall world target h).1 ∧
      ((mlHookInstall world target h).2 = .applied → ∃ hooked, target = some hooked ∧
        (mlHookInstall world target h).1.installed = Function.update h.installed hooked true) ∧
      ((mlHookInstall world target h).2 ≠ .applied →
        (mlHookInstall world target h).1.installed = h.installed) := by
  unfold mlHookInstall
  cases target with
  | none => exact ⟨.refl _ _, nofun, fun _ => rfl⟩
  | some target =>
      dsimp only
      cases world.install h.moments.length target with
      | applied =>
          exact ⟨confined_record_update (.install target) true, fun _ => ⟨target, rfl, rfl⟩,
            fun failed => absurd rfl failed⟩
      | signatureNotFound => exact ⟨confined_record (.install target), nofun, fun _ => rfl⟩
      | failed => exact ⟨confined_record (.install target), nofun, fun _ => rfl⟩

theorem mlHookRemove_spec (world : HookWorld τ) (target : Option τ) (h : Hooking τ σ) :
    Confined [target] h (mlHookRemove world target h).1 ∧
      (∀ other, h.installed other = false →
        (mlHookRemove world target h).1.installed other = false) ∧
      ((mlHookRemove world target h).2 = true → ∀ hooked, target = some hooked →
        (mlHookRemove world target h).1.installed hooked = false) := by
  unfold mlHookRemove
  cases target with
  | none => exact ⟨.refl _ _, fun _ absent => absent, nofun⟩
  | some target =>
      dsimp only
      split
      · exact ⟨confined_record (.remove target), fun _ absent => absent, nofun⟩
      · refine ⟨confined_record_update (.remove target) false, ?_, ?_⟩
        · intro other absent
          by_cases same : other = target
          · subst same
            simp
          · simpa [Function.update_of_ne same] using absent
        · rintro _ hooked same
          cases same
          simp

theorem removeEach_spec (world : HookWorld τ) (specs : List (Option τ)) (h : Hooking τ σ) :
    Confined specs h (removeEach world specs h).1 ∧
      (∀ other, h.installed other = false → (removeEach world specs h).1.installed other = false) ∧
      ((removeEach world specs h).2 = true → ∀ hooked, some hooked ∈ specs →
        (removeEach world specs h).1.installed hooked = false) := by
  induction specs generalizing h with
  | nil => exact ⟨.refl _ _, fun _ absent => absent, fun _ _ member => nomatch member⟩
  | cons target rest ih =>
      obtain ⟨confined, kept, gone⟩ := mlHookRemove_spec world target h
      obtain ⟨confined', kept', gone'⟩ := ih (mlHookRemove world target h).1
      refine ⟨?_, ?_, ?_⟩
      · exact (confined.mono (by simp)).trans (confined'.mono (by simp +contextual))
      · intro other absent
        exact kept' other (kept other absent)
      · intro done hooked member
        simp only [removeEach, Bool.and_eq_true] at done
        rcases List.mem_cons.mp member with same | later
        · exact kept' hooked (gone done.1 hooked same.symm)
        · exact gone' done.2 hooked later

/-- `done` is what the loop has installed before: it is all there is among the batch's targets. -/
theorem installEach_spec (world : HookWorld τ) (specs done : List (Option τ)) (h : Hooking τ σ)
    (front : ∀ hooked, some hooked ∈ done → h.installed hooked = true)
    (apart : ∀ hooked, some hooked ∈ specs → some hooked ∉ done → h.installed hooked = false) :
    Confined (done ++ specs) h (installEach world specs done h).1 ∧
      ((installEach world specs done h).2.1 = true →
        ∀ hooked, some hooked ∈ done ++ specs →
          (installEach world specs done h).1.installed hooked = true) ∧
      ((installEach world specs done h).2.1 = false → (installEach world specs done h).2.2 = true →
        ∀ hooked, some hooked ∈ done ++ specs →
          (installEach world specs done h).1.installed hooked = false) := by
  induction specs generalizing done h with
  | nil =>
      refine ⟨.refl _ _, fun _ hooked member => ?_, nofun⟩
      exact front hooked (by simpa using member)
  | cons target rest ih =>
      obtain ⟨confined, applied, failed⟩ := mlHookInstall_spec world target h
      unfold installEach
      cases outcome : mlHookInstall world target h with
      | mk h' result =>
      rw [outcome] at confined applied failed
      have rolled : ∀ failure : result ≠ .applied,
          Confined (done ++ target :: rest) h (removeEach world done h').1 ∧
            ((removeEach world done h').2 = true → ∀ hooked, some hooked ∈ done ++ target :: rest →
              (removeEach world done h').1.installed hooked = false) := by
        intro failure
        obtain ⟨confined', kept, gone⟩ := removeEach_spec world done h'
        refine ⟨(confined.mono (by simp)).trans (confined'.mono (by simp +contextual)), ?_⟩
        intro complete hooked member
        by_cases before : some hooked ∈ done
        · exact gone complete hooked before
        · apply kept
          rw [failed failure]
          exact apart hooked ((List.mem_append.mp member).resolve_left before) before
      cases result with
      | signatureNotFound => exact ⟨(rolled nofun).1, nofun, fun _ => (rolled nofun).2⟩
      | failed => exact ⟨(rolled nofun).1, nofun, fun _ => (rolled nofun).2⟩
      | applied =>
          obtain ⟨hooked, rfl, installed⟩ := applied rfl
          have reordered : ∀ other : Option τ,
              other ∈ (some hooked :: done) ++ rest ↔ other ∈ done ++ some hooked :: rest := by
            intro other
            simp only [List.mem_append, List.mem_cons]
            tauto
          obtain ⟨confined', all, none⟩ := ih (some hooked :: done) h' (by
              intro other member
              rw [installed]
              rcases List.mem_cons.mp member with same | old
              · cases same
                simp
              · by_cases same : other = hooked
                · subst same
                  simp
                · rw [Function.update_of_ne same]
                  exact front other old) (by
              intro other member fresh
              have differs : other ≠ hooked := by
                rintro rfl
                exact fresh (.head _)
              rw [installed, Function.update_of_ne differs]
              exact apart other (.tail _ member) fun old => fresh (.tail _ old))
          refine ⟨?_, ?_, ?_⟩
          · refine (confined.mono (by simp)).trans (confined'.mono ?_)
            intro other member
            exact (reordered other).mp member
          · intro success other member
            exact all success other ((reordered _).mpr member)
          · intro failure complete other member
            exact none failure complete other ((reordered _).mpr member)

theorem batchInstall_spec (world : HookWorld τ) (specs : List (Option τ)) (h : Hooking τ σ)
    (absent : ∀ hooked, some hooked ∈ specs → h.installed hooked = false) :
    Confined specs h (mlHookBatchInstall world specs h).1 ∧
      ((mlHookBatchInstall world specs h).2.1 = true →
        ∀ hooked, some hooked ∈ specs →
          (mlHookBatchInstall world specs h).1.installed hooked = true) ∧
      ((mlHookBatchInstall world specs h).2.1 = false →
        (mlHookBatchInstall world specs h).2.2 = true →
        ∀ hooked, some hooked ∈ specs →
          (mlHookBatchInstall world specs h).1.installed hooked = false) := by
  cases specs with
  | nil => exact ⟨.refl _ _, nofun, fun _ _ _ member => nomatch member⟩
  | cons target rest =>
      have spec := installEach_spec world (target :: rest) [] h nofun fun hooked member _ =>
        absent hooked member
      simpa [mlHookBatchInstall] using spec

theorem batchRemove_spec (world : HookWorld τ) (specs : List (Option τ)) (h : Hooking τ σ) :
    Confined specs h (mlHookBatchRemove world specs h).1 ∧
      (∀ other, h.installed other = false →
        (mlHookBatchRemove world specs h).1.installed other = false) ∧
      ((mlHookBatchRemove world specs h).2 = true → ∀ hooked, some hooked ∈ specs →
        (mlHookBatchRemove world specs h).1.installed hooked = false) := by
  obtain ⟨confined, kept, gone⟩ := removeEach_spec world specs.reverse h
  exact ⟨confined.mono (by simp), kept, fun done hooked member => gone done hooked (by simpa using member)⟩

end Yafsml.Patches
