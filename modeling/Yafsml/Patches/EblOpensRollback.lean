import Mathlib.Data.List.Induction
import Yafsml.Patches.EblOpensSound

/-! # Rollbacks of the open hooks -/

namespace Yafsml.Patches.EblOpens
open MinHook

attribute [local instance] lawfulTargets

variable {τ ω : Type} [DecidableEq τ] (answers : Answers τ ω)

/-! ## Removing from the end of the table -/

def View.Hooked (view : View τ ω) (target : τ) : Prop :=
  ∃ hook, view.hooks target = some hook ∧ hook.detour = .eblOpenFile ∧ hook.isEnabled = true

omit [DecidableEq τ] in
theorem View.Tidy.removeLast {hooks hooks' : Hooks τ Detour ω} {opens : EblOpenHooks τ ω}
    {init : List (EblOpenHook τ ω)} {entry : EblOpenHook τ ω}
    (tidy : (⟨hooks, opens⟩ : View τ ω).Tidy) (listed : opens.entries = init ++ [entry])
    (fewer : Fewer hooks hooks')
    (gone : ∀ target hook, entry.target = some target → hooks' target = some hook →
      hook.detour ≠ .eblOpenFile) :
    (⟨hooks', opens.removeLast⟩ : View τ ω).Tidy := by
  have front : opens.removeLast.entries = init := by simp [EblOpenHooks.removeLast, listed]
  constructor
  · have once := tidy.once
    simp only [EblOpenHooks.targets, listed, List.map_append] at once
    simpa [EblOpenHooks.targets, front] using once.of_append_left
  · intro target hook installed detour
    have member := (tidy.fewer fewer).kept target hook installed detour
    simp only [listed, List.mem_append, List.mem_singleton] at member
    rcases member with inside | rfl
    · simpa [front] using inside
    · exact absurd detour (gone target hook rfl installed)

/-- One round either leaves a hook without its entry, or takes the last entry and its hook. -/
theorem removeRound_spec {s : AssetHooks τ ω} {init : List (EblOpenHook τ ω)}
    {entry : EblOpenHook τ ω} (good : Good s) (listed : s.eblOpenHooks.entries = init ++ [entry]) :
    (removeRound answers s).eblOpenHooks.entries = init ∧
      ((Bad (removeRound answers s) ∧ ∃ target, entry.target = some target ∧
          s.toView.Hooked target ∧
          answers.remove .removeEblDeviceOpensFrom target = false) ∨
        (Good (removeRound answers s) ∧
          (∀ target, entry.target = some target → s.toView.Hooked target →
            answers.remove .removeEblDeviceOpensFrom target = true) ∧
          ∀ target, entry.target ≠ some target →
            (removeRound answers s).hooks target = s.hooks target)) := by
  have last : s.eblOpenHooks.entries.getLast?.bind EblOpenHook.target = entry.target := by
    simp [listed]
  unfold removeRound
  simp only [last]
  cases aimed : entry.target with
  | none =>
      refine ⟨by simp [removeAssetHook, AssetHooks.enter, EblOpenHooks.removeLast, listed], .inr ?_⟩
      refine ⟨?_, by simp, fun _ _ => rfl⟩
      exact good.enter (good.tidy.removeLast listed (.refl _) (by simp [aimed]))
  | some target =>
      have lessens := removeAssetHook_lessens answers .removeEblDeviceOpensFrom (some target) s
      have good' := lessens.good good
      have listed' := (congrArg EblOpenHooks.entries lessens.opens).trans listed
      refine ⟨by simp [AssetHooks.enter, EblOpenHooks.removeLast, listed'], ?_⟩
      rcases mhRemoveHook_cases s.hooks target
        (answers.remove .removeEblDeviceOpensFrom target) with
        ⟨removed, enabled⟩ | ⟨hook, installed, enabled, unpatched, stuck⟩
      · have hooks : (removeAssetHook answers .removeEblDeviceOpensFrom (some target) s).1.hooks =
            Function.update s.hooks target none := by
          simp [removeAssetHook, removed, AssetHooks.enter]
        right
        refine ⟨?_, ?_, ?_⟩
        · refine good'.enter (good'.tidy.removeLast listed' (.refl _) ?_)
          intro other hook same installed
          rw [hooks, Option.some.inj (aimed.symm.trans same), Function.update_self] at installed
          cases installed
        · rintro _ ⟨rfl⟩ ⟨hook, installed, _, isEnabled⟩
          exact enabled hook installed isEnabled
        · intro other apart
          have differ : other ≠ target := fun same => apart (congrArg some same.symm)
          simp [AssetHooks.enter, hooks, Function.update_of_ne differ]
      · have hooks : (removeAssetHook answers .removeEblDeviceOpensFrom (some target) s).1.hooks =
            s.hooks := by
          simp [removeAssetHook, stuck, AssetHooks.enter]
        by_cases detour : hook.detour = .eblOpenFile
        · left
          refine ⟨⟨_, List.mem_cons_self, ?_⟩, target, rfl, ⟨hook, installed, detour, enabled⟩,
            unpatched⟩
          refine View.not_keepsOriginals (by simpa [hooks] using installed) detour enabled ?_
          have once := good'.tidy.once
          simp only [EblOpenHooks.targets, listed', List.map_append] at once
          have apart : ∀ other ∈ init, other.target ≠ some target := by
            simpa [aimed, List.nodup_append] using (List.nodup_append.mp once).2.2
          simpa [EblOpenHooks.targets, EblOpenHooks.removeLast, listed'] using apart
        · right
          refine ⟨?_, ?_, fun _ _ => by simp [AssetHooks.enter, hooks]⟩
          · refine good'.enter (good'.tidy.removeLast listed' (.refl _) ?_)
            intro other hook' same installed'
            rw [hooks, ← Option.some.inj (aimed.symm.trans same), installed] at installed'
            rwa [← Option.some.inj installed']
          · rintro _ ⟨rfl⟩ ⟨hook', installed', detour', _⟩
            rw [installed] at installed'
            exact absurd (Option.some.inj installed' ▸ detour') detour

theorem removeRound_passes (s : AssetHooks τ ω) : Passes s (removeRound answers s) :=
  (removeAssetHook_lessens answers _ _ s).toPasses.trans (.enter _ _ _)

theorem removeRounds_passes (rounds : Nat) (s : AssetHooks τ ω) :
    Passes s (removeRounds answers rounds s) := by
  induction rounds generalizing s with
  | zero => exact .refl s
  | succ rounds ih => exact (removeRound_passes answers s).trans (ih _)

/-- Every removal of an installed hook of `targets` succeeds. -/
def Removable (s : AssetHooks τ ω) (targets : List (Option τ)) : Prop :=
  ∀ target, some target ∈ targets → s.toView.Hooked target →
    answers.remove .removeEblDeviceOpensFrom target = true

theorem removeRounds_settles (kept last : List (EblOpenHook τ ω)) (s : AssetHooks τ ω)
    (good : Good s) (listed : s.eblOpenHooks.entries = kept ++ last) :
    Settles (removeRounds answers last.length s)
      (Removable answers s (last.map EblOpenHook.target)) := by
  induction last using List.reverseRecOn generalizing s with
  | nil => exact ⟨fun _ => good, fun unclean => absurd (fun _ => nofun) unclean⟩
  | append_singleton last entry ih =>
      rw [← List.append_assoc] at listed
      obtain ⟨listed', round⟩ := removeRound_spec answers good listed
      have rounds : removeRounds answers (last ++ [entry]).length s =
          removeRounds answers last.length (removeRound answers s) := by
        rw [List.length_append, List.length_singleton]
        rfl
      rw [rounds]
      rcases round with ⟨bad, target, aimed, hooked, refused⟩ | ⟨good', removed, others⟩
      · have unclean : ¬ Removable answers s ((last ++ [entry]).map EblOpenHook.target) := by
          intro clean
          have granted := clean target (by simp [aimed]) hooked
          rw [refused] at granted
          cases granted
        exact ⟨fun clean => absurd clean unclean,
          fun _ => bad.passes (removeRounds_passes answers _ _)⟩
      · refine (ih _ good' listed').iff ?_
        have once := good.tidy.once
        simp only [EblOpenHooks.targets, listed, List.map_append] at once
        have apart : ∀ target, some target ∈ last.map EblOpenHook.target →
            entry.target ≠ some target := by
          intro target member same
          refine (List.nodup_append.mp once).2.2 _ ?_ (some target) (by simp [same]) rfl
          exact List.mem_append_right _ member
        have same : ∀ target, some target ∈ last.map EblOpenHook.target →
            ((removeRound answers s).toView.Hooked target ↔ s.toView.Hooked target) := by
          intro target member
          simp only [View.Hooked, others target (apart target member)]
        constructor
        · intro clean target member hooked
          simp only [List.map_append, List.mem_append, List.map_singleton,
            List.mem_singleton] at member
          rcases member with earlier | this
          · exact clean target earlier ((same target earlier).mpr hooked)
          · exact removed target this.symm hooked
        · intro clean target member hooked
          exact clean target (by simp [List.mem_map.mp member]) ((same target member).mp hooked)

theorem removeEblDeviceOpensFrom_settles (count : Nat) (s : AssetHooks τ ω) (good : Good s) :
    Settles (removeEblDeviceOpensFrom answers count s)
      (Removable answers s (s.eblOpenHooks.targets.drop count)) := by
  have listed : s.eblOpenHooks.entries =
      s.eblOpenHooks.entries.take count ++ s.eblOpenHooks.entries.drop count :=
    (List.take_append_drop _ _).symm
  have settles := removeRounds_settles answers _ _ s good listed
  simpa [removeEblDeviceOpensFrom, EblOpenHooks.count, EblOpenHooks.targets,
    List.map_drop] using settles

theorem removeRound_count (s : AssetHooks τ ω) :
    (removeRound answers s).eblOpenHooks.count = s.eblOpenHooks.count - 1 := by
  have opens := (removeAssetHook_lessens answers .removeEblDeviceOpensFrom
    (s.eblOpenHooks.entries.getLast?.bind EblOpenHook.target) s).opens
  simp [removeRound, AssetHooks.enter, EblOpenHooks.removeLast, EblOpenHooks.count, opens]

theorem removeEblDeviceOpensFrom_count (count : Nat) (s : AssetHooks τ ω)
    (below : count ≤ s.eblOpenHooks.count) :
    (removeEblDeviceOpensFrom answers count s).eblOpenHooks.count = count := by
  have rounds : ∀ n (s : AssetHooks τ ω), (removeRounds answers n s).eblOpenHooks.count =
      s.eblOpenHooks.count - n := by
    intro n
    induction n with
    | zero => exact fun s => rfl
    | succ n ih =>
        intro s
        rw [removeRounds, ih, removeRound_count]
        omega
  rw [removeEblDeviceOpensFrom, rounds]
  omega

/-! ## Hooking the opens of the mounted devices -/

def Hookable (hooks : Hooks τ Detour ω) (target : τ) : Bool :=
  (hooks target).isNone && (answers.trampoline target).isSome && answers.enable target

theorem hookOne_cases {s : AssetHooks τ ω} (good : Good s) (target : Option τ)
    (fresh : target ∉ s.eblOpenHooks.targets)
    (room : s.eblOpenHooks.count ≠ eblOpenCapacity) :
    (∃ hooked original s', target = some hooked ∧ Hookable answers s.hooks hooked = true ∧
      mlHookInstall answers target .eblOpenFile (.storeOriginal s.eblOpenHooks.count)
        (s.enter s.hooks (s.eblOpenHooks.add target room)) = (s', .applied) ∧ Good s' ∧
      s'.eblOpenHooks.entries = s.eblOpenHooks.entries ++ [⟨target, some original⟩] ∧
      s'.hooks = Function.update s.hooks hooked (some ⟨.eblOpenFile, original, true⟩)) ∨
    (∃ failure s', failure ≠ .applied ∧
      (∀ hooked, target = some hooked → Hookable answers s.hooks hooked = false) ∧
      mlHookInstall answers target .eblOpenFile (.storeOriginal s.eblOpenHooks.count)
        (s.enter s.hooks (s.eblOpenHooks.add target room)) = (s', failure) ∧ Good s' ∧
      s'.eblOpenHooks.removeLast = s.eblOpenHooks ∧ s'.hooks = s.hooks) := by
  have tidy : ∀ original : Option ω, ∀ opens : EblOpenHooks τ ω,
      opens.entries = s.eblOpenHooks.entries ++ [⟨target, original⟩] →
      (⟨s.hooks, opens⟩ : View τ ω).Tidy := by
    intro original opens listed
    constructor
    · have once := good.tidy.once
      simp only [EblOpenHooks.targets, listed, List.map_append] at once fresh ⊢
      simpa using once.concat fresh
    · intro other hook installed detour
      rw [listed]
      exact List.mem_append_left _ (good.tidy.kept other hook installed detour)
  have added : Good (s.enter s.hooks (s.eblOpenHooks.add target room)) :=
    good.enter (tidy none _ rfl)
  have stored : ∀ original, (EblOpenHooks.storeOriginal s.eblOpenHooks.count original
      (s.eblOpenHooks.add target room)).entries =
        s.eblOpenHooks.entries ++ [⟨target, some original⟩] := by
    intro original
    simp [EblOpenHooks.storeOriginal, EblOpenHooks.add, EblOpenHooks.count,
      List.modify_eq_take_drop]
  cases target with
  | none =>
      right
      refine ⟨.signatureNotFound, _, by simp, by simp, rfl, added, ?_, rfl⟩
      simp [AssetHooks.enter, EblOpenHooks.removeLast, EblOpenHooks.add]
  | some target =>
      have listed : ∀ original, (⟨some target, some original⟩ : EblOpenHook τ ω) ∈
          (EblOpenHooks.storeOriginal s.eblOpenHooks.count original
            (s.eblOpenHooks.add (some target) room)).entries := by
        intro original
        simp [stored]
      rcases mlHookInstall_cases answers target .eblOpenFile
        (.storeOriginal s.eblOpenHooks.count)
        (s.enter s.hooks (s.eblOpenHooks.add (some target) room)) with
        ⟨original, absent, granted, enabled, ended⟩ | ⟨original, absent, granted, refused, ended⟩ |
          ⟨impossible, ended⟩
      · left
        have hookable : Hookable answers s.hooks target = true := by
          simp only [AssetHooks.enter] at absent
          simp [Hookable, absent, granted, enabled]
        refine ⟨target, original, _, rfl, hookable, ended, ?_, stored original, rfl⟩
        refine (added.enter ((tidy (some original) _ (stored original)).update ?_)).enter
          ((tidy (some original) _ (stored original)).update ?_)
        · exact fun _ => listed original
        · exact fun _ => listed original
      · right
        refine ⟨.failed, _, by simp, ?_, ended, ?_, ?_, rfl⟩
        · rintro _ ⟨rfl⟩
          simp [Hookable, refused]
        · refine (added.enter ((tidy (some original) _ (stored original)).update ?_)).enter
            (tidy (some original) _ (stored original))
          exact fun _ => listed original
        · simp [AssetHooks.enter, EblOpenHooks.removeLast, stored]
      · right
        refine ⟨.failed, _, by simp, ?_, ended, added.enter added.tidy, ?_, rfl⟩
        · rintro _ ⟨rfl⟩
          simp only [AssetHooks.enter, not_and, Option.isSome_iff_ne_none, ne_eq,
            not_not] at impossible
          cases absent : s.hooks target with
          | none => simp [Hookable, impossible absent]
          | some hook => simp [Hookable, absent]
        · simp [AssetHooks.enter, EblOpenHooks.removeLast, EblOpenHooks.add]

/-- The hooks that the rollback of `hook_ebl_device_opens` takes off, where there is one: those of
the targets before the first that finds no room or can not be hooked. `known` are the targets in
the table, `done` those that the call has hooked, most recent first. -/
def takenBack (hooks : Hooks τ Detour ω) :
    List (Option τ) → List τ → List (DlVirtualMount τ) → List τ
  | _, _, [] => []
  | known, done, mount :: rest =>
      match mount.device.bind DlDevice.vtable with
      | none => takenBack hooks known done rest
      | some target =>
          if target ∈ known then takenBack hooks known done rest
          else if known.length = eblOpenCapacity then done
          else
            match target with
            | none => done
            | some target =>
                if Hookable answers hooks target then
                  takenBack hooks (known ++ [some target]) (target :: done) rest
                else done

/-- What holds between the rounds of the loop over the mounts: `done` are the targets that it has
hooked, on top of the `startCount` entries of before, and no other hook has changed. -/
structure Underway (startCount : Nat) (hooks : Hooks τ Detour ω) (done : List τ)
    (s : AssetHooks τ ω) : Prop where
  good : Good s
  below : startCount ≤ s.eblOpenHooks.count
  top : s.eblOpenHooks.targets.drop startCount = done.reverse.map some
  hooked : ∀ target ∈ done, s.toView.Hooked target
  same : ∀ target, some target ∉ s.eblOpenHooks.targets → s.hooks target = hooks target

variable {answers} {startCount : Nat} {hooks : Hooks τ Detour ω} {done : List τ}
  {s : AssetHooks τ ω}

theorem Underway.rollback (hooking : Underway startCount hooks done s) :
    Settles (removeEblDeviceOpensFrom answers startCount s)
      (∀ target ∈ done, answers.remove .removeEblDeviceOpensFrom target = true) := by
  refine (removeEblDeviceOpensFrom_settles answers startCount s hooking.good).iff ?_
  simp only [Removable, hooking.top, List.mem_map, List.mem_reverse, Option.some.injEq,
    exists_eq_right]
  constructor
  · exact fun clean target member => clean target member (hooking.hooked target member)
  · exact fun clean target member _ => clean target member

theorem Underway.add (hooking : Underway startCount hooks done s) {target : τ} {original : ω}
    {s' : AssetHooks τ ω} (fresh : some target ∉ s.eblOpenHooks.targets) (good : Good s')
    (listed : s'.eblOpenHooks.entries = s.eblOpenHooks.entries ++ [⟨some target, some original⟩])
    (installed : s'.hooks =
      Function.update s.hooks target (some ⟨.eblOpenFile, original, true⟩)) :
    Underway startCount hooks (target :: done) s' := by
  have targets : s'.eblOpenHooks.targets = s.eblOpenHooks.targets ++ [some target] := by
    simp [EblOpenHooks.targets, listed]
  have length : s.eblOpenHooks.targets.length = s.eblOpenHooks.count := List.length_map _
  refine ⟨good, ?_, ?_, ?_, ?_⟩
  · have below := hooking.below
    simp only [EblOpenHooks.count, listed, List.length_append] at below ⊢
    omega
  · rw [targets, List.drop_append_of_le_length (length ▸ hooking.below), hooking.top]
    simp
  · intro other member
    by_cases same : other = target
    · subst same
      exact ⟨⟨.eblOpenFile, original, true⟩, by simp [installed], rfl, rfl⟩
    · have before := (List.mem_cons.mp member).resolve_left same
      obtain ⟨hook, present, kind⟩ := hooking.hooked other before
      exact ⟨hook, by simpa [installed, Function.update_of_ne same] using present, kind⟩
  · intro other absent
    simp only [targets, List.mem_append, List.mem_singleton, Option.some.injEq, not_or] at absent
    rw [installed, Function.update_of_ne absent.2]
    exact hooking.same other absent.1

theorem hookEach_settles (mounts : List (DlVirtualMount τ))
    (hooking : Underway startCount hooks done s) :
    Settles (hookEach answers startCount mounts s).1
      (∀ target ∈ takenBack answers hooks s.eblOpenHooks.targets done mounts,
        answers.remove .removeEblDeviceOpensFrom target = true) := by
  induction mounts generalizing s done with
  | nil => exact (Settles.of_good hooking.good).iff (by simp [takenBack])
  | cons mount rest ih =>
      have length : s.eblOpenHooks.targets.length = s.eblOpenHooks.count := List.length_map _
      unfold hookEach takenBack
      cases points : mount.device.bind DlDevice.vtable with
      | none => exact ih hooking
      | some target =>
          dsimp only
          by_cases known : target ∈ s.eblOpenHooks.targets
          · rw [if_pos known, if_pos known]
            exact ih hooking
          rw [if_neg known, if_neg known, length]
          by_cases full : s.eblOpenHooks.count = eblOpenCapacity
          · rw [dif_pos full, if_pos full]
            exact hooking.rollback
          rw [dif_neg full, if_neg full]
          rcases hookOne_cases answers hooking.good target known full with
            ⟨hooked, original, s', rfl, hookable, ended, good, listed, installed⟩ |
              ⟨failure, s', failed, refused, ended, good, back, unchanged⟩
          · have same : Hookable answers hooks hooked = true := by
              rw [← hookable]
              simp only [Hookable, hooking.same hooked known]
            rw [ended]
            dsimp only
            rw [if_pos same]
            have next := ih (hooking.add known good listed installed)
            simpa only [EblOpenHooks.targets, listed, List.map_append, List.map_singleton] using next
          · have again : Underway startCount hooks done
                (s'.enter s'.hooks s'.eblOpenHooks.removeLast) := by
              rw [back, unchanged]
              exact ⟨good.enter hooking.good.tidy, hooking.below, hooking.top, hooking.hooked,
                hooking.same⟩
            have rolls : Settles (removeEblDeviceOpensFrom answers startCount
                (s'.enter s'.hooks s'.eblOpenHooks.removeLast))
                (∀ target ∈ done, answers.remove .removeEblDeviceOpensFrom target = true) :=
              again.rollback
            rw [ended]
            refine (?_ : Settles _ (∀ target ∈ done,
              answers.remove .removeEblDeviceOpensFrom target = true)).iff ?_
            · cases failure with
              | applied => exact absurd rfl failed
              | signatureNotFound => exact rolls
              | failed => exact rolls
            · cases target with
              | none => rfl
              | some target =>
                  have not := refused target rfl
                  simp only [Hookable, hooking.same target known] at not
                  simp [Hookable, not]

end Yafsml.Patches.EblOpens
