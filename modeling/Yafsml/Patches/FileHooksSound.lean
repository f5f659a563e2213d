import Yafsml.Patches.FileHooks

/-! # What the flags of the file hooks say -/

namespace Yafsml.Patches

open FileHooks

/-- What holds right before any single operation: the flag that lets paths be routed to ZIP files
is right, and no hook on handles goes while a path can still be routed there. -/
def Moment.Safe (moment : Moment FileApi FileHookFlags) : Prop :=
  (moment.flags.zipIoReady = true → ∀ api ∈ FileApi.zip, moment.installed api = true) ∧
    ∀ api ∈ FileApi.zip, moment.operation = .remove api →
      ¬(moment.flags.zipIoReady = true ∧
        ∃ opener ∈ FileApi.path, opener.opensZip = true ∧ moment.installed opener = true)

namespace FileHooks

structure Sound (s : FileHooks) : Prop where
  ready : s.flags.zipIoReady = true → ∀ api ∈ FileApi.zip, s.installed api = true
  path : s.flags.pathHooksLive = false → ∀ api ∈ FileApi.path, s.installed api = false
  zip : s.flags.zipHooksLive = false → ∀ api ∈ FileApi.zip, s.installed api = false
  moments : ∀ moment ∈ s.moments, moment.Safe

structure Consistent (s : FileHooks) : Prop extends Sound s where
  resolved : s.flags.pathHooksLive = true ∨ s.flags.zipHooksLive = true → s.flags.resolved = true
  live : s.flags.zipIoReady = true → s.flags.zipHooksLive = true

def Complete (s : FileHooks) : Prop :=
  s.flags.hooksInstalled = true → ∀ api ∈ FileApi.path, s.installed api = true

structure PathsKept (s s' : FileHooks) : Prop where
  live : s'.flags.pathHooksLive = s.flags.pathHooksLive
  installed : s'.flags.hooksInstalled = s.flags.hooksInstalled
  resolved : s'.flags.resolved = s.flags.resolved
  hooks : ∀ api ∈ FileApi.path, s'.installed api = s.installed api

/-! ## The two batches -/

theorem path_not_zip : ∀ api ∈ FileApi.path, api ∉ FileApi.zip := by decide

theorem mem_zipSpecs {s : FileHooks} {api : FileApi} (member : some api ∈ zipSpecs s) :
    api ∈ FileApi.zip := by
  obtain ⟨other, among, same⟩ := List.mem_map.mp member
  split at same
  · cases same
    exact among
  · cases same

theorem mem_pathSpecs {s : FileHooks} {api : FileApi} (member : some api ∈ pathSpecs s) :
    api ∈ FileApi.path := by
  obtain ⟨other, among, same⟩ := List.mem_map.mp member
  split at same
  · cases same
    exact among
  · cases same

theorem zipSpecs_resolved {s : FileHooks} (resolved : s.flags.resolved = true) {api : FileApi}
    (member : api ∈ FileApi.zip) : some api ∈ zipSpecs s :=
  List.mem_map.mpr ⟨api, member, by rw [if_pos resolved]⟩

theorem pathSpecs_resolved {s : FileHooks} (resolved : s.flags.resolved = true) {api : FileApi}
    (member : api ∈ FileApi.path) : some api ∈ pathSpecs s :=
  List.mem_map.mpr ⟨api, member, by rw [if_pos resolved]⟩

theorem zip_keeps_path {s s' : FileHooks} (confined : Confined (zipSpecs s) s s') {api : FileApi}
    (member : api ∈ FileApi.path) : s'.installed api = s.installed api :=
  confined.others api fun among => path_not_zip api member (mem_zipSpecs among)

theorem path_keeps_zip {s s' : FileHooks} (confined : Confined (pathSpecs s) s s') {api : FileApi}
    (member : api ∈ FileApi.zip) : s'.installed api = s.installed api :=
  confined.others api fun among => path_not_zip api (mem_pathSpecs among) member

theorem zip_moments {s s' : FileHooks} (confined : Confined (zipSpecs s) s s')
    (unready : s.flags.zipIoReady = false) (safe : ∀ moment ∈ s.moments, moment.Safe) :
    ∀ moment ∈ s'.moments, moment.Safe := by
  intro moment member
  rcases confined.moments moment member with old | ⟨_, flags, _⟩
  · exact safe moment old
  · simp [Moment.Safe, flags, unready]

theorem path_moments {s s' : FileHooks} (confined : Confined (pathSpecs s) s s')
    (ready : s.flags.zipIoReady = true → ∀ api ∈ FileApi.zip, s.installed api = true)
    (safe : ∀ moment ∈ s.moments, moment.Safe) : ∀ moment ∈ s'.moments, moment.Safe := by
  intro moment member
  rcases confined.moments moment member with old | ⟨inside, flags, others⟩
  · exact safe moment old
  · constructor
    · intro routed api among
      rw [others api fun path => path_not_zip api (mem_pathSpecs path) among]
      exact ready (by rwa [flags] at routed) api among
    · intro api among removed
      rw [removed] at inside
      exact absurd among (path_not_zip api (mem_pathSpecs inside))

/-! ## The parts of the calls -/

variable (world : HookWorld FileApi)

theorem removeZipHooks_spec {s : FileHooks} (consistent : Consistent s)
    (resolved : s.flags.resolved = true) :
    Consistent (removeZipHooks world s) ∧ PathsKept s (removeZipHooks world s) := by
  let stopped : FileHooks := mlZipFileCloseAll { s with flags.zipIoReady := false }
  let removed := mlHookBatchRemove world (zipSpecs stopped) stopped
  obtain ⟨confined, _, gone⟩ := batchRemove_spec world (zipSpecs stopped) stopped
  have flags : removed.1.flags = stopped.flags := confined.flags
  have unready : removed.1.flags.zipIoReady = false := by rw [flags]; rfl
  have kept : PathsKept s removed.1 := by
    refine ⟨?_, ?_, ?_, fun api member => zip_keeps_path confined member⟩ <;> rw [flags] <;> rfl
  have safe : ∀ moment ∈ removed.1.moments, moment.Safe :=
    zip_moments confined rfl consistent.moments
  have same : removeZipHooks world s =
      { removed.1 with flags.zipHooksLive := !removed.2 } := rfl
  rw [same]
  refine ⟨⟨⟨?_, ?_, ?_, safe⟩, fun _ => kept.resolved.trans resolved, ?_⟩,
    kept.live, kept.installed, kept.resolved, kept.hooks⟩
  · intro ready
    exact absurd ready (by simp [unready])
  · intro dead api member
    rw [show _ = s.installed api from kept.hooks api member]
    exact consistent.path (kept.live.symm.trans dead) api member
  · intro dead api member
    exact gone (by simpa using dead) api (zipSpecs_resolved resolved member)
  · intro ready
    exact absurd ready (by simp [unready])

theorem Consistent.closeAll {s : FileHooks} (consistent : Consistent s) :
    Consistent (mlZipFileCloseAll s) :=
  ⟨⟨consistent.ready, consistent.path, consistent.zip, consistent.moments⟩, consistent.resolved,
    consistent.live⟩

theorem installZip_spec (prepared : Bool) {s : FileHooks} (consistent : Consistent s)
    (resolved : s.flags.resolved = true) (dead : s.flags.zipHooksLive = false) :
    Consistent (installZip world prepared s) ∧ PathsKept s (installZip world prepared s) := by
  have unready : s.flags.zipIoReady = false := by
    cases ready : s.flags.zipIoReady with
    | false => rfl
    | true => exact absurd (consistent.live ready) (by simp [dead])
  cases prepared with
  | false =>
      have same : installZip world false s = mlZipFileCloseAll s := by
        simp [installZip, mlZipFileHooksPrepare, unready]
      rw [same]
      exact ⟨consistent.closeAll, rfl, rfl, rfl, fun _ _ => rfl⟩
  | true =>
      let accepting : FileHooks := { s with flags.accepting := true }
      let tried := mlHookBatchInstall world (zipSpecs accepting) accepting
      obtain ⟨confined, all, none⟩ := batchInstall_spec world (zipSpecs accepting) accepting
        fun api member => consistent.zip dead api (mem_zipSpecs member)
      have flags : tried.1.flags = accepting.flags := confined.flags
      have kept : PathsKept s tried.1 := by
        refine ⟨?_, ?_, ?_, fun api member => zip_keeps_path confined member⟩ <;> rw [flags]
      have safe : ∀ moment ∈ tried.1.moments, moment.Safe :=
        zip_moments confined unready consistent.moments
      let marked : FileHooks :=
        { tried.1 with
          flags.zipIoReady := tried.2.1
          flags.zipHooksLive := tried.2.1 || !tried.2.2 }
      have marked_consistent : Consistent marked := by
        refine ⟨⟨?_, ?_, ?_, safe⟩, fun _ => kept.resolved.trans resolved, ?_⟩
        · intro ready api member
          exact all ready api (zipSpecs_resolved (s := accepting) resolved member)
        · intro off api member
          rw [show marked.installed api = s.installed api from kept.hooks api member]
          exact consistent.path (kept.live.symm.trans off) api member
        · intro off api member
          have both : tried.2.1 = false ∧ tried.2.2 = true := by simpa [marked] using off
          exact none both.1 both.2 api (zipSpecs_resolved (s := accepting) resolved member)
        · intro ready
          show (tried.2.1 || !tried.2.2) = true
          rw [show tried.2.1 = true from ready]
          rfl
      have same : installZip world true s =
          if !marked.flags.zipIoReady then mlZipFileCloseAll marked else marked := rfl
      rw [same]
      split
      · exact ⟨marked_consistent.closeAll, kept.live, kept.installed, kept.resolved, kept.hooks⟩
      · exact ⟨marked_consistent, kept.live, kept.installed, kept.resolved, kept.hooks⟩

theorem installPaths_spec {s : FileHooks} (consistent : Consistent s)
    (resolved : s.flags.resolved = true) (dead : s.flags.pathHooksLive = false) :
    Consistent (installPaths world s).1 ∧ Complete (installPaths world s).1 ∧
      ((installPaths world s).2 = true →
        ∀ api ∈ FileApi.path, (installPaths world s).1.installed api = true) := by
  let tried := mlHookBatchInstall world (pathSpecs s) s
  obtain ⟨confined, all, none⟩ := batchInstall_spec world (pathSpecs s) s fun api member =>
    consistent.path dead api (mem_pathSpecs member)
  have flags : tried.1.flags = s.flags := confined.flags
  have zips : ∀ api ∈ FileApi.zip, tried.1.installed api = s.installed api := fun api member =>
    path_keeps_zip confined member
  have still : tried.1.flags.resolved = true := by rw [flags]; exact resolved
  have safe : ∀ moment ∈ tried.1.moments, moment.Safe :=
    path_moments confined consistent.ready consistent.moments
  let marked : FileHooks := { tried.1 with flags.pathHooksLive := tried.2.1 || !tried.2.2 }
  have marked_consistent : Consistent marked := by
    refine ⟨⟨?_, ?_, ?_, safe⟩, fun _ => still, ?_⟩
    · intro ready api member
      rw [show marked.installed api = s.installed api from zips api member]
      exact consistent.ready (by simpa [marked, flags] using ready) api member
    · intro off api member
      have both : tried.2.1 = false ∧ tried.2.2 = true := by simpa [marked] using off
      exact none both.1 both.2 api (pathSpecs_resolved resolved member)
    · intro off api member
      rw [show marked.installed api = s.installed api from zips api member]
      exact consistent.zip (by simpa [marked, flags] using off) api member
    · intro ready
      have live := consistent.live (by simpa [marked, flags] using ready)
      simpa [marked, flags] using live
  have same : installPaths world s =
      ({ (if !tried.2.1 && !marked.flags.pathHooksLive && marked.flags.zipHooksLive then
            removeZipHooks world marked else marked) with flags.hooksInstalled := tried.2.1 },
        tried.2.1) := rfl
  rw [same]
  cases result : tried.2.1 with
  | true =>
      have hooked : ∀ api ∈ FileApi.path, marked.installed api = true := fun api member =>
        all result api (pathSpecs_resolved resolved member)
      simp only [Bool.not_true, Bool.false_and, Bool.false_eq_true, if_false]
      exact ⟨⟨⟨marked_consistent.ready, marked_consistent.path, marked_consistent.zip,
        marked_consistent.moments⟩, marked_consistent.resolved, marked_consistent.live⟩,
        fun _ => hooked, fun _ => hooked⟩
  | false =>
      have finished : ∀ s' : FileHooks, Consistent s' →
          Consistent { s' with flags.hooksInstalled := false } ∧
            Complete { s' with flags.hooksInstalled := false } := by
        intro s' kept
        exact ⟨⟨⟨kept.ready, kept.path, kept.zip, kept.moments⟩, kept.resolved, kept.live⟩, nofun⟩
      split
      · have removed := (removeZipHooks_spec world marked_consistent still).1
        exact ⟨(finished _ removed).1, (finished _ removed).2, nofun⟩
      · exact ⟨(finished _ marked_consistent).1, (finished _ marked_consistent).2, nofun⟩

theorem install_spec (zipEntries prepared : Bool) {s : FileHooks} (consistent : Consistent s)
    (complete : Complete s) :
    Consistent (mlWin32FileHooksInstall world zipEntries prepared s).1 ∧
      Complete (mlWin32FileHooksInstall world zipEntries prepared s).1 ∧
      ((mlWin32FileHooksInstall world zipEntries prepared s).2 = true →
        ∀ api ∈ FileApi.path,
          (mlWin32FileHooksInstall world zipEntries prepared s).1.installed api = true) := by
  unfold mlWin32FileHooksInstall
  split
  · rename_i installed
    exact ⟨consistent, complete, fun _ => complete installed⟩
  · split
    · exact ⟨consistent, complete, nofun⟩
    · rename_i dead
      simp only [Bool.or_eq_true, not_or, Bool.not_eq_true] at dead
      have built : Consistent (buildHookSpecs true s) :=
        ⟨⟨consistent.ready, consistent.path, consistent.zip, consistent.moments⟩, fun _ => rfl,
          consistent.live⟩
      dsimp only
      split
      · obtain ⟨zipped, kept⟩ := installZip_spec world prepared built rfl dead.2
        exact installPaths_spec world zipped kept.resolved (kept.live.trans dead.1)
      · exact installPaths_spec world built rfl dead.1

theorem uninstall_spec {s : FileHooks} (consistent : Consistent s) (complete : Complete s) :
    Consistent (mlWin32FileHooksUninstall world s) ∧ Complete (mlWin32FileHooksUninstall world s) := by
  by_cases live : (!s.flags.pathHooksLive && !s.flags.zipHooksLive) = true
  · rw [mlWin32FileHooksUninstall, if_pos live]
    exact ⟨consistent, complete⟩
  · have resolved : s.flags.resolved = true := by
      apply consistent.resolved
      cases path : s.flags.pathHooksLive with
      | true => exact .inl rfl
      | false => exact .inr (by simpa [path] using live)
    let off : FileHooks := { s with flags.hooksInstalled := false }
    let removed := if off.flags.pathHooksLive then mlHookBatchRemove world (pathSpecs off) off
      else (off, true)
    have spec : Confined (pathSpecs off) off removed.1 ∧
        (removed.2 = true → ∀ api ∈ FileApi.path, removed.1.installed api = false) := by
      simp only [removed]
      split
      · obtain ⟨confined, _, gone⟩ := batchRemove_spec world (pathSpecs off) off
        exact ⟨confined, fun done api member => gone done api (pathSpecs_resolved resolved member)⟩
      · rename_i dead
        exact ⟨.refl _ _, fun _ => consistent.path (by simpa using dead)⟩
    obtain ⟨confined, gone⟩ := spec
    have flags : removed.1.flags = off.flags := confined.flags
    have still : removed.1.flags.resolved = true := by rw [flags]; exact resolved
    have unmarked : removed.1.flags.hooksInstalled = false := by rw [flags]
    have zips : ∀ api ∈ FileApi.zip, removed.1.installed api = s.installed api :=
      fun api member => path_keeps_zip confined member
    have safe : ∀ moment ∈ removed.1.moments, moment.Safe :=
      path_moments (s := off) confined consistent.ready consistent.moments
    have ready : removed.1.flags.zipIoReady = true →
        ∀ api ∈ FileApi.zip, removed.1.installed api = true := by
      intro routed api member
      rw [zips api member]
      exact consistent.ready (by rwa [flags] at routed) api member
    have zip : removed.1.flags.zipHooksLive = false →
        ∀ api ∈ FileApi.zip, removed.1.installed api = false := by
      intro dead api member
      rw [zips api member]
      exact consistent.zip (by rwa [flags] at dead) api member
    have liveness : removed.1.flags.zipIoReady = true → removed.1.flags.zipHooksLive = true := by
      rw [flags]
      exact consistent.live
    let cleared : FileHooks := { removed.1 with flags.pathHooksLive := false }
    have same : (if !removed.2 then removed.1
          else if cleared.flags.zipHooksLive then removeZipHooks world cleared else cleared) =
        mlWin32FileHooksUninstall world s := by
      rw [mlWin32FileHooksUninstall, if_neg live]
      rfl
    rw [← same]
    cases done : removed.2 with
    | false =>
        have path : removed.1.flags.pathHooksLive = true := by
          by_contra dead
          have skipped : removed = (off, true) := by
            simp only [removed]
            rw [flags] at dead
            rw [if_neg dead]
          rw [skipped] at done
          cases done
        refine ⟨⟨⟨ready, ?_, zip, safe⟩, fun _ => still, liveness⟩, ?_⟩
        · intro dead
          have dead' : removed.1.flags.pathHooksLive = false := dead
          exact absurd path (by simp [dead'])
        · intro marked
          have marked' : removed.1.flags.hooksInstalled = true := marked
          exact absurd marked' (by simp [unmarked])
    | true =>
        have cleared_consistent : Consistent cleared :=
          ⟨⟨ready, fun _ => gone done, zip, safe⟩, fun _ => still, liveness⟩
        simp only [Bool.not_true, Bool.false_eq_true, if_false]
        split
        · obtain ⟨consistent', kept⟩ := removeZipHooks_spec world cleared_consistent still
          refine ⟨consistent', fun marked => ?_⟩
          rw [kept.installed] at marked
          exact absurd marked (by simp [cleared, unmarked])
        · refine ⟨cleared_consistent, fun marked => ?_⟩
          exact absurd marked (by simp [cleared, unmarked])

/-! ## Sequences of calls -/

theorem call_spec {s : FileHooks} (consistent : Consistent s) (complete : Complete s) (c : Call) :
    Consistent (call world s c).1 ∧ Complete (call world s c).1 := by
  cases c with
  | install zipEntries prepared =>
      obtain ⟨kept, whole, _⟩ := install_spec world zipEntries prepared consistent complete
      exact ⟨kept, whole⟩
  | uninstall => exact uninstall_spec world consistent complete

theorem start_consistent : Consistent start := by
  refine ⟨⟨?_, fun _ _ _ => rfl, fun _ _ _ => rfl, ?_⟩, ?_, ?_⟩
  · simp [start]
  · intro moment member
    exact absurd member List.not_mem_nil
  · simp [start]
  · simp [start]

theorem run_spec (calls : List Call) : Consistent (run world calls) ∧ Complete (run world calls) := by
  suffices from_any : ∀ s : FileHooks, Consistent s → Complete s →
      Consistent (calls.foldl (fun s c => (call world s c).1) s) ∧
        Complete (calls.foldl (fun s c => (call world s c).1) s) by
    exact from_any start start_consistent (by simp [Complete, start])
  induction calls with
  | nil => exact fun s consistent complete => ⟨consistent, complete⟩
  | cons c rest ih =>
      intro s consistent complete
      obtain ⟨kept, whole⟩ := call_spec world consistent complete c
      exact ih _ kept whole

/-- After every sequence of calls the flags are right, they were right at every moment in between,
and the next `ml_win32_file_hooks_install` that returns true leaves all path hooks installed. -/
theorem fileHooks_sound (calls : List Call) :
    Sound (run world calls) ∧
      ∀ zipEntries prepared,
        (call world (run world calls) (.install zipEntries prepared)).2 = some true →
          ∀ api ∈ FileApi.path,
            (call world (run world calls) (.install zipEntries prepared)).1.installed api = true := by
  obtain ⟨consistent, complete⟩ := run_spec world calls
  refine ⟨consistent.toSound, ?_⟩
  intro zipEntries prepared succeeded
  obtain ⟨_, _, hooked⟩ := install_spec world zipEntries prepared consistent complete
  exact hooked (by simpa [call] using succeeded)

end FileHooks

end Yafsml.Patches
