import Yafsml.Extdll.DataReady

/-!
# When the data-ready signal arrives

The event is created after the trigger is installed. A signal that comes before the event is dropped;
one that comes after it reaches every wait of the worker.
-/

namespace Yafsml.Extdll
open Relation

variable {setup : DataReadySetup} {s s' : DataReadyState}

/-! ## What a step can do -/

inductive MainTurn (setup : DataReadySetup) (s : DataReadyState) : DataReadyState → Prop
  | pass {callback : RuntimeCallback} {rest : List RuntimeCallback} (trigger : Bool)
      (at_ : s.main = .callbacks (callback :: rest))
      (skipped : callback = .loadExtdlls → setup.beforeMainResult ≠ 1) :
      MainTurn setup s { s with main := .callbacks rest, triggerInstalled := trigger }
  | loadAll {rest : List RuntimeCallback} {main : MainThread}
      (at_ : s.main = .callbacks (.loadExtdlls :: rest))
      (next : main = .ensureCancel rest ∨ main = .callbacks rest ∧
        (s.worker ≠ .absent ∨ extdllsHasDeferred setup.dlls = false)) :
      MainTurn setup s
        { s with main, loads := (extdllsLoadStage setup.loader setup.dlls .normal s.loads).1 }
  | ensureCancel {rest : List RuntimeCallback} (at_ : s.main = .ensureCancel rest) :
      MainTurn setup s
        { s with main := .ensureDataReady rest, cancelEvent := s.cancelEvent.or (some false) }
  | ensureDataReady {rest : List RuntimeCallback} (at_ : s.main = .ensureDataReady rest) :
      MainTurn setup s
        { s with main := .createWorker rest, dataReadyEvent := s.dataReadyEvent.or (some false) }
  | createWorker {rest : List RuntimeCallback} (at_ : s.main = .createWorker rest) :
      MainTurn setup s
        { s with main := .callbacks rest, worker := .running (List.range setup.dlls.length) }

theorem mainStep_turn (step : mainStep setup s = some s') : MainTurn setup s s' := by
  unfold mainStep at step
  split at step
  · cases step
  · rename_i at_
    cases step
    exact .pass s.triggerInstalled at_ nofun
  · rename_i at_
    cases step
    exact .pass setup.hookApplied at_ nofun
  · rename_i at_
    split at step
    · cases step
      unfold loadNormal
      dsimp only
      split
      · split
        · exact .loadAll at_ (.inl rfl)
        · rename_i none
          exact .loadAll at_ (.inr ⟨rfl, .inr (by simpa using none)⟩)
      · rename_i started
        exact .loadAll at_ (.inr ⟨rfl, .inl started⟩)
    · rename_i failed
      cases step
      exact .pass s.triggerInstalled at_ fun _ => failed
  · rename_i at_
    cases step
    exact .ensureCancel at_
  · rename_i at_
    cases step
    exact .ensureDataReady at_
  · rename_i at_
    cases step
    exact .createWorker at_

theorem workerStep_frame (step : workerStep setup s = some s') : s'.main = s.main ∧
    s'.game = s.game ∧ s'.cancelEvent = s.cancelEvent ∧ s'.dataReadyEvent = s.dataReadyEvent ∧
    s.worker ≠ .absent ∧ s'.worker ≠ .absent := by
  unfold workerStep at step
  split at step
  · cases step
  · cases step
  · rename_i at_
    cases step
    simp [at_]
  · rename_i i rest at_
    have started : s.worker ≠ .absent := by simp [at_]
    split at step
    · cases step
      exact ⟨rfl, rfl, rfl, rfl, started, by simp⟩
    split at step
    · cases step
      exact ⟨rfl, rfl, rfl, rfl, started, by simp⟩
    split at step
    · split at step
      · cases step
      · cases step
        exact ⟨rfl, rfl, rfl, rfl, started, by simp⟩
      · cases step
        exact ⟨rfl, rfl, rfl, rfl, started, by simp⟩
    split at step
    · cases step
      exact ⟨rfl, rfl, rfl, rfl, started, by simp⟩
    · cases step
      exact ⟨rfl, rfl, rfl, rfl, started, by simp⟩
  · rename_i i rest at_
    have started : s.worker ≠ .absent := by simp [at_]
    split at step
    · cases step
      exact ⟨rfl, rfl, rfl, rfl, started, by simp⟩
    split at step
    · cases step
      exact ⟨rfl, rfl, rfl, rfl, started, by simp⟩
    · cases step
      exact ⟨rfl, rfl, rfl, rfl, started, by simp⟩

/-! ## The handles -/

theorem waitForDataReady_false {cancel dataReady : Option Bool}
    (ended : waitForDataReady cancel dataReady = some false) (cancelThere : cancel ≠ none)
    (dataReadyThere : dataReady ≠ none) : cancel = some true := by
  cases cancel with
  | none => exact absurd rfl cancelThere
  | some cancelled =>
      cases dataReady with
      | none => exact absurd rfl dataReadyThere
      | some signalled =>
          cases cancelled with
          | true => rfl
          | false => cases signalled <;> cases ended

theorem or_some_ne_none (event : Option Bool) : event.or (some false) ≠ none := by
  cases event with
  | none => simp
  | some signalled => simp

structure EventsSound (s : DataReadyState) : Prop where
  dataReady : ∀ rest, s.main = .ensureDataReady rest → s.cancelEvent ≠ none
  worker : ∀ rest, s.main = .createWorker rest → s.cancelEvent ≠ none ∧ s.dataReadyEvent ≠ none
  created : s.worker ≠ .absent → s.cancelEvent ≠ none ∧ s.dataReadyEvent ≠ none

theorem EventsSound.main (sound : EventsSound s) (turn : MainTurn setup s s') : EventsSound s' := by
  cases turn with
  | pass trigger at_ =>
      exact ⟨nofun, nofun, sound.created⟩
  | loadAll at_ next =>
      rcases next with rfl | ⟨rfl, _⟩
      · exact ⟨nofun, nofun, sound.created⟩
      · exact ⟨nofun, nofun, sound.created⟩
  | ensureCancel at_ =>
      refine ⟨fun _ _ => or_some_ne_none _, nofun, fun started => ?_⟩
      exact ⟨or_some_ne_none _, (sound.created started).2⟩
  | ensureDataReady at_ =>
      have cancel := sound.dataReady _ at_
      exact ⟨nofun, fun _ _ => ⟨cancel, or_some_ne_none _⟩,
        fun _ => ⟨cancel, or_some_ne_none _⟩⟩
  | createWorker at_ =>
      exact ⟨nofun, nofun, fun _ => sound.worker _ at_⟩

theorem gameStep_frame (step : gameStep setup s = some s') : s'.main = s.main ∧
    s'.worker = s.worker ∧ s'.cancelEvent = s.cancelEvent ∧ s'.loads = s.loads ∧
    (s'.dataReadyEvent = s.dataReadyEvent ∨ s'.dataReadyEvent = some true) := by
  unfold gameStep at step
  split at step
  · split at step
    · cases step
      exact ⟨rfl, rfl, rfl, rfl, .inl rfl⟩
    · cases step
  · cases step
    exact ⟨rfl, rfl, rfl, rfl, .inl rfl⟩
  · cases step
    exact ⟨rfl, rfl, rfl, rfl, .inr rfl⟩
  · cases step

theorem cancelStep_frame (step : cancelStep s = some s') :
    s' = { s with cancelEvent := some true } := by
  unfold cancelStep at step
  split at step
  · exact (Option.some_inj.mp step).symm
  · cases step

theorem EventsSound.step (sound : EventsSound s) (step : DataReadyStep setup s s') :
    EventsSound s' := by
  obtain ⟨actor, taken⟩ := step
  cases actor with
  | main => exact sound.main (mainStep_turn taken)
  | game =>
      obtain ⟨main, worker, cancel, _, dataReady⟩ := gameStep_frame taken
      have kept : s.dataReadyEvent ≠ none → s'.dataReadyEvent ≠ none := by
        intro present
        rcases dataReady with same | signalled
        · rwa [same]
        · simp [signalled]
      refine ⟨fun rest at_ => ?_, fun rest at_ => ?_, fun started => ?_⟩
      · rw [cancel]
        exact sound.dataReady rest (main ▸ at_)
      · rw [cancel]
        exact (sound.worker rest (main ▸ at_)).imp id kept
      · rw [cancel]
        exact (sound.created (worker ▸ started)).imp id kept
  | worker =>
      obtain ⟨main, _, cancel, dataReady, started, _⟩ := workerStep_frame taken
      refine ⟨fun rest at_ => ?_, fun rest at_ => ?_, fun _ => ?_⟩
      · rw [cancel]
        exact sound.dataReady rest (main ▸ at_)
      · rw [cancel, dataReady]
        exact sound.worker rest (main ▸ at_)
      · rw [cancel, dataReady]
        exact sound.created started
  | unload =>
      rw [cancelStep_frame taken]
      exact ⟨fun _ _ => by simp, fun rest at_ => ⟨by simp, (sound.worker rest at_).2⟩,
        fun started => ⟨by simp, (sound.created started).2⟩⟩

theorem EventsSound.start (setup : DataReadySetup) : EventsSound (dataReadyStart setup) :=
  ⟨nofun, nofun, fun no => absurd rfl no⟩

/-! ## The signal -/

def Signalled (s : DataReadyState) : Prop := s.game = .done → s.dataReadyEvent = some true

def Lost (s : DataReadyState) : Prop := s.game = .done ∧ s.dataReadyEvent ≠ some true

theorem MainTurn.game (turn : MainTurn setup s s') : s'.game = s.game ∧
    (s'.dataReadyEvent = s.dataReadyEvent ∨ s'.dataReadyEvent = s.dataReadyEvent.or (some false)) := by
  cases turn with
  | ensureDataReady => exact ⟨rfl, .inr rfl⟩
  | pass | loadAll | ensureCancel | createWorker => exact ⟨rfl, .inl rfl⟩

theorem actorStep_event {actor : Actor} (other : actor ≠ .game)
    (taken : actorStep setup s actor = some s') :
    s'.game = s.game ∧ (s'.dataReadyEvent = some true ↔ s.dataReadyEvent = some true) := by
  cases actor with
  | main =>
      obtain ⟨game, same | opened⟩ := (mainStep_turn taken).game
      · exact ⟨game, by rw [same]⟩
      · refine ⟨game, ?_⟩
        rw [opened]
        cases s.dataReadyEvent with
        | none => simp
        | some signalled => simp
  | game => exact absurd rfl other
  | worker =>
      obtain ⟨_, game, _, dataReady, _⟩ := workerStep_frame taken
      exact ⟨game, by rw [dataReady]⟩
  | unload =>
      rw [cancelStep_frame taken]
      exact ⟨rfl, Iff.rfl⟩

theorem Signalled.timely (succeeded : setup.beforeMainResult = 1) (signalled : Signalled s)
    (step : TimelyStep setup s s') : Signalled s' := by
  obtain ⟨actor, taken, timely⟩ := step
  by_cases game : actor = .game
  · subst game
    change gameStep setup s = some s' at taken
    unfold gameStep at taken
    split at taken
    · split at taken
      · cases taken
        exact nofun
      · cases taken
    · rename_i checking
      have present := timely rfl checking
      cases taken
      intro isOver
      cases event : s.dataReadyEvent with
      | none => exact absurd event present
      | some _ => simp [event] at isOver
    · cases taken
      exact fun _ => rfl
    · cases taken
  · obtain ⟨same, event⟩ := actorStep_event game taken
    exact fun isOver => event.mpr (signalled (same ▸ isOver))

theorem Lost.step (lost : Lost s) (step : DataReadyStep setup s s') : Lost s' := by
  obtain ⟨actor, taken⟩ := step
  by_cases game : actor = .game
  · subst game
    change gameStep setup s = some s' at taken
    simp [gameStep, lost.1] at taken
  · obtain ⟨same, event⟩ := actorStep_event game taken
    exact ⟨same.trans lost.1, mt event.mp lost.2⟩

theorem TimelyReachable.reachable (timely : TimelyReachable setup s) : DataReadyReachable setup s := by
  induction timely with
  | refl => exact .refl
  | tail _ step ih =>
      obtain ⟨actor, taken, _⟩ := step
      exact ih.tail ⟨actor, taken⟩

theorem DataReadyReachable.events (reachable : DataReadyReachable setup s) : EventsSound s := by
  induction reachable with
  | refl => exact EventsSound.start setup
  | tail _ step ih => exact ih.step step

theorem TimelyReachable.signalled (succeeded : setup.beforeMainResult = 1)
    (timely : TimelyReachable setup s) : Signalled s := by
  induction timely with
  | refl => exact nofun
  | tail _ step ih => exact ih.timely succeeded step

theorem DataReadyReachable.timely_or_lost (reachable : DataReadyReachable setup s) :
    TimelyReachable setup s ∨ Lost s := by
  induction reachable with
  | refl => exact .inl .refl
  | @tail s s' _ step ih =>
      rcases ih with timely | lost
      · obtain ⟨actor, taken⟩ := step
        by_cases early : actor = .game ∧ s.game = .checking ∧ s.dataReadyEvent = none
        · obtain ⟨rfl, checking, absent⟩ := early
          have dropped : gameStep setup s = some s' := taken
          simp only [gameStep, checking, absent, Option.isNone_none, if_true, Option.some_inj]
            at dropped
          subst dropped
          exact .inr ⟨rfl, by simp⟩
        · refine .inl (timely.tail ⟨actor, taken, fun game checking absent => ?_⟩)
          exact early ⟨game, checking, absent⟩
      · exact .inr (lost.step step)

/-! ## The worker -/

def Worker.left (count : Nat) : Worker → List Nat
  | absent => List.range count
  | running rest => rest
  | waited i rest => i :: rest
  | ended => []

/-- Unless loading is cancelled, a deferred entry is ahead of the worker or was attempted. -/
def Walked (setup : DataReadySetup) (s : DataReadyState) : Prop :=
  s.cancelEvent ≠ some true → ∀ i dll, setup.dlls[i]? = some dll → dll.stage.isDeferred = true →
    i ∈ s.worker.left setup.dlls.length ∨ i ∈ s.loads.moduleLoadAttempted

theorem mem_loadExtdllOne (loader : Loader) (loads : LoadState) (i j : Nat) (dll : Extdll) :
    j ∈ (loadExtdllOne loader loads i dll).1.moduleLoadAttempted ↔
      j ∈ loads.moduleLoadAttempted ∨ j = i := by
  have attempted : (loadExtdllOne loader loads i dll).1.moduleLoadAttempted =
      (preloadExtdllOne loader loads i).1.moduleLoadAttempted := by
    unfold loadExtdllOne
    split
    · rename_i same
      rw [same]
    · rename_i same
      rw [same]
      split
      · rfl
      · rfl
  rw [attempted]
  unfold preloadExtdllOne
  split
  · rename_i already
    refine ⟨.inl, ?_⟩
    rintro (earlier | rfl)
    · exact earlier
    · exact already
  · dsimp only
    split
    · simp
    · simp

theorem mem_extdllsLoadStage (loader : Loader) (dlls : List Extdll) (stage : Stage)
    {loads : LoadState} {j : Nat} (earlier : j ∈ loads.moduleLoadAttempted) :
    j ∈ (extdllsLoadStage loader dlls stage loads).1.moduleLoadAttempted := by
  have walk (positions : List Nat) (state : LoadState × Bool)
      (before : j ∈ state.1.moduleLoadAttempted) :
      j ∈ (positions.foldl (loadStageEntry loader dlls stage) state).1.moduleLoadAttempted := by
    induction positions generalizing state with
    | nil => exact before
    | cons i rest ih =>
        apply ih
        unfold loadStageEntry
        split
        · split
          · exact (mem_loadExtdllOne loader _ _ _ _).mpr (.inl before)
          · exact before
        · exact before
  exact walk _ _ earlier

theorem mem_range_of_getElem? {i : Nat} {dll : Extdll} {dlls : List Extdll}
    (there : dlls[i]? = some dll) : i ∈ List.range dlls.length :=
  List.mem_range.mpr (List.getElem?_eq_some_iff.mp there).1

theorem Walked.main (walked : Walked setup s) (turn : MainTurn setup s s') : Walked setup s' := by
  cases turn with
  | pass | ensureDataReady => exact walked
  | loadAll =>
      intro going i dll there late
      exact (walked going i dll there late).imp id (mem_extdllsLoadStage _ _ _)
  | ensureCancel =>
      intro going
      apply walked
      intro cancelled
      exact going (by simp [cancelled])
  | createWorker => exact fun _ i dll there _ => .inl (mem_range_of_getElem? there)

theorem Walked.worker (walked : Walked setup s) (sound : EventsSound s)
    (step : workerStep setup s = some s') : Walked setup s' := by
  obtain ⟨_, _, cancel, _, started, _⟩ := workerStep_frame step
  obtain ⟨cancelThere, dataReadyThere⟩ := sound.created started
  intro going j dll there late
  rw [cancel] at going
  have before := walked going j dll there late
  unfold workerStep at step
  split at step
  · cases step
  · cases step
  · rename_i at_
    rw [at_] at before
    cases step
    exact before
  · rename_i i rest at_
    rw [at_] at before
    split at step
    · rename_i missing
      cases step
      refine before.imp_left fun ahead => (List.mem_cons.mp ahead).resolve_left ?_
      rintro rfl
      rw [missing] at there
      cases there
    rename_i dll' there'
    split at step
    · rename_i main
      cases step
      refine before.imp_left fun ahead => (List.mem_cons.mp ahead).resolve_left ?_
      rintro rfl
      rw [there', Option.some_inj] at there
      subst there
      simp [late] at main
    split at step
    · split at step
      · cases step
      · cases step
        exact before
      · rename_i ended
        exact absurd (waitForDataReady_false ended cancelThere dataReadyThere) going
    split at step
    · rename_i cancelled
      exact absurd cancelled.2 going
    · cases step
      exact before
  · rename_i i rest at_
    rw [at_] at before
    split at step
    · rename_i cancelled
      exact absurd cancelled going
    split at step
    · rename_i missing
      cases step
      refine before.imp_left fun ahead => (List.mem_cons.mp ahead).resolve_left ?_
      rintro rfl
      rw [missing] at there
      cases there
    · cases step
      rw [mem_loadExtdllOne]
      rcases before with ahead | attempted
      · rcases List.mem_cons.mp ahead with rfl | later
        · exact .inr (.inr rfl)
        · exact .inl later
      · exact .inr (.inl attempted)

theorem Walked.step (walked : Walked setup s) (sound : EventsSound s)
    (step : DataReadyStep setup s s') : Walked setup s' := by
  obtain ⟨actor, taken⟩ := step
  cases actor with
  | main => exact walked.main (mainStep_turn taken)
  | game =>
      obtain ⟨_, worker, cancel, loads, _⟩ := gameStep_frame taken
      rw [Walked, worker, cancel, loads]
      exact walked
  | worker => exact walked.worker sound taken
  | unload =>
      rw [cancelStep_frame taken]
      exact fun going => absurd rfl going

theorem DataReadyReachable.walked (reachable : DataReadyReachable setup s) : Walked setup s := by
  induction reachable with
  | refl => exact fun _ i dll there _ => .inl (mem_range_of_getElem? there)
  | tail run step ih => exact ih.step (DataReadyReachable.events run) step

/-- Deferred entries have a worker once `extdlls_load_all` is over. -/
def Started (setup : DataReadySetup) (s : DataReadyState) : Prop :=
  ∀ rest, s.main = .callbacks rest → .loadExtdlls ∉ rest → extdllsHasDeferred setup.dlls = true →
    s.worker ≠ .absent

theorem Started.step (succeeded : setup.beforeMainResult = 1) (started : Started setup s)
    (step : DataReadyStep setup s s') : Started setup s' := by
  obtain ⟨actor, taken⟩ := step
  cases actor with
  | main =>
      change mainStep setup s = some s' at taken
      cases mainStep_turn taken with
      | @pass callback rest trigger at_ skipped =>
          intro rest' same gone deferred
          cases same
          refine started _ at_ ?_ deferred
          rw [List.mem_cons, not_or]
          exact ⟨fun here => skipped here.symm succeeded, gone⟩
      | loadAll at_ next =>
          intro rest' same gone deferred
          rcases next with rfl | ⟨rfl, present | none⟩
          · cases same
          · exact present
          · rw [none] at deferred
            cases deferred
      | ensureCancel | ensureDataReady => exact nofun
      | createWorker => exact fun _ _ _ _ => nofun
  | game =>
      obtain ⟨main, worker, _⟩ := gameStep_frame taken
      rw [Started, main, worker]
      exact started
  | worker =>
      obtain ⟨_, _, _, _, _, present⟩ := workerStep_frame taken
      exact fun _ _ _ _ => present
  | unload =>
      rw [cancelStep_frame taken]
      exact started

theorem DataReadyReachable.started (succeeded : setup.beforeMainResult = 1)
    (reachable : DataReadyReachable setup s) : Started setup s := by
  induction reachable with
  | refl =>
      intro rest same gone
      cases same
      exact absurd (by simp [runtimeCallbacks]) gone
  | tail _ step ih => exact ih.step succeeded step

/-! ## The worker on its own -/

def WorkerRun (setup : DataReadySetup) : DataReadyState → DataReadyState → Prop :=
  ReflTransGen fun s s' => workerStep setup s = some s'

/-- The steps the worker has left when nothing blocks it. -/
def Worker.work : Worker → Nat
  | absent => 0
  | running rest => 2 * rest.length + 1
  | waited _ rest => 2 * rest.length + 2
  | ended => 0

variable (setup) in
theorem workerStep_goes (cancel : s.cancelEvent = some false) (dataReady : s.dataReadyEvent = some true)
    (started : s.worker ≠ .absent) (going : s.worker ≠ .ended) :
    ∃ s', workerStep setup s = some s' ∧ s'.worker.work < s.worker.work := by
  unfold workerStep
  split
  · rename_i at_
    exact absurd at_ started
  · rename_i at_
    exact absurd at_ going
  · rename_i at_
    exact ⟨_, rfl, by simp [at_, Worker.work]⟩
  · rename_i i rest at_
    have less : 2 * rest.length + 1 < s.worker.work := by simp [at_, Worker.work]
    have waits : 2 * rest.length + 2 < s.worker.work := by
      rw [at_, Worker.work, List.length_cons]
      omega
    split
    · exact ⟨_, rfl, less⟩
    split
    · exact ⟨_, rfl, less⟩
    split
    · rw [cancel, dataReady]
      exact ⟨_, rfl, waits⟩
    split
    · rename_i cancelled
      rw [cancel] at cancelled
      cases cancelled.2
    · exact ⟨_, rfl, waits⟩
  · rename_i i rest at_
    have less : 2 * rest.length + 1 < s.worker.work := by simp [at_, Worker.work]
    rw [if_neg (by simp [cancel])]
    split
    · exact ⟨_, rfl, less⟩
    · exact ⟨_, rfl, less⟩

variable (setup) in
theorem workerRun_ends (cancel : s.cancelEvent = some false) (dataReady : s.dataReadyEvent = some true)
    (started : s.worker ≠ .absent) :
    ∃ s', WorkerRun setup s s' ∧ s'.worker = .ended ∧ s'.cancelEvent = some false := by
  obtain ⟨work, bound⟩ : ∃ n, s.worker.work < n := ⟨_, Nat.lt_succ_self _⟩
  induction work generalizing s with
  | zero => exact absurd bound (Nat.not_lt_zero _)
  | succ work ih =>
      by_cases isOver : s.worker = .ended
      · exact ⟨s, .refl, isOver, cancel⟩
      obtain ⟨next, step, less⟩ := workerStep_goes setup cancel dataReady started isOver
      obtain ⟨_, _, cancel', dataReady', _, started'⟩ := workerStep_frame step
      obtain ⟨s', run, ended, going⟩ :=
        ih (cancel'.trans cancel) (dataReady'.trans dataReady) started' (by omega)
      exact ⟨s', .head step run, ended, going⟩

theorem WorkerRun.reachable (run : WorkerRun setup s s') (reachable : DataReadyReachable setup s) :
    DataReadyReachable setup s' := by
  induction run with
  | refl => exact reachable
  | tail _ step ih => exact ReflTransGen.tail ih ⟨.worker, step⟩

/-! ## The signal is kept exactly in the timely runs -/

theorem some_false_of_going (there : s.cancelEvent ≠ none) (going : s.cancelEvent ≠ some true) :
    s.cancelEvent = some false := by
  cases event : s.cancelEvent with
  | none => exact absurd event there
  | some cancelled =>
      cases cancelled with
      | true => exact absurd event going
      | false => rfl

/-- In a run whose game thread finds the event, every wait is satisfied once both calls have
happened, and the entries that wait for it get loaded; a satisfied wait shows such a run. -/
theorem dataReady_signal (setup : DataReadySetup) (succeeded : setup.beforeMainResult = 1) :
    (∀ s, TimelyReachable setup s → BothCalled s → s.cancelEvent ≠ some true →
      (AtWait setup s → waitForDataReady s.cancelEvent s.dataReadyEvent = some true) ∧
      ∃ s', WorkerRun setup s s' ∧ ∀ i dll, setup.dlls[i]? = some dll → dll.stage = .dataReady →
        i ∈ s'.loads.moduleLoadAttempted) ∧
    ∀ s, DataReadyReachable setup s → BothCalled s → s.cancelEvent ≠ some true → AtWait setup s →
      (waitForDataReady s.cancelEvent s.dataReadyEvent = some true ↔ TimelyReachable setup s) := by
  have satisfied (s : DataReadyState) (timely : TimelyReachable setup s) (both : BothCalled s)
      (going : s.cancelEvent ≠ some true) (waits : AtWait setup s) :
      waitForDataReady s.cancelEvent s.dataReadyEvent = some true := by
    obtain ⟨i, rest, dll, at_, _⟩ := waits
    have there := (timely.reachable.events.created (by simp [at_])).1
    rw [some_false_of_going there going, timely.signalled succeeded both.2]
    rfl
  constructor
  · intro s timely both going
    refine ⟨satisfied s timely both going, ?_⟩
    by_cases deferred : extdllsHasDeferred setup.dlls = true
    · obtain ⟨⟨rest, main, gone⟩, isOver⟩ := both
      have started := timely.reachable.started succeeded rest main gone deferred
      have there := (timely.reachable.events.created started).1
      obtain ⟨s', run, ended, kept⟩ := workerRun_ends setup
        (some_false_of_going there going) (timely.signalled succeeded isOver) started
      refine ⟨s', run, fun i dll present late => ?_⟩
      have walked := (run.reachable timely.reachable).walked (by simp [kept]) i dll present
        (by rw [late]; rfl)
      rw [ended] at walked
      exact walked.resolve_left List.not_mem_nil
    · refine ⟨s, .refl, fun i dll present late => ?_⟩
      refine absurd ?_ deferred
      rw [extdllsHasDeferred, List.any_eq_true]
      exact ⟨dll, List.mem_of_getElem? present, by rw [late]; rfl⟩
  · intro s reachable both going waits
    refine ⟨fun answered => ?_, fun timely => satisfied s timely both going waits⟩
    rcases reachable.timely_or_lost with timely | ⟨_, unset⟩
    · exact timely
    · refine absurd ?_ unset
      unfold waitForDataReady at answered
      split at answered
      · cases answered
      · cases answered
      · cases answered
      · assumption
      · cases answered

theorem Lost.forever (lost : Lost s) (later : ReflTransGen (DataReadyStep setup) s s') :
    waitForDataReady s'.cancelEvent s'.dataReadyEvent ≠ some true := by
  have lost' : Lost s' := by
    induction later with
    | refl => exact lost
    | tail _ step ih => exact ih.step step
  intro answered
  unfold waitForDataReady at answered
  split at answered
  · cases answered
  · cases answered
  · cases answered
  · rename_i set
    exact lost'.2 set
  · cases answered

def oneReady : DataReadySetup where
  dlls := [⟨"ready.dll", none, .dataReady, 0, []⟩]
  loader := ⟨fun _ => true, fun _ => true, fun _ => true, fun _ => true, fun _ => false⟩
  hookApplied := true
  beforeMainResult := 1
  first := 0
  between := 0
  last := 0

/-- The event comes first, then the signal. -/
theorem dataReady_signal_kept : ∃ s, TimelyReachable oneReady s ∧ BothCalled s ∧
    AtWait oneReady s ∧ waitForDataReady s.cancelEvent s.dataReadyEvent = some true := by
  have created : TimelyReachable oneReady _ :=
    ((((ReflTransGen.single ⟨.main, rfl, nofun⟩).tail ⟨.main, rfl, nofun⟩).tail
      ⟨.main, rfl, nofun⟩).tail ⟨.main, rfl, nofun⟩).tail ⟨.main, rfl, nofun⟩
  have signalled : TimelyReachable oneReady _ :=
    ((ReflTransGen.tail created ⟨.game, rfl, nofun⟩).tail ⟨.game, rfl, nofun⟩).tail
      ⟨.game, rfl, nofun⟩
  obtain ⟨answered, _⟩ := (dataReady_signal oneReady rfl).1 _ signalled
    ⟨⟨[], rfl, List.not_mem_nil⟩, rfl⟩ (by decide)
  exact ⟨_, signalled, ⟨⟨[], rfl, List.not_mem_nil⟩, rfl⟩, ⟨0, [], _, rfl, rfl, rfl⟩,
    answered ⟨0, [], _, rfl, rfl, rfl⟩⟩

/-- The game fires between the trigger and the event, and the worker waits for good. -/
theorem dataReady_signal_dropped : ¬∀ s, DataReadyReachable oneReady s → BothCalled s →
    s.cancelEvent ≠ some true → AtWait oneReady s →
      waitForDataReady s.cancelEvent s.dataReadyEvent = some true := by
  intro kept
  have fired : DataReadyReachable oneReady _ :=
    ((ReflTransGen.single ⟨.main, rfl⟩).tail ⟨.game, rfl⟩).tail ⟨.game, rfl⟩
  have created : DataReadyReachable oneReady _ :=
    (((ReflTransGen.tail fired ⟨.main, rfl⟩).tail ⟨.main, rfl⟩).tail ⟨.main, rfl⟩).tail
      ⟨.main, rfl⟩
  have answered := kept _ created ⟨⟨[], rfl, List.not_mem_nil⟩, rfl⟩ (by decide)
    ⟨0, [], _, rfl, rfl, rfl⟩
  exact absurd answered (by decide)

end Yafsml.Extdll
