import Mathlib.Logic.Relation
import Yafsml.Extdll.Load

/-!
# The data-ready signal

The callbacks of the runtime-init phase install the data-ready trigger and then load the normal DLLs,
which creates the events and the deferred worker. The trigger fires once, on a thread of the game.
-/

namespace Yafsml.Extdll

/-- A callback registered for `ML_LIFECYCLE_PHASE_AFTER_RUNTIME_INIT`. -/
inductive RuntimeCallback
  | installDataReady
  | loadExtdlls
  | other
deriving DecidableEq, Repr

/-- The thread of the callbacks: the ones it still has to run, and where `extdlls_load` stands. -/
inductive MainThread
  | callbacks (rest : List RuntimeCallback)
  | ensureCancel (rest : List RuntimeCallback)
  | ensureDataReady (rest : List RuntimeCallback)
  | createWorker (rest : List RuntimeCallback)

/-- The game thread that reaches data readiness: before its call, inside
`extdlls_load_data_ready`, and after. -/
inductive GameThread
  | playing
  | checking
  | signalling
  | done
deriving DecidableEq

/-- `extdlls_load_deferred` over the positions left; `waited` is behind the wait of the first. -/
inductive Worker
  | absent
  | running (rest : List Nat)
  | waited (i : Nat) (rest : List Nat)
  | ended

/-- An event is `none` while its handle is NULL, else whether it is signalled. -/
structure DataReadyState where
  main : MainThread
  game : GameThread
  triggerInstalled : Bool
  cancelEvent : Option Bool
  dataReadyEvent : Option Bool
  worker : Worker
  loads : LoadState

/-- What a run is given: the prepared DLLs, the answers of Windows, whether the trigger hook can be
installed, and how many callbacks of other modules are registered around the two. -/
structure DataReadySetup where
  dlls : List Extdll
  loader : Loader
  hookApplied : Bool
  beforeMainResult : Int
  first : Nat
  between : Nat
  last : Nat

def extdllsHasDeferred (dlls : List Extdll) : Bool := dlls.any (·.stage.isDeferred)

/-- The wait on `cancel_event` and `data_ready_event`; `none` while it blocks. -/
def waitForDataReady : Option Bool → Option Bool → Option Bool
  | none, _ | _, none => some false
  | some true, _ => some false
  | some false, some true => some true
  | some false, some false => none

section Threads

variable (setup : DataReadySetup) (s : DataReadyState)

/-- The order of registration: `gamehook_install` before the end of `modloader_init`. -/
def runtimeCallbacks : List RuntimeCallback :=
  List.replicate setup.first .other ++ .installDataReady :: (List.replicate setup.between .other ++
    .loadExtdlls :: List.replicate setup.last .other)

def dataReadyStart : DataReadyState :=
  ⟨.callbacks (runtimeCallbacks setup), .playing, false, none, none, .absent,
    (extdllsLoadStage setup.loader setup.dlls .early ⟨[], [], []⟩).1⟩

/-- `extdlls_load(false)` up to `extdlls_ensure_events`. -/
def loadNormal (rest : List RuntimeCallback) : DataReadyState :=
  let loads := (extdllsLoadStage setup.loader setup.dlls .normal s.loads).1
  match s.worker with
  | .absent =>
      if extdllsHasDeferred setup.dlls then { s with main := .ensureCancel rest, loads }
      else { s with main := .callbacks rest, loads }
  | _ => { s with main := .callbacks rest, loads }

def mainStep : Option DataReadyState :=
  match s.main with
  | .callbacks [] => none
  | .callbacks (.other :: rest) => some { s with main := .callbacks rest }
  | .callbacks (.installDataReady :: rest) =>
      some { s with main := .callbacks rest, triggerInstalled := setup.hookApplied }
  | .callbacks (.loadExtdlls :: rest) =>
      if setup.beforeMainResult = 1 then some (loadNormal setup s rest)
      else some { s with main := .callbacks rest }
  | .ensureCancel rest =>
      some { s with main := .ensureDataReady rest, cancelEvent := s.cancelEvent.or (some false) }
  | .ensureDataReady rest =>
      some { s with main := .createWorker rest, dataReadyEvent := s.dataReadyEvent.or (some false) }
  | .createWorker rest =>
      some { s with main := .callbacks rest, worker := .running (List.range setup.dlls.length) }

/-- `advance_data_ready` and `extdlls_load_data_ready`: the read of the handle and the signal. -/
def gameStep : Option DataReadyState :=
  match s.game with
  | .playing =>
      if s.triggerInstalled then
        some { s with game := if setup.beforeMainResult = 1 then .checking else .done }
      else none
  | .checking =>
      some { s with game := if s.dataReadyEvent.isNone then .done else .signalling }
  | .signalling => some { s with game := .done, dataReadyEvent := some true }
  | .done => none

/-- One step of `extdlls_load_deferred`; `none` while it blocks. -/
def workerStep : Option DataReadyState :=
  match s.worker with
  | .absent | .ended => none
  | .running [] => some { s with worker := .ended }
  | .running (i :: rest) =>
      match setup.dlls[i]? with
      | none => some { s with worker := .running rest }
      | some dll =>
          if !dll.stage.isDeferred then some { s with worker := .running rest }
          else if dll.stage = .dataReady then
            match waitForDataReady s.cancelEvent s.dataReadyEvent with
            | none => none
            | some true => some { s with worker := .waited i rest }
            | some false => some { s with worker := .ended }
          else if dll.delayMs ≠ 0 ∧ s.cancelEvent = some true then some { s with worker := .ended }
          else some { s with worker := .waited i rest }
  | .waited i rest =>
      if s.cancelEvent = some true then some { s with worker := .ended }
      else
        match setup.dlls[i]? with
        | none => some { s with worker := .running rest }
        | some dll =>
            some { s with worker := .running rest, loads := (loadExtdllOne setup.loader s.loads i dll).1 }

/-- The start of `extdlls_unload_all`. -/
def cancelStep : Option DataReadyState :=
  if s.cancelEvent.isSome then some { s with cancelEvent := some true } else none

end Threads

inductive Actor
  | main
  | game
  | worker
  | unload
deriving DecidableEq

def actorStep (setup : DataReadySetup) (s : DataReadyState) : Actor → Option DataReadyState
  | .main => mainStep setup s
  | .game => gameStep setup s
  | .worker => workerStep setup s
  | .unload => cancelStep s

def DataReadyStep (setup : DataReadySetup) (s s' : DataReadyState) : Prop :=
  ∃ actor, actorStep setup s actor = some s'

def DataReadyReachable (setup : DataReadySetup) : DataReadyState → Prop :=
  Relation.ReflTransGen (DataReadyStep setup) (dataReadyStart setup)

/-- A step on which the game thread does not look for the event before it exists. -/
def TimelyStep (setup : DataReadySetup) (s s' : DataReadyState) : Prop :=
  ∃ actor, actorStep setup s actor = some s' ∧
    (actor = .game → s.game = .checking → s.dataReadyEvent ≠ none)

def TimelyReachable (setup : DataReadySetup) : DataReadyState → Prop :=
  Relation.ReflTransGen (TimelyStep setup) (dataReadyStart setup)

/-- Both calls have happened: `extdlls_load_all` and `extdlls_load_data_ready` have returned. -/
def BothCalled (s : DataReadyState) : Prop :=
  (∃ rest, s.main = .callbacks rest ∧ .loadExtdlls ∉ rest) ∧ s.game = .done

/-- The worker is at a call of `wait_for_data_ready`. -/
def AtWait (setup : DataReadySetup) (s : DataReadyState) : Prop :=
  ∃ i rest dll, s.worker = .running (i :: rest) ∧ setup.dlls[i]? = some dll ∧ dll.stage = .dataReady

end Yafsml.Extdll
