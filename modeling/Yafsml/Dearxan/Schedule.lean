import Mathlib.Logic.Function.Basic
import Mathlib.Logic.Relation
import Yafsml.Foundation.Fifo

/-!
# Callbacks scheduled after Arxan

Every module of the process may schedule a callback. The callbacks wait in a shared queue until
`flush_callbacks` publishes the result of the analysis and drains it; later ones run at once. A call
made from inside a running callback is a call like any other, whose steps fall before the callback
ends.
-/

namespace Yafsml.Dearxan

/-- The values 0 to 3 of `state`. -/
inductive ScheduleState
  | unused
  | scheduled
  | draining
  | complete
deriving DecidableEq, Repr

/-- What the mutex protects. A callback is named by the call that scheduled it. -/
structure ScheduleShared (ι : Type*) where
  state : ScheduleState
  resultReady : Bool
  isArxanDetected : Bool
  isExecutingEntrypoint : Bool
  callbacks : List ι
  drainedEvent : Bool

/-- Where a call of `dearxan_schedule_after_arxan` stands. -/
inductive ScheduleCall
  | outside
  | entered (preEntryPoint : Bool)
  | unlocked (preEntryPoint : Bool)
  | initializing
  | flushing
  | draining
  | waiting
  | runNow (detected : Bool)
  | invoking
  | returned (waited : Bool)

/-- Where the run of `flush_callbacks` stands. `invoking` has callbacks left in its private list,
`inside` is in the middle of one. -/
inductive Flush (ι : Type*)
  | idle
  | invoking (isArxanDetected isExecutingEntrypoint : Bool) (callbacks : List ι)
  | inside (isArxanDetected isExecutingEntrypoint : Bool) (callback : ι) (next : List ι)
  | finished

structure Invocation (ι : Type*) where
  call : ι
  isArxanDetected : Bool
  isExecutingEntrypoint : Bool

def Flush.callbacks {ι : Type*} : Flush ι → List ι
  | idle => []
  | invoking _ _ callbacks => callbacks
  | inside _ _ _ next => next
  | finished => []

section Locked

variable {ι : Type*}

/-- The locked section of `dearxan_schedule_after_arxan`. -/
def scheduleLocked (shared : ScheduleShared ι) (callback : ι) (preEntryPoint : Bool) :
    ScheduleShared ι × ScheduleCall :=
  if shared.state = .complete then (shared, .runNow shared.isArxanDetected)
  else
    let queued := { shared with callbacks := shared.callbacks ++ [callback] }
    if shared.state = .unused then ({ queued with state := .scheduled }, .initializing)
    else (queued, .unlocked preEntryPoint)

/-- The first locked section of `flush_callbacks`. -/
def flushPublish (shared : ScheduleShared ι) (isArxanDetected isExecutingEntrypoint : Bool) :
    ScheduleShared ι × Flush ι :=
  ({ shared with
      isArxanDetected
      isExecutingEntrypoint :=
        if shared.resultReady then shared.isExecutingEntrypoint else isExecutingEntrypoint
      resultReady := true
      callbacks := []
      state := .draining },
    .invoking isArxanDetected isExecutingEntrypoint shared.callbacks)

/-- The locked section at the end of each round of `flush_callbacks`. -/
def flushRefill (shared : ScheduleShared ι) (isArxanDetected isExecutingEntrypoint : Bool) :
    ScheduleShared ι × Flush ι :=
  let emptied := { shared with callbacks := [] }
  if shared.callbacks = [] then
    ({ emptied with state := .complete, drainedEvent := true }, .finished)
  else (emptied, .invoking isArxanDetected isExecutingEntrypoint shared.callbacks)

def scheduleCheck (shared : ScheduleShared ι) (preEntryPoint : Bool) : ScheduleCall :=
  if !preEntryPoint ∧ shared.state ≠ .draining then .waiting else .returned false

/-- One read of `wait_for_state`. -/
def waitForState (shared : ScheduleShared ι) : ScheduleCall :=
  if shared.state = .complete then .returned true else .waiting

end Locked

/-- The scheduler and the calls made to it. `scheduled` lists the queued callbacks in the order of
their locked sections, `drained` what the drain has invoked and `direct` what callers have. -/
structure World (ι : Type*) where
  shared : ScheduleShared ι
  flush : Flush ι
  calls : ι → ScheduleCall
  scheduled : List ι
  drained : List (Invocation ι)
  direct : List (Invocation ι)

namespace World

variable {ι : Type*}

def start : World ι :=
  ⟨⟨.unused, false, false, false, [], false⟩, .idle, fun _ => .outside, [], [], []⟩

variable [DecidableEq ι] (w : World ι)

def turn (i : ι) (call : ScheduleCall) : World ι :=
  { w with calls := Function.update w.calls i call }

def schedule (i : ι) (preEntryPoint : Bool) : World ι :=
  let (shared, call) := scheduleLocked w.shared i preEntryPoint
  { w.turn i call with
    shared
    scheduled := if w.shared.state = .complete then w.scheduled else w.scheduled ++ [i] }

def publish (isArxanDetected isExecutingEntrypoint : Bool) : World ι :=
  let (shared, flush) := flushPublish w.shared isArxanDetected isExecutingEntrypoint
  { w with shared, flush }

def refill (isArxanDetected isExecutingEntrypoint : Bool) : World ι :=
  let (shared, flush) := flushRefill w.shared isArxanDetected isExecutingEntrypoint
  { w with shared, flush }

/-- One step of a run with one flush. The analysis may write `is_arxan_detected` until the flush
starts; a call whose `initialize_schedule` fails is then the one that flushes. -/
inductive Step : World ι → World ι → Prop
  | enter {w : World ι} {i : ι} (preEntryPoint : Bool) (at_ : w.calls i = .outside) :
      Step w (w.turn i (.entered preEntryPoint))
  | schedule {w : World ι} {i : ι} {preEntryPoint : Bool}
      (at_ : w.calls i = .entered preEntryPoint) : Step w (w.schedule i preEntryPoint)
  | check {w : World ι} {i : ι} {preEntryPoint : Bool}
      (at_ : w.calls i = .unlocked preEntryPoint) :
      Step w (w.turn i (scheduleCheck w.shared preEntryPoint))
  | poll {w : World ι} {i : ι} (at_ : w.calls i = .waiting) :
      Step w (w.turn i (waitForState w.shared))
  | runNow {w : World ι} {i : ι} {detected : Bool} (at_ : w.calls i = .runNow detected) :
      Step w { w.turn i .invoking with direct := w.direct ++ [⟨i, detected, false⟩] }
  | leave {w : World ι} {i : ι} (at_ : w.calls i = .invoking) : Step w (w.turn i (.returned false))
  | initializeSchedule {w : World ι} {i : ι} (initialized : Bool) (at_ : w.calls i = .initializing) :
      Step w (w.turn i (if initialized then .returned false else .flushing))
  | detect {w : World ι} (isArxanDetected : Bool) (idle : w.flush = .idle) :
      Step w { w with shared := { w.shared with isArxanDetected } }
  | flush {w : World ι} (isArxanDetected isExecutingEntrypoint : Bool) (idle : w.flush = .idle) :
      Step w (w.publish isArxanDetected isExecutingEntrypoint)
  | flushHere {w : World ι} {i : ι} (at_ : w.calls i = .flushing) (idle : w.flush = .idle) :
      Step w ((w.publish false false).turn i .draining)
  | join {w : World ι} {i : ι} (at_ : w.calls i = .draining) (isOver : w.flush = .finished) :
      Step w (w.turn i (.returned false))
  | invoke {w : World ι} {detected executing : Bool} {i : ι} {next : List ι}
      (at_ : w.flush = .invoking detected executing (i :: next)) :
      Step w { w with
        flush := .inside detected executing i next
        drained := w.drained ++ [⟨i, detected, executing⟩] }
  | finish {w : World ι} {detected executing : Bool} {i : ι} {next : List ι}
      (at_ : w.flush = .inside detected executing i next) :
      Step w { w with flush := .invoking detected executing next }
  | refill {w : World ι} {detected executing : Bool}
      (at_ : w.flush = .invoking detected executing []) : Step w (w.refill detected executing)

def Reachable : World ι → Prop := Relation.ReflTransGen Step start

def places : Fifo.Places ι := ⟨w.drained.map (·.call), w.flush.callbacks, w.shared.callbacks⟩

def timesInvoked (i : ι) : Nat := (w.drained.map (·.call)).count i + (w.direct.map (·.call)).count i

end World

end Yafsml.Dearxan
