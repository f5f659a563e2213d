import Mathlib.Data.List.Basic
import Mathlib.Logic.Function.Basic
import Mathlib.Logic.Relation

/-! # Lifecycle phases

Observers are registered for a phase and called when it is reached. Every lock operation with what
follows it up to the next one, and every interlocked operation, is one step. -/

namespace Yafsml.Modloader

abbrev Callback := Nat

def phaseUnknown : Int := 0

def phaseLast : Int := 6

def validPhase (phase : Int) : Bool := !(decide (phase ≤ phaseUnknown) || decide (phaseLast < phase))

/-- A call of `ml_lifecycle_on_phase`, told apart by its thread and its number among the thread's
calls; also an element of `observers`, whose `callback` is `none` once it is taken. -/
structure Observer (ι : Type) where
  call : ι × Nat
  phase : Int
  callback : Option Callback
  userp : Nat
deriving DecidableEq

inductive Frame (ι : Type) where
  /-- before the locked section of `ml_lifecycle_on_phase` -/
  | onPhase (phase : Int) (callback : Callback) (userp : Nat)
  /-- inside of it, with the phase found not to be reached -/
  | append (phase : Int) (callback : Callback) (userp : Nat)
  /-- before the `InterlockedOr` of `ml_lifecycle_advance` -/
  | advance (phase : Int)
  /-- before the locked scan -/
  | scan (phase : Int)
  /-- behind it, with an observer taken -/
  | taken (phase : Int) (observer : Observer ι)
  /-- the callback runs -/
  | calling (phase : Int)

inductive LifecycleEvent (ι : Type) where
  | returned (observer : Observer ι) (result : Bool)
  | called (observer : Observer ι)
  /-- the call of `ml_lifecycle_advance` that set the phase's bit returns -/
  | finished (phase : Int)

structure Lifecycle (ι : Type) where
  lock : Option ι
  observers : List (Observer ι)
  observerCapacity : Nat
  /-- the bits of `reached_phases` -/
  reached : Int → Bool
  frames : ι → List (Frame ι)
  /-- the number of calls of `ml_lifecycle_on_phase` that a thread has made -/
  calls : ι → Nat
  events : List (LifecycleEvent ι)

namespace Lifecycle

variable {ι : Type}

def start : Lifecycle ι := ⟨none, [], 0, fun _ => false, fun _ => [], fun _ => 0, []⟩

/-- The scan of `ml_lifecycle_advance`: the observer taken, and the array without its callback. -/
def takeObserver (phase : Int) : List (Observer ι) → Option (Observer ι × List (Observer ι))
  | [] => none
  | observer :: rest =>
      if observer.callback.isSome && observer.phase == phase then
        some (observer, { observer with callback := none } :: rest)
      else (takeObserver phase rest).map fun (taken, rest) => (taken, observer :: rest)

variable [DecidableEq ι] (s : Lifecycle ι)

def turn (i : ι) (frames : List (Frame ι)) : Lifecycle ι :=
  { s with frames := Function.update s.frames i frames }

/-- Thread `i` leaves `ml_lifecycle_on_phase`. -/
def leave (i : ι) (frames : List (Frame ι)) (phase : Int) (callback : Option Callback) (userp : Nat)
    (result : Bool) : Lifecycle ι :=
  { s.turn i frames with
    calls := Function.update s.calls i (s.calls i + 1)
    events := s.events ++ [.returned ⟨(i, s.calls i), phase, callback, userp⟩ result] }

def canCall : List (Frame ι) → Bool
  | [] => true
  | .calling _ :: _ => true
  | _ :: _ => false

def grownCapacity : Nat :=
  if s.observers.length = s.observerCapacity then
    if s.observerCapacity = 0 then 8 else s.observerCapacity * 2
  else s.observerCapacity

/-- `ml_lifecycle_advance` returns at once for an invalid phase, which is no step. -/
inductive Step : Lifecycle ι → Lifecycle ι → Prop
  | register {s : Lifecycle ι} {i : ι} (phase : Int) (callback : Option Callback) (userp : Nat)
      (free : canCall (s.frames i) = true) :
      Step s (match callback with
        | none => s.leave i (s.frames i) phase none userp false
        | some callback =>
            if validPhase phase then s.turn i (.onPhase phase callback userp :: s.frames i)
            else s.leave i (s.frames i) phase (some callback) userp false)
  | test {s : Lifecycle ι} {i : ι} {phase : Int} {callback : Callback} {userp : Nat}
      {rest : List (Frame ι)} (at_ : s.frames i = .onPhase phase callback userp :: rest)
      (unlocked : s.lock = none) :
      Step s (if s.reached phase then s.leave i rest phase (some callback) userp false
        else { s.turn i (.append phase callback userp :: rest) with lock := some i })
  /-- `memory` tells whether the array can be grown where it must be. -/
  | append {s : Lifecycle ι} {i : ι} {phase : Int} {callback : Callback} {userp : Nat}
      {rest : List (Frame ι)} (memory : Bool)
      (at_ : s.frames i = .append phase callback userp :: rest) :
      Step s (if s.observers.length = s.observerCapacity ∧ memory = false then
          { s.leave i rest phase (some callback) userp false with lock := none }
        else
          { s.leave i rest phase (some callback) userp true with
            lock := none
            observerCapacity := s.grownCapacity
            observers := s.observers ++ [⟨(i, s.calls i), phase, some callback, userp⟩] })
  | enter {s : Lifecycle ι} {i : ι} (phase : Int) (free : canCall (s.frames i) = true)
      (valid : validPhase phase = true) : Step s (s.turn i (.advance phase :: s.frames i))
  | reach {s : Lifecycle ι} {i : ι} {phase : Int} {rest : List (Frame ι)}
      (at_ : s.frames i = .advance phase :: rest) :
      Step s (if s.reached phase then s.turn i rest
        else { s.turn i (.scan phase :: rest) with
          reached := Function.update s.reached phase true })
  | scan {s : Lifecycle ι} {i : ι} {phase : Int} {rest : List (Frame ι)}
      (at_ : s.frames i = .scan phase :: rest) (unlocked : s.lock = none) :
      Step s (match takeObserver phase s.observers with
        | none => { s.turn i rest with events := s.events ++ [.finished phase] }
        | some (observer, observers) =>
            { s.turn i (.taken phase observer :: rest) with observers := observers })
  | call {s : Lifecycle ι} {i : ι} {phase : Int} {observer : Observer ι} {rest : List (Frame ι)}
      (at_ : s.frames i = .taken phase observer :: rest) :
      Step s { s.turn i (.calling phase :: rest) with events := s.events ++ [.called observer] }
  | back {s : Lifecycle ι} {i : ι} {phase : Int} {rest : List (Frame ι)}
      (at_ : s.frames i = .calling phase :: rest) : Step s (s.turn i (.scan phase :: rest))

def Reachable : Lifecycle ι → Prop := Relation.ReflTransGen Step start

/-- The registrations for a phase that returned true, in their order. -/
def registered (phase : Int) : List (Observer ι) :=
  s.events.filterMap fun
    | .returned observer true => if observer.phase = phase then some observer else none
    | _ => none

/-- The callbacks of a phase that were called, in their order. -/
def called (phase : Int) : List (Observer ι) :=
  s.events.filterMap fun
    | .called observer => if observer.phase = phase then some observer else none
    | _ => none

/-- The calls of `ml_lifecycle_on_phase` that have returned. -/
def returnedCalls : List (ι × Nat) :=
  s.events.filterMap fun
    | .returned observer _ => some observer.call
    | _ => none

end Lifecycle

end Yafsml.Modloader
