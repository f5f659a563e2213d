import Mathlib.Data.Fintype.Basic
import Yafsml.Dearxan.Neuter
import Yafsml.Foundation.Interleaving

/-!
# The shared result of neutralization

The modules of a process that ask for neutralization share one run of `neuter_once`. The call that finds
`neuter_state` 0 makes it and publishes what it returned; the others wait for state 2 and read.
-/

namespace Yafsml.Dearxan

/-- Where `error_msg` points. -/
inductive ErrorMsg
  | null
  | text (s : List UInt8)
  | neuterError
  deriving DecidableEq, Repr

/-- `DearxanResult` as it lies in memory. -/
structure ResultRecord where
  resultSize : Nat
  status : Nat
  errorMsg : ErrorMsg
  errorMsgSize : Nat
  isArxanDetected : Bool
  isExecutingEntrypoint : Bool
  deriving DecidableEq, Repr

/-- `DEARXAN_RESULT_SIZE`: the offset behind `is_executing_entrypoint`. -/
def dearxanResultSize : Nat := 34

def cText (message : String) : List UInt8 :=
  (message.toList.flatMap String.utf8EncodeChar).takeWhile (· ≠ 0)

def DearxanStatus.code : DearxanStatus → Nat
  | success => 1
  | error => 2

def makeResult (status : DearxanStatus) (errorMessage : Option String)
    (isPresent isExecutingEntrypoint : Bool) : ResultRecord :=
  { resultSize := dearxanResultSize
    status := status.code
    errorMsg := errorMessage.elim .null fun message => .text (cText message)
    errorMsgSize := (errorMessage.map cText).elim 0 List.length
    isArxanDetected := isPresent
    isExecutingEntrypoint }

def DearxanResult.record (result : DearxanResult) : ResultRecord :=
  makeResult result.status result.errorMsg result.isArxanDetected result.isExecutingEntrypoint

/-- The values 0 to 2 of `neuter_state`. -/
inductive NeuterPhase
  | unused
  | running
  | done
  deriving DecidableEq, Repr

def neuterErrorSize : Nat := 256

/-- The part of `dearxan_schedule_shared_t` that neutralization uses, with the thread that owns
`schedule_mutex` and `neuter_done_event`. `began` and `results` record the calls of `neuter_once` and what
they returned. -/
structure NeuterShared (ι : Type*) where
  owner : Option ι
  neuterState : NeuterPhase
  neuterResult : ResultRecord
  neuterError : List UInt8
  neuterDoneEvent : Bool
  began : List ι
  results : List DearxanResult

/-- One write of `publish_neuter_result`. -/
inductive PublishWrite
  | result (r : ResultRecord)
  | copy (s : List UInt8)
  | terminate (size : Nat)
  | errorMsg (e : ErrorMsg)
  | errorMsgSize (size : Nat)
  | state
  | event
  deriving DecidableEq, Repr

def publishNeuterResult (r : ResultRecord) : List PublishWrite :=
  .result r ::
    (match r.errorMsg with
    | .text s =>
        if r.errorMsgSize ≠ 0 then
          let size := if neuterErrorSize ≤ r.errorMsgSize then neuterErrorSize - 1 else r.errorMsgSize
          [.copy (s.take size), .terminate size, .errorMsg .neuterError, .errorMsgSize size]
        else [.terminate 0, .errorMsg .null, .errorMsgSize 0]
    | _ => [.terminate 0, .errorMsg .null, .errorMsgSize 0]) ++
    [.state, .event]

def PublishWrite.apply {ι : Type*} (s : NeuterShared ι) : PublishWrite → NeuterShared ι
  | result r => { s with neuterResult := r }
  | copy t => { s with neuterError := t ++ s.neuterError.drop t.length }
  | terminate size => { s with neuterError := s.neuterError.set size 0 }
  | errorMsg e => { s with neuterResult := { s.neuterResult with errorMsg := e } }
  | errorMsgSize size => { s with neuterResult := { s.neuterResult with errorMsgSize := size } }
  | state => { s with neuterState := .done }
  | event => { s with neuterDoneEvent := true }

/-- Where a call of `get_neuter_result` stands. -/
inductive NeuterPlace
  | outside
  | locking
  | checking
  | releasing (isFirst : Bool)
  | neutering
  | publishLocking (result : DearxanResult)
  | publishing (rest : List PublishWrite)
  | waiting
  | readLocking
  | reading
  | readReleasing (result : ResultRecord)
  | returned (result : ResultRecord)
  deriving DecidableEq

structure NeuterCall (ι : Type*) where
  id : ι
  isExecutingEntrypoint : Bool
  /-- whether `get_schedule_shared` finds the shared part -/
  mapped : Bool
  place : NeuterPlace

def NeuterCall.goto {ι : Type*} (k : NeuterCall ι) (place : NeuterPlace) : NeuterCall ι := { k with place }

section Calls

variable {ι : Type*}

/-- `WaitForSingleObject(schedule_mutex, INFINITE)`, which blocks while a thread owns the mutex. -/
def lockMutex (s : NeuterShared ι) (k : NeuterCall ι) (place : NeuterPlace) :
    Option (NeuterShared ι × NeuterCall ι) :=
  if s.owner.isNone then some ({ s with owner := some k.id }, k.goto place) else none

def unlockMutex (s : NeuterShared ι) (k : NeuterCall ι) (place : NeuterPlace) :
    Option (NeuterShared ι × NeuterCall ι) :=
  some ({ s with owner := none }, k.goto place)

def readNeuterResult (s : NeuterShared ι) (isExecutingEntrypoint : Bool) : ResultRecord :=
  { s.neuterResult with
    resultSize :=
      if dearxanResultSize < s.neuterResult.resultSize then dearxanResultSize else s.neuterResult.resultSize
    isExecutingEntrypoint }

/-- One turn of a call. `result` is what `neuter_once` returns, where the turn is its end. -/
def neuterTurn (result : DearxanResult) (s : NeuterShared ι) (k : NeuterCall ι) :
    Option (NeuterShared ι × NeuterCall ι) :=
  match k.place with
  | .outside =>
      if k.mapped then some (s, k.goto .locking)
      else some (s, k.goto (.returned (makeResult .error
        (some "failed to access process-wide neutralization state") true k.isExecutingEntrypoint)))
  | .locking => lockMutex s k .checking
  | .checking =>
      if s.neuterState = .unused then
        some ({ s with neuterState := .running, began := s.began ++ [k.id] }, k.goto (.releasing true))
      else some (s, k.goto (.releasing false))
  | .releasing isFirst => unlockMutex s k (if isFirst then .neutering else .waiting)
  | .neutering => some ({ s with results := s.results ++ [result] }, k.goto (.publishLocking result))
  | .publishLocking result => lockMutex s k (.publishing (publishNeuterResult result.record))
  | .publishing (write :: rest) => some (write.apply s, k.goto (.publishing rest))
  | .publishing [] => unlockMutex s k .readLocking
  -- one read of `wait_for_state`
  | .waiting => some (s, k.goto (if s.neuterState = .done then .readLocking else .waiting))
  | .readLocking => lockMutex s k .reading
  | .reading => some (s, k.goto (.readReleasing (readNeuterResult s k.isExecutingEntrypoint)))
  | .readReleasing result => unlockMutex s k (.returned result)
  | .returned _ => none

def errorText (s : NeuterShared ι) : ErrorMsg → Option (List UInt8)
  | .null => none
  | .text t => some t
  | .neuterError => some (s.neuterError.takeWhile (· ≠ 0))

/-- Before any call: the section is zeroed memory. The calls may come from any modules and with any flag. -/
def neuterStart (isExecutingEntrypoint mapped : ι → Bool) :
    Interleaving.Config ι (NeuterShared ι) (NeuterCall ι) where
  shared :=
    { owner := none
      neuterState := .unused
      neuterResult := ⟨0, 0, .null, 0, false, false⟩
      neuterError := List.replicate neuterErrorSize 0
      neuterDoneEvent := false
      began := []
      results := [] }
  threads i := ⟨i, isExecutingEntrypoint i, mapped i, .outside⟩

end Calls

end Yafsml.Dearxan
