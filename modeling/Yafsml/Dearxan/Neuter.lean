import Yafsml.Foundation.Loops
import Yafsml.Dearxan.StubPatchRuns

/-! # Finding and patching stubs until there are none -/

namespace Yafsml.Dearxan

open LittleEndian BoundedLoop

/-- A thread that `NtGetNextThread` lists: whether it is the calling one, and how suspending it,
making room for its handle and duplicating the handle end. -/
structure OtherThread where
  isCurrent : Bool
  suspends : Bool
  memory : Bool
  duplicates : Bool

inductive NeuterEvent
  | suspended (thread : Nat)
  | resumed (thread : Nat)
  | listMade (pass : Nat)
  | listFreed (pass : Nat)
  deriving DecidableEq, Repr

/-- From the thread with this number on; `held` are those whose handles are kept. -/
def suspendEach : List OtherThread → (number : Nat) → (held : List Nat) →
    List NeuterEvent × Option (List Nat)
  | [], _, held => ([], some held)
  | thread :: threads, number, held =>
      if thread.isCurrent || !thread.suspends then suspendEach threads (number + 1) held
      else if !thread.memory then
        (.suspended number :: .resumed number :: held.map .resumed, none)
      else if !thread.duplicates then
        let (events, guard) := suspendEach threads (number + 1) held
        (.suspended number :: .resumed number :: events, guard)
      else
        let (events, guard) := suspendEach threads (number + 1) (held ++ [number])
        (.suspended number :: events, guard)

def dearxanSuspendOtherThreads (getNextThread : Bool) (threads : List OtherThread) :
    List NeuterEvent × Option (List Nat) :=
  if getNextThread then suspendEach threads 0 [] else ([], none)

def dearxanResumeThreads (guard : List Nat) : List NeuterEvent := guard.map .resumed

inductive DearxanStatus
  | success
  | error
  deriving DecidableEq, Repr

structure DearxanResult where
  status : DearxanStatus
  errorMsg : Option String
  isArxanDetected : Bool
  isExecutingEntrypoint : Bool
  deriving DecidableEq, Repr

/-- What one pass depends on: its analysis of the memory it finds, and how the steps of patching
end. -/
structure NeuterPass where
  analysis : Memory → Except (Option String) (List StubInfo)
  patchListMemory : Bool
  entropies : Entropies
  near : Option Word
  writable : Word → Nat → Bool

structure NeuterEnvironment where
  isExecutingEntrypoint : Bool
  getNextThread : Bool
  threads : List OtherThread
  /-- the address and the size of the executable's image -/
  image : Option (Word × Nat)
  preferredBase : Option Word
  sectionsWritable : Bool
  relocations : DearxanImage → Option (List Nat)
  qsort : Sorting compareRegionReferences
  pass : Nat → NeuterPass
  memory : Memory
  buffer : CodeBuffer

structure NeuterState where
  passes : Nat
  memory : Memory
  buffer : CodeBuffer
  events : List NeuterEvent

/-- `passes` counts the analyses. -/
structure NeuterRun extends NeuterState where
  result : DearxanResult

namespace NeuterEnvironment

variable (env : NeuterEnvironment)

def failure (message : String) : DearxanResult :=
  ⟨.error, some message, true, env.isExecutingEntrypoint⟩

def success : DearxanResult := ⟨.success, none, true, env.isExecutingEntrypoint⟩

/-- The process in a pass, with the image that is in memory then. -/
def process (image : Word × Nat) (preferredBase : Word) (s : NeuterState) : Process :=
  let mapped : DearxanImage :=
    ⟨(List.range image.2).map fun k => s.memory (image.1 + BitVec.ofNat 64 k), image.1⟩
  { image := mapped
    preferredBase := preferredBase
    relocations := env.relocations mapped
    near := (env.pass s.passes).near
    writable := (env.pass s.passes).writable }

def applyStubPatches (image : Word × Nat) (preferredBase : Word) (stubs : List StubInfo)
    (s : NeuterState) : StubPatches :=
  if (env.pass s.passes).patchListMemory then
    dearxanApplyStubPatches (env.process image preferredBase s) env.qsort
      (env.pass s.passes).entropies stubs s.buffer
  else ⟨[], [], s.buffer, some "failed to allocate patch list"⟩

def neuterPass (image : Word × Nat) (preferredBase : Word) (s : NeuterState) :
    NeuterState ⊕ NeuterRun :=
  match (env.pass s.passes).analysis s.memory with
  | .error message =>
      .inr ⟨{ s with passes := s.passes + 1 },
        env.failure (message.getD "failed to analyze Arxan stubs")⟩
  | .ok [] =>
      .inr ⟨{ s with
        passes := s.passes + 1
        events := s.events ++ [.listMade s.passes, .listFreed s.passes] }, env.success⟩
  | .ok (stub :: stubs) =>
      let patches := env.applyStubPatches image preferredBase (stub :: stubs) s
      let after : NeuterState :=
        { passes := s.passes + 1
          memory := patches.memory s.memory
          buffer := patches.buffer
          events := s.events ++ [.listMade s.passes, .listFreed s.passes] }
      match patches.error with
      | some message => .inr ⟨after, env.failure message⟩
      | none => .inl after

/-- `fuel` bounds the turns of the loop; `none` if it goes on after them. -/
def neuterImage (fuel : Nat) (s : NeuterState) : Option NeuterRun :=
  match env.image, env.preferredBase with
  | none, _ => some ⟨s, env.failure "failed to initialize executable image"⟩
  | some _, none => some ⟨s, env.failure "failed to read executable preferred base"⟩
  | some image, some preferredBase =>
      if env.sectionsWritable then loop (env.neuterPass image preferredBase) fuel s
      else some ⟨s, env.failure "failed to make executable sections writable"⟩

def neuterOnce (fuel : Nat) : Option NeuterRun :=
  if env.isExecutingEntrypoint then env.neuterImage fuel ⟨0, env.memory, env.buffer, []⟩
  else
    match dearxanSuspendOtherThreads env.getNextThread env.threads with
    | (events, none) =>
        some ⟨⟨0, env.memory, env.buffer, events⟩,
          ⟨.error, some "failed to suspend process threads", true, false⟩⟩
    | (events, some guard) =>
        (env.neuterImage fuel ⟨0, env.memory, env.buffer, events⟩).map fun run =>
          { run with events := run.events ++ dearxanResumeThreads guard }

end NeuterEnvironment

end Yafsml.Dearxan
