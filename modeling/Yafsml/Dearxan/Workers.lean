import Mathlib.Logic.Relation
import Yafsml.Dearxan.AnalysisEnds

/-!
# The analysis of all candidates

`dearxan_analyze_all_stubs_with_workers` shares the candidates out among threads, which take them from one
counter, and moves the stubs out of their results afterwards.
-/

namespace Yafsml.Dearxan

open LittleEndian

structure SectionHeader where
  virtualAddress : Nat
  virtualSize : Nat
  sizeOfRawData : Nat
  deriving DecidableEq, Repr

def SectionHeader.size (header : SectionHeader) : Nat :=
  if header.virtualSize = 0 then header.sizeOfRawData else header.virtualSize

/-- A module as Windows maps it, with `none` for headers that are not those of an image. The size of an
image is a number of 32 bits, and its sections lie one behind the other. -/
structure ModuleImage where
  image : DearxanImage
  sections : Option (List SectionHeader)
  small : image.bytes.length < 2 ^ 32
  apart : ∀ headers ∈ sections, headers.Pairwise fun a b => a.virtualAddress + a.size ≤ b.virtualAddress

/-- What `dearxan_image_for_each_section` calls back with, cut off at the end of the image. -/
def sectionRange (image : DearxanImage) (header : SectionHeader) : Option (Word × List Byte) :=
  if image.bytes.length ≤ header.virtualAddress then none
  else some (image.baseVa + BitVec.ofNat 64 header.virtualAddress,
    (image.bytes.drop header.virtualAddress).take header.size)

/-- `test rsp, 0xf`. -/
def candidatePattern : List Byte := [0x48, 0xf7, 0xc4, 0x0f, 0, 0, 0]

/-- `memchr` only skips what cannot match. -/
def collectCandidates (reserve : Nat → Bool) (va : Word) : List Byte → List Word → Option (List Word)
  | [], list => some list
  | byte :: rest, list =>
      if candidatePattern.isPrefixOf (byte :: rest) then
        if reserve (list.length + 1) then collectCandidates reserve (va + 1) rest (list ++ [va]) else none
      else collectCandidates reserve (va + 1) rest list

def forEachSection (module : ModuleImage) (callback : Word → List Byte → List Word → Option (List Word)) :
    Option (List Word) :=
  module.sections.bind fun headers =>
    (headers.filterMap (sectionRange module.image)).foldlM (fun list range => callback range.1 range.2 list) []

/-- A stub and the allocation that its regions are in. -/
structure OwnedStub where
  info : StubInfo
  regions : Option Nat
  deriving DecidableEq, Repr

/-- `stub` is `none` where `memset` cleared it. -/
structure CandidateResult where
  stub : Option OwnedStub
  matched : Bool
  fatalError : Bool
  deriving DecidableEq, Repr

def CandidateResult.cleared : CandidateResult := ⟨none, false, false⟩

/-- What `analyze_candidate` leaves in the slot, if its regions are the allocation `owner`. -/
def CandidateResult.of (owner : Nat) : AnalysisOutcome → CandidateResult
  | .matched info => ⟨some ⟨info, info.encryptedRegions.map fun _ => owner⟩, true, false⟩
  | .unmatched => ⟨none, false, false⟩
  | .fatal => ⟨none, false, true⟩

def analysisMaxWorkers : Nat := 8

structure AnalysisRequest where
  module : ModuleImage
  maxWorkers : Nat
  processors : Nat
  reserve : Nat → Bool
  callocResults : Bool
  callocItems : Bool
  createThread : Nat → Bool
  analysis : Nat → AnalysisEnvironment

namespace AnalysisRequest

variable (request : AnalysisRequest)

def candidates : Option (List Word) := forEachSection request.module (collectCandidates request.reserve)

/-- What the analysis of a candidate gives, whichever thread makes it. -/
def outcome (candidates : List Word) (index : Nat) : AnalysisOutcome :=
  analyzeCandidate (request.analysis index) request.module.image (candidates.getD index 0)

def workerCount (candidates : List Word) : Nat :=
  let count := min (max (request.processors / 4) 1) analysisMaxWorkers
  let count := if request.maxWorkers ≠ 0 ∧ request.maxWorkers < count then request.maxWorkers else count
  min count candidates.length

end AnalysisRequest

inductive WorkerPhase
  | absent
  | take
  | analyze (index : Nat)
  | done
  deriving DecidableEq, Repr

/-- The calling thread creates the others, works along with them and waits for them. -/
inductive MainPhase
  | creating (i : Nat)
  | working
  | joined
  deriving DecidableEq, Repr

/-- Worker 0 is the calling thread. `analyzed` are the candidates in the order of their results, and
`allocated` is the number of allocations of regions. -/
structure WorkersState where
  nextIndex : BitVec 32
  results : List CandidateResult
  workers : Nat → WorkerPhase
  main : MainPhase
  analyzed : List Nat
  allocated : Nat

def WorkersState.start (candidates : List Word) : WorkersState where
  nextIndex := 0
  results := List.replicate candidates.length .cleared
  workers := fun _ => .absent
  main := .creating 1
  analyzed := []
  allocated := 0

namespace WorkersState

variable (s : WorkersState)

def set (t : Nat) (phase : WorkerPhase) : WorkersState :=
  { s with workers := Function.update s.workers t phase }

/-- `InterlockedIncrement`; the index is a `LONG`. -/
def draw (count t : Nat) : WorkersState :=
  let index := s.nextIndex + 1 - 1
  { s.set t (if index.toInt < 0 ∨ count ≤ index.toInt then .done else .analyze index.toNat) with
    nextIndex := s.nextIndex + 1 }

def write (outcome : AnalysisOutcome) (t index : Nat) : WorkersState :=
  let result := CandidateResult.of s.allocated outcome
  { s.set t .take with
    results := s.results.set index result
    analyzed := s.analyzed ++ [index]
    allocated := if (result.stub.bind OwnedStub.regions).isSome then s.allocated + 1 else s.allocated }

end WorkersState

section Steps

variable (request : AnalysisRequest) (candidates : List Word)

inductive WorkersStep : WorkersState → WorkersState → Prop
  | create {s : WorkersState} {i : Nat} (creating : s.main = .creating i)
      (more : i < request.workerCount candidates) :
      WorkersStep s { (if request.createThread i then s.set i .take else s) with main := .creating (i + 1) }
  | work {s : WorkersState} {i : Nat} (creating : s.main = .creating i)
      (all : request.workerCount candidates ≤ i) : WorkersStep s { s.set 0 .take with main := .working }
  | draw {s : WorkersState} {t : Nat} (takes : s.workers t = .take) :
      WorkersStep s (s.draw candidates.length t)
  | write {s : WorkersState} {t index : Nat} (analyzes : s.workers t = .analyze index) :
      WorkersStep s (s.write (request.outcome candidates index) t index)
  | join {s : WorkersState} (working : s.main = .working) (main : s.workers 0 = .done)
      (others : ∀ t, s.workers t = .absent ∨ s.workers t = .done) :
      WorkersStep s { s with main := .joined }

def WorkersReach (s : WorkersState) : Prop :=
  Relation.ReflTransGen (WorkersStep request candidates) (.start candidates) s

end Steps

/-- What the call returns, with the allocations it has freed and the record of the threads. -/
structure AnalyzedStubs where
  ok : Bool
  stubs : List OwnedStub
  errorMessage : Option String
  freed : List Nat
  analyzed : List Nat
  allocated : Nat

def moveResults : List CandidateResult → List OwnedStub × Nat
  | [] => ([], 0)
  | result :: rest =>
      if result.matched then (result.stub.toList ++ (moveResults rest).1, (moveResults rest).2)
      else if result.fatalError then ((moveResults rest).1, (moveResults rest).2 + 1)
      else moveResults rest

def AnalyzedStubs.of (s : WorkersState) : AnalyzedStubs :=
  let moved := moveResults s.results
  if moved.2 ≠ 0 then
    ⟨false, [], some "failed to analyze all Arxan stubs", moved.1.filterMap OwnedStub.regions, s.analyzed,
      s.allocated⟩
  else ⟨true, moved.1, none, [], s.analyzed, s.allocated⟩

inductive AnalyzesAll (request : AnalysisRequest) : AnalyzedStubs → Prop
  | unscanned (failed : request.candidates = none) :
      AnalyzesAll request ⟨false, [], some "failed to scan executable sections", [], [], 0⟩
  | none (empty : request.candidates = some []) : AnalyzesAll request ⟨true, [], Option.none, [], [], 0⟩
  | unallocated {candidates : List Word} (found : request.candidates = some candidates)
      (nonempty : candidates ≠ []) (failed : (request.callocResults && request.callocItems) = false) :
      AnalyzesAll request ⟨false, [], some "failed to allocate stub list", [], [], 0⟩
  | joined {candidates : List Word} {s : WorkersState} (found : request.candidates = some candidates)
      (nonempty : candidates ≠ []) (memory : (request.callocResults && request.callocItems) = true)
      (reach : WorkersReach request candidates s) (joined : s.main = .joined) :
      AnalyzesAll request (.of s)

def AnalysisOutcome.stub : AnalysisOutcome → Option StubInfo
  | .matched info => some info
  | _ => none

/-- A single thread that goes through the candidates in order. -/
def analyzeInOrder (request : AnalysisRequest) : Bool × List StubInfo × Option String :=
  match request.candidates with
  | none => (false, [], some "failed to scan executable sections")
  | some candidates =>
      let outcomes := (List.range candidates.length).map (request.outcome candidates)
      if candidates ≠ [] ∧ (request.callocResults && request.callocItems) = false then
        (false, [], some "failed to allocate stub list")
      else if .fatal ∈ outcomes then (false, [], some "failed to analyze all Arxan stubs")
      else (true, outcomes.filterMap AnalysisOutcome.stub, none)

end Yafsml.Dearxan
