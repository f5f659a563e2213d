import Yafsml.Foundation.FiniteMap
import Yafsml.Foundation.LittleEndian
import Yafsml.Foundation.Pending

/-! # Handles of ZIP files

The table of the tagged event handles that stand for files of ZIP packages, the operations on it and
its shutdown. Every section under `handles_lock` and every interlocked operation is one action. -/

namespace Yafsml.Patches

open LittleEndian

abbrev Handle := Word

abbrev Dword := BitVec 32

abbrev FileId := Nat

def maximumAllowed : Dword := 0x02000000

def fileGenericRead : Dword := 0x120089
def fileGenericWrite : Dword := 0x120116
def fileGenericExecute : Dword := 0x1200a0
def fileAllAccess : Dword := 0x1f01ff

/-- `MapGenericMask` with the generic rights of files. -/
def mapGenericMask (access : Dword) : Dword :=
  let access := if access &&& 0x80000000#32 ≠ 0 then access ||| fileGenericRead else access
  let access := if access &&& 0x40000000#32 ≠ 0 then access ||| fileGenericWrite else access
  let access := if access &&& 0x20000000#32 ≠ 0 then access ||| fileGenericExecute else access
  let access := if access &&& 0x10000000#32 ≠ 0 then access ||| fileAllAccess else access
  access &&& 0x0fffffff#32

def fileAccess (access : Dword) : Dword :=
  mapGenericMask (if access &&& maximumAllowed ≠ 0 then access &&& ~~~maximumAllowed ||| fileGenericRead
    else access)

/-- `DELETE`, `WRITE_DAC`, `WRITE_OWNER` and the rights to write data and attributes. -/
def writeRights : Dword := 0x10000 ||| 0x40000 ||| 0x80000 ||| 0x2 ||| 0x4 ||| 0x10 ||| 0x100

/-- `FILE_READ_DATA` and `FILE_EXECUTE`. -/
def readRights : Dword := 0x1 ||| 0x20

def fileShareRead : Dword := 1

def fileFlagDeleteOnClose : Dword := 0x04000000

def openExisting : Dword := 3

def openAlways : Dword := 4

def duplicateCloseSource : Dword := 1

def duplicateSameAccess : Dword := 2

def zipHandleTag : Handle := 1

def zipHandleTagged (handle : Handle) : Bool := handle &&& 3 = zipHandleTag

/-- `closed` counts how often the reader has been closed. -/
structure ZipFile where
  references : Int
  access : Dword
  share : Dword
  identity : Word
  closed : Nat
  deriving DecidableEq, Repr

structure ZipHandle where
  file : FileId
  access : Dword
  deriving DecidableEq, Repr

/-- Where the thread is that prepares the hooks and tears them down. -/
inductive Manager
  | idle
  | asleep
  | woken
  | releasing (remaining : List FileId)
  deriving DecidableEq, Repr

/-- `files` has every file ever allocated; `handles = none` is `NULL`. -/
structure Shared where
  files : List ZipFile
  handles : Option (AList fun _ : Handle => ZipHandle)
  handleCount : Int
  accepting : Bool
  activeOperations : Int
  manager : Manager

namespace Shared

def table (s : Shared) : AList fun _ : Handle => ZipHandle := s.handles.getD ∅

def references (s : Shared) (f : FileId) : Int := (s.files[f]?.map ZipFile.references).getD 0

def addReference (s : Shared) (f : FileId) : Shared :=
  { s with files := s.files.modify f fun file => { file with references := file.references + 1 } }

def release (s : Shared) (f : FileId) : Shared :=
  { s with files := s.files.modify f fun file =>
      { file with
        references := file.references - 1
        closed := if file.references - 1 = 0 then file.closed + 1 else file.closed } }

end Shared

structure OpenRequest where
  access : Dword
  share : Dword
  disposition : Dword
  flags : Dword
  deriving DecidableEq, Repr

/-- Writing, creating and deleting are refused before anything is looked at. -/
def OpenRequest.refused (r : OpenRequest) : Bool :=
  fileAccess r.access &&& writeRights ≠ 0 || r.flags &&& fileFlagDeleteOnClose ≠ 0 ||
    (r.disposition ≠ openExisting && r.disposition ≠ openAlways)

inductive TargetProcess
  | null
  | current
  | other
  deriving DecidableEq, Repr

/-- A `DuplicateHandle` whose source process is this one. -/
structure DuplicateRequest where
  source : Handle
  process : TargetProcess
  hasTarget : Bool
  access : Dword
  options : Dword
  deriving DecidableEq, Repr

def DuplicateRequest.closesSource (r : DuplicateRequest) : Bool := r.options &&& duplicateCloseSource ≠ 0

def DuplicateRequest.granted (r : DuplicateRequest) (sourceAccess : Dword) : Option Dword :=
  if r.process = .null && r.closesSource then none
  else if !r.hasTarget || r.options &&& ~~~(duplicateSameAccess ||| duplicateCloseSource) ≠ 0 then none
  else
    let access := if r.options &&& duplicateSameAccess ≠ 0 then sourceAccess else fileAccess r.access
    if access &&& ~~~sourceAccess ≠ 0 then none
    else if r.process ≠ .current then none
    else some access

inductive Purpose
  | use
  | duplicate (request : DuplicateRequest)
  deriving DecidableEq, Repr

inductive Action
  | openAccept (request : OpenRequest)
  | openFile (request : OpenRequest)
  | openInsert (file : FileId) (request : OpenRequest) (handle : Handle)
  | getCount (handle : Handle) (purpose : Purpose)
  | getAccepting (handle : Handle) (purpose : Purpose)
  | getLocked (handle : Handle) (purpose : Purpose)
  | use (file : FileId)
  | duplicate (file : FileId) (sourceAccess : Dword) (request : DuplicateRequest)
  | duplicateInsert (file : FileId) (access : Dword) (handle : Handle)
  | closeCount (handle : Handle)
  | closeLocked (handle : Handle)
  | release (file : FileId)
  | leave
  | leaveCheck
  | leaveWake
  deriving DecidableEq, Repr

/-- What the system answers to the calls of an action: whether there is memory, a file behind the
path, an event, and whether the real functions succeed. A new event may have any value. -/
structure World where
  allocated : Bool
  initialized : Bool
  stored : Bool
  opened : Bool
  evented : Bool
  duplicated : Bool
  closed : Bool
  identity : Word
  event : Handle

/-- A file of the same identity where one side reads and the other does not share it. -/
def sharingViolation (s : Shared) (file : FileId) (r : OpenRequest) : Bool :=
  match s.files[file]? with
  | none => false
  | some opened => (s.table.entries.map Sigma.snd).any fun entry =>
      match s.files[entry.file]? with
      | none => false
      | some other => opened.identity = other.identity &&
          ((fileAccess r.access &&& readRights ≠ 0 && other.share &&& fileShareRead = 0) ||
            (other.access &&& readRights ≠ 0 && r.share &&& fileShareRead = 0))

def zipHandleInsert (stored : Bool) (s : Shared) (handle : Handle) (file : FileId) (access : Dword) :
    Option (Shared × List FileId) :=
  match s.handles with
  | none => none
  | some table =>
      if !s.accepting || !stored then none
      else
        let inserted := { s with handles := some (table.insert handle ⟨file, access⟩) }
        match table.lookup handle with
        | some stale => some (inserted, [stale.file])
        | none => some ({ inserted with handleCount := s.handleCount + 1 }, [])

/-- A file with the reference of its opener; it has no identity yet where its reader is missing. -/
def newFile (w : World) (r : OpenRequest) : ZipFile :=
  ⟨1, fileAccess r.access, r.share, if w.opened then w.identity else 0, 0⟩

/-- What follows a successful `zip_handle_get`. -/
def Purpose.actions (entry : ZipHandle) : Purpose → List Action
  | .use => [.use entry.file]
  | .duplicate r =>
      .duplicate entry.file entry.access r :: if r.closesSource then [.closeCount r.source] else []

/-- `kh_init` at the first insertion. -/
def initTable (initialized : Bool) (s : Shared) : Shared :=
  if s.handles.isNone && initialized then { s with handles := some ∅ } else s

def perform (w : World) (s : Shared) : Action → Shared × List Action
  | .openAccept r =>
      if !s.accepting then (s, [])
      else ({ s with activeOperations := s.activeOperations + 1 }, [.openFile r, .leave])
  | .openFile r =>
      if !w.allocated then (s, [])
      else
        let file := s.files.length
        ({ s with files := s.files ++ [newFile w r] },
          if w.opened && w.evented then [.openInsert file r (w.event ||| zipHandleTag)]
          else [.release file])
  | .openInsert file r handle =>
      if !s.accepting then (s, [.release file])
      else
        let s := initTable w.initialized s
        if sharingViolation s file r then (s, [.release file])
        else
          match zipHandleInsert w.stored s handle file (fileAccess r.access) with
          | some (s, stale) => (s, stale.map .release)
          | none => (s, [.release file])
  | .getCount handle purpose =>
      if !zipHandleTagged handle || s.handleCount = 0 then (s, []) else (s, [.getAccepting handle purpose])
  | .getAccepting handle purpose =>
      if !s.accepting then (s, []) else (s, [.getLocked handle purpose])
  | .getLocked handle purpose =>
      match s.table.lookup handle with
      | none => (s, [])
      | some entry =>
          ({ s.addReference entry.file with activeOperations := s.activeOperations + 1 },
            purpose.actions entry ++ [.release entry.file, .leave])
  | .use _ => (s, [])
  | .duplicate file sourceAccess r =>
      match r.granted sourceAccess with
      | some access =>
          if w.duplicated then (s, [.duplicateInsert file access (w.event ||| zipHandleTag)]) else (s, [])
      | none => (s, [])
  | .duplicateInsert file access handle =>
      match zipHandleInsert w.stored s handle file access with
      | some (s, stale) => (s.addReference file, stale.map .release)
      | none => (s, [])
  | .closeCount handle =>
      if !zipHandleTagged handle || s.handleCount = 0 then (s, []) else (s, [.closeLocked handle])
  | .closeLocked handle =>
      match s.table.lookup handle with
      | none => (s, [])
      | some entry =>
          let s := { s with activeOperations := s.activeOperations + 1 }
          if w.closed then
            ({ s with handles := s.handles.map (·.erase handle), handleCount := s.handleCount - 1 },
              [.release entry.file, .leave])
          else (s, [.leave])
  | .release file => (s.release file, [])
  | .leave => ({ s with activeOperations := s.activeOperations - 1 }, [.leaveCheck])
  | .leaveCheck => if s.accepting then (s, []) else (s, [.leaveWake])
  | .leaveWake => (if s.manager = .asleep then { s with manager := .woken } else s, [])

def starts : Action → Bool
  | .openAccept r => !r.refused
  | .getCount handle (.duplicate r) => r.source = handle
  | .getCount _ .use | .closeCount _ => true
  | _ => false

/-- The loop of `ml_zip_file_close_all`, in one section of the lock up to the wait or to the end. -/
def waitOrTake (s : Shared) : Shared :=
  if s.activeOperations ≠ 0 then { s with manager := .asleep }
  else
    { s with
      handles := none, handleCount := 0
      manager := .releasing (s.table.entries.map fun entry => entry.2.file) }

inductive Manage
  | prepare
  | closeAll
  | wakeUp
  | recheck
  | release
  | finish
  deriving DecidableEq, Repr

/-- The hooks are prepared and torn down by one thread; it may wake up without being woken. -/
def manage (s : Shared) : Manage → Option Shared
  | .prepare => if s.manager = .idle then some { s with accepting := true } else none
  | .closeAll => if s.manager = .idle then some (waitOrTake { s with accepting := false }) else none
  | .wakeUp => if s.manager = .asleep then some { s with manager := .woken } else none
  | .recheck => if s.manager = .woken then some (waitOrTake s) else none
  | .release =>
      match s.manager with
      | .releasing (file :: remaining) => some { s.release file with manager := .releasing remaining }
      | _ => none
  | .finish =>
      match s.manager with
      | .releasing [] => some { s with manager := .idle }
      | _ => none

structure System (ι : Type*) where
  shared : Shared
  pending : ι → List Action

inductive Event (ι : Type*)
  | start (i : ι) (action : Action)
  | turn (i : ι) (world : World)
  | manage (how : Manage)

def System.initial (ι : Type*) : System ι := ⟨⟨[], none, 0, false, 0, .idle⟩, fun _ => []⟩

section Steps

variable {ι : Type*} [DecidableEq ι]

inductive Step : System ι → Event ι → System ι → Prop
  | start {s : System ι} {i : ι} {a : Action} : s.pending i = [] → starts a = true →
      Step s (.start i a) ⟨s.shared, Pending.turn s.pending i [a] []⟩
  | turn {s : System ι} {i : ι} {a : Action} {rest : List Action} (w : World) :
      s.pending i = a :: rest →
      Step s (.turn i w)
        ⟨(perform w s.shared a).1, Pending.turn s.pending i (perform w s.shared a).2 rest⟩
  | manage {s : System ι} {how : Manage} {shared : Shared} : manage s.shared how = some shared →
      Step s (.manage how) ⟨shared, s.pending⟩

inductive Run : System ι → List (Event ι) → System ι → Prop
  | nil (s : System ι) : Run s [] s
  | snoc {s s' s'' : System ι} {events : List (Event ι)} {e : Event ι} :
      Run s events s' → Step s' e s'' → Run s (events ++ [e]) s''

def Reachable (s : System ι) : Prop := ∃ events, Run (.initial ι) events s

def next (s : System ι) : Event ι → Option (System ι)
  | .start i a =>
      if (s.pending i).isEmpty && starts a then some ⟨s.shared, Pending.turn s.pending i [a] []⟩ else none
  | .turn i w =>
      match s.pending i with
      | [] => none
      | a :: rest =>
          some ⟨(perform w s.shared a).1, Pending.turn s.pending i (perform w s.shared a).2 rest⟩
  | .manage how => (manage s.shared how).map fun shared => ⟨shared, s.pending⟩

def play (s : System ι) (events : List (Event ι)) : Option (System ι) := events.foldlM next s

theorem step_of_next {s s' : System ι} {e : Event ι} (came : next s e = some s') : Step s e s' := by
  cases e with
  | start i a =>
      simp only [next] at came
      split_ifs at came with allowed
      cases came
      simp only [Bool.and_eq_true, List.isEmpty_iff] at allowed
      exact .start allowed.1 allowed.2
  | turn i w =>
      cases first : s.pending i with
      | nil => simp [next, first] at came
      | cons a rest =>
          simp only [next, first, Option.some.injEq] at came
          subst came
          exact .turn w first
  | manage how =>
      obtain ⟨shared, managed, rfl⟩ := Option.map_eq_some_iff.mp came
      exact .manage managed

theorem run_of_play {s s' : System ι} {events : List (Event ι)} (played : play s events = some s') :
    Run s events s' := by
  induction events using List.reverseRecOn generalizing s' with
  | nil =>
      cases played
      exact .nil s
  | append_singleton events e ih =>
      rw [play, List.foldlM_append] at played
      obtain ⟨middle, before, last⟩ := Option.bind_eq_some_iff.mp played
      simp only [List.foldlM_cons, List.foldlM_nil, bind_pure] at last
      exact (ih before).snoc (step_of_next last)

end Steps

end Yafsml.Patches
