import Yafsml.Patches.ZipHandles
import Yafsml.Vfs.Seekable

/-!
# File calls on ZIP handles

What the hooked functions of `zip_hooks.c` answer when a handle is one of a ZIP file: reads and seeks,
with their `OVERLAPPED` structures and completions, and the queries. The handles stand for files of one
entry of an archive; the calls that a ZIP handle answers without its file are left to `refusal`.
-/

namespace Yafsml.Patches.ZipReads

open MachineInt Vfs

def fileReadData : Dword := 0x1

def fileFlagOverlapped : Dword := 0x40000000

def errorAccessDenied : ErrorCode := ⟨5, by decide⟩
def errorInvalidHandle : ErrorCode := ⟨6, by decide⟩
def errorBadLength : ErrorCode := ⟨24, by decide⟩
def errorHandleEof : ErrorCode := ⟨38, by decide⟩
def errorIoIncomplete : ErrorCode := ⟨996, by decide⟩
def errorNotFound : ErrorCode := ⟨1168, by decide⟩

/-! ## Overlapped reads -/

structure Overlapped where
  internal : UInt64
  internalHigh : UInt64
  offset : UInt32
  offsetHigh : UInt32
  hEvent : UInt64
  deriving DecidableEq, Repr

def statusFromError : Option ErrorCode → UInt64
  | none => 0
  | some e => if e = errorHandleEof then 0xC0000011 else 0xC0070000 ||| (e.val &&& 0xFFFF).toUInt64

namespace Overlapped

def position (o : Overlapped) : UInt64 := o.offsetHigh.toUInt64 <<< 32 ||| o.offset.toUInt64

def event (o : Overlapped) : UInt64 := o.hEvent &&& ~~~1

def skipPort (o : Overlapped) : Bool := o.hEvent &&& 1 ≠ 0

def complete (error : Option ErrorCode) (read : Nat) (o : Overlapped) : Overlapped :=
  { o with internal := statusFromError error, internalHigh := .ofNat read }

end Overlapped

/-- What `GetOverlappedResult` reports: the error, and `*read`. -/
def overlappedResult (statusToError : UInt32 → UInt32) (o : Overlapped) : UInt32 × UInt32 :=
  (if o.internal = 0x103 then errorIoIncomplete.val
    else if o.internal = 0 then 0 else statusToError o.internal.toUInt32, o.internalHigh.toUInt32)

/-! ## Files -/

/-- The fields of `zip_file_t` besides the reader and what the handle table uses. -/
structure OpenFile where
  flags : Dword
  completionPort : Option Nat
  completionKey : UInt64
  completionModes : UInt8
  deriving DecidableEq, Repr

namespace OpenFile

def opened (flags : Dword) : OpenFile := ⟨flags, none, 0, 0⟩

def overlapped (file : OpenFile) : Bool := file.flags &&& fileFlagOverlapped ≠ 0

/-- `FILE_SKIP_COMPLETION_PORT_ON_SUCCESS` -/
def skipsPort (file : OpenFile) : Bool := file.completionModes &&& 1 ≠ 0

end OpenFile

/-- The readers share the decoded copy of their entry. -/
structure Session (ι : Type*) where
  reader : Seekable.Shared ι
  files : ι → OpenFile

def Session.opened {ι : Type*} (entry : Seekable.Entry) (c references : Nat) (flags : ι → Dword) :
    Session ι :=
  ⟨.opened entry c references, fun i => .opened (flags i)⟩

/-- A read of `size` bytes into a buffer, or into none, and what the system answers to it. -/
structure ReadRequest where
  buffer : Bool
  size : UInt32
  decode : Seekable.DecodeAnswer
  readFile : Nat → Except ErrorCode Nat

def ReadRequest.request (r : ReadRequest) : Seekable.Request := ⟨r.buffer, r.size.toUInt64, r.decode, r.readFile⟩

/-- What a read leaves in `*read`, in the buffer and in the `OVERLAPPED`. -/
structure Read where
  error : Option ErrorCode
  read : Nat
  data : Vfs.Bytes
  overlapped : Option Overlapped
  deriving DecidableEq, Repr

section Reading

variable {ι : Type*} [DecidableEq ι] (entry : Seekable.Entry)

/-- The calls of `vfs_file.c` in `read_file_data`. -/
def readVfs (file : OpenFile) (i : ι) (request : Seekable.Request) (overlapped : Option Overlapped)
    (s : Seekable.Shared ι) : Option (Seekable.Shared ι × Seekable.Reply) :=
  match overlapped with
  | none => Seekable.perform entry s (.read i request)
  | some o =>
      if file.overlapped then Seekable.perform entry s (.readAt i o.position request)
      else if o.position.toNat > int64Max then some (s, .failed errorInvalidParameter)
      else (Seekable.perform entry s (.seek i o.position.toInt64 0)).bind fun (s, sought) =>
        if sought.error.isSome then some (s, sought) else Seekable.perform entry s (.read i request)

/-- The end of `read_file_data`. -/
def finishRead (overlapped : Option Overlapped) (error : Option ErrorCode) (received : Nat) (data : Vfs.Bytes) : Read :=
  let read := if error.isNone then received % 2 ^ 32 else 0
  ⟨error, read, data, overlapped.map (·.complete error read)⟩

def readFileData (apc : Bool) (file : OpenFile) (access : Dword) (i : ι) (request : ReadRequest)
    (overlapped : Option Overlapped) (s : Seekable.Shared ι) : Option (Seekable.Shared ι × Read) :=
  if apc && file.completionPort.isSome then some (s, finishRead overlapped (some errorInvalidParameter) 0 [])
  else if access &&& fileReadData = 0 then some (s, finishRead overlapped (some errorAccessDenied) 0 [])
  else if overlapped.isNone && file.overlapped then
    some (s, finishRead overlapped (some errorInvalidParameter) 0 [])
  else (readVfs entry file i request.request overlapped s).map fun (s, reply) =>
    let error :=
      if reply.error.isSome then reply.error
      else if overlapped.isSome && request.size ≠ 0 && reply.read = 0 then some errorHandleEof
      else none
    (s, finishRead overlapped error reply.read reply.data)

end Reading

/-! ## Calls -/

inductive Signal
  | event (event : UInt64)
  | packet (port : Nat) (received : Nat) (key : UInt64)
  | apc (error : Option ErrorCode) (received : Nat)
  deriving DecidableEq, Repr

inductive Refusal
  | write
  | flush
  | setEnd
  | setInfo (priorityHint : Bool) (fits : Bool)
  | mapping
  | cancel
  | cancelEx
  deriving DecidableEq, Repr

def Refusal.error : Refusal → Option ErrorCode
  | .write | .flush | .setEnd => some errorAccessDenied
  | .setInfo priorityHint fits =>
      if priorityHint then (if fits then none else some errorBadLength) else some errorAccessDenied
  | .mapping => some errorNotSupported
  | .cancel => none
  | .cancelEx => some errorNotFound

inductive InfoKind
  | basic
  | standard
  | attributeTag
  | id
  | other
  deriving DecidableEq, Repr

def InfoKind.required : InfoKind → Nat
  | .basic => 40
  | .standard => 24
  | .attributeTag => 8
  | .id => 24
  | .other => 0

/-- What the system answers while a port is bound to a file. -/
structure PortAnswer where
  created : Except ErrorCode Nat
  duplicated : Except ErrorCode Unit
  isPort : Bool

inductive FileCall (κ : Type*)
  | readFile (handle : κ) (request : ReadRequest) (overlapped : Option Overlapped)
      (resetEvent : Except ErrorCode Unit) (post : Except ErrorCode Unit)
  | readFileEx (handle : κ) (request : ReadRequest) (overlapped : Option Overlapped) (callback : Bool)
      (queueApc : Except ErrorCode Unit)
  | setFilePointerEx (handle : κ) (distance : Int64) (origin : UInt32)
  | setFilePointer (handle : κ) (low : Int32) (high : Option Int32) (origin : UInt32)
  | getFileSizeEx (handle : κ) (size : Bool)
  | getFileSize (handle : κ) (high : Bool)
  | getInfo (handle : κ) (info : Bool)
  | getInfoEx (handle : κ) (kind : InfoKind) (info : Bool) (size : UInt32)
  | completionPort (handle : κ) (port : Option Nat) (key : UInt64) (answer : PortAnswer)
  | completionModes (handle : κ) (modes : UInt8)
  | refused (handle : κ) (how : Refusal)

/-- A call that failed has an error; else `GetLastError` is left open. -/
inductive Answer
  | read (read : Read) (signals : List Signal)
  | moved (result : Except ErrorCode UInt64)
  | pointer (low : UInt32) (high : Option UInt32) (error : Option ErrorCode)
  | size (result : Except ErrorCode UInt64)
  | sizeLow (low : UInt32) (high : Option UInt32)
  | info (attributes sizeHigh sizeLow links indexHigh indexLow : UInt32)
  | infoBasic (attributes : UInt32)
  | infoStandard (allocationSize endOfFile : UInt64) (links : UInt32)
  | infoId (identity : UInt64)
  | port (result : Except ErrorCode Nat)
  | done (error : Option ErrorCode)

def fileAttributeReadonly : UInt32 := 1

def invalidSetFilePointer : UInt32 := 0xFFFFFFFF

def maxDword : Nat := 0xFFFFFFFF

/-- `(DWORD)(x >> 32)` -/
def highDword (x : UInt64) : UInt32 := (x >>> 32).toUInt32

/-- The `LARGE_INTEGER` of a move. -/
def largeInteger (low : Int32) (high : Option Int32) : Int64 :=
  match high with
  | some high => .ofBitVec (high.toBitVec ++ low.toBitVec)
  | none => low.toInt64

section Calls

variable {ι κ : Type*} [DecidableEq ι] (entry : Seekable.Entry)

def seekFilePosition (i : ι) (distance : Int64) (origin : UInt32) (limit : Nat) (s : Seekable.Shared ι) :
    Option (Seekable.Shared ι × Except ErrorCode UInt64) :=
  (Seekable.perform entry s (.seek i 0 1)).bind fun (s, current) =>
    (Seekable.perform entry s (.seek i distance origin)).bind fun (s, sought) =>
      match sought.error with
      | some e => some (s, .error e)
      | none =>
          let next := sought.position.getD 0
          if next > limit then
            (Seekable.perform entry s (.seek i (UInt64.ofNat (current.position.getD 0)).toInt64 0)).map fun (s, _) =>
              (s, .error errorInvalidParameter)
          else some (s, .ok (.ofNat next))

/-- The signals at the end of `read_file_hooked`, and its error. -/
def completeRead (file : OpenFile) (read : Read) (overlapped : Option Overlapped) (post : Except ErrorCode Unit) :
    List Signal × Option ErrorCode :=
  match overlapped with
  | none => ([], read.error)
  | some o =>
      let signalled := if o.event ≠ 0 then [Signal.event o.event] else []
      match file.completionPort with
      | some port =>
          if read.error.isNone && !o.skipPort && !file.skipsPort then
            match post with
            | .ok _ => (signalled ++ [.packet port read.read file.completionKey], none)
            | .error e => (signalled, some e)
          else (signalled, read.error)
      | none => (signalled, read.error)

/-- The end of `read_file_ex_hooked`: the end of the file is for the callback to hear. -/
def completeReadEx (read : Read) (queueApc : Except ErrorCode Unit) : Answer :=
  if read.error.isSome && read.error ≠ some errorHandleEof then .read read []
  else
    match queueApc with
    | .ok _ => .read { read with error := none } [.apc read.error read.read]
    | .error e => .read { read with error := some e } []

def readFileHooked (file : OpenFile) (access : Dword) (i : ι) (request : ReadRequest)
    (overlapped : Option Overlapped) (resetEvent post : Except ErrorCode Unit) (s : Seekable.Shared ι) :
    Option (Seekable.Shared ι × Answer) :=
  match if overlapped.any (·.event ≠ 0) then resetEvent else .ok () with
  | .error e => some (s, .read ⟨some e, 0, [], overlapped⟩ [])
  | .ok _ =>
      (readFileData entry false file access i request overlapped s).map fun (s, read) =>
        let (signals, error) := completeRead file read overlapped post
        (s, .read { read with error := error } signals)

def readFileExHooked (file : OpenFile) (access : Dword) (i : ι) (request : ReadRequest)
    (overlapped : Option Overlapped) (callback : Bool) (queueApc : Except ErrorCode Unit) (s : Seekable.Shared ι) :
    Option (Seekable.Shared ι × Answer) :=
  if overlapped.isNone || !callback || (request.size ≠ 0 && !request.buffer) || !file.overlapped then
    some (s, .read ⟨some errorInvalidParameter, 0, [], overlapped⟩ [])
  else
    (readFileData entry true file access i request overlapped s).map fun (s, read) =>
      (s, completeReadEx read queueApc)

def pointerAnswer (high : Option Int32) : Except ErrorCode UInt64 → Answer
  | .error e => .pointer invalidSetFilePointer none (some e)
  | .ok next => .pointer next.toUInt32 (high.map fun _ => highDword next) none

def sizeOf (s : Seekable.Shared ι) (i : ι) : UInt64 := .ofNat (s.files i).size

def identityOf (s : Seekable.Shared ι) (i : ι) : UInt64 := .ofNat (s.files i).identity

def infoExAnswer (kind : InfoKind) (info : Bool) (size : UInt32) (length identity : UInt64) : Answer :=
  if kind.required = 0 then .done (some errorNotSupported)
  else if !info || size.toNat < kind.required then .done (some errorBadLength)
  else
    match kind with
    | .basic | .attributeTag => .infoBasic fileAttributeReadonly
    | .standard => .infoStandard length length 1
    | .id => .infoId identity
    | .other => .done (some errorNotSupported)

def completionPortHooked (port : Option Nat) (key : UInt64) (answer : PortAnswer) (file : OpenFile) :
    OpenFile × Except ErrorCode Nat :=
  if file.completionPort.isSome || !file.overlapped then (file, .error errorInvalidParameter)
  else
    match port.elim answer.created .ok with
    | .error e => (file, .error e)
    | .ok port =>
        match answer.duplicated with
        | .error e => (file, .error e)
        | .ok _ =>
            if answer.isPort then ({ file with completionPort := some port, completionKey := key }, .ok port)
            else (file, .error errorInvalidHandle)

def completionModesHooked (modes : UInt8) (file : OpenFile) : OpenFile × Option ErrorCode :=
  if modes &&& ~~~3 ≠ 0 then (file, some errorInvalidParameter)
  else ({ file with completionModes := file.completionModes ||| modes }, none)

variable (handles : κ → ι × Dword)

def perform (s : Session ι) : FileCall κ → Option (Session ι × Answer)
  | .readFile handle request overlapped resetEvent post =>
      (readFileHooked entry (s.files (handles handle).1) (handles handle).2 (handles handle).1 request overlapped
        resetEvent post s.reader).map
        fun (reader, answer) => ({ s with reader := reader }, answer)
  | .readFileEx handle request overlapped callback queueApc =>
      (readFileExHooked entry (s.files (handles handle).1) (handles handle).2 (handles handle).1 request overlapped
        callback queueApc s.reader).map
        fun (reader, answer) => ({ s with reader := reader }, answer)
  | .setFilePointerEx handle distance origin =>
      (seekFilePosition entry (handles handle).1 distance origin int64Max s.reader).map
        fun (reader, result) => ({ s with reader := reader }, .moved result)
  | .setFilePointer handle low high origin =>
      (seekFilePosition entry (handles handle).1 (largeInteger low high) origin
        (if high.isSome then int64Max else maxDword) s.reader).map
        fun (reader, result) => ({ s with reader := reader }, pointerAnswer high result)
  | .getFileSizeEx handle size =>
      some (s, .size (if size then .ok (sizeOf s.reader (handles handle).1) else .error errorInvalidParameter))
  | .getFileSize handle high =>
      let size := sizeOf s.reader (handles handle).1
      some (s, .sizeLow size.toUInt32 (if high then some (highDword size) else none))
  | .getInfo handle info =>
      let size := sizeOf s.reader (handles handle).1
      let identity := identityOf s.reader (handles handle).1
      some (s, if info then
          .info fileAttributeReadonly (highDword size) size.toUInt32 1 (highDword identity) identity.toUInt32
        else .done (some errorInvalidParameter))
  | .getInfoEx handle kind info size =>
      some (s, infoExAnswer kind info size (sizeOf s.reader (handles handle).1)
        (identityOf s.reader (handles handle).1))
  | .completionPort handle port key answer =>
      let (file, result) := completionPortHooked port key answer (s.files (handles handle).1)
      some ({ s with files := Function.update s.files (handles handle).1 file }, .port result)
  | .completionModes handle modes =>
      let (file, error) := completionModesHooked modes (s.files (handles handle).1)
      some ({ s with files := Function.update s.files (handles handle).1 file }, .done error)
  | .refused _ how => some (s, .done how.error)

def performAll : Session ι → List (FileCall κ) → Option (Session ι × List Answer)
  | s, [] => some (s, [])
  | s, call :: calls =>
      (perform entry handles s call).bind fun (s, answer) =>
        (performAll s calls).map fun (s, answers) => (s, answer :: answers)

end Calls

end Yafsml.Patches.ZipReads
