import Mathlib.Algebra.Group.Int.Defs
import Mathlib.Algebra.Group.Nat.Defs
import Yafsml.Vfs.Lookup

/-!
# Files inside archives

`vfs_file.c`: files over ZIP entries and the decoded copies they share. A cache has a number in
`heap`; the table, the idle lists and the files refer to caches by number, as the code does by
pointer. What the archive holds is `contents`; streams deliver it from front to back.
-/

namespace Yafsml.Vfs

abbrev Bytes := List UInt8

inductive CacheState
  | empty
  | memory
  | disk
deriving DecidableEq

/-- `vfs_cache_t`. `disk` is what the temporary file holds. -/
structure Cache where
  identity : Nat
  size : Nat
  package : Option ZipPackage
  entry : Nat
  state : CacheState
  memory : Option Bytes
  disk : Option Bytes
  references : Nat
  idle : Bool
  detached : Bool

/-- `idle_list_t`, least recently released first. -/
structure IdleList where
  members : List Nat
  bytes : Nat

namespace IdleList

def unlink (list : IdleList) (c size : Nat) : IdleList := ⟨list.members.erase c, list.bytes - size⟩

def push (list : IdleList) (c size : Nat) : IdleList := ⟨list.members ++ [c], list.bytes + size⟩

end IdleList

structure VfsFile where
  zip : Option (ZipPackage × Nat)
  cache : Option Nat
  size : Nat
  identity : Nat
  position : Nat
  streamPosition : Nat
  error : UInt32

structure Limits where
  memoryFileLimit : Nat
  memoryTotalLimit : Nat
  idleDiskLimit : Nat

/-- The state of `vfs.c` and `vfs_file.c`. A closed file leaves `none` behind. -/
structure FileState where
  vfs : State
  heap : Nat → Option Cache
  allocated : Nat
  table : Option (AList fun _ : Nat => Nat)
  idleMemory : IdleList
  idleDisk : IdleList
  memoryUsed : Nat
  files : List (Option VfsFile)

def fileInit : FileState := ⟨vfsInit, fun _ => none, 0, none, ⟨[], 0⟩, ⟨[], 0⟩, 0, []⟩

def zipPackageFileSize (package : ZipPackage) (entry : Nat) : Nat :=
  (package.files[entry]?.map (·.size)).getD 0

def setCache (s : FileState) (c : Nat) (cache : Cache) : FileState :=
  { s with heap := Function.update s.heap c (some cache) }

def cacheDestroy (s : FileState) (c : Nat) (cache : Cache) : FileState :=
  { s with
    heap := Function.update s.heap c none
    memoryUsed := if cache.memory.isSome then s.memoryUsed - cache.size else s.memoryUsed }

def idleUnlink (s : FileState) (c : Nat) (cache : Cache) : FileState :=
  let s := setCache s c { cache with idle := false }
  if cache.memory.isSome then { s with idleMemory := s.idleMemory.unlink c cache.size }
  else { s with idleDisk := s.idleDisk.unlink c cache.size }

def idlePush (s : FileState) (c : Nat) (cache : Cache) : FileState :=
  let s := setCache s c { cache with idle := true }
  if cache.memory.isSome then { s with idleMemory := s.idleMemory.push c cache.size }
  else { s with idleDisk := s.idleDisk.push c cache.size }

def cacheForget (s : FileState) (cache : Cache) : FileState :=
  { s with table := s.table.map fun table => table.erase cache.identity }

/-- `idle_evict`, and the `cache_destroy` that follows once the lock is released. -/
def idleEvict (s : FileState) (c : Nat) : FileState :=
  match s.heap c with
  | some cache => cacheDestroy (cacheForget (idleUnlink s c cache) cache) c cache
  | none => s

section Budget

variable (limits : Limits)

def tryReserveMemory (size : Nat) (s : FileState) : Option FileState :=
  if s.memoryUsed > limits.memoryTotalLimit - size then none
  else some { s with memoryUsed := s.memoryUsed + size }

/-- The loop of `reserve_memory`; every round but the last evicts an idle cache. -/
def reserveRounds (size : Nat) : Nat → FileState → FileState × Bool
  | rounds, s =>
      match tryReserveMemory limits size s with
      | some s => (s, true)
      | none =>
          match rounds, s.idleMemory.members with
          | rounds + 1, oldest :: _ =>
              if s.memoryUsed ≥ s.idleMemory.bytes ∧
                  s.memoryUsed - s.idleMemory.bytes ≤ limits.memoryTotalLimit - size then
                reserveRounds size rounds (idleEvict s oldest)
              else (s, false)
          | _, _ => (s, false)

def reserveMemory (size : Nat) (s : FileState) : FileState × Bool :=
  if size > limits.memoryFileLimit ∨ size > limits.memoryTotalLimit then (s, false)
  else reserveRounds limits size s.idleMemory.members.length s

/-- `while (idle_disk.bytes > idle_disk_limit)`, at most once for each idle cache. -/
def trimIdleDisk : Nat → FileState → FileState
  | 0, s => s
  | rounds + 1, s =>
      match s.idleDisk.members with
      | oldest :: _ =>
          if s.idleDisk.bytes > limits.idleDiskLimit then trimIdleDisk rounds (idleEvict s oldest)
          else s
      | [] => s

end Budget

def cacheChunkSize : Nat := 65536

/-- What the allocator, the temporary file and the archive answer while an entry is decoded;
`chunk` and `write` by offset. A chunk is the number of bytes `zip_stream_read` delivers. -/
structure DecodeOutcome where
  memory : Bool
  disk : Bool
  staging : Bool
  stream : Bool
  chunk : Nat → Option Nat
  write : Nat → Bool
  endMarker : Bool

/-- The loop over the chunks, which `fuel` covers when it is above the number of bytes left. -/
def decodeChunks (content : Bytes) (size : Nat) (toDisk : Bool) (outcome : DecodeOutcome) :
    Nat → Nat → Bytes → Option Bytes
  | 0, _, _ => none
  | fuel + 1, offset, data =>
      if offset < size then
        let chunk := min (size - offset) cacheChunkSize
        match outcome.chunk offset with
        | none => none
        | some delivered =>
            let target := (content.drop offset).take (min delivered chunk)
            if target.length ≠ chunk then none
            else if toDisk && !outcome.write offset then none
            else decodeChunks content size toDisk outcome fuel (offset + chunk) (data ++ target)
      else some data

section Files

variable (win : Windows) (contents : ZipPackage → Nat → Bytes) (limits : Limits)

def decodeData (cache : Cache) (toDisk : Bool) (outcome : DecodeOutcome) : Option Bytes :=
  match cache.package with
  | none => none
  | some package =>
      if !outcome.stream then none
      else if cache.size = 0 then (if outcome.endMarker then some [] else none)
      else decodeChunks (contents package cache.entry) cache.size toDisk outcome (cache.size + 1) 0 []

def decodeStorage (cache : Cache) (outcome : DecodeOutcome) (s : FileState) : FileState × Bool :=
  if cache.size = 0 then (s, false)
  else match reserveMemory limits cache.size s with
    | (s, false) => (s, false)
    | (s, true) =>
        if outcome.memory then (s, true)
        else ({ s with memoryUsed := s.memoryUsed - cache.size }, false)

def cacheDecode (c : Nat) (cache : Cache) (outcome : DecodeOutcome) (s : FileState) :
    FileState × Bool :=
  let (s, memory) := decodeStorage limits cache outcome s
  let toDisk := cache.size ≠ 0 && !memory
  if toDisk && !(outcome.disk && outcome.staging) then (s, false)
  else match decodeData contents cache toDisk outcome with
    | some data =>
        (setCache s c { cache with
          package := none
          memory := if memory then some data else none
          disk := if toDisk then some data else none
          state := if toDisk then .disk else .memory }, true)
    | none => (if memory then { s with memoryUsed := s.memoryUsed - cache.size } else s, false)

def cachePrepare (c : Nat) (cache : Cache) (outcome : DecodeOutcome) (s : FileState) :
    FileState × Bool :=
  if cache.state ≠ .empty then (s, true) else cacheDecode contents limits c cache outcome s

structure AcquireMemory where
  table : Bool
  put : Bool
  cache : Bool

/-- `ret == 0`: the cache is there, and leaves the idle list if it is on one. -/
def useCache (s : FileState) (c : Nat) (cache : Cache) : FileState :=
  setCache (if cache.idle then idleUnlink s c cache else s) c
    { cache with idle := false, references := cache.references + 1 }

def newCache (s : FileState) (table : AList fun _ : Nat => Nat) (identity size : Nat)
    (package : ZipPackage) (entry : Nat) : FileState :=
  { setCache s s.allocated ⟨identity, size, some package, entry, .empty, none, none, 1, false, false⟩
    with table := some (table.insert identity s.allocated), allocated := s.allocated + 1 }

def cacheAcquire (package : ZipPackage) (entry identity size : Nat) (memory : AcquireMemory)
    (s : FileState) : FileState × Option Nat :=
  match s.table.or (if memory.table then some ∅ else none) with
  | none => (s, none)
  | some table =>
      let s := { s with table := some table }
      -- `kh_put` may have to grow the table before it looks for the key
      if !memory.put then (s, none)
      else match table.lookup identity with
        | some c =>
            match s.heap c with
            | some cache => (useCache s c cache, some c)
            | none => (s, none)
        | none =>
            if !memory.cache then (s, none)
            else (newCache s table identity size package entry, some s.allocated)

def Cache.unreference (cache : Cache) : Cache := { cache with references := cache.references - 1 }

def cacheRelease (c : Nat) (s : FileState) : FileState :=
  match s.heap c with
  | none => s
  | some cache =>
      let cache := cache.unreference
      let s := setCache s c cache
      if cache.references ≠ 0 then s
      else if !cache.detached && (cache.memory.isSome ||
          (cache.disk.isSome && cache.size ≤ limits.idleDiskLimit)) then
        let s := idlePush s c cache
        trimIdleDisk limits s.idleDisk.members.length s
      else cacheDestroy (if cache.detached then s else cacheForget s cache) c cache

/-- What `vfs_file_drop_caches` does to one cache of the table it took away. -/
def dropCache (s : FileState) (c : Nat) : FileState :=
  match s.heap c with
  | none => s
  | some cache =>
      if cache.idle then cacheDestroy (idleUnlink s c cache) c cache
      else setCache s c { cache with detached := true }

def vfsFileDropCaches (s : FileState) : FileState :=
  match s.table with
  | none => s
  | some table => (table.entries.map fun slot => slot.2).foldl dropCache { s with table := none }

structure OpenOutcome where
  normalize : Bool
  file : Bool
  stream : Bool
  acquire : AcquireMemory

/-- A new `vfs_file_t`; files are numbered in the order they are opened. -/
def addFile (file : VfsFile) (s : FileState) : FileState × Option Nat :=
  ({ s with files := s.files ++ [some file] }, some s.files.length)

def vfsFileCreate (package : ZipPackage) (entry identity : Nat) (streaming : Bool)
    (outcome : OpenOutcome) (s : FileState) : FileState × Option Nat :=
  let size := zipPackageFileSize package entry
  if !outcome.file then (s, none)
  else if streaming then
    if outcome.stream then addFile ⟨some (package, entry), none, size, identity, 0, 0, 0⟩ s
    else (s, none)
  else if size ≥ 2 ^ 63 then (s, none)
  else match cacheAcquire package entry identity size outcome.acquire s with
    | (s, some c) => addFile ⟨none, some c, size, identity, 0, 0, 0⟩ s
    | (s, none) => (s, none)

def vfsFileOpen (path : WString) (outcome : OpenOutcome) (s : FileState) : FileState × Option Nat :=
  let routed := if mlPathIsAbsolute path then none else vfsLookup win outcome.normalize s.vfs path
  match vfsUidEntry s.vfs (routed.getD path) with
  | none => (s, none)
  | some (i, streaming) =>
      match s.vfs.entries[i]?.bind fun e => e.zip.map fun zip => (zip, e.zipFile) with
      | none => (s, none)
      | some (zip, zipFile) => vfsFileCreate zip zipFile (i + 1) streaming outcome s

def fileAt (s : FileState) (id : Nat) : Option VfsFile := s.files[id]?.join

def setFile (s : FileState) (id : Nat) (file : VfsFile) : FileState :=
  { s with files := s.files.set id (some file) }

def vfsFileClose (id : Nat) (s : FileState) : FileState :=
  match fileAt s id with
  | none => s
  | some file =>
      let s := { s with files := s.files.set id none }
      match file.cache with
      | some c => cacheRelease limits c s
      | none => s

/-- `readFile` tells whether the temporary file delivers all that is asked, else `part` bytes;
`stream` and `streamed` are the answer of `zip_stream_read`. -/
structure ReadOutcome where
  decode : DecodeOutcome
  lastError : UInt32
  readFile : Bool
  part : Nat
  stream : Bool
  streamed : Nat

def cacheRead (cache : Cache) (offset size : Nat) (outcome : ReadOutcome) : Bool × Bytes :=
  match cache.memory with
  | some memory => (true, (memory.drop offset).take size)
  | none =>
      let received := if outcome.readFile then size else min outcome.part size
      (outcome.readFile, ((cache.disk.getD []).drop offset).take received)

/-- `vfs_file_read_at` with a buffer: its result and the bytes it reports as read. -/
def vfsFileReadAt (id offset size : Nat) (outcome : ReadOutcome) (s : FileState) :
    FileState × Bool × Bytes :=
  match fileAt s id with
  | none => (s, false, [])
  | some file =>
      if file.error ≠ 0 then (s, false, [])
      else if size = 0 then (s, true, [])
      else match file.zip, file.cache with
        | some (package, entry), _ =>
            if offset ≠ file.streamPosition then (s, offset ≥ file.size, [])
            else
              let data := ((contents package entry).drop offset).take (min outcome.streamed size)
              (setFile s id { file with streamPosition := file.streamPosition + data.length },
                outcome.stream, data)
        | none, none => (s, false, [])
        | none, some c =>
            match s.heap c with
            | none => (s, false, [])
            | some cache =>
                match cachePrepare contents limits c cache outcome.decode s with
                | (s, false) => (setFile s id { file with error := outcome.lastError }, false, [])
                | (s, true) =>
                    if offset ≥ file.size then (s, true, [])
                    else match s.heap c with
                      | none => (s, false, [])
                      | some cache =>
                          let (result, data) := cacheRead cache offset
                            (min size (file.size - offset)) outcome
                          (s, result, data)

def vfsFileRead (id size : Nat) (outcome : ReadOutcome) (s : FileState) : FileState × Bool × Bytes :=
  match fileAt s id with
  | none => (s, false, [])
  | some file =>
      let (s, result, data) := vfsFileReadAt contents limits id file.position size outcome s
      match fileAt s id with
      | none => (s, false, [])
      | some file => (setFile s id { file with position := file.position + data.length }, result, data)

inductive SeekOrigin
  | fileBegin
  | fileCurrent
  | fileEnd

/-- What `vfs_file_seek` adds the distance to. -/
def seekBase (file : VfsFile) : SeekOrigin → Nat
  | .fileBegin => 0
  | .fileCurrent => file.position
  | .fileEnd => file.size

def vfsFileSeek (id : Nat) (distance : Int) (origin : SeekOrigin) (s : FileState) :
    FileState × Option Nat :=
  match fileAt s id with
  | none => (s, none)
  | some file =>
      let next := seekBase file origin + distance
      if next < 0 ∨ (distance > 0 ∧ next ≥ 2 ^ 63) then (s, none)
      else if next.toNat ≠ file.position ∧ file.zip.isSome then (s, none)
      else (setFile s id { file with position := next.toNat }, some next.toNat)

/-- `vfs_add_package`, which drops the caches before it touches any entry. -/
def addPackage (request : AddRequest) (s : FileState) : FileState :=
  let outcome := vfsAddPackage win s.vfs request
  { (if outcome.droppedCaches then vfsFileDropCaches s else s) with vfs := outcome.vfs }

inductive Operation
  | addPackage (request : AddRequest)
  | fileOpen (path : WString) (outcome : OpenOutcome)
  | readAt (id offset size : Nat) (outcome : ReadOutcome)
  | read (id size : Nat) (outcome : ReadOutcome)
  | seek (id : Nat) (distance : Int) (origin : SeekOrigin)
  | close (id : Nat)

def perform (s : FileState) : Operation → FileState
  | .addPackage request => addPackage win request s
  | .fileOpen path outcome => (vfsFileOpen win path outcome s).1
  | .readAt id offset size outcome => (vfsFileReadAt contents limits id offset size outcome s).1
  | .read id size outcome => (vfsFileRead contents limits id size outcome s).1
  | .seek id distance origin => (vfsFileSeek id distance origin s).1
  | .close id => vfsFileClose limits id s

def performAll (s : FileState) (operations : List Operation) : FileState :=
  operations.foldl (perform win contents limits) s

end Files

end Yafsml.Vfs
