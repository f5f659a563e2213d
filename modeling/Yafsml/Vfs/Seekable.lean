import Mathlib.Algebra.GroupWithZero.Nat
import Yafsml.Foundation.Cursor
import Yafsml.Foundation.MachineInt
import Yafsml.Vfs.ErrorCode
import Yafsml.Vfs.File

/-!
# Seekable files

`vfs_file_read_at`, `vfs_file_read` and `vfs_file_seek` on the files `ι` that share one decoded cache,
with their arithmetic, their errors and the buffers they may be called without. Where the arithmetic of
a seek overflows there is no next state.
-/

namespace Yafsml.Vfs.Seekable

open Cursor MachineInt

/-- What the system and the archive answer while the entry is decoded; `chunk` and `write` by offset.
A chunk is the number of bytes `zip_stream_read` delivers, `reserved` the answer of
`reserve_memory`. -/
structure DecodeAnswer where
  reserved : Bool
  memory : Bool
  disk : Except ErrorCode Unit
  staging : Bool
  stream : Except ErrorCode Unit
  chunk : Nat → Except ErrorCode Nat
  write : Nat → Except ErrorCode Unit
  endMarker : Except ErrorCode Unit

section Decoding

variable (content : Bytes)

/-- The loop of `cache_decode`. -/
def decodeChunks (size : Nat) (toDisk : Bool) (answer : DecodeAnswer) (offset : Nat) (data : Bytes) :
    Except ErrorCode Bytes :=
  if offset < size then
    let chunk := min (size - offset) cacheChunkSize
    match answer.chunk offset with
    | .error e => .error e
    | .ok delivered =>
        let target := slice content offset (min delivered chunk)
        if target.length ≠ chunk then .error errorInvalidData
        else match if toDisk then answer.write offset else .ok () with
          | .error e => .error e
          | .ok _ => decodeChunks size toDisk answer (offset + chunk) (data ++ target)
  else .ok data
termination_by size - offset
decreasing_by
  rw [cacheChunkSize]
  omega

def storage (size : Nat) (answer : DecodeAnswer) : Except ErrorCode Bool :=
  if size ≠ 0 ∧ ¬(answer.reserved ∧ answer.memory) then
    match answer.disk with
    | .error e => .error e
    | .ok _ => if answer.staging then .ok true else .error errorNotEnoughMemory
  else .ok false

def decodeData (cache : Cache) (toDisk : Bool) (answer : DecodeAnswer) : Except ErrorCode Bytes :=
  if cache.package.isNone then .error errorInvalidParameter
  else match answer.stream with
    | .error e => .error e
    | .ok _ =>
        match decodeChunks content cache.size toDisk answer 0 [] with
        | .error e => .error e
        | .ok data =>
            if cache.size = 0 then
              match answer.endMarker with
              | .error e => .error e
              | .ok _ => .ok data
            else .ok data

def Cache.decoded (cache : Cache) (toDisk : Bool) (data : Bytes) : Cache :=
  { cache with
    package := none
    memory := if cache.size ≠ 0 && !toDisk then some data else none
    disk := if toDisk then some data else none
    state := if toDisk then .disk else .memory }

def cacheDecode (answer : DecodeAnswer) (cache : Cache) : Except ErrorCode Cache :=
  match storage cache.size answer with
  | .error e => .error e
  | .ok toDisk =>
      match decodeData content cache toDisk answer with
      | .error e => .error e
      | .ok data => .ok (Cache.decoded cache toDisk data)

def cachePrepare (answer : DecodeAnswer) (cache : Cache) : Except ErrorCode Cache :=
  if cache.state ≠ .empty then .ok cache else cacheDecode content answer cache

end Decoding

def maxDword : Nat := 0xFFFFFFFF

/-- What a read stored: the error it failed with, `*read`, and the bytes in the buffer. -/
structure Received where
  error : Option ErrorCode
  read : Nat
  data : Bytes

/-- The position that `Offset` and `OffsetHigh` name. -/
def overlappedPosition (position : Nat) : Nat :=
  position / 2 ^ 32 % 2 ^ 32 * 2 ^ 32 + position % 2 ^ 32

/-- The loop over `ReadFile`, which answers with what it read when `received` bytes are there. -/
def readDisk (disk : Bytes) (readFile : Nat → Except ErrorCode Nat) (offset size received : Nat)
    (data : Bytes) : Received :=
  if received < size then
    let chunk := min (size - received) maxDword
    match readFile received with
    | .error e => ⟨some e, received, data⟩
    | .ok count =>
        let part := slice disk (overlappedPosition (offset + received)) (min count chunk)
        if part.length = 0 then ⟨some errorReadFault, received, data⟩
        else readDisk disk readFile offset size (received + part.length) (data ++ part)
  else ⟨none, received, data⟩
termination_by size - received
decreasing_by
  rename_i inside nonempty
  exact Nat.sub_lt_sub_left inside (Nat.lt_add_of_pos_right (Nat.pos_of_ne_zero nonempty))

def cacheRead (cache : Cache) (readFile : Nat → Except ErrorCode Nat) (offset size : Nat) : Received :=
  match cache.memory with
  | some memory => ⟨none, size, slice memory offset size⟩
  | none => readDisk (cache.disk.getD []) readFile offset size 0 []

/-- A read into a buffer, or into none; `readFile` by the number of bytes that are there. -/
structure Request where
  buffer : Bool
  size : UInt64
  decode : DecodeAnswer
  readFile : Nat → Except ErrorCode Nat

/-- What a call returns. It succeeded when there is no error. -/
structure Reply where
  error : Option ErrorCode
  read : Nat
  data : Bytes
  position : Option Nat

def Reply.failed (error : ErrorCode) : Reply := ⟨some error, 0, [], none⟩

def Reply.nothing : Reply := ⟨none, 0, [], none⟩

def Received.reply (received : Received) : Reply :=
  ⟨received.error, received.read, received.data, none⟩

/-- `vfs_file_read_at` of a file that is not a stream. -/
def vfsFileReadAt (content : Bytes) (offset : Nat) (request : Request) (cache : Cache)
    (file : VfsFile) : Cache × VfsFile × Reply :=
  let size := request.size.toNat
  if size ≠ 0 ∧ ¬request.buffer then (cache, file, .failed errorInvalidParameter)
  else if sticky : file.error ≠ 0 then (cache, file, .failed ⟨file.error, sticky⟩)
  else if size = 0 then (cache, file, .nothing)
  else match cachePrepare content request.decode cache with
    | .error e => (cache, { file with error := e }, .failed e)
    | .ok cache =>
        if offset ≥ file.size then (cache, file, .nothing)
        else
          let size := if size > file.size - offset then file.size - offset else size
          (cache, file, (cacheRead cache request.readFile offset size).reply)

def vfsFileRead (content : Bytes) (request : Request) (cache : Cache) (file : VfsFile) :
    Cache × VfsFile × Reply :=
  let (cache, file, reply) := vfsFileReadAt content file.position request cache file
  (cache, { file with position := (file.position + reply.read) % 2 ^ 64 }, reply)

def seekBase (origin : UInt32) (file : VfsFile) : Nat :=
  if origin = 0 then 0 else if origin = 1 then file.position else file.size

def seekTarget (base : Nat) (distance : Int) : Option (Except ErrorCode Nat) :=
  if distance < 0 then
    (magnitude distance).bind fun m =>
      if m > base then some (.error errorNegativeSeek) else (uint64 (base - m)).map .ok
  else if distance > 0 then
    (uint64 (int64Max - base)).bind fun room =>
      if distance > room then some (.error errorInvalidParameter)
      else (uint64 (base + distance)).map .ok
  else (uint64 (base + distance)).map .ok

def vfsFileSeek (distance : Int64) (origin : UInt32) (file : VfsFile) : Option (VfsFile × Reply) :=
  if origin > 2 then some (file, .failed errorInvalidParameter)
  else match seekTarget (seekBase origin file) distance.toInt with
    | none => none
    | some (.error e) => some (file, .failed e)
    | some (.ok next) =>
        if next ≠ file.position ∧ file.zip.isSome then some (file, .failed errorNotSupported)
        else some ({ file with position := next }, ⟨none, 0, [], some next⟩)

/-- `vfs_file_create` without `streaming`, up to the cache it acquires. -/
def vfsFileCreate (size : Nat) (c identity : Nat) : Except ErrorCode VfsFile :=
  if size > int64Max then .error errorInvalidData else .ok ⟨none, some c, size, identity, 0, 0, 0⟩

/-- An entry of an archive that `vfs_file_create` accepts. -/
structure Entry where
  package : ZipPackage
  file : Nat
  identity : Nat
  content : Bytes
  fits : content.length ≤ int64Max

structure Shared (ι : Type*) where
  cache : Cache
  files : ι → VfsFile

inductive Call (ι : Type*)
  | readAt (file : ι) (offset : UInt64) (request : Request)
  | read (file : ι) (request : Request)
  | seek (file : ι) (distance : Int64) (origin : UInt32)

variable {ι : Type*}

def Call.file : Call ι → ι
  | .readAt file .. => file
  | .read file .. => file
  | .seek file .. => file

/-- The cache `c` as `cache_acquire` makes it, and files on it. -/
def Shared.opened (entry : Entry) (c references : Nat) : Shared ι where
  cache := ⟨entry.identity, entry.content.length, some entry.package, entry.file, .empty, none, none,
    references, false, false⟩
  files _ := ⟨none, some c, entry.content.length, entry.identity, 0, 0, 0⟩

theorem vfsFileCreate_opened (entry : Entry) (c references : Nat) (i : ι) :
    vfsFileCreate entry.content.length c entry.identity =
      .ok ((Shared.opened entry c references).files i) :=
  if_neg (Nat.not_lt.mpr entry.fits)

variable [DecidableEq ι]

def Shared.update (s : Shared ι) (i : ι) (next : Cache × VfsFile × Reply) : Shared ι × Reply :=
  (⟨next.1, Function.update s.files i next.2.1⟩, next.2.2)

def perform (entry : Entry) (s : Shared ι) : Call ι → Option (Shared ι × Reply)
  | .readAt i offset request =>
      some (s.update i (vfsFileReadAt entry.content offset.toNat request s.cache (s.files i)))
  | .read i request =>
      some (s.update i (vfsFileRead entry.content request s.cache (s.files i)))
  | .seek i distance origin =>
      (vfsFileSeek distance origin (s.files i)).map fun next => s.update i (s.cache, next)

def performAll (entry : Entry) : Shared ι → List (Call ι) → Option (Shared ι × List Reply)
  | s, [] => some (s, [])
  | s, call :: calls =>
      (perform entry s call).bind fun (s, reply) =>
        (performAll entry s calls).map fun (s, replies) => (s, reply :: replies)

end Yafsml.Vfs.Seekable
