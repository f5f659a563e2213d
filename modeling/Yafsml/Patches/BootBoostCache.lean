import Yafsml.Foundation.ByteFields
import Yafsml.Patches.BootBoost
import Yafsml.Text.Wide

/-!
# The cache of archive headers

A file holds one decrypted header, deflated, behind a header of its own. It is written to a
temporary file that takes the place of the old one.
-/

namespace Yafsml.Patches.BootBoostCache

open ByteFields Cursor

structure CacheHeader where
  magic : Bytes
  version : UInt32
  headerSize : UInt32
  key : UInt64 × UInt64
  uncompressedSize : UInt32
  compressedSize : UInt32
  checksum : UInt64
deriving DecidableEq, Repr

def cacheHeaderSize : Nat := 48

def CacheHeader.fields (header : CacheHeader) : List Bytes :=
  [header.magic, ofNat 4 header.version.toNat, ofNat 4 header.headerSize.toNat,
    ofNat 8 header.key.1.toNat, ofNat 8 header.key.2.toNat, ofNat 4 header.uncompressedSize.toNat,
    ofNat 4 header.compressedSize.toNat, ofNat 8 header.checksum.toNat]

def CacheHeader.toBytes (header : CacheHeader) : Bytes := header.fields.flatten

def CacheHeader.ofBytes (bytes : Bytes) : CacheHeader where
  magic := slice bytes 0 8
  version := word32 (slice bytes 8 4)
  headerSize := word32 (slice bytes 12 4)
  key := (word64 (slice bytes 16 8), word64 (slice bytes 24 8))
  uncompressedSize := word32 (slice bytes 32 4)
  compressedSize := word32 (slice bytes 36 4)
  checksum := word64 (slice bytes 40 8)

/-- The letters `YAFSBHD` and a NUL. -/
def cacheMagic : Bytes := [89, 65, 70, 83, 66, 72, 68, 0]

def cacheVersion : UInt32 := 1

section Header

variable {header : CacheHeader} (magic : header.magic.length = 8)

include magic

theorem CacheHeader.length_toBytes : header.toBytes.length = cacheHeaderSize := by
  simp only [toBytes, fields, List.length_flatten, List.map_cons, List.map_nil, List.sum_cons,
    List.sum_nil, length_ofNat, magic]
  rfl

theorem CacheHeader.ofBytes_toBytes : ofBytes header.toBytes = header := by
  have letters : slice header.toBytes 0 8 = header.magic := slice_flatten [] rfl rfl magic
  have version : slice header.toBytes 8 4 = ofNat 4 header.version.toNat :=
    slice_flatten (header.fields.take 1) rfl (by simp [fields, magic]) (length_ofNat 4 _)
  have headerSize : slice header.toBytes 12 4 = ofNat 4 header.headerSize.toNat :=
    slice_flatten (header.fields.take 2) rfl (by simp [fields, magic]) (length_ofNat 4 _)
  have low : slice header.toBytes 16 8 = ofNat 8 header.key.1.toNat :=
    slice_flatten (header.fields.take 3) rfl (by simp [fields, magic]) (length_ofNat 8 _)
  have high : slice header.toBytes 24 8 = ofNat 8 header.key.2.toNat :=
    slice_flatten (header.fields.take 4) rfl (by simp [fields, magic]) (length_ofNat 8 _)
  have uncompressed : slice header.toBytes 32 4 = ofNat 4 header.uncompressedSize.toNat :=
    slice_flatten (header.fields.take 5) rfl (by simp [fields, magic]) (length_ofNat 4 _)
  have compressed : slice header.toBytes 36 4 = ofNat 4 header.compressedSize.toNat :=
    slice_flatten (header.fields.take 6) rfl (by simp [fields, magic]) (length_ofNat 4 _)
  have checksum : slice header.toBytes 40 8 = ofNat 8 header.checksum.toNat :=
    slice_flatten (header.fields.take 7) rfl (by simp [fields, magic]) (length_ofNat 8 _)
  rw [ofBytes, letters, version, headerSize, low, high, uncompressed, compressed, checksum,
    word32_ofNat, word32_ofNat, word64_ofNat, word64_ofNat, word32_ofNat, word32_ofNat, word64_ofNat]

end Header

structure Inflated where
  /-- `TINFL_STATUS_DONE` -/
  done : Bool
  consumed : Nat
  produced : Bytes

/-- `mz_ulong` has 32 bits. -/
def mzCompressBound (sourceLen : UInt32) : UInt32 :=
  max (128 + sourceLen * 110 / 100) (128 + sourceLen + (sourceLen / (31 * 1024) + 1) * 5)

/-- `compress` gives no bytes where it fails. -/
structure Miniz where
  compress : Nat → Bytes → Bytes
  decompress : Bytes → Nat → Inflated

def Miniz.Undoes (miniz : Miniz) : Prop :=
  ∀ room data, miniz.compress room data ≠ [] →
    miniz.decompress (miniz.compress room data) data.length =
      ⟨true, (miniz.compress room data).length, data⟩

abbrev Disk := WString → Option Bytes

def readFile (succeeds : Bool) (rest : Bytes) (count : Nat) : Option Bytes :=
  if succeeds then some (rest.take count) else none

def writeFile (succeeds : Bool) (file bytes : Bytes) : Bytes × Option Nat :=
  if succeeds then (file ++ bytes, some bytes.length) else (file, none)

def deleteFile (succeeds : Bool) (disk : Disk) (path : WString) : Disk :=
  if succeeds then Function.update disk path none else disk

def moveFile (succeeds : Bool) (disk : Disk) (source target : WString) : Bool × Disk :=
  match succeeds, disk source with
  | true, some contents => (true, Function.update (Function.update disk source none) target (some contents))
  | _, _ => (false, disk)

def uint32Max : Nat := 0xffffffff

def sizeMax : Nat := 0xffffffffffffffff

/-- How the calls of `ml_boot_boost_cache_load` end. -/
structure LoadCalls where
  createFile : Bool
  getFileSize : Bool
  readHeader : Bool
  allocate : Bool
  readCompressed : Bool
  deleteFile : Bool

structure Loaded where
  valid : Bool
  output : Option Bytes
  disk : Disk

def readCache (calls : LoadCalls) (key : UInt64 × UInt64) (outputSize : Nat) (contents : Bytes) :
    Option (CacheHeader × Bytes) :=
  if !calls.getFileSize || contents.length < cacheHeaderSize || sizeMax < contents.length then none
  else do
    let bytes ← readFile calls.readHeader contents cacheHeaderSize
    let header := CacheHeader.ofBytes bytes
    if bytes.length ≠ cacheHeaderSize ∨ header.magic ≠ cacheMagic ∨ header.version ≠ cacheVersion ∨
        header.headerSize.toNat ≠ cacheHeaderSize ∨ header.key.1 ≠ key.1 ∨ header.key.2 ≠ key.2 ∨
        header.uncompressedSize.toNat ≠ outputSize ∨
        header.compressedSize.toNat ≠ contents.length - cacheHeaderSize then none
    else if header.compressedSize.toNat = 0 || !calls.allocate then none
    else
      let compressed ← readFile calls.readCompressed (contents.drop cacheHeaderSize)
        header.compressedSize.toNat
      if compressed.length ≠ header.compressedSize.toNat then none else some (header, compressed)

def Inflated.into (inflated : Inflated) (output : Bytes) : Bytes :=
  (inflated.produced ++ output.drop inflated.produced.length).take output.length

section Cache

variable (miniz : Miniz) (checksum : Bytes → UInt64)

/-- Whether the whole file was inflated to its whole contents and has its checksum. -/
def inflatedWhole (header : CacheHeader) (compressed : Bytes) (inflated : Inflated) (output : Bytes) :
    Bool :=
  inflated.done && inflated.consumed == compressed.length &&
    inflated.produced.length == output.length && checksum output == header.checksum

/-- Whether `contents` are valid, and the output buffer afterwards. -/
def inflateCache (calls : LoadCalls) (key : UInt64 × UInt64) (bhdHeader output contents : Bytes) :
    Bool × Bytes :=
  match readCache calls key output.length contents with
  | none => (false, output)
  | some (header, compressed) =>
      let inflated := miniz.decompress compressed output.length
      let output := inflated.into output
      (inflatedWhole checksum header compressed inflated output &&
        mlBhd5HeaderValid output output.length && output.take 24 == bhdHeader.take 24, output)

def mlBootBoostCacheLoad (calls : LoadCalls) (path : Option WString) (key : Option (UInt64 × UInt64))
    (bhdHeader output : Option Bytes) (disk : Disk) : Loaded :=
  match path, key, bhdHeader, output with
  | some path, some key, some bhdHeader, some output =>
      if output.length < 24 || uint32Max < output.length then ⟨false, some output, disk⟩
      else
        match if calls.createFile then disk path else none with
        | none => ⟨false, some output, disk⟩
        | some contents =>
            let (valid, output) := inflateCache miniz checksum calls key bhdHeader output contents
            ⟨valid, some output, if valid then disk else deleteFile calls.deleteFile disk path⟩
  | _, _, _, output => ⟨false, output, disk⟩

/-- How the calls of `ml_boot_boost_cache_store` end. -/
structure StoreCalls where
  scwprintf : Bool
  allocateTemporary : Bool
  processId : UInt32
  threadId : UInt32
  allocateCompressed : Bool
  createFile : Bool
  writeHeader : Bool
  writeCompressed : Bool
  flush : Bool
  move : Bool
  deleteFile : Bool

def hexDigit (digit : Nat) : WChar := if digit < 10 then (48 + digit).toUInt16 else (87 + digit).toUInt16

/-- `%08lx` -/
def hex8 (value : UInt32) : WString :=
  [28, 24, 20, 16, 12, 8, 4, 0].map fun shift => hexDigit (value.toNat / 2 ^ shift % 16)

def temporaryPath (path : WString) (processId threadId : UInt32) : WString :=
  path ++ wide "." ++ hex8 processId ++ wide "." ++ hex8 threadId ++ wide ".tmp"

def cacheHeader (key : UInt64 × UInt64) (data compressed : Bytes) : CacheHeader where
  magic := cacheMagic
  version := cacheVersion
  headerSize := UInt32.ofNat cacheHeaderSize
  key := key
  uncompressedSize := UInt32.ofNat data.length
  compressedSize := UInt32.ofNat compressed.length
  checksum := checksum data

def writeCache (calls : StoreCalls) (header : CacheHeader) (compressed : Bytes) : Bytes × Bool :=
  match writeFile calls.writeHeader [] header.toBytes with
  | (file, none) => (file, false)
  | (file, some written) =>
      if written ≠ cacheHeaderSize then (file, false)
      else
        match writeFile calls.writeCompressed file compressed with
        | (file, none) => (file, false)
        | (file, some written) => (file, written == compressed.length && calls.flush)

/-- The file with the new contents takes the place of the one at `path`. -/
def replaceCache (calls : StoreCalls) (header : CacheHeader) (compressed : Bytes)
    (temporary path : WString) (disk : Disk) : Bool × Disk :=
  if !calls.createFile then (false, disk)
  else
    let (file, whole) := writeCache calls header compressed
    let disk := Function.update disk temporary (some file)
    if whole then moveFile calls.move disk temporary path else (false, disk)

def mlBootBoostCacheStore (calls : StoreCalls) (path : Option WString) (key : Option (UInt64 × UInt64))
    (data : Option Bytes) (disk : Disk) : Bool × Disk :=
  match path, key, data with
  | some path, some key, some data =>
      if uint32Max < data.length || !mlBhd5HeaderValid data data.length then (false, disk)
      else if !calls.scwprintf || !calls.allocateTemporary || !calls.allocateCompressed then (false, disk)
      else
        let temporary := temporaryPath path calls.processId calls.threadId
        let compressed :=
          miniz.compress (mzCompressBound (UInt32.ofNat data.length)).toNat data
        let stored :=
          if compressed.length = 0 || uint32Max < compressed.length then (false, disk)
          else replaceCache calls (cacheHeader checksum key data compressed) compressed temporary path disk
        (stored.1, if stored.1 then stored.2 else deleteFile calls.deleteFile stored.2 temporary)
  | _, _, _ => (false, disk)

end Cache

end Yafsml.Patches.BootBoostCache
