import Yafsml.Vfs.Components
import Yafsml.Vfs.Package

/-!
# Indexing an archive

`zip_index` walks the central directory once and keeps the files below the configured root.
-/

namespace Yafsml.Vfs
open Foundation

/-- The two conversions asked of `MultiByteToWideChar`; `none` where it returns 0. -/
structure CodePages where
  utf8 : List UInt8 → Option WString
  cp437 : List UInt8 → Option WString

/-- The fields of `mz_zip_archive_file_stat` that the index reads. -/
structure ZipStat where
  bitFlag : UInt16
  isDirectory : Bool
  isSupported : Bool
  isEncrypted : Bool
  uncompSize : UInt64

/-- What miniz reports for one record; `stat` is `none` when `mz_zip_reader_file_stat` fails. -/
structure ZipRecord where
  filename : List UInt8
  stat : Option ZipStat

inductive ZipError
  | stat
  | invalidFilename
  | unsupportedEncryption
  | unsupportedMethod
  | allocFailed
  | fileNotFound
deriving DecidableEq, Repr

/-- The outcomes of the allocations made for one record. -/
structure RecordMemory where
  name : Bool
  wide : Bool
  normalize : Bool
  files : Bool

structure ZipIndexMemory where
  root : Bool
  record : Nat → RecordMemory

def forbiddenMarks : WString := wide ":<>\"|?*"

def forbidden (c : WChar) : Bool := c < WChar.space || c ∈ forbiddenMarks

def validVirtualName (name : WString) : Bool := name.all fun c => !forbidden c

def intMax : Nat := 2 ^ 31 - 1

section Index

variable (win : Windows) (pages : CodePages)

def decodeFilename (filename : List UInt8) (flags : UInt16) : Option WString :=
  match pages.utf8 filename with
  | some text => some text
  | none => if flags &&& 0x0800 = 0 then pages.cp437 filename else none

/-- `zip_filename`. The buffer it returns is read up to its first NUL. -/
def zipFilename (memory : RecordMemory) (filename : List UInt8) (flags : UInt16) :
    Option WString :=
  let bytes := filename.length + 1
  if bytes ≤ 1 ∨ intMax < bytes - 1 then none
  else if !memory.name then none
  else if 0 ∈ filename then none
  else match decodeFilename pages filename flags with
    | none => none
    | some text => if memory.wide then some (text.takeWhile (· ≠ 0)) else none

/-- The fields of the package that the loop changes, and `found_root`. -/
structure Indexing where
  files : List ZipFile
  capacity : Nat
  foundRoot : Bool

def sizeofZipFile : Nat := 24

/-- The capacity after growth; `none` when it would overflow. -/
def grownFiles (capacity : Nat) : Option Nat :=
  let grown := if capacity = 0 then 128 else capacity * 2 % 2 ^ 64
  if grown < capacity ∨ (2 ^ 64 - 1) / sizeofZipFile < grown then none else some grown

/-- The end of a round: a record below the root is skipped, refused or appended. -/
def keepRecord (memory : RecordMemory) (state : Indexing) (file : Nat) (stat : ZipStat)
    (relative : WString) : Except ZipError Indexing :=
  let kept := state.files ++ [⟨relative, file, stat.uncompSize.toNat⟩]
  if stat.isDirectory then .ok state
  else if !stat.isSupported then
    .error (if stat.isEncrypted then .unsupportedEncryption else .unsupportedMethod)
  else if state.files.length = state.capacity then
    match grownFiles state.capacity with
    | none => .error .allocFailed
    | some capacity =>
        if memory.files then .ok { state with files := kept, capacity } else .error .allocFailed
  else .ok { state with files := kept }

/-- The key of a record; `none` when its name is not valid. -/
def recordKey (memory : RecordMemory) (filename : List UInt8) (stat : ZipStat) : Option WString :=
  match zipFilename pages memory filename stat.bitFlag with
  | none => none
  | some name =>
      if name.head? = some WChar.slash ∨ name.head? = some WChar.backslash then none
      else if !validVirtualName name then none
      else if memory.normalize then vfsNormalizePath win name else none

/-- One round of the loop of `zip_index`. -/
def indexRecord (memory : ZipIndexMemory) (normalizedRoot : WString) (state : Indexing)
    (entry : ZipRecord × Nat) : Except ZipError Indexing :=
  let (record, file) := entry
  match record.stat with
  | none => .error .stat
  | some stat =>
      match recordKey win pages (memory.record file) record.filename stat with
      | none => .error .invalidFilename
      | some key =>
          if key = [] then if stat.isDirectory then .ok state else .error .invalidFilename
          else if normalizedRoot = [] then keepRecord (memory.record file) state file stat key
          else
            let found := if key = normalizedRoot ∧ stat.isDirectory then { state with foundRoot := true }
              else state
            if key.take normalizedRoot.length ≠ normalizedRoot ∨
                key[normalizedRoot.length]? ≠ some WChar.backslash then .ok found
            else keepRecord (memory.record file) { found with foundRoot := true } file stat
              (key.drop (normalizedRoot.length + 1))

/-- The fields `root` and `files` of a package whose index succeeded. -/
structure IndexedPackage where
  root : WString
  files : List ZipFile
deriving DecidableEq

/-- `zip_index` on a central directory. -/
def zipIndex (memory : ZipIndexMemory) (archive : List ZipRecord) (root : WString) :
    Except ZipError IndexedPackage :=
  if !validVirtualName root then .error .invalidFilename
  else match if memory.root then vfsNormalizePath win root else none with
    | none => .error .invalidFilename
    | some normalizedRoot =>
        match archive.zipIdx.foldlM (indexRecord win pages memory normalizedRoot)
            ⟨[], 0, normalizedRoot = []⟩ with
        | .error error => .error error
        | .ok state =>
            if state.foundRoot then .ok ⟨normalizedRoot, state.files⟩ else .error .fileNotFound

end Index

/-- Code pages that agree on the ASCII names of concrete runs. -/
def asciiPages : CodePages where
  utf8 bytes := if bytes.all (· < 128) then some (bytes.map (·.toUInt16)) else none
  cp437 bytes := some (bytes.map (·.toUInt16))

def ampleMemory : ZipIndexMemory := ⟨true, fun _ => ⟨true, true, true, true⟩⟩

def asciiRecord (name : String) (isDirectory : Bool) : ZipRecord :=
  ⟨name.toList.map (·.toNat.toUInt8), some ⟨0, isDirectory, true, false, 3⟩⟩

end Yafsml.Vfs
