import Mathlib.Data.List.AList
import Yafsml.Vfs.Normalize
import Yafsml.Vfs.Package

/-!
# The VFS index

`vfs_insert`, `vfs_insert_package` and `vfs_add_package`. The `khash` table `index` is a finite
map: `kh_put` fails only while it resizes, and then leaves the mapping alone; a key it inserts has
an unset value until `kh_value` is assigned.
-/

namespace Yafsml.Vfs

/-- `vfs_entry_t`. `streamingUid` is the second string in the allocation of `uid`. -/
structure VfsEntry where
  key : WString
  path : Option WString
  uid : WString
  streamingUid : WString
  zip : Option ZipPackage
  zipFile : Nat
deriving DecidableEq, Repr, Inhabited

/-- The state of `vfs.c` that packages change; `entries` is `entries[0..entry_count)`. -/
structure State where
  index : AList fun _ : WString => Nat
  entries : List VfsEntry
  entryCapacity : Nat
  zipPackages : List ZipPackage
  frozen : Bool

def vfsInit : State := ⟨∅, [], 0, [], false⟩

def uidPrefix : WString := wide "\\\\me3??"

/-- `%zx`. -/
def hexDigits (n : Nat) : WString := (Nat.toDigits 16 n).map fun c => c.toNat.toUInt16

def uidOf (i : Nat) : WString := uidPrefix ++ hexDigits i

def streamingUidOf (i : Nat) : WString := uidPrefix ++ wide "s" ++ hexDigits i

/-- The outcomes of the allocations behind one file of a package, and the value an unassigned
bucket of the index happens to hold. -/
structure InsertMemory where
  joinBuffer : Bool
  joinExtended : Bool
  normalize : Bool
  put : Bool
  bucket : Nat
  grow : Bool
  uid : Bool

/-- One record of the undo log: `previous[i]`, which is all zero for a new entry, and
`touched[i]`. -/
structure Touched where
  previous : Option VfsEntry
  index : Nat

section Insert

variable (win : Windows)

/-- The part of `vfs_insert` after `kh_put` made a new key. -/
def insertNew (s : State) (key : WString) (path : Option WString) (zip : Option ZipPackage)
    (zipFile : Nat) (memory : InsertMemory) : State × Option Touched :=
  let half := { s with index := s.index.insert key memory.bucket }
  if s.entries.length = s.entryCapacity ∧ !memory.grow then
    ({ half with index := half.index.erase key }, none)
  else
    let grown := if s.entries.length = s.entryCapacity then
      { half with entryCapacity := if s.entryCapacity = 0 then 128 else s.entryCapacity * 2 }
      else half
    let named := { grown with index := grown.index.insert key s.entries.length }
    if !memory.uid then ({ named with index := named.index.erase key }, none)
    else
      let count := s.entries.length
      ({ named with
          entries := named.entries ++ [⟨key, path, uidOf count, streamingUidOf count, zip, zipFile⟩] },
        some ⟨none, count⟩)

/-- `vfs_insert`; the second component is `*previous` and `*touched` when it returns true. -/
def vfsInsert (s : State) (relative : WString) (path : Option WString) (zip : Option ZipPackage)
    (zipFile : Nat) (memory : InsertMemory) : State × Option Touched :=
  if path = none ∧ zip = none then (s, none)
  else match if memory.normalize then vfsNormalizePath win relative else none with
    | none => (s, none)
    | some key =>
        if !memory.put then (s, none)
        else match s.index.lookup key with
          | some i =>
              match s.entries[i]? with
              | some entry =>
                  ({ s with entries := s.entries.set i { entry with path, zip, zipFile } },
                    some ⟨some entry, i⟩)
              | none => (s, none)
          | none => insertNew s key path zip zipFile memory

/-- The insert loop of `vfs_insert_package`. The log has the most recent record first; the last
component tells whether every file was applied. -/
def insertLoop (package : Package) (memory : Nat → InsertMemory) :
    State → List Touched → Nat → List WString → State × List Touched × Bool
  | s, log, _, [] => (s, log, true)
  | s, log, applied, relative :: rest =>
      let path := package.diskPath (memory applied).joinBuffer (memory applied).joinExtended relative
      match vfsInsert win s relative path package.zipPackage applied (memory applied) with
      | (s, none) => (s, log, false)
      | (s, some touched) => insertLoop package memory s (touched :: log) (applied + 1) rest

def undoInsert (s : State) (touched : Touched) : State :=
  match touched.previous with
  | some entry => { s with entries := s.entries.set touched.index entry }
  | none =>
      { s with
        index := s.index.erase (s.entries.getD touched.index default).key
        entries := (s.entries.set touched.index default).dropLast }

structure PackageMemory where
  arrays : Bool
  file : Nat → InsertMemory

/-- What a call does to the VFS, its result, and whether it dropped the decoded caches. -/
structure Outcome where
  vfs : State
  result : Bool
  droppedCaches : Bool

def vfsInsertPackage (s : State) (package : Package) (memory : PackageMemory) : Outcome :=
  if package.relativePaths = [] then ⟨s, true, false⟩
  else if !memory.arrays then ⟨s, false, false⟩
  else match insertLoop win package memory.file s [] 0 package.relativePaths with
    | (s, _, true) => ⟨s, true, true⟩
    | (s, log, false) => ⟨log.foldl undoInsert s, false, true⟩

/-- A `vfs_add_package` call with what the file system and the allocator answer. `listing` is the
enumeration of `path`, and `zipPackageOpen` takes the disk path and the root. -/
structure AddRequest where
  path : WString
  isDirectory : WString → Bool
  attributesValid : WString → Bool
  listing : Listing
  zipPackageOpen : WString → WString → Option ZipPackage
  diskPathMemory : Bool
  nodeMemory : Bool
  memory : PackageMemory

namespace AddRequest

variable (request : AddRequest)

def diskPath : WString :=
  match zipPackageRootSeparator request.path with
  | some separator => request.path.take separator
  | none => request.path

def zipRoot : WString :=
  match zipPackageRootSeparator request.path with
  | some separator => request.path.drop (separator + 1)
  | none => []

/-- The archive a ZIP request opens, if its checks and allocations get that far. -/
def openArchive : Option ZipPackage :=
  if !request.diskPathMemory then none
  else if !request.attributesValid request.diskPath || request.isDirectory request.diskPath ||
      !win.lstrcmpiEqual (mlPathExtension request.diskPath) (wide ".zip") then none
  else if !request.nodeMemory then none
  else request.zipPackageOpen request.diskPath request.zipRoot

/-- The package a request names: its scanned directory, or its opened archive. -/
def package : Option Package :=
  if request.isDirectory request.path then
    (vfsScan [] request.listing).map (Package.directory request.path)
  else (request.openArchive win).map Package.zip

end AddRequest

/-- `vfs_add_package`. An archive joins the list of packages only when all of it was indexed. -/
def vfsAddPackage (s : State) (request : AddRequest) : Outcome :=
  if s.frozen ∨ request.path = [] then ⟨s, false, false⟩
  else match request.package win with
    | none => ⟨s, false, false⟩
    | some (.directory root files) =>
        vfsInsertPackage win s (.directory root files) request.memory
    | some (.zip archive) =>
        let outcome := vfsInsertPackage win s (.zip archive) request.memory
        if outcome.result then
          { outcome with vfs := { outcome.vfs with zipPackages := archive :: outcome.vfs.zipPackages } }
        else outcome

/-- A sequence of `vfs_add_package` calls. -/
def vfsAddPackages (s : State) (requests : List AddRequest) : State :=
  requests.foldl (fun s request => (vfsAddPackage win s request).vfs) s

end Insert

end Yafsml.Vfs
