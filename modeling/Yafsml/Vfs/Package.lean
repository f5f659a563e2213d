import Yafsml.Text.Path

namespace Yafsml.Vfs

structure ZipFile where
  relative : WString
  archiveIndex : Nat
  size : Nat
deriving DecidableEq, Repr

/-- An open `zip_package_t`. `address` tells two opens of one archive apart. -/
structure ZipPackage where
  address : Nat
  files : List ZipFile
deriving DecidableEq, Repr

/-- `zip_package_root_separator`: the position of the colon that starts the ZIP root. -/
def zipPackageRootSeparator (path : WString) : Option Nat :=
  let device := match path with
    | a :: b :: c :: d :: _ =>
        if isSeparator a && isSeparator b && (c == WChar.question || c == WChar.dot) &&
          isSeparator d then 4 else 0
    | _ => 0
  let drive := if (path.drop (device + 1)).head? = some WChar.colon then 2 else 0
  ((path.drop (device + drive)).findIdx? (· == WChar.colon)).map (· + (device + drive))

/-- What `FindFirstFileW` and `FindNextFileW` report for one directory. `failed` is a directory
whose enumeration cannot start, `finished` the end of one and whether it is
`ERROR_NO_MORE_FILES`. The flags `named` and `appended` are the outcomes of the allocations the
scan makes for the record. -/
inductive Listing
  | failed
  | finished (noMoreFiles : Bool)
  | file (name : WString) (named appended : Bool) (next : Listing)
  | directory (name : WString) (named reparsePoint : Bool) (children next : Listing)

def isDots (name : WString) : Bool := name == [WChar.dot] || name == [WChar.dot, WChar.dot]

def childRelative (named : Bool) (relative name : WString) : Option WString :=
  if relative = [] then (if named then some name else none)
  else vfsJoin named named relative name

/-- `vfs_scan`: the relative paths of the files below the root, in enumeration order. -/
def vfsScan (relative : WString) : Listing → Option (List WString)
  | .failed => none
  | .finished noMoreFiles => if noMoreFiles then some [] else none
  | .file name named appended next =>
      if isDots name then vfsScan relative next
      else match childRelative named relative name with
        | some child => if appended then (vfsScan relative next).map (child :: ·) else none
        | none => none
  | .directory name named reparsePoint children next =>
      if isDots name then vfsScan relative next
      else match childRelative named relative name with
        | some child =>
            match if reparsePoint then some [] else vfsScan child children with
            | some below => (vfsScan relative next).map (below ++ ·)
            | none => none
        | none => none

/-- A package whose files are known: a directory with its scanned files, or an archive. -/
inductive Package
  | directory (root : WString) (files : List WString)
  | zip (package : ZipPackage)

namespace Package

/-- The names `vfs_insert_package` goes through, in its order. -/
def relativePaths : Package → List WString
  | .directory _ files => files
  | .zip package => package.files.map (·.relative)

def zipPackage : Package → Option ZipPackage
  | .directory _ _ => none
  | .zip package => some package

/-- The `path` argument of `vfs_insert`; the two flags are the allocations of `vfs_join`. -/
def diskPath (package : Package) (buffer extended : Bool) (relative : WString) : Option WString :=
  match package with
  | .directory root _ => vfsJoin buffer extended root relative
  | .zip _ => none

end Package

end Yafsml.Vfs
