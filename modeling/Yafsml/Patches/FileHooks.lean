import Yafsml.Patches.HookBatch

/-! # Installing the file hooks -/

namespace Yafsml.Patches

/-- The hooked functions: those that take file handles, then those that take paths. -/
inductive FileApi where
  | readFile
  | readFileEx
  | writeFile
  | closeHandle
  | setFilePointerEx
  | setFilePointer
  | getFileSizeEx
  | getFileSize
  | getFileType
  | getFileInformationByHandle
  | getFileInformationByHandleEx
  | getOverlappedResult
  | getOverlappedResultEx
  | duplicateHandle
  | createIoCompletionPort
  | setFileCompletionNotificationModes
  | cancelIo
  | cancelIoEx
  | flushFileBuffers
  | setEndOfFile
  | createFileMappingW
  | createFileMappingA
  | setFileInformationByHandle
  | createFileW
  | createFileA
  | createFile2
  | deleteFileW
  | deleteFileA
  | createDirectoryW
  | createDirectoryA
  | createDirectoryExW
  | copyFileW
  | copyFileExW
  | copyFile2
  | copyFileA
  | copyFileExA
  | moveFileExW
  | replaceFileW
deriving DecidableEq, Repr

namespace FileApi

/-- The targets of `ml_zip_file_hook_specs`. -/
def zip : List FileApi :=
  [readFile, readFileEx, writeFile, closeHandle, setFilePointerEx, setFilePointer, getFileSizeEx,
    getFileSize, getFileType, getFileInformationByHandle, getFileInformationByHandleEx,
    getOverlappedResult, getOverlappedResultEx, duplicateHandle, createIoCompletionPort,
    setFileCompletionNotificationModes, cancelIo, cancelIoEx, flushFileBuffers, setEndOfFile,
    createFileMappingW, createFileMappingA, setFileInformationByHandle]

/-- The targets of `build_hook_specs` behind them. -/
def path : List FileApi :=
  [createFileW, createFileA, createFile2, deleteFileW, deleteFileA, createDirectoryW,
    createDirectoryA, createDirectoryExW, copyFileW, copyFileExW, copyFile2, copyFileA, copyFileExA,
    moveFileExW, replaceFileW]

/-- The detour calls `ml_zip_file_open`. -/
def opensZip : FileApi → Bool
  | createFileW | createFileA | createFile2 => true
  | _ => false

end FileApi

/-- The flags of `win32_hooks.c`, whether `hook_targets` and `targets` are filled in, and the flag
`accepting` of `zip_hooks.c`. -/
structure FileHookFlags where
  hooksInstalled : Bool
  pathHooksLive : Bool
  zipHooksLive : Bool
  zipIoReady : Bool
  resolved : Bool
  accepting : Bool
deriving DecidableEq, Repr

abbrev FileHooks := Hooking FileApi FileHookFlags

namespace FileHooks

def start : FileHooks := ⟨fun _ => false, ⟨false, false, false, false, false, false⟩, []⟩

def zipSpecs (s : FileHooks) : List (Option FileApi) :=
  FileApi.zip.map fun api => if s.flags.resolved then some api else none

def pathSpecs (s : FileHooks) : List (Option FileApi) :=
  FileApi.path.map fun api => if s.flags.resolved then some api else none

def buildHookSpecs (resolveTargets : Bool) (s : FileHooks) : FileHooks :=
  if resolveTargets then { s with flags.resolved := true } else s

/-- `prepared` tells whether `ntdll.dll` has the functions. -/
def mlZipFileHooksPrepare (prepared : Bool) (s : FileHooks) : FileHooks × Bool :=
  if prepared then ({ s with flags.accepting := true }, true) else (s, false)

def mlZipFileCloseAll (s : FileHooks) : FileHooks := { s with flags.accepting := false }

variable (world : HookWorld FileApi)

def removeZipHooks (s : FileHooks) : FileHooks :=
  let s := mlZipFileCloseAll { s with flags.zipIoReady := false }
  let (s, removed) := mlHookBatchRemove world (zipSpecs s) s
  { s with flags.zipHooksLive := !removed }

/-- The part of `ml_win32_file_hooks_install` for a VFS with ZIP entries. -/
def installZip (prepared : Bool) (s : FileHooks) : FileHooks :=
  let (s, ready) := mlZipFileHooksPrepare prepared s
  let s :=
    if ready then
      let (s, result, rollbackComplete) := mlHookBatchInstall world (zipSpecs s) s
      { s with flags.zipIoReady := result, flags.zipHooksLive := result || !rollbackComplete }
    else s
  if !s.flags.zipIoReady then mlZipFileCloseAll s else s

def installPaths (s : FileHooks) : FileHooks × Bool :=
  let (s, result, rollbackComplete) := mlHookBatchInstall world (pathSpecs s) s
  let s := { s with flags.pathHooksLive := result || !rollbackComplete }
  let s :=
    if !result && !s.flags.pathHooksLive && s.flags.zipHooksLive then removeZipHooks world s else s
  ({ s with flags.hooksInstalled := result }, result)

/-- `zipEntries` is `vfs_has_zip_entries()`. -/
def mlWin32FileHooksInstall (zipEntries prepared : Bool) (s : FileHooks) : FileHooks × Bool :=
  if s.flags.hooksInstalled then (s, true)
  else if s.flags.pathHooksLive || s.flags.zipHooksLive then (s, false)
  else
    let s := buildHookSpecs true s
    let s := if zipEntries then installZip world prepared s else s
    installPaths world s

def mlWin32FileHooksUninstall (s : FileHooks) : FileHooks :=
  if !s.flags.pathHooksLive && !s.flags.zipHooksLive then s
  else
    let s := { buildHookSpecs false s with flags.hooksInstalled := false }
    let (s, removed) :=
      if s.flags.pathHooksLive then mlHookBatchRemove world (pathSpecs s) s else (s, true)
    if !removed then s
    else
      let s := { s with flags.pathHooksLive := false }
      if s.flags.zipHooksLive then removeZipHooks world s else s

inductive Call where
  | install (zipEntries prepared : Bool)
  | uninstall
deriving DecidableEq, Repr

def call (s : FileHooks) : Call → FileHooks × Option Bool
  | .install zipEntries prepared =>
      let (s, result) := mlWin32FileHooksInstall world zipEntries prepared s
      (s, some result)
  | .uninstall => (mlWin32FileHooksUninstall world s, none)

def run (calls : List Call) : FileHooks := calls.foldl (fun s c => (call world s c).1) start

end FileHooks

end Yafsml.Patches
