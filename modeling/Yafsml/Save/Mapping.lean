import Yafsml.Vfs.Writable

/-!
# Save mapping

`save_mapping.c` and the routes of `win32_hooks.c`. A file below the save root whose extension is
mapped is redirected to a renamed copy; one whose mapping failed is denied.
-/

namespace Yafsml.Save

open Vfs

structure MappingEntry where
  extension : WString
  overrideName : WString
deriving DecidableEq

/-- `save_root`, `mappings[0..mapping_count)` and `failed_extensions`. -/
structure SaveMapping where
  saveRoot : Option WString
  mappings : List MappingEntry
  failedExtensions : List WString
deriving DecidableEq

def saveMappingMax : Nat := 8

/-- `mapping_active`, which every change of the two counts updates. -/
def SaveMapping.active (s : SaveMapping) : Bool :=
  !s.mappings.isEmpty || !s.failedExtensions.isEmpty

def reservedCharacters : WString := wide "<>:\"/\\|?*"

def reservedNames : List WString := [wide "con", wide "prn", wide "aux", wide "nul"]

section Configuration

variable (win : Windows)

def validOverrideName (name : WString) : Bool :=
  if name.length = 0 ∨ name.length ≥ 64 ∨ name.getLast? = some WChar.space ∨
      name.getLast? = some WChar.dot then false
  else if name.any fun c => c < 32 || reservedCharacters.contains c then false
  else if name.head? = some WChar.dot then name.length > 1
  else
    let stemLength := (name.findIdx? (· == WChar.dot)).getD name.length
    if reservedNames.any fun reserved =>
        reserved.length = stemLength && win.wcsnicmpPrefix name reserved then false
    else if stemLength = 4 ∧
        (win.wcsnicmpPrefix name (wide "com") || win.wcsnicmpPrefix name (wide "lpt")) ∧
        (name.drop 3).head?.any (fun c => 49 ≤ c && c ≤ 57) then false
    else true

def rememberFailedExtension (extension : WString) (s : SaveMapping) : SaveMapping :=
  if extension.head? ≠ some WChar.dot ∨ extension.length ≥ 16 then s
  else if s.failedExtensions.any fun failed => win.lstrcmpiEqual failed extension then s
  else if s.failedExtensions.length < saveMappingMax then
    { s with failedExtensions := s.failedExtensions ++ [extension] }
  else s

/-- `ml_save_mapping_init_root`, when the environment and `GetFullPathNameW` give it this root. -/
def mlSaveMappingInitRoot (root : Option WString) : SaveMapping × Bool :=
  (⟨root, [], []⟩, root.isSome)

def mlSaveMappingAddExtension (extension overrideName : WString) (s : SaveMapping) :
    SaveMapping × Bool :=
  let valid := extension.head? = some WChar.dot && extension.length < 16 &&
    validOverrideName win overrideName
  if valid && s.saveRoot.isSome && s.mappings.length < saveMappingMax then
    ({ s with mappings := s.mappings ++ [⟨extension, overrideName⟩] }, true)
  else (rememberFailedExtension win extension s, false)

/-- The configuration after a root and the `ml_save_mapping_add_extension` calls for it. -/
def configure (root : Option WString) (extensions : List (WString × WString)) : SaveMapping :=
  extensions.foldl (fun s extension => (mlSaveMappingAddExtension win extension.1 extension.2 s).1)
    (mlSaveMappingInitRoot root).1

def extensionIn (extension : WString) (list : List WString) : Bool :=
  list.any fun entry => win.lstrcmpiEqual extension entry

def pathIsUnderRoot (canonical root : WString) : Bool :=
  root.length ≠ 0 && canonical.length > root.length && win.wcsnicmpPrefix canonical root &&
    (canonical.drop root.length).head?.any isSeparator

/-- `build_override_name` when its allocation succeeds. -/
def buildOverrideName (sourceName overrideName : WString) : WString :=
  if overrideName.head? ≠ some WChar.dot then overrideName
  else if sourceName.length > overrideName.length &&
      win.wcsicmpEqual (sourceName.drop (sourceName.length - overrideName.length)) overrideName then
    sourceName
  else pathRemoveExtension sourceName ++ overrideName

def backupExtension : WString := wide ".bak"

def isBackup (source : WString) : Bool :=
  win.lstrcmpiEqual (pathFindExtension source) backupExtension

/-- `logical_source`: the save a backup belongs to. -/
def logicalSource (source : WString) : WString :=
  if isBackup win source then pathRemoveExtension source else source

def logicalExtension (source : WString) : WString := pathFindExtension (logicalSource win source)

def findOverride (mappings : List MappingEntry) (extension : WString) : Option WString :=
  (mappings.find? fun entry => win.lstrcmpiEqual extension entry.extension).map (·.overrideName)

end Configuration

/-- `join_path` when its allocation succeeds. -/
def joinPath (left right : WString) : WString :=
  left ++ (if left.getLast?.any fun c => !isSeparator c then [WChar.backslash] else []) ++ right

/-- The directory part of `logical_source`. -/
def directoryOf (path : WString) : WString :=
  path.take (path.length - (pathFindFileName path).length)

/-- `target` for the file `source`. -/
def targetFor (win : Windows) (source overrideName : WString) : WString :=
  let logical := logicalSource win source
  joinPath (directoryOf logical) (buildOverrideName win (pathFindFileName logical) overrideName) ++
    if isBackup win source then backupExtension else []

/-- The save target of a canonical path: none when its extension is not mapped. -/
def saveTarget (win : Windows) (mappings : List MappingEntry) (source : WString) : Option WString :=
  (findOverride win mappings (logicalExtension win source)).map (targetFor win source)

inductive CopyOutcome
  | copied
  | fileExists
  | failed
deriving DecidableEq

/-- What Windows and the allocator answer during one call. `fullPath` is `GetFullPathNameW` with the
buffer for its answer, at the current directory of the call; `isLink` asks for a link or junction. -/
structure Environment where
  guarded : Bool
  fullPath : WString → Option WString
  rootCopy : Bool
  prefixCopy : Bool
  isLink : WString → Bool
  logicalCopy : Bool
  targetName : Bool
  directory : Bool
  join : Bool
  backup : Bool
  fileExists : WString → Bool
  copy : CopyOutcome
  writable : Nat → RouteMemory
  register : RegisterMemory

/-- An environment in which nothing fails, no path is a link and no file exists. -/
def Environment.calm (fullPath : WString → Option WString) : Environment where
  guarded := false
  fullPath := fullPath
  rootCopy := true
  prefixCopy := true
  isLink _ := false
  logicalCopy := true
  targetName := true
  directory := true
  join := true
  backup := true
  fileExists _ := false
  copy := .copied
  writable _ := ⟨true, true, true⟩
  register := ⟨true, true, true⟩

/-- The states of `save_mapping.c` and of the writable routes. -/
structure Routing where
  saves : SaveMapping
  writable : Writable

/-- `false`, `true` with NULL, and `true` with a path. -/
inductive SaveRoute
  | unrouted
  | denied
  | mapped (target : WString)
deriving DecidableEq

/-- `while (length > 1 && ...)` of `canonicalize_path`. -/
def stripSeparators (path : WString) : WString :=
  path.take 1 ++ ((path.drop 1).reverse.dropWhile isSeparator).reverse

def canonicalizePath (env : Environment) (path : WString) : Option WString :=
  (env.fullPath path).map stripSeparators

/-- The loop of `path_contains_link`: the lengths at which it asks about a prefix, from the position
`cursor` with `rest` to come. -/
def linkCursors : Nat → Nat → WString → List Nat
  | 0, _, _ => []
  | fuel + 1, cursor, rest =>
      let skipped := rest.dropWhile isSeparator
      let left := skipped.dropWhile fun c => !isSeparator c
      let cursor := cursor + (rest.length - left.length)
      if left = [] then [cursor] else cursor :: linkCursors fuel cursor left

def pathContainsLink (env : Environment) (canonical root : WString) : Bool :=
  if canonical.length ≤ root.length then false
  else if !env.prefixCopy then true
  else (linkCursors (canonical.length + 1) root.length (canonical.drop root.length)).any fun cursor =>
    env.isLink (canonical.take cursor)

section Route

variable (win : Windows) (env : Environment)

/-- `interesting`: the filter on the raw extension. -/
def interesting (s : SaveMapping) (path : WString) : Bool :=
  let rawExtension := pathFindExtension path
  win.lstrcmpiEqual rawExtension backupExtension ||
    extensionIn win rawExtension s.failedExtensions ||
    s.mappings.any fun entry => win.lstrcmpiEqual rawExtension entry.extension

def Routing.fail (extension : WString) (s : Routing) : Routing :=
  { s with saves := rememberFailedExtension win extension s.saves }

/-- The last section of `ml_save_mapping_route`, under the exclusive lock. -/
def routeTarget (path source target : WString) (s : Routing) : Routing × SaveRoute :=
  let (writable, registered) :=
    vfsRouteWritablePath win env.guarded (env.writable 1) path s.writable
  let s := { s with writable }
  match registered with
  | some registered => (s, .mapped registered)
  | none =>
      if !env.fileExists target && env.fileExists source && env.copy = .failed then
        (s.fail win (logicalExtension win source), .denied)
      else
        let (writable, result) := vfsRegisterWritablePath win env.register path target s.writable
        let s := { s with writable }
        if result then
          let (writable, registered) :=
            vfsRouteWritablePath win env.guarded (env.writable 2) path s.writable
          let s := { s with writable }
          match registered with
          | some registered => (s, .mapped registered)
          | none => (s.fail win (logicalExtension win source), .denied)
        else (s.fail win (logicalExtension win source), .denied)

/-- `ml_save_mapping_route` from `backup` on; `rooted` tells whether `root_snapshot` is there. -/
def routeSource (path source : WString) (rooted : Bool) (s : Routing) : Routing × SaveRoute :=
  if !env.logicalCopy then (s, .denied)
  else if extensionIn win (logicalExtension win source) s.saves.failedExtensions then (s, .denied)
  else match if rooted then findOverride win s.saves.mappings (logicalExtension win source)
      else none with
    | none => (s, .unrouted)
    | some overrideName =>
        if !(env.targetName && env.directory && env.join) then
          (s.fail win (logicalExtension win source), .denied)
        else if isBackup win source && !env.backup then (s, .denied)
        else routeTarget win env path source (targetFor win source overrideName) s

def mlSaveMappingRoute (path : WString) (s : Routing) : Routing × SaveRoute :=
  if !s.saves.active then (s, .unrouted)
  else if !interesting win s.saves path then (s, .unrouted)
  else match canonicalizePath env path with
    | none => (s, .unrouted)
    | some source =>
        match if env.rootCopy then s.saves.saveRoot else none with
        | none => routeSource win env path source false s
        | some root =>
            if !pathIsUnderRoot win source root then (s, .unrouted)
            else if pathContainsLink env source root then (s, .denied)
            else
              let (writable, registered) :=
                vfsRouteWritablePath win env.guarded (env.writable 0) path s.writable
              let s := { s with writable }
              match registered with
              | some registered => (s, .mapped registered)
              | none => routeSource win env path source true s

end Route

end Yafsml.Save
