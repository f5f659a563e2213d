import Yafsml.Foundation.Redirection
import Yafsml.Save.Idempotent
import Yafsml.Vfs.ErrorCode

/-!
# Hooked file calls

The hooks of `win32_hooks.c` for files: what each of them passes on, and what becomes of the files. A file is
known by its canonical path up to letter case.
-/

namespace Yafsml.Save

open Vfs

def errorCannotMake : ErrorCode := ⟨82, by decide⟩

/-- The functions of kernelbase that are hooked for files. -/
inductive FileFunction
  | createFileW | createFileA | createFile2
  | deleteFileW | deleteFileA
  | copyFileW | copyFileExW | copyFile2 | copyFileA | copyFileExA
  | moveFileExW | replaceFileW
  deriving DecidableEq, Repr

def FileFunction.wide : FileFunction → FileFunction
  | createFileA => createFileW
  | deleteFileA => deleteFileW
  | copyFileA => copyFileW
  | copyFileExA => copyFileExW
  | function => function

/-- A path as a caller passes it: NULL, wide, or ANSI with what `ml_path_from_ansi` makes of it. -/
inductive PathArgument
  | null
  | wide (path : WString)
  | ansi (path : List UInt8) (widened : Option WString)
  deriving DecidableEq

def PathArgument.text : PathArgument → Option WString
  | null => none
  | wide path => some path
  | ansi _ widened => widened

/-- What a hook ends with: a call of the function it stands before, `ml_zip_file_open`, or an error of its own. -/
inductive HookEnd
  | original (function : FileFunction) (paths : List PathArgument)
  | zipFile (path : WString)
  | failed (error : ErrorCode)
  deriving DecidableEq

/-! ## Routes -/

structure World (Content : Type*) where
  routing : Routing
  disk : WString → Option Content

section Routes

variable {Content : Type*} (win : Windows) (fold : WChar → WChar)

def Environment.on (env : Environment) (disk : WString → Option Content) : Environment :=
  { env with fileExists := fun path => (disk (path.map fold)).isSome }

/-- The paths of the `CopyFileW` in `ml_save_mapping_route`, when the call comes to it. -/
def routeCopy (env : Environment) (path : WString) (s : Routing) : Option (WString × WString) :=
  if !s.saves.active || !interesting win s.saves path then none
  else
    (canonicalizePath env path).bind fun source =>
      (if env.rootCopy then s.saves.saveRoot else none).bind fun root =>
        if !pathIsUnderRoot win source root || pathContainsLink env source root then none
        else
          let (writable, registered) := vfsRouteWritablePath win env.guarded (env.writable 0) path s.writable
          if registered.isSome || !env.logicalCopy ||
            extensionIn win (logicalExtension win source) s.saves.failedExtensions then none
          else
            (findOverride win s.saves.mappings (logicalExtension win source)).bind fun overrideName =>
              let target := targetFor win source overrideName
              if !(env.targetName && env.directory && env.join) || (isBackup win source && !env.backup) then none
              else if (vfsRouteWritablePath win env.guarded (env.writable 1) path writable).2.isSome then none
              else if !env.fileExists target && env.fileExists source then some (source, target)
              else none

def World.copied (env : Environment) (path : WString) (w : World Content) : WString → Option Content :=
  match routeCopy win (env.on fold w.disk) path w.routing with
  | some (source, target) =>
      if env.copy = .copied then Function.update w.disk (target.map fold) (w.disk (source.map fold)) else w.disk
  | none => w.disk

/-- `ml_save_mapping_route` -/
def World.saveRoute (env : Environment) (path : PathArgument) (w : World Content) : World Content × SaveRoute :=
  match path.text with
  | none => (w, .unrouted)
  | some path =>
      let (routing, route) := mlSaveMappingRoute win (env.on fold w.disk) path w.routing
      (⟨routing, w.copied win fold env path⟩, route)

/-- What `route_wide` answers besides its path: what `mods_file_route_read` says of the path, and whether ZIP
paths are served. -/
structure OpenContext where
  env : Environment
  read : Option WString
  isZipPath : WString → Bool
  zipIoReady : Bool

def OpenContext.takenBack (context : OpenContext) (path : WString) : Bool :=
  !context.zipIoReady && context.isZipPath path

def World.routeWide (context : OpenContext) (path : WString) (w : World Content) : World Content × PathRoute :=
  let env := context.env.on fold w.disk
  let (routing, route) := Save.routeWide win env context.read context.takenBack path w.routing
  (⟨routing, if env.guarded then w.disk else w.copied win fold context.env path⟩, route)

def World.routeWritable (env : Environment) (path : WString) (w : World Content) : World Content × Option WString :=
  let (routing, registered) := Save.routeWritable win env path w.routing
  ({ w with routing }, registered)

/-! ## Hooks -/

def openRouted (context : OpenContext) (function : FileFunction) (path : PathArgument) (function' : FileFunction) :
    PathRoute → HookEnd
  | .denied => .failed errorCannotMake
  | .unchanged => .original function [path]
  | .save mapped | .read mapped =>
      if context.isZipPath mapped then .zipFile mapped else .original function' [.wide mapped]

def createFileWHooked (context : OpenContext) (path : WString) (w : World Content) : World Content × HookEnd :=
  let (w, route) := w.routeWide win fold context path
  (w, openRouted context .createFileW (.wide path) .createFileW route)

def createFileAHooked (context : OpenContext) (path : List UInt8) (widened : Option WString) (w : World Content) :
    World Content × HookEnd :=
  match widened with
  | none => (w, .original .createFileA [.ansi path none])
  | some wide =>
      let (w, route) := w.routeWide win fold context wide
      (w, openRouted context .createFileA (.ansi path widened) .createFileW route)

/-- `sized` says that the parameters are NULL or have the size of their structure. -/
def createFile2Hooked (context : OpenContext) (path : WString) (sized : Bool) (w : World Content) :
    World Content × HookEnd :=
  let (w, route) := w.routeWide win fold context path
  match openRouted context .createFile2 (.wide path) .createFile2 route with
  | .zipFile mapped => (w, if sized then .zipFile mapped else .failed errorInvalidParameter)
  | hookEnd => (w, hookEnd)

def deleteRouted (env : Environment) (path : WString) (unrouted : HookEnd) (w : World Content) :
    World Content × HookEnd :=
  let (w, route) := w.saveRoute win fold env (.wide path)
  match route with
  | .denied => (w, .failed errorCannotMake)
  | .mapped mapped => (w, .original .deleteFileW [.wide mapped])
  | .unrouted =>
      let (w, registered) := w.routeWritable win env path
      match registered with
      | some mapped => (w, .original .deleteFileW [.wide mapped])
      | none => (w, unrouted)

def deleteFileWHooked (env : Environment) (path : WString) (w : World Content) : World Content × HookEnd :=
  if env.guarded then (w, .original .deleteFileW [.wide path])
  else deleteRouted win fold env path (.original .deleteFileW [.wide path]) w

def deleteFileAHooked (env : Environment) (path : List UInt8) (widened : Option WString) (w : World Content) :
    World Content × HookEnd :=
  if env.guarded then (w, .original .deleteFileA [.ansi path widened])
  else
    match widened with
    | none => (w, .original .deleteFileA [.ansi path none])
    | some wide => deleteRouted win fold env wide (.original .deleteFileA [.ansi path widened]) w

def SaveRoute.or (path : PathArgument) : SaveRoute → PathArgument
  | .mapped target => .wide target
  | _ => path

/-- `route_copy_paths`: both paths are routed, whatever the first route says. -/
def routeCopyPaths (env env' : Environment) (existing new : PathArgument) (w : World Content) :
    World Content × Option (SaveRoute × SaveRoute) :=
  let (w, route) := w.saveRoute win fold env existing
  let (w, route') := w.saveRoute win fold env' new
  (w, if route = .denied ∨ route' = .denied then none else some (route, route'))

def copyHooked (function : FileFunction) (env env' : Environment) (existing new : PathArgument) (w : World Content) :
    World Content × HookEnd :=
  if env.guarded then (w, .original function [existing, new])
  else
    let (w, routes) := routeCopyPaths win fold env env' existing new w
    match routes with
    | none => (w, .failed errorCannotMake)
    | some (route, route') => (w, .original function [route.or existing, route'.or new])

def copyFileWHooked (env env' : Environment) (existing new : PathArgument) (w : World Content) :=
  copyHooked win fold .copyFileW env env' existing new w

def copyFileExWHooked (env env' : Environment) (existing new : PathArgument) (w : World Content) :=
  copyHooked win fold .copyFileExW env env' existing new w

/-- It returns the error as an `HRESULT`. -/
def copyFile2Hooked (env env' : Environment) (existing new : PathArgument) (w : World Content) :=
  copyHooked win fold .copyFile2 env env' existing new w

/-- What the hooks for copying with ANSI paths do: a routed path takes both to the function for wide paths. -/
def copyAnsiHooked (function : FileFunction) (env env' : Environment) (existing new : List UInt8)
    (widened widened' : Option WString) (w : World Content) : World Content × HookEnd :=
  if env.guarded then (w, .original function [.ansi existing widened, .ansi new widened'])
  else
    match widened, widened' with
    | some wide, some wide' =>
        let (w, routes) := routeCopyPaths win fold env env' (.wide wide) (.wide wide') w
        match routes with
        | none => (w, .failed errorCannotMake)
        | some (.unrouted, .unrouted) => (w, .original function [.ansi existing widened, .ansi new widened'])
        | some (route, route') => (w, .original function.wide [route.or (.wide wide), route'.or (.wide wide')])
    | _, _ => (w, .original function [.ansi existing widened, .ansi new widened'])

def copyFileAHooked (env env' : Environment) (existing new : List UInt8) (widened widened' : Option WString)
    (w : World Content) :=
  copyAnsiHooked win fold .copyFileA env env' existing new widened widened' w

def copyFileExAHooked (env env' : Environment) (existing new : List UInt8) (widened widened' : Option WString)
    (w : World Content) :=
  copyAnsiHooked win fold .copyFileExA env env' existing new widened widened' w

/-- The paths of a move or a replacement are routed one after the other, up to the first that is denied. -/
def routeSavePaths : List (PathArgument × Environment) → World Content → World Content × Option (List PathArgument)
  | [], w => (w, some [])
  | (path, env) :: rest, w =>
      let (w, route) := w.saveRoute win fold env path
      if route = .denied then (w, none)
      else
        let (w, paths) := routeSavePaths rest w
        (w, paths.map (route.or path :: ·))

def moveHooked (function : FileFunction) (guarded : Bool) (paths : List (PathArgument × Environment))
    (w : World Content) : World Content × HookEnd :=
  if guarded then (w, .original function (paths.map Prod.fst))
  else
    let (w, routed) := routeSavePaths win fold paths w
    (w, routed.elim (.failed errorCannotMake) (.original function))

def moveFileExWHooked (env env' : Environment) (existing new : PathArgument) (w : World Content) :=
  moveHooked win fold .moveFileExW env.guarded [(existing, env), (new, env')] w

def replaceFileWHooked (env env' env'' : Environment) (replaced replacement backup : PathArgument)
    (w : World Content) :=
  moveHooked win fold .replaceFileW env.guarded [(replaced, env), (replacement, env'), (backup, env'')] w

end Routes

/-! ## Calls -/

/-- A call of a hooked function, with what the system answers during it. -/
inductive HookedCall
  | createFileW (context : OpenContext) (path : WString)
  | createFileA (context : OpenContext) (path : List UInt8) (widened : Option WString)
  | createFile2 (context : OpenContext) (path : WString) (sized : Bool)
  | deleteFileW (env : Environment) (path : WString)
  | deleteFileA (env : Environment) (path : List UInt8) (widened : Option WString)
  | copyFileW (env env' : Environment) (existing new : PathArgument)
  | copyFileExW (env env' : Environment) (existing new : PathArgument)
  | copyFile2 (env env' : Environment) (existing new : PathArgument)
  | copyFileA (env env' : Environment) (existing new : List UInt8) (widened widened' : Option WString)
  | copyFileExA (env env' : Environment) (existing new : List UInt8) (widened widened' : Option WString)
  | moveFileExW (env env' : Environment) (existing new : PathArgument)
  | replaceFileW (env env' env'' : Environment) (replaced replacement backup : PathArgument)

namespace HookedCall

def function : HookedCall → FileFunction
  | createFileW .. => .createFileW
  | createFileA .. => .createFileA
  | createFile2 .. => .createFile2
  | deleteFileW .. => .deleteFileW
  | deleteFileA .. => .deleteFileA
  | copyFileW .. => .copyFileW
  | copyFileExW .. => .copyFileExW
  | copyFile2 .. => .copyFile2
  | copyFileA .. => .copyFileA
  | copyFileExA .. => .copyFileExA
  | moveFileExW .. => .moveFileExW
  | replaceFileW .. => .replaceFileW

def arguments : HookedCall → List (PathArgument × Environment)
  | createFileW context path => [(.wide path, context.env)]
  | createFileA context path widened => [(.ansi path widened, context.env)]
  | createFile2 context path _ => [(.wide path, context.env)]
  | deleteFileW env path => [(.wide path, env)]
  | deleteFileA env path widened => [(.ansi path widened, env)]
  | copyFileW env env' existing new => [(existing, env), (new, env')]
  | copyFileExW env env' existing new => [(existing, env), (new, env')]
  | copyFile2 env env' existing new => [(existing, env), (new, env')]
  | copyFileA env env' existing new widened widened' => [(.ansi existing widened, env), (.ansi new widened', env')]
  | copyFileExA env env' existing new widened widened' => [(.ansi existing widened, env), (.ansi new widened', env')]
  | moveFileExW env env' existing new => [(existing, env), (new, env')]
  | replaceFileW env env' env'' replaced replacement backup =>
      [(replaced, env), (replacement, env'), (backup, env'')]

variable {Content : Type*} (win : Windows) (fold : WChar → WChar)

def hook (call : HookedCall) (w : World Content) : World Content × HookEnd :=
  match call with
  | createFileW context path => createFileWHooked win fold context path w
  | createFileA context path widened => createFileAHooked win fold context path widened w
  | createFile2 context path sized => createFile2Hooked win fold context path sized w
  | deleteFileW env path => deleteFileWHooked win fold env path w
  | deleteFileA env path widened => deleteFileAHooked win fold env path widened w
  | copyFileW env env' existing new => copyFileWHooked win fold env env' existing new w
  | copyFileExW env env' existing new => copyFileExWHooked win fold env env' existing new w
  | copyFile2 env env' existing new => copyFile2Hooked win fold env env' existing new w
  | copyFileA env env' existing new widened widened' =>
      copyFileAHooked win fold env env' existing new widened widened' w
  | copyFileExA env env' existing new widened widened' =>
      copyFileExAHooked win fold env env' existing new widened widened' w
  | moveFileExW env env' existing new => moveFileExWHooked win fold env env' existing new w
  | replaceFileW env env' env'' replaced replacement backup =>
      replaceFileWHooked win fold env env' env'' replaced replacement backup w

end HookedCall

def namedFile (fold : WChar → WChar) (argument : PathArgument × Environment) : Option WString :=
  argument.1.text.bind fun path => (canonicalizePath argument.2 path).map (·.map fold)

inductive CallAnswer (Answer : Type*)
  | returned (answer : Answer)
  | zipFile (path : WString)
  | failed (error : ErrorCode)
  deriving DecidableEq

section Run

variable {Options Content Answer : Type*} (win : Windows) (fold : WChar → WChar)
  (originals : Redirection.Operations WString (FileFunction × Options) Content Answer)

/-- A call with its other parameters, which are passed on as they are. -/
def HookedCall.perform (call : HookedCall × Options) (w : World Content) : World Content × CallAnswer Answer :=
  let (w, hookEnd) := call.1.hook win fold w
  match hookEnd with
  | .original function paths =>
      let files := (paths.zip (call.1.arguments.map Prod.snd)).filterMap (namedFile fold)
      let (disk, answer) := originals.run (function.wide, call.2) files w.disk
      ({ w with disk }, .returned answer)
  | .zipFile path => (w, .zipFile path)
  | .failed error => (w, .failed error)

def performCalls : List (HookedCall × Options) → World Content → World Content × List (CallAnswer Answer)
  | [], w => (w, [])
  | call :: calls, w =>
      let (w, answer) := HookedCall.perform win fold originals call w
      let (w, answers) := performCalls calls w
      (w, answer :: answers)

def HookedCall.files (call : HookedCall) : List WString := call.arguments.filterMap (namedFile fold)

def HookedCall.plain (call : HookedCall × Options) : (FileFunction × Options) × List WString :=
  ((call.1.function.wide, call.2), call.1.files fold)

end Run

end Yafsml.Save
