import Yafsml.Save.RoutedFiles

/-!
# Redirected saves

A game whose calls are hooked sees its own files: each save starts as the one that it had, and what it does to it
happens to the renamed copy.
-/

namespace Yafsml.Save

open Vfs Redirection

/-! ## Hooks -/

def argumentPath (argument : PathArgument × Environment) : Option (WString × Environment) :=
  argument.1.text.map fun path => (path, argument.2)

def HookedCall.context : HookedCall → Option OpenContext
  | createFileW context _ | createFileA context _ _ | createFile2 context _ _ => some context
  | _ => none

def touchArgument {Content : Type*} (win : Windows) (fold : WChar → WChar) (config : SaveMapping)
    (s : State WString Content) (argument : PathArgument × Environment) : State WString Content :=
  match namedFile fold argument with
  | some file => Redirection.touch (redirect win fold config) s file
  | none => s

/-- The call goes on under the other names of its files, which have been touched. -/
structure Passes {Content : Type*} (win : Windows) (fold : WChar → WChar) (config : SaveMapping)
    (paths : List (WString × Environment)) (s : State WString Content) (function : FileFunction)
    (arguments : List (PathArgument × Environment)) (hooked : World Content × HookEnd) : Prop where
  tracks : Tracks win fold config paths hooked.1 (arguments.foldl (touchArgument win fold config) s)
  passed : ∃ function' passed, hooked.2 = .original function' passed ∧ function'.wide = function.wide ∧
    (passed.zip (arguments.map Prod.snd)).filterMap (namedFile fold) =
      (arguments.filterMap (namedFile fold)).map (redirect win fold config)

section Hooks

variable {Content : Type*} {win : Windows} {fold : WChar → WChar} {config : SaveMapping}
  {paths : List (WString × Environment)} {w : World Content} {s : State WString Content}

theorem Tracks.argument (tracks : Tracks win fold config paths w s) (configured : Configured win fold config)
    (history : History win fold config paths) {argument : PathArgument × Environment}
    (listed : ∀ a ∈ argumentPath argument, a ∈ paths) :
    let routed := w.saveRoute win fold argument.2 argument.1
    Tracks win fold config paths routed.1 (touchArgument win fold config s argument) ∧ routed.2 ≠ .denied ∧
      namedFile fold (routed.2.or argument.1, argument.2) =
        (namedFile fold argument).map (redirect win fold config) := by
  obtain ⟨argument, env⟩ := argument
  cases text : argument.text with
  | none => simpa [World.saveRoute, touchArgument, namedFile, SaveRoute.or, text] using tracks
  | some path =>
      have member : (path, env) ∈ paths := listed _ (by simp [argumentPath, text])
      obtain ⟨source, key, names⟩ := history.names _ member
      obtain ⟨tracks', routed, named, -⟩ := tracks.saveRoute configured history member text names.canonical
      have own : namedFile fold (argument, env) = some (source.map fold) := by
        rw [namedFile, text, Option.bind_some, names.canonical, Option.map_some]
      dsimp only [touchArgument]
      rw [own]
      exact ⟨tracks', routed, named⟩

theorem routeSavePaths_passes (tracks : Tracks win fold config paths w s) (configured : Configured win fold config)
    (history : History win fold config paths) {arguments : List (PathArgument × Environment)}
    (listed : ∀ argument ∈ arguments, ∀ a ∈ argumentPath argument, a ∈ paths) :
    let routed := routeSavePaths win fold arguments w
    Tracks win fold config paths routed.1 (arguments.foldl (touchArgument win fold config) s) ∧
      ∃ passed, routed.2 = some passed ∧ (passed.zip (arguments.map Prod.snd)).filterMap (namedFile fold) =
        (arguments.filterMap (namedFile fold)).map (redirect win fold config) := by
  induction arguments generalizing w s with
  | nil => exact ⟨tracks, [], rfl, rfl⟩
  | cons argument rest ih =>
      obtain ⟨tracks', routed, named⟩ := tracks.argument configured history (listed argument List.mem_cons_self)
      obtain ⟨tracks'', passed, answer, renamed⟩ :=
        ih tracks' fun argument member => listed argument (List.mem_cons_of_mem _ member)
      simp only [routeSavePaths, if_neg routed, List.foldl_cons, answer, Option.map_some]
      refine ⟨tracks'', _, rfl, ?_⟩
      rw [List.map_cons, List.zip_cons_cons, List.filterMap_cons, named, List.filterMap_cons, renamed]
      cases namedFile fold argument <;> rfl

theorem routeCopyPaths_eq {env env' : Environment} {existing new : PathArgument} {passed : List PathArgument}
    (routed : (routeSavePaths win fold [(existing, env), (new, env')] w).2 = some passed) :
    ∃ route route', routeCopyPaths win fold env env' existing new w =
        ((routeSavePaths win fold [(existing, env), (new, env')] w).1, some (route, route')) ∧
      passed = [route.or existing, route'.or new] := by
  simp only [routeSavePaths] at routed ⊢
  split_ifs at routed ⊢ with first second
  · cases routed
  · refine ⟨_, _, ?_, (Option.some.inj routed).symm⟩
    simp only [routeCopyPaths, first, second, or_self, if_false]

theorem moveHooked_passes (tracks : Tracks win fold config paths w s) (configured : Configured win fold config)
    (history : History win fold config paths) (function : FileFunction)
    {arguments : List (PathArgument × Environment)} (listed : ∀ argument ∈ arguments, ∀ a ∈ argumentPath argument, a ∈ paths) :
    Passes win fold config paths s function arguments (moveHooked win fold function false arguments w) := by
  obtain ⟨tracks', passed, answer, renamed⟩ := routeSavePaths_passes tracks configured history listed
  unfold moveHooked
  simp only [Bool.false_eq_true, if_false, answer]
  exact ⟨tracks', function, passed, rfl, rfl, renamed⟩

theorem copyHooked_passes (tracks : Tracks win fold config paths w s) (configured : Configured win fold config)
    (history : History win fold config paths) (function : FileFunction) {env env' : Environment}
    {existing new : PathArgument} (unguarded : env.guarded = false)
    (listed : ∀ argument ∈ [(existing, env), (new, env')], ∀ a ∈ argumentPath argument, a ∈ paths) :
    Passes win fold config paths s function [(existing, env), (new, env')]
      (copyHooked win fold function env env' existing new w) := by
  obtain ⟨tracks', passed, answer, renamed⟩ := routeSavePaths_passes tracks configured history listed
  obtain ⟨route, route', routed, rfl⟩ := routeCopyPaths_eq answer
  unfold copyHooked
  simp only [unguarded, Bool.false_eq_true, if_false, routed]
  exact ⟨tracks', function, _, rfl, rfl, renamed⟩

theorem copyAnsiHooked_passes (tracks : Tracks win fold config paths w s) (configured : Configured win fold config)
    (history : History win fold config paths) (function : FileFunction) {env env' : Environment}
    {existing new : List UInt8} {wide wide' : WString} (unguarded : env.guarded = false)
    (again : function.wide.wide = function.wide)
    (listed : ∀ argument ∈ [(.ansi existing (some wide), env), (.ansi new (some wide'), env')],
      ∀ a ∈ argumentPath argument, a ∈ paths) :
    Passes win fold config paths s function [(.ansi existing (some wide), env), (.ansi new (some wide'), env')]
      (copyAnsiHooked win fold function env env' existing new (some wide) (some wide') w) := by
  have listed' : ∀ argument ∈ [(PathArgument.wide wide, env), (.wide wide', env')], ∀ a ∈ argumentPath argument,
      a ∈ paths := by
    simpa [argumentPath, PathArgument.text] using listed
  obtain ⟨tracks', passed, answer, renamed⟩ := routeSavePaths_passes tracks configured history listed'
  obtain ⟨route, route', routed, rfl⟩ := routeCopyPaths_eq answer
  unfold copyAnsiHooked
  simp only [unguarded, Bool.false_eq_true, if_false, routed]
  split
  · rename_i none
    cases none
  · rename_i unrouted
    cases unrouted
    exact ⟨tracks', function, _, rfl, rfl, renamed⟩
  · rename_i routes
    cases routes
    exact ⟨tracks', function.wide, _, rfl, again, renamed⟩

theorem World.routeWide_eq {context : OpenContext} (unguarded : context.env.guarded = false)
    (read : context.read = none) (plain : ∀ path, context.isZipPath path = false) (path : WString) :
    w.routeWide win fold context path =
      let (w, route) := w.saveRoute win fold context.env (.wide path)
      match route with
      | .mapped target => (w, .save target)
      | .denied => (w, .denied)
      | .unrouted =>
          let (w, registered) := w.routeWritable win context.env path
          (w, registered.elim .unchanged .save) := by
  have unguarded' : (context.env.on fold w.disk).guarded = false := unguarded
  simp only [World.routeWide, Save.routeWide, unguarded', Bool.false_eq_true, if_false, World.saveRoute,
    PathArgument.text]
  rcases mlSaveMappingRoute win (context.env.on fold w.disk) path w.routing with ⟨routing, route⟩
  cases route with
  | mapped target => rfl
  | denied => rfl
  | unrouted =>
      rcases registered : Save.routeWritable win context.env path routing with ⟨routing', found⟩
      have same : Save.routeWritable win (context.env.on fold w.disk) path routing = (routing', found) := registered
      simp only [World.routeWritable, same, registered, read, OpenContext.takenBack, plain, Bool.and_false,
        Bool.false_eq_true, if_false]
      cases found <;> rfl

theorem Tracks.route (tracks : Tracks win fold config paths w s) (configured : Configured win fold config)
    (history : History win fold config paths) {env : Environment} {path : WString} (member : (path, env) ∈ paths)
    {argument : PathArgument} (text : argument.text = some path) :
    let routed := w.saveRoute win fold env (.wide path)
    let other := routed.1.routeWritable win env path
    let touched := touchArgument win fold config s (argument, env)
    let named := (namedFile fold (argument, env)).map (redirect win fold config)
    (∃ target, routed.2 = .mapped target ∧ Tracks win fold config paths routed.1 touched ∧
        namedFile fold (.wide target, env) = named) ∨
      routed.2 = .unrouted ∧ other.2 = none ∧ Tracks win fold config paths other.1 touched ∧
        namedFile fold (argument, env) = named := by
  obtain ⟨source, key, names⟩ := history.names _ member
  obtain ⟨tracks', allowed, named, unmapped⟩ :=
    tracks.saveRoute configured history member (show (PathArgument.wide path).text = some path from rfl)
      names.canonical
  have own : namedFile fold (argument, env) = some (source.map fold) := by
    rw [namedFile, text, Option.bind_some, names.canonical, Option.map_some]
  simp only [touchArgument, own, Option.map_some]
  cases route : (w.saveRoute win fold env (.wide path)).2 with
  | denied => exact absurd route allowed
  | mapped target =>
      rw [route] at named
      exact .inl ⟨target, rfl, tracks', named⟩
  | unrouted =>
      obtain ⟨unregistered, tracks''⟩ :=
        tracks'.routeWritable configured history member names.canonical (unmapped route)
      have same : redirect win fold config (source.map fold) = source.map fold := by
        rw [redirect_fold configured.folds configured.again, unmapped route, Option.getD_none]
      exact .inr ⟨rfl, unregistered, tracks'', by rw [same]⟩

theorem Passes.single {env : Environment} {argument passed : PathArgument} {function function' : FileFunction}
    (tracks : Tracks win fold config paths w (touchArgument win fold config s (argument, env)))
    (wide : function'.wide = function.wide)
    (named : namedFile fold (passed, env) = (namedFile fold (argument, env)).map (redirect win fold config)) :
    Passes win fold config paths s function [(argument, env)] (w, .original function' [passed]) := by
  refine ⟨tracks, function', [passed], rfl, wide, ?_⟩
  change List.filterMap (namedFile fold) [(passed, env)] = _
  rw [List.filterMap_cons, named, List.filterMap_cons]
  cases namedFile fold (argument, env) <;> rfl

theorem routeWide_passes (tracks : Tracks win fold config paths w s) (configured : Configured win fold config)
    (history : History win fold config paths) {context : OpenContext} {path : WString}
    (member : (path, context.env) ∈ paths) (unguarded : context.env.guarded = false) (read : context.read = none)
    (plain : ∀ path, context.isZipPath path = false) {argument : PathArgument} (text : argument.text = some path)
    {function function' : FileFunction} (wide : function'.wide = function.wide) :
    let routed := w.routeWide win fold context path
    Passes win fold config paths s function [(argument, context.env)]
      (routed.1, openRouted context function argument function' routed.2) := by
  have routed := tracks.route configured history member text
  rw [World.routeWide_eq unguarded read plain]
  generalize w.saveRoute win fold context.env (.wide path) = answer at routed ⊢
  obtain ⟨w', route⟩ := answer
  rcases routed with ⟨target, rfl, tracks', named⟩ | ⟨rfl, unregistered, tracks', named⟩
  · simp only [openRouted, plain, Bool.false_eq_true, if_false]
    exact .single tracks' wide named
  · dsimp only at unregistered tracks' ⊢
    rw [unregistered]
    exact .single tracks' rfl named

theorem deleteRouted_passes (tracks : Tracks win fold config paths w s) (configured : Configured win fold config)
    (history : History win fold config paths) {env : Environment} {path : WString} (member : (path, env) ∈ paths)
    {argument : PathArgument} (text : argument.text = some path) {function : FileFunction}
    (wide : function.wide = .deleteFileW) :
    Passes win fold config paths s function [(argument, env)]
      (deleteRouted win fold env path (.original function [argument]) w) := by
  have routed := tracks.route configured history member text
  unfold deleteRouted
  generalize w.saveRoute win fold env (.wide path) = answer at routed ⊢
  obtain ⟨w', route⟩ := answer
  rcases routed with ⟨target, rfl, tracks', named⟩ | ⟨rfl, unregistered, tracks', named⟩
  · exact .single tracks' wide.symm named
  · dsimp only at unregistered tracks' ⊢
    rw [unregistered]
    exact .single tracks' rfl named

/-! ## Calls -/

/-- A call that is not one of the hooks' own, with ANSI paths that can be converted and no file from a package. -/
structure HookedCall.Ordinary (call : HookedCall) : Prop where
  unguarded : ∀ a ∈ call.arguments, a.2.guarded = false
  converted : ∀ a ∈ call.arguments, ∀ text, a.1 ≠ .ansi text none
  unserved : ∀ context ∈ call.context, context.read = none ∧ ∀ path, context.isZipPath path = false

theorem converted_some {arguments : List (PathArgument × Environment)}
    (converted : ∀ a ∈ arguments, ∀ text, a.1 ≠ .ansi text none) {text : List UInt8} {widened : Option WString}
    (argument : PathArgument × Environment) (member : argument ∈ arguments) (ansi : argument.1 = .ansi text widened) :
    ∃ wide, widened = some wide := by
  cases widened with
  | none => exact absurd ansi (converted argument member text)
  | some wide => exact ⟨wide, rfl⟩

theorem HookedCall.passes (tracks : Tracks win fold config paths w s) (configured : Configured win fold config)
    (history : History win fold config paths) {call : HookedCall} (ordinary : call.Ordinary)
    (listed : ∀ argument ∈ call.arguments, ∀ a ∈ argumentPath argument, a ∈ paths) :
    Passes win fold config paths s call.function call.arguments (call.hook win fold w) := by
  obtain ⟨unguarded, converted, unserved⟩ := ordinary
  cases call with
  | createFileW context path =>
      obtain ⟨read, plain⟩ := unserved context rfl
      have member : (path, context.env) ∈ paths := listed _ List.mem_cons_self _ rfl
      exact routeWide_passes tracks configured history member (unguarded _ List.mem_cons_self) read plain rfl rfl
  | createFileA context path widened =>
      obtain ⟨read, plain⟩ := unserved context rfl
      obtain ⟨wide, rfl⟩ := converted_some converted (.ansi path widened, context.env) List.mem_cons_self rfl
      have member : (wide, context.env) ∈ paths := listed _ List.mem_cons_self _ rfl
      exact routeWide_passes tracks configured history member (unguarded _ List.mem_cons_self) read plain rfl rfl
  | createFile2 context path sized =>
      obtain ⟨read, plain⟩ := unserved context rfl
      have member : (path, context.env) ∈ paths := listed _ List.mem_cons_self _ rfl
      have passes : Passes win fold config paths s .createFile2 [(.wide path, context.env)]
          ((w.routeWide win fold context path).1,
            openRouted context .createFile2 (.wide path) .createFile2 (w.routeWide win fold context path).2) :=
        routeWide_passes tracks configured history member (unguarded _ List.mem_cons_self) read plain rfl rfl
      obtain ⟨function, passed, original, -⟩ := passes.passed
      dsimp only at original
      simp only [hook, createFile2Hooked, original]
      rw [original] at passes
      exact passes
  | deleteFileW env path =>
      have free : env.guarded = false := unguarded (.wide path, env) List.mem_cons_self
      have member : (path, env) ∈ paths := listed _ List.mem_cons_self _ rfl
      simp only [hook, deleteFileWHooked, free, Bool.false_eq_true, if_false]
      exact deleteRouted_passes tracks configured history member rfl rfl
  | deleteFileA env path widened =>
      have free : env.guarded = false := unguarded (.ansi path widened, env) List.mem_cons_self
      obtain ⟨wide, rfl⟩ := converted_some converted (.ansi path widened, env) List.mem_cons_self rfl
      have member : (wide, env) ∈ paths := listed _ List.mem_cons_self _ rfl
      simp only [hook, deleteFileAHooked, free, Bool.false_eq_true, if_false]
      exact deleteRouted_passes tracks configured history member rfl rfl
  | copyFileW env env' existing new =>
      exact copyHooked_passes tracks configured history .copyFileW (unguarded _ List.mem_cons_self) listed
  | copyFileExW env env' existing new =>
      exact copyHooked_passes tracks configured history .copyFileExW (unguarded _ List.mem_cons_self) listed
  | copyFile2 env env' existing new =>
      exact copyHooked_passes tracks configured history .copyFile2 (unguarded _ List.mem_cons_self) listed
  | copyFileA env env' existing new widened widened' =>
      obtain ⟨wide, rfl⟩ := converted_some converted (.ansi existing widened, env) List.mem_cons_self rfl
      obtain ⟨wide', rfl⟩ := converted_some converted (.ansi new widened', env') (by simp [arguments]) rfl
      exact copyAnsiHooked_passes tracks configured history .copyFileA (unguarded _ List.mem_cons_self) rfl listed
  | copyFileExA env env' existing new widened widened' =>
      obtain ⟨wide, rfl⟩ := converted_some converted (.ansi existing widened, env) List.mem_cons_self rfl
      obtain ⟨wide', rfl⟩ := converted_some converted (.ansi new widened', env') (by simp [arguments]) rfl
      exact copyAnsiHooked_passes tracks configured history .copyFileExA (unguarded _ List.mem_cons_self) rfl listed
  | moveFileExW env env' existing new =>
      have free : env.guarded = false := unguarded (existing, env) List.mem_cons_self
      simp only [hook, moveFileExWHooked, free]
      exact moveHooked_passes tracks configured history .moveFileExW listed
  | replaceFileW env env' env'' replaced replacement backup =>
      have free : env.guarded = false := unguarded (replaced, env) List.mem_cons_self
      simp only [hook, replaceFileWHooked, free]
      exact moveHooked_passes tracks configured history .replaceFileW listed

theorem foldl_touchArgument (arguments : List (PathArgument × Environment)) :
    arguments.foldl (touchArgument win fold config) s =
      (arguments.filterMap (namedFile fold)).foldl (Redirection.touch (redirect win fold config)) s := by
  rw [List.foldl_filterMap]
  congr 1
  funext s argument
  unfold touchArgument
  cases namedFile fold argument <;> rfl

end Hooks

section Run

variable {Options Content Answer : Type*} {win : Windows} {fold : WChar → WChar} {config : SaveMapping}
  {paths : List (WString × Environment)} {w : World Content} {s : State WString Content}
  (originals : Operations WString (FileFunction × Options) Content Answer)

theorem HookedCall.perform_redirected (tracks : Tracks win fold config paths w s)
    (configured : Configured win fold config) (history : History win fold config paths) {call : HookedCall × Options}
    (ordinary : call.1.Ordinary) (listed : ∀ argument ∈ call.1.arguments, ∀ a ∈ argumentPath argument, a ∈ paths) :
    let hooked := HookedCall.perform win fold originals call w
    let redirected := Redirection.perform originals (redirect win fold config) s (HookedCall.plain fold call)
    hooked.2 = .returned redirected.2 ∧ Tracks win fold config paths hooked.1 redirected.1 := by
  obtain ⟨tracks', function, passed, original, wide, renamed⟩ :=
    HookedCall.passes tracks configured history ordinary listed
  rw [foldl_touchArgument] at tracks'
  simp only [HookedCall.perform, original, wide, renamed, Redirection.perform, HookedCall.plain, HookedCall.files]
  rw [tracks'.disk]
  exact ⟨rfl, tracks'.saves, tracks'.table, rfl, tracks'.known, tracks'.touched⟩

theorem performCalls_redirected (tracks : Tracks win fold config paths w s)
    (configured : Configured win fold config) (history : History win fold config paths)
    {calls : List (HookedCall × Options)} (ordinary : ∀ call ∈ calls, call.1.Ordinary)
    (listed : ∀ call ∈ calls, ∀ argument ∈ call.1.arguments, ∀ a ∈ argumentPath argument, a ∈ paths) :
    let hooked := performCalls win fold originals calls w
    let redirected := performAll originals (redirect win fold config) s (calls.map (HookedCall.plain fold))
    hooked.2 = redirected.2.map .returned ∧ Tracks win fold config paths hooked.1 redirected.1 := by
  induction calls generalizing w s with
  | nil => exact ⟨rfl, tracks⟩
  | cons call calls ih =>
      obtain ⟨answer, tracks'⟩ := HookedCall.perform_redirected originals tracks configured history
        (ordinary call List.mem_cons_self) (listed call List.mem_cons_self)
      obtain ⟨answers, tracks''⟩ := ih tracks' (fun call member => ordinary call (List.mem_cons_of_mem _ member))
        fun call member => listed call (List.mem_cons_of_mem _ member)
      exact ⟨congrArg₂ List.cons answer answers, tracks''⟩

def callPaths (calls : List (HookedCall × Options)) : List (WString × Environment) :=
  calls.flatMap fun call => call.1.arguments.filterMap argumentPath

def callFiles (fold : WChar → WChar) (calls : List (HookedCall × Options)) : List WString :=
  calls.flatMap fun call => call.1.files fold

theorem mem_callFiles {calls : List (HookedCall × Options)} {file : WString} (member : file ∈ callFiles fold calls) :
    ∃ a ∈ callPaths calls, ∃ source, canonicalizePath a.2 a.1 = some source ∧ source.map fold = file := by
  obtain ⟨call, there, own⟩ := List.mem_flatMap.mp member
  obtain ⟨argument, listed, named⟩ := List.mem_filterMap.mp own
  obtain ⟨path, text, named⟩ := Option.bind_eq_some_iff.mp named
  obtain ⟨source, canonical, rfl⟩ := Option.map_eq_some_iff.mp named
  exact ⟨(path, argument.2), List.mem_flatMap.mpr ⟨call, there, List.mem_filterMap.mpr ⟨argument, listed, by
    rw [argumentPath, text, Option.map_some]⟩⟩, source, canonical, rfl⟩

end Run

/-- The hooks are transparent: a game gets the answers that it would get from its own files, each of them being
at first what its other name has, if anything has that name. In the end the other names have what the files would
have, and no other file has changed. -/
theorem redirected_run {Options Content Answer : Type*} {win : Windows} {fold : WChar → WChar}
    (folds : win.CaseFold fold) (again : ∀ c, fold (fold c) = fold c) (compares : ComparesNames win)
    (originals : Operations WString (FileFunction × Options) Content Answer)
    (siblings : ∀ file file', directoryOf file = directoryOf file' → originals.near file file')
    (root : Option WString) (extensions : List (WString × WString)) (disk : WString → Option Content)
    (calls : List (HookedCall × Options)) (ordinary : ∀ call ∈ calls, call.1.Ordinary)
    (history : History win fold (configure win root extensions) (callPaths calls))
    (separate : Separate (redirect win fold (configure win root extensions)) (· ∈ callFiles fold calls)) :
    let redirect := redirect win fold (configure win root extensions)
    let hooked := performCalls win fold originals calls ⟨startRouting (configure win root extensions) true, disk⟩
    let unhooked := runAll originals (fun file => (disk (redirect file)).or (disk file))
      (calls.map (HookedCall.plain fold))
    hooked.2 = unhooked.2.map .returned ∧
      (∀ file ∈ callFiles fold calls, hooked.1.disk (redirect file) = unhooked.1 file) ∧
      ∀ file, (∀ file' ∈ callFiles fold calls, redirect file' ≠ file) → hooked.1.disk file = disk file := by
  have configured : Configured win fold (configure win root extensions) :=
    ⟨folds, again, compares, configure_accepted win root extensions⟩
  have start := tracks_start compares.toCased fold (configure win root extensions) (callPaths calls) disk
  obtain ⟨answers, tracks⟩ := performCalls_redirected originals start configured history ordinary
    fun call there argument listed a own =>
      List.mem_flatMap.mpr ⟨call, there, List.mem_filterMap.mpr ⟨argument, listed, own⟩⟩
  have near (file : WString) (member : file ∈ callFiles fold calls) :
      originals.near file (redirect win fold (configure win root extensions) file) := by
    obtain ⟨a, there, source, canonical, rfl⟩ := mem_callFiles member
    obtain ⟨source', key, names⟩ := history.names a there
    obtain rfl : source' = source := Option.some.inj (names.canonical.symm.trans canonical)
    exact siblings _ _ (directoryOf_redirect folds again compares configured.accepted names.full names.colon).symm
  have listed : ∀ call ∈ calls.map (HookedCall.plain fold), ∀ file ∈ call.2, file ∈ callFiles fold calls := by
    intro call member file there
    obtain ⟨call, performed, rfl⟩ := List.mem_map.mp member
    exact List.mem_flatMap.mpr ⟨call, performed, there⟩
  have seen (file : WString) (_ : file ∈ callFiles fold calls) :
      (disk (redirect win fold (configure win root extensions) file)).or (disk file) =
        view (redirect win fold (configure win root extensions)) ⟨disk, []⟩ file := by
    simp [view]
  obtain ⟨answers', -, contents, frame⟩ := performAll_view separate near seen listed
  refine ⟨by rw [answers, answers'], fun file member => ?_, fun file others => ?_⟩
  · obtain ⟨call, there, own⟩ := List.mem_flatMap.mp member
    rw [tracks.disk, contents _ (List.mem_map_of_mem there) file own]
  · rw [tracks.disk]
    apply frame
    intro call member file' own
    exact others file' (listed call member file' own)

/-! ## A session -/

private def sessionSaves : SaveMapping := configure asciiWindows (some (wide "C:\\r")) [(wide ".sl2", wide ".co2")]

private def contentAfter : FileFunction → List (Option Nat) → Option Nat → Option Nat
  | .deleteFileW, _, _ => none
  | .copyFileW, contents, _ => contents.head?.join
  | _, _, content => content

private def sessionCalls : Operations WString (FileFunction × Unit) Nat (List (Option Nat)) where
  near file file' := directoryOf file = directoryOf file'
  run op files disk :=
    (fun file => if file ∈ files then contentAfter op.1 (files.map disk) (disk file) else disk file, files.map disk)
  framed _ _ _ _ away := if_neg away
  renamed op names disk disk' _ _ same := by
    have contents : (names.map Prod.fst).map disk = (names.map Prod.snd).map disk' := by simpa using same
    refine ⟨contents, fun p member => ?_⟩
    dsimp only
    rw [if_pos (List.mem_map_of_mem member), if_pos (List.mem_map_of_mem member), contents, same p member]

private def sessionSave : WString := wide "C:\\r\\a.sl2"

private def sessionBackup : WString := wide "C:\\r\\a.sl2.bak"

private def session : List (HookedCall × Unit) :=
  [(.createFileW ⟨.calm some, none, fun _ => false, true⟩ sessionSave, ()),
    (.copyFileW (.calm some) (.calm some) (.wide sessionSave) (.wide sessionBackup), ()),
    (.deleteFileW (.calm some) sessionSave, ())]

private theorem session_paths {a : WString × Environment} (member : a ∈ callPaths session) :
    (a.1 = sessionSave ∨ a.1 = sessionBackup) ∧ a.2 = .calm some := by
  simp [callPaths, session, HookedCall.arguments, argumentPath, PathArgument.text] at member
  rcases member with rfl | rfl | rfl | rfl <;> simp

private theorem session_names {path : WString} (among : path = sessionSave ∨ path = sessionBackup) :
    ∃ key, Names asciiWindows sessionSaves (.calm some) path path key := by
  have unlinked (root : WString) : pathContainsLink (.calm some) path root = false := by
    simp [pathContainsLink, Environment.calm]
  rcases among with rfl | rfl
  · exact ⟨wide "r\\a.sl2", by decide, ⟨by decide, by decide, WChar.backslash, by decide, rfl⟩, by decide,
      fun root _ _ => unlinked root, fun _ => by decide, by decide, by decide, by decide⟩
  · exact ⟨wide "r\\a.sl2.bak", by decide, ⟨by decide, by decide, WChar.backslash, by decide, rfl⟩, by decide,
      fun root _ _ => unlinked root, fun _ => by decide, by decide, by decide, by decide⟩

private theorem session_spelling {path path' : WString} (among : path = sessionSave ∨ path = sessionBackup)
    (among' : path' = sessionSave ∨ path' = sessionBackup) :
    vfsNormalizePath asciiWindows path = vfsNormalizePath asciiWindows path' ↔ Alike asciiLower path path' := by
  unfold Alike
  rcases among with rfl | rfl <;> rcases among' with rfl | rfl <;> decide

private theorem session_settled {path : WString} (among : path = sessionSave ∨ path = sessionBackup) :
    ∀ target ∈ namedTarget asciiWindows sessionSaves (canonicalizePath (.calm some) path),
      canonicalizePath (.calm some) target = some target := by
  rcases among with rfl | rfl <;> decide

private theorem session_history : History asciiWindows asciiLower sessionSaves (callPaths session) where
  copies a member := (session_paths member).2 ▸ ⟨calm_works some, rfl⟩
  names a member := by
    obtain ⟨among, calm⟩ := session_paths member
    obtain ⟨key, names⟩ := session_names among
    exact ⟨a.1, key, calm ▸ names⟩
  spelling a member b there source source' canonical canonical' _ := by
    obtain ⟨among, calm⟩ := session_paths member
    obtain ⟨among', calm'⟩ := session_paths there
    obtain ⟨_, names⟩ := session_names among
    obtain ⟨_, names'⟩ := session_names among'
    rw [calm, names.canonical] at canonical
    rw [calm', names'.canonical] at canonical'
    cases canonical
    cases canonical'
    exact session_spelling among among'
  settled a member b there target named := by
    obtain ⟨among, calm⟩ := session_paths member
    obtain ⟨among', calm'⟩ := session_paths there
    rw [calm'] at named
    rw [calm]
    exact session_settled among' target named

private theorem session_ordinary : ∀ call ∈ session, call.1.Ordinary := by
  intro call member
  simp only [session, List.mem_cons, List.not_mem_nil, or_false] at member
  rcases member with rfl | rfl | rfl <;>
    exact ⟨by simp [HookedCall.arguments, Environment.calm], by simp [HookedCall.arguments],
      by simp [HookedCall.context]⟩

private theorem session_separate :
    Separate (redirect asciiWindows asciiLower sessionSaves) (· ∈ callFiles asciiLower session) := by
  have files : callFiles asciiLower session = [wide "c:\\r\\a.sl2", wide "c:\\r\\a.sl2", wide "c:\\r\\a.sl2.bak",
      wide "c:\\r\\a.sl2"] := by decide
  have apart : ∀ file ∈ callFiles asciiLower session, ∀ file' ∈ callFiles asciiLower session, file ≠ file' →
      redirect asciiWindows asciiLower sessionSaves file ≠ redirect asciiWindows asciiLower sessionSaves file' ∧
        redirect asciiWindows asciiLower sessionSaves file ≠ file' := by
    rw [files]
    decide
  exact fun file file' member member' => apart file member file' member'

theorem redirected_run_session :
    let hooked := performCalls asciiWindows asciiLower sessionCalls session
      ⟨startRouting sessionSaves true, fun file => if file = wide "c:\\r\\a.sl2" then some 7 else none⟩
    hooked.2 = [.returned [some 7], .returned [some 7, none], .returned [some 7]] ∧
      hooked.1.disk (wide "c:\\r\\a.co2.bak") = some 7 ∧ hooked.1.disk (wide "c:\\r\\a.co2") = none ∧
      hooked.1.disk (wide "c:\\r\\a.sl2") = some 7 := by
  obtain ⟨answers, contents, frame⟩ := redirected_run asciiWindows_caseFold asciiLower_idem asciiWindows_comparesNames
    sessionCalls (fun _ _ same => same) (some (wide "C:\\r")) [(wide ".sl2", wide ".co2")]
    (fun file => if file = wide "c:\\r\\a.sl2" then some 7 else none) session
    session_ordinary session_history session_separate
  have save : wide "c:\\r\\a.sl2" ∈ callFiles asciiLower session := by decide
  have backup : wide "c:\\r\\a.sl2.bak" ∈ callFiles asciiLower session := by decide
  refine ⟨answers.trans (by decide), (contents _ backup).trans (by decide), (contents _ save).trans (by decide),
    frame _ (by decide)⟩

/-- The condition on spellings matters: under a second spelling a deleted save comes back, copied once more. -/
example :
    (performCalls asciiWindows asciiLower sessionCalls
      [(.deleteFileW (.calm some) sessionSave, ()),
        (.createFileW ⟨.calm fun path => some (if path = wide "a.sl2" then sessionSave else path), none,
          fun _ => false, true⟩ (wide "a.sl2"), ())]
      ⟨startRouting sessionSaves true, fun file => if file = wide "c:\\r\\a.sl2" then some 7 else none⟩).2 =
      [.returned [some 7], .returned [some 7]] := by decide

end Yafsml.Save
