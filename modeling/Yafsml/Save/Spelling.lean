import Mathlib.Data.List.Induction
import Yafsml.Save.Mapping
import Yafsml.Text.Case

/-!
# Histories of routes

The memo of writable routes is keyed by the normalized spelling, the target by the file. A route gets
the target of its own file as long as one spelling stays with one file.
-/

namespace Yafsml.Save

open Vfs

/-! ## Letter case -/

def Alike (fold : WChar → WChar) (a b : WString) : Prop := a.map fold = b.map fold

section Alike

variable {win : Windows} {fold : WChar → WChar} (folds : win.CaseFold fold) {a b : WString}
  (alike : Alike fold a b)

include alike in
theorem Alike.length : a.length = b.length := by
  simpa using congrArg List.length alike

include folds alike

theorem Alike.crt : a.map win.crtFold = b.map win.crtFold := by
  rw [← folds.map_crtFold a, alike, folds.map_crtFold]

theorem Alike.isBackup : isBackup win a = isBackup win b := by
  unfold Save.isBackup
  rw [← folds.lstrcmpi (pathFindExtension a), ← folds.lstrcmpi (pathFindExtension b),
    ← pathFindExtension_map folds.marks, ← pathFindExtension_map folds.marks, alike]

theorem Alike.logicalSource : Alike fold (logicalSource win a) (logicalSource win b) := by
  unfold Save.logicalSource
  rw [alike.isBackup folds]
  split
  · unfold Alike
    rw [← pathRemoveExtension_map folds.marks, ← pathRemoveExtension_map folds.marks, alike]
  · exact alike

theorem Alike.findOverride (mappings : List MappingEntry) :
    findOverride win mappings (logicalExtension win a) =
      findOverride win mappings (logicalExtension win b) := by
  have same (entry : MappingEntry) : win.lstrcmpiEqual (logicalExtension win a) entry.extension =
      win.lstrcmpiEqual (logicalExtension win b) entry.extension := by
    unfold logicalExtension
    rw [← folds.lstrcmpi, ← folds.lstrcmpi (pathFindExtension (Save.logicalSource win b)),
      ← pathFindExtension_map folds.marks, ← pathFindExtension_map folds.marks,
      alike.logicalSource folds]
  simp only [Save.findOverride, same]

theorem Alike.buildOverrideName (overrideName : WString) :
    Alike fold (buildOverrideName win a overrideName) (buildOverrideName win b overrideName) := by
  have suffix (n : Nat) : win.wcsicmpEqual (a.drop n) overrideName =
      win.wcsicmpEqual (b.drop n) overrideName := by
    unfold Windows.wcsicmpEqual
    rw [List.map_drop, List.map_drop, alike.crt folds]
  unfold Save.buildOverrideName
  rw [alike.length, suffix]
  split
  · rfl
  split
  · exact alike
  · unfold Alike
    rw [List.map_append, List.map_append, ← pathRemoveExtension_map folds.marks,
      ← pathRemoveExtension_map folds.marks, alike]

theorem Alike.joinPath {right right' : WString} (rights : Alike fold right right') :
    Alike fold (joinPath a right) (joinPath b right') := by
  have last : (a.getLast?.any fun c => !isSeparator c) = (b.getLast?.any fun c => !isSeparator c) := by
    have same := congrArg List.getLast? alike
    rw [List.getLast?_map, List.getLast?_map] at same
    have keeps (last : Option WChar) : (last.any fun c => !isSeparator c) =
        (last.map fold).any fun c => !isSeparator c := by
      cases last with
      | none => rfl
      | some c => simp [folds.marks.isSeparator]
    rw [keeps, same, ← keeps]
  unfold Alike Save.joinPath
  rw [last, List.map_append, List.map_append, List.map_append, List.map_append, alike, rights]

theorem Alike.fileName : Alike fold (pathFindFileName a) (pathFindFileName b) := by
  unfold Alike
  rw [← pathFindFileName_map folds.marks, ← pathFindFileName_map folds.marks, alike]

theorem Alike.directoryOf : Alike fold (directoryOf a) (directoryOf b) := by
  unfold Alike Save.directoryOf
  rw [List.map_take, List.map_take, alike, alike.length, (alike.fileName folds).length]

theorem Alike.targetFor (overrideName : WString) :
    Alike fold (targetFor win a overrideName) (targetFor win b overrideName) := by
  have logical := alike.logicalSource folds
  have joined := (logical.directoryOf folds).joinPath folds
    ((logical.fileName folds).buildOverrideName folds overrideName)
  unfold Alike Save.targetFor
  rw [List.map_append, List.map_append, joined, alike.isBackup folds]

theorem Alike.pathIsUnderRoot (root : WString) :
    pathIsUnderRoot win a root = pathIsUnderRoot win b root := by
  have before : win.wcsnicmpPrefix a root = win.wcsnicmpPrefix b root := by
    unfold Windows.wcsnicmpPrefix
    rw [alike.crt folds]
  have after : (a.drop root.length).head?.any isSeparator =
      (b.drop root.length).head?.any isSeparator := by
    have keeps (path : WString) : (path.drop root.length).head?.any isSeparator =
        ((path.map fold).drop root.length).head?.any isSeparator := by
      rw [← List.map_drop, List.head?_map, Option.any_map]
      exact congrArg (Option.any · _) (funext fun c => (folds.marks.isSeparator c).symm)
    rw [keeps a, keeps b, alike]
  unfold Save.pathIsUnderRoot
  rw [alike.length, before, after]

end Alike

/-! ## Calls -/

/-- What a hook does with a path: `route_wide`, with what `mods_file_route_read` answers and the
paths that `!zip_io_ready && vfs_is_zip_path` takes back; `ml_save_mapping_route`, as the copy, move,
replace and delete hooks call it; or `vfs_route_writable_path` for a directory. -/
inductive RoutingKind
  | wide (read : Option WString) (takenBack : WString → Bool)
  | save
  | directory

structure RoutingCall where
  kind : RoutingKind
  path : WString
  env : Environment

/-- `path_route_result_t`; a mapped path is a save target or the answer of `mods_file_route_read`. -/
inductive PathRoute
  | unchanged
  | denied
  | save (target : WString)
  | read (file : WString)

section Calls

variable (win : Windows)

/-- `vfs_route_writable_path`, as the last of the calls of a hook. -/
def routeWritable (env : Environment) (path : WString) (s : Routing) : Routing × Option WString :=
  let (writable, registered) :=
    vfsRouteWritablePath win env.guarded (env.writable 3) path s.writable
  ({ s with writable }, registered)

def routeWide (env : Environment) (read : Option WString) (takenBack : WString → Bool)
    (path : WString) (s : Routing) : Routing × PathRoute :=
  if env.guarded then (s, .unchanged)
  else
    let routed := mlSaveMappingRoute win env path s
    match routed.2 with
    | .mapped target => (routed.1, .save target)
    | .denied => (routed.1, .denied)
    | .unrouted =>
        let next := routeWritable win env path routed.1
        match next.2, read with
        | some target, _ => (next.1, if takenBack target then .unchanged else .save target)
        | none, some file => (next.1, if takenBack file then .unchanged else .read file)
        | none, none => (next.1, .unchanged)

def SaveRoute.target : SaveRoute → Option WString
  | .mapped target => some target
  | _ => none

def PathRoute.target : PathRoute → Option WString
  | .save target => some target
  | _ => none

/-- The state after a call, and the save target it yields. -/
def RoutingCall.perform (call : RoutingCall) (s : Routing) : Routing × Option WString :=
  match call.kind with
  | .wide read takenBack =>
      let routed := routeWide win call.env read takenBack call.path s
      (routed.1, routed.2.target)
  | .save =>
      let routed := mlSaveMappingRoute win call.env call.path s
      (routed.1, routed.2.target)
  | .directory => routeWritable win call.env call.path s

def performRoutes (s : Routing) (calls : List RoutingCall) : Routing :=
  calls.foldl (fun s call => (call.perform win s).1) s

def RoutingCall.spelling (call : RoutingCall) : Option WString := vfsNormalizePath win call.path

def RoutingCall.canonical (call : RoutingCall) : Option WString :=
  canonicalizePath call.env call.path

/-- The target of the file a path names, when it is a mapped save below the root. -/
def namedTarget (saves : SaveMapping) (canonical : Option WString) : Option WString :=
  match canonical, saves.saveRoot with
  | some source, some root =>
      if pathIsUnderRoot win source root then saveTarget win saves.mappings source else none
  | _, _ => none

end Calls

/-! ## One call -/

section Steps

variable {win : Windows} {env : Environment} {path : WString} {s t u : Routing}

theorem namedTarget_some {saves : SaveMapping} {canonical : Option WString} {target : WString}
    (named : namedTarget win saves canonical = some target) :
    ∃ source root overrideName, canonical = some source ∧ saves.saveRoot = some root ∧
      pathIsUnderRoot win source root = true ∧
      findOverride win saves.mappings (logicalExtension win source) = some overrideName ∧
      target = targetFor win source overrideName := by
  unfold namedTarget at named
  split at named
  · rename_i source root rooted
    split at named
    · rename_i under
      obtain ⟨overrideName, mapped, rfl⟩ := Option.map_eq_some_iff.mp named
      exact ⟨source, root, overrideName, rfl, rooted, under, mapped, rfl⟩
    · cases named
  · cases named

/-- What a call changes: it may put the target `named` into the memo, under a new key. -/
structure Keeps (win : Windows) (path : WString) (named : Option WString) (s t : Routing) : Prop where
  root : t.saves.saveRoot = s.saves.saveRoot
  mappings : t.saves.mappings = s.saves.mappings
  consistent : Consistent win t.writable
  cache : t.writable.cache.isSome = s.writable.cache.isSome
  entries : t.writable.entries = s.writable.entries ∨
    ∃ key target, vfsNormalizePath win path = some key ∧ named = some target ∧
      Memo.lookup s.writable.entries key = none ∧
      t.writable.entries = s.writable.entries ++ [(key, target)]

/-- The memo answers the path with `target`. -/
def Remembers (win : Windows) (s : Routing) (path target : WString) : Prop :=
  s.writable.cache.isSome ∧ ∃ key, vfsNormalizePath win path = some key ∧
    Memo.lookup s.writable.entries key = some target

namespace Keeps

variable {named : Option WString}

theorem refl (consistent : Consistent win s.writable) : Keeps win path named s s :=
  ⟨rfl, rfl, consistent, rfl, .inl rfl⟩

theorem trans (first : Keeps win path named s t) (same : t.writable.entries = s.writable.entries)
    (second : Keeps win path named t u) : Keeps win path named s u where
  root := second.root.trans first.root
  mappings := second.mappings.trans first.mappings
  consistent := second.consistent
  cache := second.cache.trans first.cache
  entries := same ▸ second.entries

theorem fail (kept : Keeps win path named s t) (extension : WString) :
    Keeps win path named s (t.fail win extension) := by
  have same : (t.fail win extension).saves.saveRoot = t.saves.saveRoot ∧
      (t.fail win extension).saves.mappings = t.saves.mappings := by
    unfold Routing.fail rememberFailedExtension
    dsimp only
    split
    · exact ⟨rfl, rfl⟩
    split
    · exact ⟨rfl, rfl⟩
    split <;> exact ⟨rfl, rfl⟩
  exact ⟨same.1.trans kept.root, same.2.trans kept.mappings, kept.consistent, kept.cache, kept.entries⟩

end Keeps

theorem routed_keeps (path : WString) (named : Option WString) (guarded : Bool) (memory : RouteMemory)
    (consistent : Consistent win s.writable) :
    let routed := vfsRouteWritablePath win guarded memory path s.writable
    Keeps win path named s { s with writable := routed.1 } ∧
      routed.1.entries = s.writable.entries ∧
      ∀ target, routed.2 = some target → Remembers win { s with writable := routed.1 } path target := by
  intro routed
  obtain ⟨consistent', entries, cache, found⟩ :=
    vfsRouteWritablePath_spec guarded memory path consistent
  refine ⟨⟨rfl, rfl, consistent', cache, .inl entries⟩, entries, fun target answer => ?_⟩
  obtain ⟨usable, key, spelled, present⟩ := found target answer
  exact ⟨cache.trans usable, key, spelled, (congrArg (Memo.lookup · key) entries).trans present⟩

theorem Keeps.routed {named : Option WString} (kept : Keeps win path named s t) (guarded : Bool)
    (memory : RouteMemory) :
    let routed := vfsRouteWritablePath win guarded memory path t.writable
    Keeps win path named s { t with writable := routed.1 } ∧
      ∀ target, routed.2 = some target → Remembers win { t with writable := routed.1 } path target := by
  obtain ⟨next, same, remembered⟩ := routed_keeps path named guarded memory kept.consistent
  exact ⟨⟨kept.root, kept.mappings, next.consistent, next.cache.trans kept.cache,
    same ▸ kept.entries⟩, remembered⟩

theorem routeTarget_keeps {source target : WString} (consistent : Consistent win s.writable) :
    Keeps win path (some target) s (routeTarget win env path source target s).1 ∧
      ∀ answer, (routeTarget win env path source target s).2 = .mapped answer →
        Remembers win (routeTarget win env path source target s).1 path answer := by
  obtain ⟨first, same, remembered⟩ :=
    routed_keeps path (some target) env.guarded (env.writable 1) consistent
  unfold routeTarget
  dsimp only
  split
  · rename_i answer found
    refine ⟨first, fun answer' mapped => ?_⟩
    cases mapped
    exact remembered answer found
  split
  · exact ⟨first.fail _, fun _ mapped => (by cases mapped)⟩
  obtain ⟨consistent', cache, entries⟩ :=
    vfsRegisterWritablePath_spec env.register path target first.consistent
  have second : Keeps win path (some target) s
      { s with writable := (vfsRegisterWritablePath win env.register path target
        (vfsRouteWritablePath win env.guarded (env.writable 1) path s.writable).1).1 } := by
    refine first.trans same ⟨rfl, rfl, consistent', cache, ?_⟩
    rcases entries with unchanged | ⟨key, spelled, fresh, added, _⟩
    · exact .inl unchanged
    · exact .inr ⟨key, target, spelled, rfl, fresh, added⟩
  split
  · obtain ⟨third, remembered'⟩ := second.routed env.guarded (env.writable 2)
    split
    · rename_i answer found
      refine ⟨third, fun answer' mapped => ?_⟩
      cases mapped
      exact remembered' answer found
    · exact ⟨third.fail _, fun _ mapped => (by cases mapped)⟩
  · exact ⟨second.fail _, fun _ mapped => (by cases mapped)⟩

theorem routeSource_keeps (env : Environment) (path source : WString) {rooted : Bool} {named : Option WString}
    (consistent : Consistent win s.writable)
    (names : rooted = true → named = saveTarget win s.saves.mappings source) :
    Keeps win path named s (routeSource win env path source rooted s).1 ∧
      ∀ answer, (routeSource win env path source rooted s).2 = .mapped answer →
        Remembers win (routeSource win env path source rooted s).1 path answer := by
  have kept : Keeps win path named s s := .refl consistent
  unfold routeSource
  split
  · exact ⟨kept, fun _ mapped => (by cases mapped)⟩
  split
  · exact ⟨kept, fun _ mapped => (by cases mapped)⟩
  split
  · exact ⟨kept, fun _ mapped => (by cases mapped)⟩
  rename_i overrideName found
  split
  · exact ⟨kept.fail _, fun _ mapped => (by cases mapped)⟩
  split
  · exact ⟨kept, fun _ mapped => (by cases mapped)⟩
  · cases rooted with
    | false => cases found
    | true =>
        rw [if_pos rfl] at found
        obtain rfl : named = some (targetFor win source overrideName) := by
          rw [names rfl, saveTarget, found, Option.map_some]
        exact routeTarget_keeps consistent

theorem mlSaveMappingRoute_keeps (env : Environment) (path : WString) (consistent : Consistent win s.writable) :
    Keeps win path (namedTarget win s.saves (canonicalizePath env path)) s
        (mlSaveMappingRoute win env path s).1 ∧
      ∀ answer, (mlSaveMappingRoute win env path s).2 = .mapped answer →
        Remembers win (mlSaveMappingRoute win env path s).1 path answer := by
  unfold mlSaveMappingRoute
  split
  · exact ⟨.refl consistent, fun _ mapped => (by cases mapped)⟩
  split
  · exact ⟨.refl consistent, fun _ mapped => (by cases mapped)⟩
  split
  · exact ⟨.refl consistent, fun _ mapped => (by cases mapped)⟩
  rename_i source canonical
  split
  · exact routeSource_keeps env path source consistent fun rooted => (by cases rooted)
  rename_i root snapshot
  have rooted : s.saves.saveRoot = some root := by
    split at snapshot
    · exact snapshot
    · cases snapshot
  split
  · exact ⟨.refl consistent, fun _ mapped => (by cases mapped)⟩
  rename_i under
  split
  · exact ⟨.refl consistent, fun _ mapped => (by cases mapped)⟩
  have names : namedTarget win s.saves (canonicalizePath env path) =
      saveTarget win s.saves.mappings source := by
    simp only [namedTarget, canonical, rooted]
    exact if_pos (by simpa using under)
  obtain ⟨first, same, remembered⟩ := routed_keeps path
    (namedTarget win s.saves (canonicalizePath env path)) env.guarded (env.writable 0) consistent
  dsimp only
  split
  · rename_i answer found
    refine ⟨canonical ▸ first, fun answer' mapped => ?_⟩
    cases mapped
    exact remembered answer found
  · obtain ⟨second, remembered'⟩ := routeSource_keeps env path source first.consistent fun _ => names
    exact ⟨canonical ▸ first.trans same second, remembered'⟩

theorem Keeps.routeWritable {named : Option WString} (env : Environment) (kept : Keeps win path named s t) :
    Keeps win path named s (routeWritable win env path t).1 ∧
      ∀ target, (Save.routeWritable win env path t).2 = some target →
        Remembers win (Save.routeWritable win env path t).1 path target :=
  kept.routed env.guarded (env.writable 3)

theorem routeWide_keeps (env : Environment) (path : WString) (read : Option WString) (takenBack : WString → Bool)
    (consistent : Consistent win s.writable) :
    Keeps win path (namedTarget win s.saves (canonicalizePath env path)) s
        (routeWide win env read takenBack path s).1 ∧
      ∀ answer, (routeWide win env read takenBack path s).2 = .save answer →
        Remembers win (routeWide win env read takenBack path s).1 path answer := by
  obtain ⟨kept, remembered⟩ := mlSaveMappingRoute_keeps env path consistent
  obtain ⟨kept', remembered'⟩ := kept.routeWritable env
  unfold routeWide
  split
  · exact ⟨.refl consistent, fun _ routed => (by cases routed)⟩
  dsimp only
  split
  · rename_i target route
    refine ⟨kept, fun answer routed => ?_⟩
    cases routed
    exact remembered target route
  · exact ⟨kept, fun _ routed => (by cases routed)⟩
  split
  · rename_i target registered
    refine ⟨kept', fun answer routed => ?_⟩
    dsimp only at routed
    split at routed
    · cases routed
    · cases routed
      exact remembered' target registered
  · refine ⟨kept', fun answer routed => ?_⟩
    dsimp only at routed
    split at routed <;> cases routed
  · exact ⟨kept', fun _ routed => (by cases routed)⟩

theorem perform_keeps (call : RoutingCall) (consistent : Consistent win s.writable) :
    Keeps win call.path (namedTarget win s.saves call.canonical) s (call.perform win s).1 ∧
      ∀ target, (call.perform win s).2 = some target →
        Remembers win (call.perform win s).1 call.path target := by
  unfold RoutingCall.perform
  cases call.kind with
  | directory => exact (Keeps.refl consistent).routeWritable call.env
  | save =>
      obtain ⟨kept, remembered⟩ :=
        mlSaveMappingRoute_keeps call.env call.path consistent
      refine ⟨kept, fun target yielded => remembered target ?_⟩
      dsimp only at yielded
      unfold SaveRoute.target at yielded
      split at yielded
      · rename_i route
        cases yielded
        exact route
      · cases yielded
  | wide read takenBack =>
      obtain ⟨kept, remembered⟩ :=
        routeWide_keeps call.env call.path read takenBack consistent
      refine ⟨kept, fun target yielded => remembered target ?_⟩
      dsimp only at yielded
      unfold PathRoute.target at yielded
      split at yielded
      · rename_i route
        cases yielded
        exact route
      · cases yielded

end Steps

/-! ## Histories -/

section Histories

variable {win : Windows} {config : SaveMapping}

/-- What holds after the calls `history` of a process configured as `config`. -/
structure Routed (win : Windows) (config : SaveMapping) (history : List RoutingCall) (s : Routing) :
    Prop where
  root : s.saves.saveRoot = config.saveRoot
  mappings : s.saves.mappings = config.mappings
  consistent : Consistent win s.writable
  backed : Memo.Backed (RoutingCall.spelling win)
    (fun call => namedTarget win config call.canonical) history s.writable.entries

theorem namedTarget_congr {saves : SaveMapping} (root : saves.saveRoot = config.saveRoot)
    (mappings : saves.mappings = config.mappings) (canonical : Option WString) :
    namedTarget win saves canonical = namedTarget win config canonical := by
  simp only [namedTarget, root, mappings]

theorem Routed.perform {history : List RoutingCall} {s : Routing}
    (routed : Routed win config history s) (call : RoutingCall) :
    Routed win config (history ++ [call]) (call.perform win s).1 := by
  obtain ⟨kept, _⟩ := perform_keeps call routed.consistent
  refine ⟨kept.root.trans routed.root, kept.mappings.trans routed.mappings, kept.consistent, ?_⟩
  rcases kept.entries with same | ⟨key, target, spelled, named, _, added⟩
  · rw [same]
    exact routed.backed.later call
  · rw [added]
    rw [namedTarget_congr routed.root routed.mappings] at named
    exact (routed.backed.later call).remember (List.mem_append_right _ (List.mem_singleton_self _))
      spelled named

/-- The process as it starts: configured, and with no writable route yet. -/
def startRouting (config : SaveMapping) (cache : Bool) : Routing := ⟨config, writableInit cache⟩

theorem startRouting_routed (config : SaveMapping) (cache : Bool) :
    Routed win config [] (startRouting config cache) :=
  ⟨rfl, rfl, writableInit_consistent cache, .nil⟩

theorem performRoutes_routed (win : Windows) (config : SaveMapping) (cache : Bool) (calls : List RoutingCall) :
    Routed win config calls (performRoutes win (startRouting config cache) calls) := by
  induction calls using List.reverseRecOn with
  | nil => exact startRouting_routed config cache
  | append_singleton calls call ih =>
      rw [performRoutes, List.foldl_append]
      exact ih.perform call

/-- A spelling that named a mapped save still names the same file when it is used again. -/
def SpellingKeepsFile (win : Windows) (fold : WChar → WChar) (config : SaveMapping)
    (earlier later : RoutingCall) : Prop :=
  earlier.spelling win = later.spelling win →
    namedTarget win config earlier.canonical ≠ none →
      ∃ source source', earlier.canonical = some source ∧ later.canonical = some source' ∧
        Alike fold source source'

/-- In a history where no spelling changes its file, whatever is yielded for a path is the target of
the file that it names at that time, a file below the save root. -/
theorem yielded_target_of_file (fold : WChar → WChar) (folds : win.CaseFold fold)
    (config : SaveMapping) (cache : Bool) (calls : List RoutingCall)
    (condition : calls.Pairwise (SpellingKeepsFile win fold config))
    (earlier : List RoutingCall) (call : RoutingCall) (later : List RoutingCall)
    (split : calls = earlier ++ call :: later) (target : WString)
    (yielded : (call.perform win
      (performRoutes win (startRouting config cache) earlier)).2 = some target) :
    ∃ root source computed, config.saveRoot = some root ∧ call.canonical = some source ∧
      pathIsUnderRoot win source root = true ∧
      saveTarget win config.mappings source = some computed ∧ Alike fold target computed := by
  have routed := performRoutes_routed win config cache earlier
  obtain ⟨_, remembered⟩ := perform_keeps call routed.consistent
  obtain ⟨_, key, spelled, found⟩ := remembered target yielded
  obtain ⟨query, asked, same, named⟩ := (routed.perform call).backed key target (Memo.lookup_mem found)
  have own : namedTarget win config query.canonical = some target := named
  have alike : ∃ source source', query.canonical = some source ∧ call.canonical = some source' ∧
      Alike fold source source' := by
    rcases List.mem_append.mp asked with before | now
    · rw [split] at condition
      have keeps := (List.pairwise_append.mp condition).2.2 query before call (List.mem_cons_self ..)
      exact keeps (same.trans spelled.symm) (by simp [own])
    · obtain rfl := List.mem_singleton.mp now
      obtain ⟨source, _, _, canonical, _⟩ := namedTarget_some own
      exact ⟨source, source, canonical, canonical, rfl⟩
  obtain ⟨source, source', canonical, canonical', alike⟩ := alike
  obtain ⟨file, root, overrideName, known, rooted, under, override, rfl⟩ := namedTarget_some own
  obtain rfl : file = source := Option.some.inj (known.symm.trans canonical)
  refine ⟨root, source', targetFor win source' overrideName, rooted, canonical', ?_, ?_,
    alike.targetFor folds overrideName⟩
  · rw [← alike.pathIsUnderRoot folds]
    exact under
  · rw [saveTarget, ← alike.findOverride folds, override, Option.map_some]

end Histories

private def config : SaveMapping :=
  configure asciiWindows (some (wide "C:\\r")) [(wide ".sl2", wide ".co2")]

/-- A call for `path` while `GetFullPathNameW` makes it `file`. -/
private def naming (kind : RoutingKind) (path file : WString) : RoutingCall :=
  ⟨kind, path, .calm fun _ => some file⟩

private def otherCase : List RoutingCall :=
  [naming .save (wide "1\\A.sl2") (wide "C:\\r\\1\\A.sl2")]

theorem yielded_target_of_file_otherCase :
    ∃ root source computed, config.saveRoot = some root ∧
      (naming .save (wide ".\\1\\a.SL2") (wide "C:\\R\\1\\a.SL2")).canonical = some source ∧
      pathIsUnderRoot asciiWindows source root = true ∧
      saveTarget asciiWindows config.mappings source = some computed ∧
      Alike asciiLower (wide "C:\\r\\1\\A.co2") computed :=
  yielded_target_of_file asciiLower asciiWindows_caseFold config true
    (otherCase ++ [naming .save (wide ".\\1\\a.SL2") (wide "C:\\R\\1\\a.SL2")])
    (List.pairwise_pair.mpr fun _ _ => ⟨_, _, rfl, rfl, by unfold Alike; decide⟩) otherCase _ [] rfl _
    (by decide)

private def firstDirectory : RoutingCall :=
  naming .save (wide "a.sl2") (wide "C:\\r\\1\\a.sl2")

private def secondDirectory : RoutingCall :=
  naming .save (wide "a.sl2") (wide "C:\\r\\2\\a.sl2")

private def otherDrive : RoutingCall :=
  naming (.wide none fun _ => false) (wide "D:a.sl2") (wide "D:\\r\\1\\a.sl2")

/-- A spelling keeps the target of the first file it named: after a change of the current directory,
and on another drive, it leads to the save of another file. -/
theorem yielded_target_of_first_file :
    (¬ ∀ (saves : SaveMapping) (cache : Bool) (earlier : List RoutingCall) (call : RoutingCall)
      (target : WString),
      (call.perform asciiWindows
        (performRoutes asciiWindows (startRouting saves cache) earlier)).2 = some target →
      ∃ root source computed, saves.saveRoot = some root ∧ call.canonical = some source ∧
        pathIsUnderRoot asciiWindows source root = true ∧
        saveTarget asciiWindows saves.mappings source = some computed ∧
        Alike asciiLower target computed) ∧
      (otherDrive.perform asciiWindows
        (performRoutes asciiWindows (startRouting config true) [firstDirectory])).2 =
        some (wide "C:\\r\\1\\a.co2") := by
  refine ⟨fun always => ?_, by decide⟩
  obtain ⟨_, source, computed, _, canonical, _, target, alike⟩ :=
    always config true [firstDirectory] secondDirectory (wide "C:\\r\\1\\a.co2") (by decide)
  have named : secondDirectory.canonical = some (wide "C:\\r\\2\\a.sl2") := by decide
  obtain rfl := Option.some.inj (named.symm.trans canonical)
  have own : saveTarget asciiWindows config.mappings (wide "C:\\r\\2\\a.sl2") =
      some (wide "C:\\r\\2\\a.co2") := by decide
  obtain rfl := Option.some.inj (own.symm.trans target)
  exact absurd alike (by unfold Alike; decide)

end Yafsml.Save
