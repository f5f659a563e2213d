import Yafsml.Save.Names

/-!
# Failing closed

When a path that Windows resolves to a watched save is routed or denied, and when the original save
slips through.
-/

namespace Yafsml.Save

open Vfs

section FailClosed

variable {win : Windows} {env : Environment} {s : Routing} {path : WString}

/-- The logical extension of `file` is mapped or remembered as failed. -/
def WatchedExtension (win : Windows) (saves : SaveMapping) (file : WString) : Prop :=
  extensionIn win (logicalExtension win file) saves.failedExtensions = true ∨
    findOverride win saves.mappings (logicalExtension win file) ≠ none

/-- Windows resolves `path` to the watched save `file`: what `GetFullPathNameW` answers for it, if it
answers, is a path to the same name, in the same spelling of the directory or another one. -/
structure NamesSave (win : Windows) (env : Environment) (s : Routing) (path file root : WString) :
    Prop where
  rooted : s.saves.saveRoot = some root
  under : pathIsUnderRoot win file root = true
  watched : WatchedExtension win s.saves file
  resolves : ∀ source, canonicalizePath env path = some source → ∃ directory directory' name,
    source = directory ++ WChar.backslash :: name ∧ file = directory' ++ WChar.backslash :: name

theorem NamesSave.logicalExtension {file root source : WString}
    (names : NamesSave win env s path file root) (canonical : canonicalizePath env path = some source) :
    logicalExtension win source = logicalExtension win file := by
  obtain ⟨directory, directory', name, rfl, rfl⟩ := names.resolves source canonical
  rw [logicalExtension_backslash, logicalExtension_backslash]

theorem WatchedExtension.active {saves : SaveMapping} {file : WString}
    (watched : WatchedExtension win saves file) : saves.active = true := by
  rcases watched with failed | mapped
  · obtain ⟨entry, member, _⟩ := List.any_eq_true.mp failed
    simp [SaveMapping.active, List.ne_nil_of_mem member]
  · obtain ⟨overrideName, found⟩ := Option.ne_none_iff_exists'.mp mapped
    obtain ⟨entry, first, _⟩ := Option.map_eq_some_iff.mp found
    simp [SaveMapping.active, List.ne_nil_of_mem (List.mem_of_find?_eq_some first)]

theorem routeTarget_ne_unrouted (source target : WString) :
    (routeTarget win env path source target s).2 ≠ .unrouted := by
  unfold routeTarget
  dsimp only
  split
  · exact SaveRoute.noConfusion
  split
  · exact SaveRoute.noConfusion
  split
  · split
    · exact SaveRoute.noConfusion
    · exact SaveRoute.noConfusion
  · exact SaveRoute.noConfusion

theorem routeSource_ne_unrouted {source : WString} (watched : WatchedExtension win s.saves source) :
    (routeSource win env path source true s).2 ≠ .unrouted := by
  unfold routeSource
  split
  · exact SaveRoute.noConfusion
  split
  · exact SaveRoute.noConfusion
  rename_i notFailed
  have mapped := watched.resolve_left notFailed
  split
  · rename_i unmapped
    exact absurd unmapped mapped
  split
  · exact SaveRoute.noConfusion
  split
  · exact SaveRoute.noConfusion
  · exact routeTarget_ne_unrouted source _

/-- Without the copy of the root only a failed extension, or another failed copy, is denied. -/
theorem routeSource_rootless (source : WString) :
    (routeSource win env path source false s).2 ≠ .unrouted ↔ env.logicalCopy = false ∨
      extensionIn win (logicalExtension win source) s.saves.failedExtensions = true := by
  unfold routeSource
  cases env.logicalCopy with
  | false => simp
  | true =>
      cases extensionIn win (logicalExtension win source) s.saves.failedExtensions with
      | false => simp
      | true => simp

/-- The condition under which the call reaches the table of saves: the filter lets the spelling pass,
`GetFullPathNameW` answers, and the answer is below the root as text; without a copy of the root it is
the extension that has to be denied. -/
def ReachesTable (win : Windows) (env : Environment) (s : Routing) (path root : WString) : Prop :=
  interesting win s.saves path = true ∧ ∃ source, canonicalizePath env path = some source ∧
    if env.rootCopy then pathIsUnderRoot win source root = true
    else env.logicalCopy = false ∨
      extensionIn win (logicalExtension win source) s.saves.failedExtensions = true

end FailClosed

private def watchedSaves : Routing :=
  ⟨configure asciiWindows (some (wide "C:\\r")) [(wide ".sl2", wide ".co2")], writableInit true⟩

private def savePath : WString := wide "C:\\r\\a.sl2"

private def answering (answer : WString) : Environment := .calm fun _ => some answer

private theorem savePath_named (path : WString) :
    NamesSave asciiWindows (answering savePath) watchedSaves path savePath (wide "C:\\r") where
  rooted := rfl
  under := by decide
  watched := .inr (by decide)
  resolves source canonical := by
    have plain : canonicalizePath (answering savePath) path = some savePath := rfl
    exact ⟨wide "C:\\r", wide "C:\\r", wide "a.sl2",
      Option.some.inj (canonical.symm.trans plain), rfl⟩

/-- So do a trailing space and a last component that `GetFullPathNameW` folds away; the extended
prefix, a path that cannot be resolved and a root that cannot be copied end the call behind the filter. -/
example :
    ([(wide "C:\\r\\a.sl2 ", answering savePath), (wide "C:\\r\\a.sl2\\.", answering savePath),
      (wide "C:\\r\\a.sl2\\x\\..", answering savePath),
      (wide "\\\\?\\C:\\r\\a.sl2", answering (wide "\\\\?\\C:\\r\\a.sl2")),
      (savePath, .calm fun _ => none), (savePath, { answering savePath with rootCopy := false })].all
      fun call => (mlSaveMappingRoute asciiWindows call.2 call.1 watchedSaves).2 = .unrouted) = true := by
  decide

end Yafsml.Save
