import Yafsml.Save.FileCalls

/-!
# Routes and the files behind them

A save that is routed for the first time gets into the table and is copied; every later route of it leads to the
copy. The table remembers which saves were touched.
-/

namespace Yafsml.Save

open Vfs Redirection

/-! ## One route -/

/-- Nothing fails, and a copy is made when it is asked for. -/
structure Environment.Copies (env : Environment) : Prop extends env.Works where
  copied : env.copy = .copied

theorem Environment.Copies.on {env : Environment} {Content : Type*} (copies : env.Copies) (fold : WChar → WChar)
    (disk : WString → Option Content) : (env.on fold disk).Copies :=
  ⟨⟨copies.unguarded, copies.rootCopy, copies.prefixCopy, copies.logicalCopy, copies.build, copies.backup,
    copies.copy, copies.writable, copies.register⟩, copies.copied⟩

/-- The path names the file `source`, under a spelling that the filter and the table of routes can deal with. -/
structure Names (win : Windows) (config : SaveMapping) (env : Environment) (path source key : WString) : Prop where
  canonical : canonicalizePath env path = some source
  full : Canonical source
  colon : WChar.colon ∉ mlPathFilename source
  unlinked : ∀ root, config.saveRoot = some root → pathIsUnderRoot win source root = true →
    pathContainsLink env source root = false
  passes : namedTarget win config (some source) ≠ none → interesting win config path = true
  allowed : extensionIn win (logicalExtension win source) config.failedExtensions = false
  spelled : vfsNormalizePath win path = some key
  nonempty : key ≠ []

theorem Names.on {win : Windows} {config : SaveMapping} {env : Environment} {path source key : WString}
    {Content : Type*} (names : Names win config env path source key) (fold : WChar → WChar)
    (disk : WString → Option Content) : Names win config (env.on fold disk) path source key :=
  ⟨names.canonical, names.full, names.colon, names.unlinked, names.passes, names.allowed, names.spelled, names.nonempty⟩

section Route

variable {win : Windows} {env : Environment} {path source key : WString} {s : Routing}

theorem namedTarget_active {saves : SaveMapping} (named : namedTarget win saves (some source) ≠ none) :
    saves.active = true := by
  obtain ⟨target, named⟩ := Option.ne_none_iff_exists'.mp named
  obtain ⟨_, _, _, _, _, _, override, _⟩ := namedTarget_some named
  obtain ⟨entry, found, -⟩ := Option.map_eq_some_iff.mp override
  simp [SaveMapping.active, List.ne_nil_of_mem (List.mem_of_find?_eq_some found)]

/-- The state in which the routes for this spelling are looked up. -/
structure Table (win : Windows) (s : Routing) : Prop where
  cased : win.Cased
  consistent : Consistent win s.writable
  cache : s.writable.cache.isSome

theorem Table.routed (table : Table win s) (works : env.Works) (spelled : vfsNormalizePath win path = some key)
    (i : Nat) :
    let routed := vfsRouteWritablePath win env.guarded (env.writable i) path s.writable
    routed.2 = Memo.lookup s.writable.entries key ∧ routed.1.entries = s.writable.entries ∧
      Table win { s with writable := routed.1 } := by
  obtain ⟨consistent, entries, cache, -⟩ :=
    vfsRouteWritablePath_spec env.guarded (env.writable i) path table.consistent
  refine ⟨?_, entries, table.cased, consistent, cache.trans table.cache⟩
  rw [works.unguarded, vfsRouteWritablePath_exact table.cased table.consistent table.cache (works.writable i).1
    (works.writable i).2, spelled, Option.bind_some]

theorem routeTarget_works (source : WString) (table : Table win s) (works : env.Works)
    (spelled : vfsNormalizePath win path = some key)
    (nonempty : key ≠ []) (fresh : Memo.lookup s.writable.entries key = none) {target : WString}
    (somewhere : target ≠ []) :
    let routed := routeTarget win env path source target s
    routed.2 = .mapped target ∧ routed.1.saves = s.saves ∧ Table win routed.1 ∧
      routed.1.writable.entries = s.writable.entries ++ [(key, target)] := by
  obtain ⟨first, entries, table'⟩ := table.routed works spelled 1
  obtain ⟨registered, added⟩ := vfsRegisterWritablePath_fresh works.register.1 works.register.2.1
    works.register.2.2 somewhere nonempty spelled ((congrArg (Memo.lookup · key) entries).trans fresh)
  obtain ⟨consistent, cache, -⟩ := vfsRegisterWritablePath_spec env.register path target table'.consistent
  have table'' : Table win ⟨s.saves, (vfsRegisterWritablePath win env.register path target
      (vfsRouteWritablePath win env.guarded (env.writable 1) path s.writable).1).1⟩ :=
    ⟨table.cased, consistent, cache.trans table'.cache⟩
  obtain ⟨last, entries', table'''⟩ := table''.routed works spelled 2
  rw [added, entries, Memo.lookup_append _ _ _ _ fresh, if_pos rfl] at last
  dsimp only at last
  unfold routeTarget
  simp only [first, fresh, works.copy, decide_false, Bool.and_false, Bool.false_eq_true, if_false, registered,
    if_true, last]
  refine ⟨trivial, trivial, table''', ?_⟩
  rw [entries', added, entries]

theorem route_known (table : Table win s) (works : env.Works) (names : Names win s.saves env path source key)
    (named : namedTarget win s.saves (some source) ≠ none) {target : WString}
    (known : Memo.lookup s.writable.entries key = some target) :
    let routed := mlSaveMappingRoute win env path s
    routed.2 = .mapped target ∧ routed.1.saves = s.saves ∧ Table win routed.1 ∧
      routed.1.writable.entries = s.writable.entries ∧ routeCopy win env path s = none := by
  obtain ⟨_, same⟩ := Option.ne_none_iff_exists'.mp named
  obtain ⟨_, root, _, same, rooted, under, _, -⟩ := namedTarget_some same
  cases same
  obtain ⟨first, entries, table'⟩ := table.routed works names.spelled 0
  have active := namedTarget_active named
  have passes := names.passes named
  have unlinked := names.unlinked root rooted under
  unfold mlSaveMappingRoute routeCopy
  simp only [active, passes, names.canonical, works.rootCopy, rooted, under, unlinked, first, known, Bool.not_true,
    Bool.or_false, Bool.false_eq_true, if_false, if_true, Option.bind_some, Option.isSome_some, Bool.true_or]
  exact ⟨trivial, trivial, table', entries, trivial⟩

/-- A new spelling of a mapped save gets into the table; what the file has is copied where nothing has the name. -/
theorem route_new (table : Table win s) (works : env.Works) (names : Names win s.saves env path source key)
    {target : WString} (named : namedTarget win s.saves (some source) = some target) (somewhere : target ≠ [])
    (fresh : Memo.lookup s.writable.entries key = none) :
    let routed := mlSaveMappingRoute win env path s
    routed.2 = .mapped target ∧ routed.1.saves = s.saves ∧ Table win routed.1 ∧
      routed.1.writable.entries = s.writable.entries ++ [(key, target)] ∧
      routeCopy win env path s =
        if !env.fileExists target && env.fileExists source then some (source, target) else none := by
  have some_target : namedTarget win s.saves (some source) ≠ none := by simp [named]
  obtain ⟨_, root, overrideName, same, rooted, under, override, rfl⟩ := namedTarget_some named
  cases same
  obtain ⟨first, entries, table'⟩ := table.routed works names.spelled 0
  obtain ⟨second, -, -⟩ := table'.routed works names.spelled 1
  have active := namedTarget_active some_target
  have passes := names.passes some_target
  have unlinked := names.unlinked root rooted under
  obtain ⟨answer, saves, table'', added⟩ := routeTarget_works source table' works names.spelled
    names.nonempty ((congrArg (Memo.lookup · key) entries).trans fresh) somewhere
  dsimp only at second
  rw [entries, fresh] at second
  unfold mlSaveMappingRoute routeCopy
  simp only [active, passes, names.canonical, works.rootCopy, rooted, under, unlinked, first, fresh, second,
    Bool.not_true,
    Bool.or_false, Bool.false_eq_true, if_false, if_true, Option.bind_some, Option.isSome_none, works.logicalCopy,
    names.allowed, override, works.build, works.backup, Bool.and_false]
  unfold routeSource
  simp only [works.logicalCopy, names.allowed, override, works.build, works.backup, Bool.not_true, Bool.and_false,
    Bool.false_eq_true, if_false, if_true]
  exact ⟨answer, saves, table'', added.trans (congrArg (· ++ _) entries), trivial⟩

theorem route_other (table : Table win s) (works : env.Works) (names : Names win s.saves env path source key)
    (other : namedTarget win s.saves (some source) = none) (fresh : Memo.lookup s.writable.entries key = none) :
    let routed := mlSaveMappingRoute win env path s
    routed.2 = .unrouted ∧ routed.1.saves = s.saves ∧ Table win routed.1 ∧
      routed.1.writable.entries = s.writable.entries ∧ routeCopy win env path s = none := by
  obtain ⟨first, entries, table'⟩ := table.routed works names.spelled 0
  have unchanged : s.saves = s.saves ∧ Table win s ∧ s.writable.entries = s.writable.entries := ⟨rfl, table, rfl⟩
  unfold mlSaveMappingRoute routeCopy
  cases active : s.saves.active with
  | false => simpa using unchanged
  | true =>
  cases passes : interesting win s.saves path with
  | false => simpa using unchanged
  | true =>
  cases rooted : s.saves.saveRoot with
  | none =>
      simp only [names.canonical, works.rootCopy, if_true, Bool.not_true, Bool.or_false, Bool.false_eq_true, if_false]
      unfold routeSource
      simpa [works.logicalCopy, names.allowed] using unchanged
  | some root =>
  cases under : pathIsUnderRoot win source root with
  | false => simpa [names.canonical, works.rootCopy, under] using unchanged
  | true =>
      have unmapped : findOverride win s.saves.mappings (logicalExtension win source) = none := by
        simpa [namedTarget, rooted, under, saveTarget] using other
      have unlinked := names.unlinked root rooted under
      simp only [names.canonical, works.rootCopy, under, unlinked, first, fresh, Bool.not_true, Bool.or_false,
        Bool.false_eq_true, if_false, if_true, Option.bind_some, Option.isSome_none, works.logicalCopy, names.allowed,
        unmapped, Option.bind_none]
      unfold routeSource
      simp only [works.logicalCopy, names.allowed, unmapped, Bool.not_true, Bool.false_eq_true, if_false, if_true]
      exact ⟨trivial, trivial, table', entries, trivial⟩

end Route

/-! ## Other names -/

/-- The name of a file in the world behind the hooks. -/
def redirect (win : Windows) (fold : WChar → WChar) (config : SaveMapping) (file : WString) : WString :=
  ((namedTarget win config (some file)).map (·.map fold)).getD file

/-- How Windows compares names, and what was configured. -/
structure Configured (win : Windows) (fold : WChar → WChar) (config : SaveMapping) : Prop where
  folds : win.CaseFold fold
  again : ∀ c, fold (fold c) = fold c
  compares : ComparesNames win
  accepted : ∀ entry ∈ config.mappings, Accepted win entry

section Redirect

variable {win : Windows} {fold : WChar → WChar} {config : SaveMapping} {source target : WString}

theorem Alike.namedTarget (folds : win.CaseFold fold) {a b : WString} (alike : Alike fold a b) (config : SaveMapping) :
    (namedTarget win config (some a)).map (·.map fold) = (namedTarget win config (some b)).map (·.map fold) := by
  unfold Save.namedTarget
  cases config.saveRoot with
  | none => rfl
  | some root =>
      dsimp only
      rw [alike.pathIsUnderRoot folds, saveTarget, saveTarget, alike.findOverride folds]
      split_ifs
      · rw [Option.map_map, Option.map_map]
        exact congrArg (Option.map · _) (funext (alike.targetFor folds))
      · rfl

theorem Alike.named (folds : win.CaseFold fold) {a b : WString} (alike : Alike fold a b)
    (named : Save.namedTarget win config (some a) ≠ none) : Save.namedTarget win config (some b) ≠ none := by
  intro other
  have same := alike.namedTarget folds config
  rw [other, Option.map_none, Option.map_eq_none_iff] at same
  exact named same

theorem redirect_fold (folds : win.CaseFold fold) (idem : ∀ c, fold (fold c) = fold c) (config : SaveMapping)
    (source : WString) :
    redirect win fold config (source.map fold) = ((namedTarget win config (some source)).getD source).map fold := by
  have alike : Alike fold (source.map fold) source := by
    rw [Alike, List.map_map]
    exact List.map_congr_left fun c _ => idem c
  rw [redirect, alike.namedTarget folds config]
  cases namedTarget win config (some source) <;> rfl

theorem namedTarget_sibling (compares : ComparesNames win) (accepted : ∀ entry ∈ config.mappings, Accepted win entry)
    (full : Canonical source) (colon : WChar.colon ∉ mlPathFilename source)
    (named : namedTarget win config (some source) = some target) :
    ∃ directory name name', source = directory ++ WChar.backslash :: name ∧
      target = directory ++ WChar.backslash :: name' ∧ Plain name ∧ Plain name' := by
  obtain ⟨_, root, overrideName, same, rooted, under, override, rfl⟩ := namedTarget_some named
  cases same
  obtain ⟨directory, name, rfl, -, component, component'⟩ := full.components under
    (logicalExtension_ne_nil compares config.mappings (fun entry member => (accepted entry member).dotted)
      (by rw [override]; exact Option.some_ne_none _))
  have plain : Plain name := ⟨component, by rwa [mlPathFilename_backslash directory component] at colon⟩
  have plainLogical : Plain (logicalSource win name) :=
    ⟨component', fun member => plain.colon ((logicalSource_isPrefix win name).subset member)⟩
  exact ⟨directory, name, _, rfl, targetFor_backslash directory plain component'.nonempty overrideName, plain,
    renamed_plain (findOverride_valid accepted override) plainLogical _⟩

theorem directoryOf_backslash {directory name : WString} (plain : Plain name) :
    directoryOf (directory ++ WChar.backslash :: name) = directory ++ [WChar.backslash] := by
  rw [directoryOf, pathFindFileName_backslash directory plain, List.append_cons, List.length_append,
    Nat.add_sub_cancel, List.take_left]

theorem directoryOf_map (folds : win.CaseFold fold) (path : WString) :
    directoryOf (path.map fold) = (directoryOf path).map fold := by
  rw [directoryOf, pathFindFileName_map folds.marks, List.length_map, List.length_map, directoryOf, List.map_take]

theorem directoryOf_redirect (folds : win.CaseFold fold) (idem : ∀ c, fold (fold c) = fold c)
    (compares : ComparesNames win) (accepted : ∀ entry ∈ config.mappings, Accepted win entry)
    (full : Canonical source) (colon : WChar.colon ∉ mlPathFilename source) :
    directoryOf (redirect win fold config (source.map fold)) = directoryOf (source.map fold) := by
  rw [redirect_fold folds idem]
  cases named : namedTarget win config (some source) with
  | none => rfl
  | some target =>
      obtain ⟨directory, name, name', rfl, rfl, plain, plain'⟩ :=
        namedTarget_sibling compares accepted full colon named
      rw [Option.getD_some, directoryOf_map folds, directoryOf_map folds, directoryOf_backslash plain,
        directoryOf_backslash plain']

end Redirect

/-! ## Histories of paths -/

/-- The paths of a history: a save has one spelling, and a spelling names no other file. -/
structure History (win : Windows) (fold : WChar → WChar) (config : SaveMapping)
    (paths : List (WString × Environment)) : Prop where
  copies : ∀ a ∈ paths, a.2.Copies
  names : ∀ a ∈ paths, ∃ source key, Names win config a.2 a.1 source key
  spelling : ∀ a ∈ paths, ∀ b ∈ paths, ∀ source source', canonicalizePath a.2 a.1 = some source →
    canonicalizePath b.2 b.1 = some source' → namedTarget win config (some source) ≠ none →
    (vfsNormalizePath win a.1 = vfsNormalizePath win b.1 ↔ Alike fold source source')
  settled : ∀ a ∈ paths, ∀ b ∈ paths, ∀ target, namedTarget win config (canonicalizePath b.2 b.1) = some target →
    canonicalizePath a.2 target = some target

/-- The world behind the hooks has the disk, and its table the files that were touched. -/
structure Tracks {Content : Type*} (win : Windows) (fold : WChar → WChar) (config : SaveMapping)
    (paths : List (WString × Environment)) (w : World Content) (s : State WString Content) : Prop where
  saves : w.routing.saves = config
  table : Table win w.routing
  disk : w.disk = s.disk
  known : ∀ key target, Memo.lookup w.routing.writable.entries key = some target → ∃ a ∈ paths, ∃ source,
    vfsNormalizePath win a.1 = some key ∧ canonicalizePath a.2 a.1 = some source ∧
      namedTarget win config (some source) = some target ∧ source.map fold ∈ s.touched
  touched : ∀ a ∈ paths, ∀ source key, canonicalizePath a.2 a.1 = some source → vfsNormalizePath win a.1 = some key →
    namedTarget win config (some source) ≠ none → source.map fold ∈ s.touched →
      Memo.lookup w.routing.writable.entries key ≠ none

section Routes

variable {Content : Type*} {win : Windows} {fold : WChar → WChar} {config : SaveMapping}
  {paths : List (WString × Environment)} {w : World Content} {s : State WString Content}
  {a : WString × Environment} {source key : WString}

theorem Tracks.of_known (tracks : Tracks win fold config paths w s) (history : History win fold config paths)
    (member : a ∈ paths) (names : Names win config a.2 a.1 source key) {target : WString}
    (known : Memo.lookup w.routing.writable.entries key = some target) :
    ∃ b ∈ paths, ∃ source', namedTarget win config (canonicalizePath b.2 b.1) = some target ∧
      namedTarget win config (some source') = some target ∧ Alike fold source' source ∧
      source.map fold ∈ s.touched := by
  obtain ⟨b, there, source', spelled, canonical, named, touched⟩ := tracks.known key target known
  have alike := (history.spelling b there a member source' source canonical names.canonical (by simp [named])).mp
    (spelled.trans names.spelled.symm)
  exact ⟨b, there, source', canonical ▸ named, named, alike, alike ▸ touched⟩

theorem Tracks.unknown (tracks : Tracks win fold config paths w s) (history : History win fold config paths)
    (folds : win.CaseFold fold) (member : a ∈ paths) (names : Names win config a.2 a.1 source key)
    (fresh : namedTarget win config (some source) ≠ none → source.map fold ∉ s.touched) :
    Memo.lookup w.routing.writable.entries key = none := by
  by_contra known
  obtain ⟨target, known⟩ := Option.ne_none_iff_exists'.mp known
  obtain ⟨_, _, source', -, named, alike, before⟩ := tracks.of_known history member names known
  exact fresh (alike.named folds (by simp [named])) before

theorem tracks_start (cased : win.Cased) (fold : WChar → WChar) (config : SaveMapping)
    (paths : List (WString × Environment)) (disk : WString → Option Content) :
    Tracks win fold config paths ⟨startRouting config true, disk⟩ ⟨disk, []⟩ where
  saves := rfl
  table := ⟨cased, writableInit_consistent true, rfl⟩
  disk := rfl
  known _ _ known := absurd known (Option.some_ne_none _).symm
  touched _ _ _ _ _ _ _ before := absurd before List.not_mem_nil

theorem Tracks.touch (tracks : Tracks win fold config paths w s) (folds : win.CaseFold fold) (member : a ∈ paths)
    (history : History win fold config paths) (names : Names win config a.2 a.1 source key) {routing : Routing}
    {disk : WString → Option Content} (saves : routing.saves = config) (table : Table win routing)
    (copied : disk = (Redirection.touch (redirect win fold config) s (source.map fold)).disk)
    (entries : routing.writable.entries = w.routing.writable.entries ∧
        (namedTarget win config (some source) ≠ none → Memo.lookup w.routing.writable.entries key ≠ none) ∨
      ∃ target, namedTarget win config (some source) = some target ∧
        Memo.lookup w.routing.writable.entries key = none ∧
        routing.writable.entries = w.routing.writable.entries ++ [(key, target)]) :
    Tracks win fold config paths ⟨routing, disk⟩
      (Redirection.touch (redirect win fold config) s (source.map fold)) where
  saves := saves
  table := table
  disk := copied
  known key' target known := by
    have earlier (known : Memo.lookup w.routing.writable.entries key' = some target) : ∃ a ∈ paths, ∃ source',
        vfsNormalizePath win a.1 = some key' ∧ canonicalizePath a.2 a.1 = some source' ∧
          namedTarget win config (some source') = some target ∧
          source'.map fold ∈ (Redirection.touch (redirect win fold config) s (source.map fold)).touched := by
      obtain ⟨b, there, source', spelled, canonical, named, touched⟩ := tracks.known key' target known
      exact ⟨b, there, source', spelled, canonical, named, mem_touch.mpr (.inr touched)⟩
    rcases entries with ⟨same, -⟩ | ⟨target', named, fresh, added⟩
    · exact earlier (same ▸ known)
    · rw [added, Memo.lookup_append _ _ _ _ fresh] at known
      split_ifs at known with same
      · cases known
        exact ⟨a, member, source, same ▸ names.spelled, names.canonical, named, mem_touch.mpr (.inl rfl)⟩
      · exact earlier known
  touched b there source' key' canonical spelled named touched := by
    have kept (known : Memo.lookup w.routing.writable.entries key' ≠ none) :
        Memo.lookup routing.writable.entries key' ≠ none := by
      rcases entries with ⟨same, -⟩ | ⟨target', _, fresh, added⟩
      · rwa [same]
      · rw [added, Memo.lookup_append _ _ _ _ fresh]
        split_ifs
        · simp
        · exact known
    rcases mem_touch.mp touched with same | before
    · have alike : Alike fold source' source := same
      have spelled' := (history.spelling b there a member source' source canonical names.canonical named).mpr alike
      obtain rfl : key' = key := Option.some.inj ((spelled.symm.trans spelled').trans names.spelled)
      rcases entries with ⟨-, known⟩ | ⟨target', _, fresh, added⟩
      · exact kept (known (alike.named folds named))
      · rw [added, Memo.lookup_append _ _ _ _ fresh, if_pos rfl]
        exact Option.some_ne_none _
    · exact kept (tracks.touched b there source' key' canonical spelled named before)

theorem copied_new {env : Environment} {path target : WString} (copy : env.copy = .copied)
    (asked : routeCopy win (env.on fold w.disk) path w.routing =
      if !(env.on fold w.disk).fileExists target && (env.on fold w.disk).fileExists source then some (source, target)
      else none) :
    w.copied win fold env path =
      if (w.disk (target.map fold)).isNone then Function.update w.disk (target.map fold) (w.disk (source.map fold))
      else w.disk := by
  have nothing (free : w.disk (target.map fold) = none) (none : w.disk (source.map fold) = none) :
      Function.update w.disk (target.map fold) (w.disk (source.map fold)) = w.disk := by
    rw [none, ← free, Function.update_eq_self]
  rw [World.copied, asked]
  simp only [Environment.on]
  by_cases free : w.disk (target.map fold) = none
  · by_cases empty : w.disk (source.map fold) = none
    · rw [nothing free empty]
      simp [free, empty]
    · simp [free, Option.isSome_iff_ne_none.mpr empty, copy]
  · simp [Option.isSome_iff_ne_none.mpr free, free]

theorem Tracks.routeWritable (tracks : Tracks win fold config paths w s) (configured : Configured win fold config)
    (history : History win fold config paths) (member : a ∈ paths)
    (canonical : canonicalizePath a.2 a.1 = some source) (other : namedTarget win config (some source) = none) :
    (w.routeWritable win a.2 a.1).2 = none ∧ Tracks win fold config paths (w.routeWritable win a.2 a.1).1 s := by
  obtain ⟨source', key, names⟩ := history.names a member
  obtain rfl : source' = source := Option.some.inj (names.canonical.symm.trans canonical)
  have unknown := tracks.unknown history configured.folds member names fun named => absurd other named
  obtain ⟨found, entries, table⟩ := tracks.table.routed (history.copies a member).toWorks names.spelled 3
  refine ⟨found.trans unknown, tracks.saves, table, tracks.disk, fun key target known => ?_, ?_⟩
  · exact tracks.known key target (entries ▸ known)
  · intro b there source key canonical spelled named before
    have known := tracks.touched b there source key canonical spelled named before
    exact entries ▸ known

/-- The route of a path leads to the other name of its file, which has been touched then. -/
theorem Tracks.saveRoute (tracks : Tracks win fold config paths w s) (configured : Configured win fold config)
    (history : History win fold config paths) (member : a ∈ paths) {argument : PathArgument}
    (text : argument.text = some a.1) (canonical : canonicalizePath a.2 a.1 = some source) :
    let routed := w.saveRoute win fold a.2 argument
    Tracks win fold config paths routed.1 (Redirection.touch (redirect win fold config) s (source.map fold)) ∧
      routed.2 ≠ .denied ∧
      namedFile fold (routed.2.or argument, a.2) = some (redirect win fold config (source.map fold)) ∧
      (routed.2 = .unrouted → namedTarget win config (some source) = none) := by
  obtain ⟨source', key, names⟩ := history.names a member
  obtain rfl : source' = source := Option.some.inj (names.canonical.symm.trans canonical)
  have works := ((history.copies a member).on fold w.disk).toWorks
  have names' := names.on fold w.disk
  have folded := redirect_fold configured.folds configured.again config source'
  obtain ⟨folds, -, compares, accepted⟩ := configured
  rw [← tracks.saves] at names'
  have table := tracks.table
  cases named : namedTarget win config (some source') with
  | none =>
      have fresh := tracks.unknown history folds member names fun named' => absurd named named'
      obtain ⟨answer, saves, table', entries, copy⟩ := route_other table works names' (tracks.saves ▸ named) fresh
      rw [named, Option.getD_none] at folded
      simp only [World.saveRoute, text, World.copied, copy, answer]
      refine ⟨tracks.touch folds member history names (saves.trans tracks.saves) table' ?_
        (.inl ⟨entries, fun named' => absurd named named'⟩), nofun, ?_, fun _ => trivial⟩
      · rw [touch_disk_kept folded, tracks.disk]
      · change namedFile fold (argument, a.2) = _
        rw [namedFile, text, Option.bind_some, canonical, folded]
        rfl
  | some target =>
      have mapped : namedTarget win config (some source') ≠ none := by simp [named]
      rw [named, Option.getD_some] at folded
      obtain ⟨directory, name, name', -, shape, -⟩ := namedTarget_sibling compares accepted names.full names.colon named
      cases found : Memo.lookup w.routing.writable.entries key with
      | some target' =>
          obtain ⟨answer, saves, table', entries, copy⟩ :=
            route_known table works names' (tracks.saves ▸ mapped) found
          obtain ⟨b, there, source'', earlier, named', alike, before⟩ := tracks.of_known history member names found
          have same := alike.namedTarget folds config
          rw [named, named', Option.map_some, Option.map_some, Option.some.injEq] at same
          have settled := history.settled a member b there target' earlier
          -- the table has the target as the first path spelled it, alike at least
          simp only [World.saveRoute, text, World.copied, copy, answer]
          refine ⟨tracks.touch folds member history names (saves.trans tracks.saves) table' ?_
            (.inl ⟨entries, fun _ => by simp [found]⟩), nofun, ?_, nofun⟩
          · rw [touch_before before, tracks.disk]
          · rw [SaveRoute.or, namedFile, PathArgument.text, Option.bind_some, settled, folded, ← same]
            rfl
      | none =>
          obtain ⟨answer, saves, table', entries, copy⟩ :=
            route_new table works names' (tracks.saves ▸ named) (by simp [shape]) found
          have settled := history.settled a member a member target (canonical ▸ named)
          have fresh : source'.map fold ∉ s.touched := fun before =>
            tracks.touched a member source' key canonical names.spelled mapped before found
          simp only [World.saveRoute, text, answer]
          refine ⟨tracks.touch folds member history names (saves.trans tracks.saves) table' ?_
            (.inr ⟨target, named, found, entries⟩), nofun, ?_, nofun⟩
          · -- the route copies exactly where `seed` does
            rw [touch_disk_new fresh, ← tracks.disk, seed, folded, copied_new (history.copies a member).copied copy]
          · rw [SaveRoute.or, namedFile, PathArgument.text, Option.bind_some, settled, folded]
            rfl

end Routes

end Yafsml.Save
