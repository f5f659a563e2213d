import Yafsml.Save.Names
import Yafsml.Save.Spelling

/-!
# Routing a target again

The nested calls of a hooked copy route a target once more. Whether that settles is decided by its
name: the table must leave it alone.
-/

namespace Yafsml.Save

open Vfs

/-- What `GetFullPathNameW` answers has no forward slash and no `..`, and a drive or a server in front of the
file. -/
structure Canonical (source : WString) : Prop where
  slash : WChar.slash ∉ source
  upward : [WChar.dot, WChar.dot] ∉ pathParts source
  rooted : ∃ c ∈ dropSeparators source, isSeparator c = true

/-- How the comparisons of Windows treat the names of saves. -/
structure ComparesNames (win : Windows) : Prop extends win.Cased where
  empty : ∀ text, win.lstrcmpiEqual [] (WChar.dot :: text) = false
  self : win.lstrcmpiEqual backupExtension backupExtension = true

section Names

variable {win : Windows}

/-- A file below the root is a directory, a backslash and a name, and the root is in the directory. -/
theorem Canonical.split {source root : WString} (canonical : Canonical source)
    (under : pathIsUnderRoot win source root = true) :
    ∃ directory, source = directory ++ WChar.backslash :: mlPathFilename source ∧
      root.length ≤ directory.length := by
  obtain ⟨before, whole, separated⟩ := mlPathFilename_split source
  have separator : (source.drop root.length).head?.any isSeparator = true := by
    simp only [pathIsUnderRoot, Bool.and_eq_true] at under
    exact under.2
  obtain ⟨c, first, kind⟩ := (Option.any_eq_true _ _).mp separator
  have inside : root.length < before.length := by
    by_contra outside
    have dropped : source.drop root.length =
        (mlPathFilename source).drop (root.length - before.length) := by
      conv_lhs => rw [whole, List.drop_append, List.drop_eq_nil_of_le (by omega), List.nil_append]
    rw [dropped] at first
    have member := List.mem_of_mem_drop (List.mem_of_mem_head? first)
    rw [not_isSeparator_of_mem_mlPathFilename member] at kind
    cases kind
  rcases List.eq_nil_or_concat before with rfl | ⟨directory, d, rfl⟩
  · cases inside
  · rw [List.concat_eq_append] at whole separated
    have last : isSeparator d = true := separated d (by simp)
    have member : d ∈ source := by
      rw [whole]
      simp
    obtain rfl : d = WChar.backslash := by
      simp only [isSeparator, Bool.or_eq_true, beq_iff_eq] at last
      exact last.resolve_right fun slash => canonical.slash (slash ▸ member)
    rw [List.concat_eq_append, List.length_append, List.length_singleton] at inside
    refine ⟨directory, ?_, by omega⟩
    rwa [List.append_assoc, List.singleton_append] at whole

theorem pathIsUnderRoot_sibling {directory name name' root : WString}
    (inside : root.length ≤ directory.length)
    (under : pathIsUnderRoot win (directory ++ WChar.backslash :: name) root = true) :
    pathIsUnderRoot win (directory ++ WChar.backslash :: name') root = true := by
  have front (name : WString) : (directory ++ WChar.backslash :: name).take root.length =
      directory.take root.length := List.take_append_of_le_length inside
  have next (name : WString) : ((directory ++ WChar.backslash :: name).drop root.length).head? =
      ((directory ++ [WChar.backslash]).drop root.length).head? := by
    rw [List.append_cons, List.drop_append_of_le_length (by simp; omega), List.head?_append]
    refine Option.or_of_isSome ?_
    rw [List.isSome_head?, ne_eq, List.drop_eq_nil_iff]
    simp
    omega
  simp only [pathIsUnderRoot, Windows.wcsnicmpPrefix, Bool.and_eq_true, decide_eq_true_eq, ← List.map_take,
    front, next, List.length_append, List.length_cons] at under ⊢
  refine ⟨⟨⟨under.1.1.1, by omega⟩, under.1.2⟩, under.2⟩

theorem logicalExtension_ne_nil (compares : ComparesNames win) (mappings : List MappingEntry)
    (dotted : ∀ entry ∈ mappings, entry.extension.head? = some WChar.dot) {extension : WString}
    (mapped : findOverride win mappings extension ≠ none) : extension ≠ [] := by
  rintro rfl
  obtain ⟨_, found⟩ := Option.ne_none_iff_exists'.mp mapped
  obtain ⟨entry, first, _⟩ := Option.map_eq_some_iff.mp found
  have equal : win.lstrcmpiEqual [] entry.extension = true := by
    simpa using List.find?_some first
  obtain ⟨text, spelled⟩ : ∃ text, entry.extension = WChar.dot :: text := by
    have := dotted entry (List.mem_of_find?_eq_some first)
    cases extension : entry.extension with
    | nil =>
        rw [extension] at this
        cases this
    | cons c text =>
        rw [extension, List.head?_cons, Option.some.injEq] at this
        exact ⟨text, by rw [this]⟩
  rw [spelled, compares.empty] at equal
  cases equal

theorem ordinalEqual_append (front a b : WString) :
    win.ordinalEqual (front ++ a) (front ++ b) = win.ordinalEqual a b := by
  rw [Bool.eq_iff_iff, Windows.ordinalEqual, Windows.ordinalEqual, beq_iff_eq, beq_iff_eq,
    List.map_append, List.map_append, List.append_cancel_left_eq]

theorem ordinalEqual_backslash (directory a b : WString) :
    win.ordinalEqual (directory ++ WChar.backslash :: a) (directory ++ WChar.backslash :: b) = win.ordinalEqual a b := by
  rw [List.append_cons, List.append_cons directory WChar.backslash b, ordinalEqual_append]

/-- The override names the file already: it is the name, or the end of the name, which then names no stream. -/
def Fits (win : Windows) (overrideName name : WString) : Prop :=
  if overrideName.head? ≠ some WChar.dot then win.ordinalEqual overrideName name = true
  else WChar.colon ∉ name ∧ ((name.length > overrideName.length ∧
      win.wcsicmpEqual (name.drop (name.length - overrideName.length)) overrideName = true) ∨
    win.ordinalEqual overrideName (pathFindExtension name) = true)

theorem ordinalEqual_last (marks : KeepsMarks win.ordinalFold) {mark : WChar} (among : mark ∈ pathMarks)
    {a b : WString} (same : win.ordinalEqual a b = true) (last : b.getLast? = some mark) : a.getLast? = some mark := by
  rw [Windows.ordinalEqual, beq_iff_eq] at same
  have folded := congrArg List.getLast? same
  rw [List.getLast?_map, List.getLast?_map, last, Option.map_some, (marks mark among mark).mpr rfl] at folded
  obtain ⟨c, found, mapped⟩ := Option.map_eq_some_iff.mp folded
  rw [found, (marks mark among c).mp mapped]

theorem mem_of_map_eq {fold : WChar → WChar} (keeps : KeepsMarks fold) {mark : WChar} (among : mark ∈ pathMarks)
    {a b : WString} (same : a.map fold = b.map fold) (member : mark ∈ b) : mark ∈ a := by
  have folded : mark ∈ a.map fold := by
    rw [same]
    exact List.mem_map.mpr ⟨mark, member, (keeps mark among mark).mpr rfl⟩
  obtain ⟨c, inside, mapped⟩ := List.mem_map.mp folded
  exact (keeps mark among c).mp mapped ▸ inside

theorem ordinalEqual_mem (marks : KeepsMarks win.ordinalFold) {mark : WChar} (among : mark ∈ pathMarks)
    {a b : WString} (same : win.ordinalEqual a b = true) (member : mark ∈ b) : mark ∈ a := by
  rw [Windows.ordinalEqual, beq_iff_eq] at same
  exact mem_of_map_eq marks among same member

theorem wcsicmpEqual_mem (crt : KeepsMarks win.crtFold) {mark : WChar} (among : mark ∈ pathMarks)
    {a b : WString} (same : win.wcsicmpEqual a b = true) (member : mark ∈ b) : mark ∈ a := by
  rw [Windows.wcsicmpEqual, beq_iff_eq] at same
  exact mem_of_map_eq crt among same member

section Fitting

variable (marks : KeepsMarks win.ordinalFold) {overrideName : WString}
  (valid : validOverrideName win overrideName = true)

include marks valid

theorem not_fits_of_colon {name : WString} (colon : WChar.colon ∈ name) : ¬ Fits win overrideName name := by
  unfold Fits
  split
  · exact fun same => (validOverrideName_plain valid).1.colon (ordinalEqual_mem marks (by decide) same colon)
  · exact fun fits => fits.1 colon

variable (crt : KeepsMarks win.crtFold)

include crt

/-- A colon at the end of a name belongs to its extension, so it goes with it. -/
theorem buildOverrideName_fits {name : WString}
    (ends : WChar.colon ∈ name → name.getLast? = some WChar.colon) :
    win.ordinalEqual (buildOverrideName win name overrideName) name = true ↔
      Fits win overrideName name := by
  by_cases colon : WChar.colon ∈ name
  · refine iff_of_false (fun same => ?_) (not_fits_of_colon marks valid colon)
    exact buildOverrideName_last valid crt (by decide)
      (fun last => (validOverrideName_plain valid).1.colon (List.mem_of_getLast? last)) name
      (ordinalEqual_last marks (by decide) same (ends colon))
  unfold buildOverrideName Fits
  split
  · rfl
  rw [and_iff_right colon]
  split
  · rename_i ends
    rw [Bool.and_eq_true, decide_eq_true_eq] at ends
    exact iff_of_true (beq_self_eq_true _) (.inl ends)
  · rename_i ends
    rw [Bool.and_eq_true, decide_eq_true_eq] at ends
    have whole (text : WString) : win.ordinalEqual text name =
        win.ordinalEqual text (pathRemoveExtension name ++ pathFindExtension name) := by
      rw [pathRemoveExtension_append]
    rw [whole, ordinalEqual_append]
    exact ⟨.inr, fun fits => fits.resolve_left ends⟩

end Fitting

/-- With a case mapping that keeps dots, two names agree only if their stems and their extensions do. -/
theorem ordinalEqual_extension (marks : KeepsMarks win.ordinalFold) {a b x y : WString}
    (dotless : WChar.dot ∉ x) (dotless' : WChar.dot ∉ y) :
    win.ordinalEqual (a ++ WChar.dot :: x) (b ++ WChar.dot :: y) = true ↔
      win.ordinalEqual a b = true ∧ win.ordinalEqual (WChar.dot :: x) (WChar.dot :: y) = true := by
  have dot : win.ordinalFold WChar.dot = WChar.dot := (marks WChar.dot (by decide) WChar.dot).mpr rfl
  have folded {text : WString} (dotless : WChar.dot ∉ text) : WChar.dot ∉ text.map win.ordinalFold := by
    intro member
    obtain ⟨c, among, same⟩ := List.mem_map.mp member
    exact dotless ((marks WChar.dot (by decide) c).mp same ▸ among)
  simp only [Windows.ordinalEqual, beq_iff_eq, List.map_append, List.map_cons, dot]
  constructor
  · intro same
    rcases List.append_eq_append_iff.mp same with ⟨more, whole, rest⟩ | ⟨more, whole, rest⟩
    · cases more with
      | nil => exact ⟨by simpa using whole.symm, by simpa using rest⟩
      | cons c more =>
          rw [List.cons_append, List.cons.injEq] at rest
          exact absurd (rest.2 ▸ by simp) (folded dotless)
    · cases more with
      | nil => exact ⟨by simpa using whole, by simpa using rest.symm⟩
      | cons c more =>
          rw [List.cons_append, List.cons.injEq] at rest
          exact absurd (rest.2 ▸ by simp) (folded dotless')
  · rintro ⟨front, back⟩
    rw [front, back]

theorem renamed_fits (compares : ComparesNames win) (marks : KeepsMarks win.ordinalFold)
    {overrideName name : WString} (valid : validOverrideName win overrideName = true)
    (ends : WChar.colon ∈ logicalSource win name → (logicalSource win name).getLast? = some WChar.colon) :
    win.ordinalEqual (renamed win (isBackup win name) (logicalSource win name) overrideName) name = true ↔
      Fits win overrideName (logicalSource win name) ∧
        (isBackup win name = true → win.ordinalEqual (pathFindExtension name) backupExtension = true) := by
  rw [← buildOverrideName_fits marks valid compares.crt ends]
  unfold renamed logicalSource
  cases backup : isBackup win name with
  | false => simp
  | true =>
      have dotted : ∃ rest, pathFindExtension name = WChar.dot :: rest ∧ WChar.dot ∉ rest := by
        apply (pathFindExtension_dot name).resolve_left
        intro none
        rw [isBackup, none, backupExtension, show wide ".bak" = WChar.dot :: wide "bak" by decide,
          compares.empty] at backup
        cases backup
      obtain ⟨rest, extension, dotless⟩ := dotted
      have own : backupExtension = WChar.dot :: wide "bak" := by decide
      have whole (text : WString) : win.ordinalEqual text name =
          win.ordinalEqual text (pathRemoveExtension name ++ WChar.dot :: rest) := by
        rw [← extension, pathRemoveExtension_append]
      rw [if_pos rfl, if_pos rfl, whole, extension, own,
        ordinalEqual_extension marks (show WChar.dot ∉ wide "bak" by decide) dotless]
      simp only [Windows.ordinalEqual, beq_iff_eq, true_implies]
      exact and_congr_right fun _ => eq_comm

/-- The table leaves alone what it sees as the save `logical`: it neither denies its extension nor renames
it. -/
def SaveStays (win : Windows) (saves : SaveMapping) (logical : WString) : Prop :=
  extensionIn win (pathFindExtension logical) saves.failedExtensions = false ∧
    ∀ overrideName, findOverride win saves.mappings (pathFindExtension logical) = some overrideName →
      Fits win overrideName logical

/-- The table leaves a file name alone. A backup of a mapped save has to end in `.bak` up to letter case. -/
def NameStays (win : Windows) (saves : SaveMapping) (name : WString) : Prop :=
  SaveStays win saves (logicalSource win name) ∧
    (findOverride win saves.mappings (logicalExtension win name) ≠ none → isBackup win name = true →
      win.ordinalEqual (pathFindExtension name) backupExtension = true)

/-- The table leaves the name alone that the override gives to the save `logical`, or to its backup. Behind a
backup that name is a save's, and `.bak` follows it. -/
def RenamedStays (win : Windows) (saves : SaveMapping) (backup : Bool) (logical overrideName : WString) : Prop :=
  let stays := if backup then SaveStays win saves else NameStays win saves
  if overrideName.head? ≠ some WChar.dot then stays overrideName
  else if logical.length > overrideName.length ∧
      win.wcsicmpEqual (logical.drop (logical.length - overrideName.length)) overrideName = true then
    extensionIn win (pathFindExtension logical) saves.failedExtensions = false
  else stays (pathRemoveExtension logical ++ overrideName)

theorem nameStays_backup (compares : ComparesNames win) (saves : SaveMapping) (logical : WString) :
    NameStays win saves (logical ++ backupExtension) ↔ SaveStays win saves logical := by
  rw [NameStays, logicalSource_backup compares.self, pathFindExtension, findExtension_backup]
  exact and_iff_left fun _ _ => beq_self_eq_true _

/-- A save whose name carries the override has an extension of its own, and no colon. -/
theorem nameStays_renamed (compares : ComparesNames win) {saves : SaveMapping} {backup : Bool}
    {logical overrideName : WString} (valid : validOverrideName win overrideName = true)
    (ends : WChar.colon ∈ logical → logical.getLast? = some WChar.colon)
    (own : WChar.dot ∈ logical →
      findOverride win saves.mappings (pathFindExtension logical) = some overrideName ∧
        (backup = false → isBackup win logical = false)) :
    NameStays win saves (renamed win backup logical overrideName) ↔
      RenamedStays win saves backup logical overrideName := by
  have built (given : WString) : NameStays win saves (given ++ if backup then backupExtension else []) ↔
      (if backup then SaveStays win saves else NameStays win saves) given := by
    cases backup with
    | false => simp
    | true => simpa using nameStays_backup compares saves given
  have last : (buildOverrideName win logical overrideName).getLast? ≠ some WChar.colon :=
    buildOverrideName_last valid compares.crt (by decide)
      (fun last => (validOverrideName_plain valid).1.colon (List.mem_of_getLast? last)) logical
  unfold renamed
  unfold buildOverrideName at last ⊢
  unfold RenamedStays
  dsimp only
  split
  · exact built overrideName
  rename_i suffix
  rw [if_neg suffix] at last
  simp only [Bool.and_eq_true, decide_eq_true_eq] at last ⊢
  split
  · rename_i carried
    rw [if_pos carried] at last
    rw [built]
    obtain ⟨mapped, save⟩ := own (List.mem_of_mem_drop
      (wcsicmpEqual_mem compares.crt (by decide) carried.2 (List.mem_of_head? (not_not.mp suffix))))
    have fits : Fits win overrideName logical := by
      rw [Fits, if_neg suffix]
      exact ⟨fun member => last (ends member), .inl carried⟩
    have stays : SaveStays win saves logical ↔
        extensionIn win (pathFindExtension logical) saves.failedExtensions = false := by
      refine and_iff_left fun overrideName' mapped' => ?_
      rw [mapped, Option.some.injEq] at mapped'
      exact mapped' ▸ fits
    cases backup with
    | true => simpa using stays
    | false =>
        have same : logicalSource win logical = logical := by rw [logicalSource, save rfl, if_neg Bool.false_ne_true]
        simp [NameStays, same, save rfl, stays]
  · exact built _

theorem stripSeparators_eq {path : WString} {c : WChar} (last : path.getLast? = some c)
    (plain : isSeparator c = false) : stripSeparators path = path := by
  unfold stripSeparators
  have kept : ((path.drop 1).reverse.dropWhile isSeparator).reverse = path.drop 1 := by
    rw [List.reverse_eq_iff]
    cases reversed : (path.drop 1).reverse with
    | nil => rfl
    | cons d rest =>
        have same : (path.drop 1).getLast? = some d := by
          rw [← List.head?_reverse, reversed, List.head?_cons]
        rw [List.getLast?_drop] at same
        split at same
        · cases same
        · rw [last, Option.some.injEq] at same
          rw [List.dropWhile_cons_of_neg (by simp [← same, plain])]
  rw [kept, List.take_append_drop]

end Names

/-! ## The nested call -/

/-- `GetFullPathNameW` leaves a target as it is. -/
def Leaves (env : Environment) (target : WString) : Prop :=
  ∀ answer, env.fullPath target = some answer → answer = target

/-- Nothing fails during the calls that have this environment. -/
structure Environment.Works (env : Environment) : Prop where
  unguarded : env.guarded = false
  rootCopy : env.rootCopy = true
  prefixCopy : env.prefixCopy = true
  logicalCopy : env.logicalCopy = true
  build : (env.targetName && env.directory && env.join) = true
  backup : env.backup = true
  copy : env.copy ≠ .failed
  writable : ∀ i, (env.writable i).normalize = true ∧ (env.writable i).cacheKey = true
  register : env.register.normalize = true ∧ env.register.path = true ∧ env.register.grow = true

/-- Nothing fails in a call for a path that is its own full path. -/
structure Unfailing (env : Environment) (path : WString) : Prop extends env.Works where
  fullPath : env.fullPath path = some path

/-- Nothing fails in the call, and the target goes through no link. -/
structure Undisturbed (env : Environment) (target : WString) : Prop extends Unfailing env target where
  links : ∀ path, env.isLink path = false

theorem Undisturbed.unlinked {env : Environment} {target : WString} (calm : Undisturbed env target)
    (root : WString) : pathContainsLink env target root = false := by
  unfold pathContainsLink
  split
  · rfl
  · simp [calm.prefixCopy, calm.links]

theorem calm_works (fullPath : WString → Option WString) : (Environment.calm fullPath).Works :=
  ⟨rfl, rfl, rfl, rfl, rfl, rfl, CopyOutcome.noConfusion, fun _ => ⟨rfl, rfl⟩, rfl, rfl, rfl⟩

theorem calm_undisturbed (target : WString) : Undisturbed (.calm fun _ => some target) target :=
  ⟨⟨calm_works _, rfl⟩, fun _ => rfl⟩

/-- Routed to itself or not at all; denied only by a failure of the call. -/
def Settled (win : Windows) (env : Environment) (target : WString) : SaveRoute → Prop
  | .unrouted => True
  | .denied => ¬ Undisturbed env target
  | .mapped target' => win.ordinalEqual target' target = true

def remembered (win : Windows) (s : Routing) (path : WString) : Option WString :=
  (vfsNormalizePath win path).bind (Memo.lookup s.writable.entries)

/-- A path below the root that is the canonical path of itself, in the state `s` of its process. -/
structure Routable (win : Windows) (s : Routing) (root path key : WString) : Prop where
  rooted : s.saves.saveRoot = some root
  active : s.saves.active = true
  consistent : Consistent win s.writable
  cache : s.writable.cache.isSome
  under : pathIsUnderRoot win path root = true
  spelled : vfsNormalizePath win path = some key
  nonempty : key ≠ []
  stripped : stripSeparators path = path

section Routable

variable {win : Windows} {s : Routing} {env : Environment} {root path key : WString}
  (routable : Routable win s root path key)

include routable

theorem Routable.routed (env : Environment) (i : Nat) :
    let routed := vfsRouteWritablePath win env.guarded (env.writable i) path s.writable
    Routable win { s with writable := routed.1 } root path key ∧
      remembered win { s with writable := routed.1 } path = remembered win s path := by
  obtain ⟨consistent, entries, cache, _⟩ :=
    vfsRouteWritablePath_spec env.guarded (env.writable i) path routable.consistent
  exact ⟨⟨routable.rooted, routable.active, consistent, cache.trans routable.cache, routable.under,
    routable.spelled, routable.nonempty, routable.stripped⟩, by simp only [remembered, entries]⟩

theorem routeTarget_unfailing (calm : Unfailing env path) (cased : win.Cased)
    (forgotten : remembered win s path = none) (source : WString) {target : WString} (nonempty : target ≠ []) :
    (routeTarget win env path source target s).2 = .mapped target := by
  have forgotten' : Memo.lookup s.writable.entries key = none := by
    rwa [remembered, routable.spelled, Option.bind_some] at forgotten
  have route (i : Nat) {w : Writable} (consistent : Consistent win w) (cache : w.cache.isSome) :
      (vfsRouteWritablePath win env.guarded (env.writable i) path w).2 =
        Memo.lookup w.entries key := by
    rw [calm.unguarded, vfsRouteWritablePath_exact cased consistent cache (calm.writable i).1
      (calm.writable i).2, routable.spelled, Option.bind_some]
  obtain ⟨consistent, entries, cache, _⟩ :=
    vfsRouteWritablePath_spec env.guarded (env.writable 1) path routable.consistent
  obtain ⟨registered, added⟩ := vfsRegisterWritablePath_fresh calm.register.1 calm.register.2.1
    calm.register.2.2 nonempty routable.nonempty routable.spelled
    ((congrArg (Memo.lookup · key) entries).trans forgotten')
  obtain ⟨consistent', cache', _⟩ :=
    vfsRegisterWritablePath_spec env.register path target consistent
  have answer := route 2 consistent' (by rw [cache', cache]; exact routable.cache)
  rw [added, entries, Memo.lookup_append _ _ _ _ forgotten', if_pos rfl] at answer
  unfold routeTarget
  simp only [route 1 routable.consistent routable.cache, forgotten', calm.copy, decide_false, Bool.and_false,
    Bool.false_eq_true, if_false, registered, if_true, answer]

theorem route_unfailing (calm : Unfailing env path) (unlinked : pathContainsLink env path root = false)
    (cased : win.Cased) (passes : interesting win s.saves path = true)
    (renames : ∀ overrideName,
      findOverride win s.saves.mappings (logicalExtension win path) = some overrideName →
        targetFor win path overrideName ≠ []) :
    (mlSaveMappingRoute win env path s).2 =
      match remembered win s path with
      | some other => .mapped other
      | none =>
          if extensionIn win (logicalExtension win path) s.saves.failedExtensions then .denied
          else match findOverride win s.saves.mappings (logicalExtension win path) with
            | none => .unrouted
            | some overrideName => .mapped (targetFor win path overrideName) := by
  have canonical : canonicalizePath env path = some path := by
    rw [canonicalizePath, calm.fullPath, Option.map_some, routable.stripped]
  have answer : (vfsRouteWritablePath win env.guarded (env.writable 0) path s.writable).2 =
      remembered win s path := by
    rw [calm.unguarded, vfsRouteWritablePath_exact cased routable.consistent routable.cache
      (calm.writable 0).1 (calm.writable 0).2, remembered]
  unfold mlSaveMappingRoute
  simp only [routable.active, passes, Bool.not_true, Bool.false_eq_true, if_false, canonical, calm.rootCopy,
    if_true, routable.rooted, routable.under, unlinked, answer]
  cases memo : remembered win s path with
  | some other => rfl
  | none =>
      dsimp only
      unfold routeSource
      simp only [calm.logicalCopy, Bool.not_true, Bool.false_eq_true, if_false, if_true, calm.build,
        calm.backup, Bool.and_false]
      split
      · rfl
      cases mapped : findOverride win s.saves.mappings (logicalExtension win path) with
      | none => rfl
      | some overrideName =>
        obtain ⟨routable', same⟩ := routable.routed env 0
        exact routeTarget_unfailing routable' calm cased (same.trans memo) path
          (renames overrideName mapped)

end Routable

/-- What a target below the root is, when it was made from a canonical path. -/
structure Target (win : Windows) (s : Routing) (root target directory name key : WString) :
    Prop where
  rooted : s.saves.saveRoot = some root
  active : s.saves.active = true
  consistent : Consistent win s.writable
  cache : s.writable.cache.isSome
  split : target = directory ++ WChar.backslash :: name
  component : Component name
  under : pathIsUnderRoot win target root = true
  spelled : vfsNormalizePath win target = some key
  nonempty : key ≠ []

section Nested

variable {win : Windows} {s : Routing} {env : Environment}
  {root target directory name key : WString} (made : Target win s root target directory name key)

include made

theorem Target.stripSeparators : stripSeparators target = target := by
  obtain ⟨front, c, same⟩ := (List.eq_nil_or_concat name).resolve_left made.component.nonempty
  rw [List.concat_eq_append] at same
  refine stripSeparators_eq (c := c) ?_ (made.component.separators c (by simp [same]))
  rw [made.split, same, ← List.cons_append, ← List.append_assoc, List.getLast?_concat]

theorem Target.routable : Routable win s root target key :=
  ⟨made.rooted, made.active, made.consistent, made.cache, made.under, made.spelled, made.nonempty,
    made.stripSeparators⟩

/-- What the memo has for the target is the target, unless the filter passes over it; if it has nothing, the
table leaves the name alone that the override gave to the save `logical` or to its backup. -/
def Stays (win : Windows) (s : Routing) (target : WString) (backup : Bool) (logical overrideName : WString) : Prop :=
  match remembered win s target with
  | some other => interesting win s.saves target = true → win.ordinalEqual other target = true
  | none => RenamedStays win s.saves backup logical overrideName

theorem Target.logicalExtension : logicalExtension win target = Save.logicalExtension win name := by
  rw [made.split, logicalExtension_backslash]

/-- Whatever fails, a nested call maps the target to what the memo or the table has for it. -/
theorem Target.mapped {target' : WString} (leaves : Leaves env target)
    (routed : (mlSaveMappingRoute win env target s).2 = .mapped target') :
    remembered win s target = some target' ∨ (remembered win s target = none ∧
      saveTarget win s.saves.mappings target = some target') := by
  obtain ⟨kept, answered⟩ := mlSaveMappingRoute_keeps env target made.consistent
  obtain ⟨_, key', spelled, found⟩ := answered target' routed
  obtain rfl : key = key' := Option.some.inj (made.spelled.symm.trans spelled)
  have memo : remembered win s target = Memo.lookup s.writable.entries key := by
    rw [remembered, made.spelled, Option.bind_some]
  rw [memo]
  rcases kept.entries with same | ⟨key'', target'', spelled', named, fresh, added⟩
  · exact .inl (same ▸ found)
  · obtain rfl : key = key'' := Option.some.inj (made.spelled.symm.trans spelled')
    rw [added, Memo.lookup_append _ _ _ _ fresh, if_pos rfl, Option.some.injEq] at found
    subst found
    refine .inr ⟨fresh, ?_⟩
    obtain ⟨source, _, overrideName, canonical, _, _, mapped, rfl⟩ := namedTarget_some named
    obtain ⟨answer, answered, rfl⟩ := Option.map_eq_some_iff.mp canonical
    obtain rfl := leaves answer answered
    rw [made.stripSeparators] at mapped ⊢
    rw [saveTarget, mapped, Option.map_some]

theorem Target.nameStays (passes : interesting win s.saves target = false) : NameStays win s.saves name := by
  have own : pathFindExtension target = pathFindExtension name := by
    rw [made.split, pathFindExtension_backslash]
  simp only [interesting, own, Bool.or_eq_false_iff] at passes
  obtain ⟨⟨save, allowed⟩, unmapped⟩ := passes
  have logical : logicalSource win name = name := by
    rw [logicalSource, isBackup, save, if_neg Bool.false_ne_true]
  have none : findOverride win s.saves.mappings (pathFindExtension name) = none := by
    rw [findOverride, Option.map_eq_none_iff, List.find?_eq_none]
    simpa using unmapped
  rw [NameStays, SaveStays, logical, Save.logicalExtension, logical, none]
  exact ⟨⟨allowed, by simp⟩, fun some => absurd rfl some⟩

theorem interesting_of_routed (env : Environment)
    (routed : (mlSaveMappingRoute win env target s).2 ≠ .unrouted) :
    interesting win s.saves target = true := by
  by_contra passes
  refine routed ?_
  unfold mlSaveMappingRoute
  rw [if_neg (by simp [made.active]), if_pos (by simpa using passes)]

variable (compares : ComparesNames win) (marks : KeepsMarks win.ordinalFold)
  (accepted : ∀ entry ∈ s.saves.mappings, Accepted win entry)

include compares accepted

theorem Target.logical_component {overrideName : WString}
    (mapped : findOverride win s.saves.mappings (Save.logicalExtension win target) = some overrideName) :
    Component (logicalSource win name) := by
  have extended : Save.logicalExtension win name ≠ [] := by
    refine logicalExtension_ne_nil compares _ (fun entry member => (accepted entry member).dotted) ?_
    rw [← made.logicalExtension, mapped]
    exact Option.some_ne_none _
  exact component_of_isPrefix made.component (logicalSource_isPrefix win name) fun empty =>
    extended (by rw [Save.logicalExtension, empty]; rfl)

theorem Target.route_calm (undisturbed : Undisturbed env target) (passes : interesting win s.saves target = true) :
    (mlSaveMappingRoute win env target s).2 =
      match remembered win s target with
      | some other => .mapped other
      | none =>
          if extensionIn win (Save.logicalExtension win target) s.saves.failedExtensions then .denied
          else match findOverride win s.saves.mappings (Save.logicalExtension win target) with
            | none => .unrouted
            | some overrideName => .mapped (targetFor win target overrideName) :=
  route_unfailing made.routable undisturbed.toUnfailing (undisturbed.unlinked root) compares.toCased passes
    fun overrideName mapped => made.split ▸
      targetFor_ne_nil directory (made.logical_component compares accepted mapped) overrideName

include marks

/-- A name with a colon becomes a directory and a name, which no comparison takes for it. -/
theorem Target.fits {overrideName : WString}
    (mapped : findOverride win s.saves.mappings (Save.logicalExtension win target) = some overrideName) :
    win.ordinalEqual (targetFor win target overrideName) target = true ↔
      Fits win overrideName (logicalSource win name) ∧
        (isBackup win name = true → win.ordinalEqual (pathFindExtension name) backupExtension = true) := by
  have component := made.logical_component compares accepted mapped
  have valid : validOverrideName win overrideName = true := findOverride_valid accepted mapped
  obtain ⟨_, _, nonempty, _, ends⟩ := component.fileName
  rw [made.split]
  rcases targetFor_component directory component overrideName with ⟨own, renames⟩ | ⟨front, border, whole, renames⟩
  · rw [renames, ordinalEqual_backslash, own]
    rw [own] at ends
    exact renamed_fits compares marks valid ends
  · have colon : WChar.colon ∈ logicalSource win name := by
      rw [whole]
      exact List.mem_append_left _ (List.mem_of_getLast? border)
    refine iff_of_false (fun same => ?_) fun fits => not_fits_of_colon marks valid colon fits.1
    obtain ⟨rest, behind⟩ := logicalSource_isPrefix win name
    obtain ⟨c, more, first⟩ := List.exists_cons_of_ne_nil nonempty
    have split : name = front ++ c :: (more ++ rest) := by
      rw [← behind]
      conv_lhs => rw [whole, first]
      rw [List.append_assoc, List.cons_append]
    rw [renames, ordinalEqual_backslash]  at same
    conv at same => lhs; arg 3; rw [split]
    rw [ordinalEqual_append, Windows.ordinalEqual, beq_iff_eq, List.map_cons,
      List.map_cons, List.cons.injEq, (marks WChar.backslash (by decide) _).mpr rfl] at same
    have separator := component.separators c (by rw [whole, first]; simp)
    rw [(marks WChar.backslash (by decide) c).mp same.1.symm] at separator
    cases separator

theorem Target.nameStays_of_settled (forgotten : remembered win s target = none)
    (settled : ∀ nested, Leaves nested target →
      Settled win nested target (mlSaveMappingRoute win nested target s).2) : NameStays win s.saves name := by
  cases passes : interesting win s.saves target with
  | false => exact made.nameStays passes
  | true =>
      have routed := settled (.calm fun _ => some target) fun _ same => (Option.some.inj same).symm
      rw [made.route_calm compares accepted (calm_undisturbed target) passes] at routed
      simp only [forgotten] at routed
      split at routed
      · exact absurd (calm_undisturbed target) routed
      rename_i allowed
      have fits {overrideName : WString} (mapped : findOverride win s.saves.mappings
          (Save.logicalExtension win name) = some overrideName) :=
        (made.fits compares marks accepted (made.logicalExtension ▸ mapped)).mp
          (by rwa [made.logicalExtension, mapped] at routed)
      refine ⟨⟨?_, fun overrideName mapped => (fits mapped).1⟩, fun mapped => ?_⟩
      · rw [made.logicalExtension] at allowed
        exact eq_false_of_ne_true allowed
      · obtain ⟨overrideName, mapped⟩ := Option.ne_none_iff_exists'.mp mapped
        exact (fits mapped).2

theorem Target.settled_of_stays
    (known : ∀ other, remembered win s target = some other → interesting win s.saves target = true →
      win.ordinalEqual other target = true)
    (stays : remembered win s target = none → NameStays win s.saves name) (nested : Environment)
    (leaves : Leaves nested target) : Settled win nested target (mlSaveMappingRoute win nested target s).2 := by
  cases routed : (mlSaveMappingRoute win nested target s).2 with
  | unrouted => trivial
  | denied =>
      intro undisturbed
      have passes := interesting_of_routed made nested (by simp [routed])
      rw [made.route_calm compares accepted undisturbed passes] at routed
      cases memo : remembered win s target with
      | some other =>
          rw [memo] at routed
          cases routed
      | none =>
          have allowed : extensionIn win (Save.logicalExtension win name) s.saves.failedExtensions = false :=
            (stays memo).1.1
          simp only [memo, made.logicalExtension, allowed, Bool.false_eq_true, if_false] at routed
          split at routed <;> cases routed
  | mapped target' =>
      have passes := interesting_of_routed made nested (by simp [routed])
      rcases made.mapped leaves routed with memo | ⟨memo, computed⟩
      · exact known target' memo passes
      · obtain ⟨overrideName, mapped, rfl⟩ := Option.map_eq_some_iff.mp computed
        have own : findOverride win s.saves.mappings (Save.logicalExtension win name) = some overrideName := by
          rw [← made.logicalExtension, mapped]
        exact (made.fits compares marks accepted mapped).mpr
          ⟨(stays memo).1.2 overrideName own, (stays memo).2 (by rw [own]; exact Option.some_ne_none _)⟩

theorem settled_iff {backup : Bool} {logical overrideName : WString}
    (stays_iff : NameStays win s.saves name ↔ RenamedStays win s.saves backup logical overrideName) :
    (∀ nested, Leaves nested target →
      Settled win nested target (mlSaveMappingRoute win nested target s).2) ↔
    Stays win s target backup logical overrideName := by
  unfold Stays
  rw [← stays_iff]
  cases memo : remembered win s target with
  | some other =>
      constructor
      · intro settled passes
        have routed := settled (.calm fun _ => some target) fun _ same => (Option.some.inj same).symm
        rw [made.route_calm compares accepted (calm_undisturbed target) passes, memo] at routed
        exact routed
      · intro same
        refine made.settled_of_stays compares marks accepted (fun other' found => ?_) fun none => ?_
        · obtain rfl := Option.some.inj (memo.symm.trans found)
          exact same
        · rw [memo] at none
          cases none
  | none =>
      constructor
      · exact made.nameStays_of_settled compares marks accepted memo
      · intro stays
        refine made.settled_of_stays compares marks accepted (fun other found => ?_) fun _ => stays
        rw [memo] at found
        cases found

end Nested

/-! ## Every mapping, every history -/

section Again

variable {win : Windows}

theorem Canonical.placed {directory name : WString} (canonical : Canonical (directory ++ WChar.backslash :: name))
    (component : Component name) : dropSeparators (directory ++ [WChar.backslash]) ≠ [] := by
  intro bare
  obtain ⟨c, member, separator⟩ := canonical.rooted
  rw [List.append_cons, dropSeparators_append component.starts, bare, List.nil_append] at member
  rw [component.separators c member] at separator
  cases separator

theorem spelled_sibling (win : Windows) {directory name rest : WString} (component : Component name)
    (canonical : Canonical (directory ++ WChar.backslash :: name)) (starts : startsName rest = true)
    (clean : [WChar.dot, WChar.dot] ∉ rest.splitOnP isSeparator) :
    ∃ key, vfsNormalizePath win (directory ++ WChar.backslash :: rest) = some key := by
  have placed := canonical.placed component
  have upward := canonical.upward
  obtain ⟨parts, split⟩ := pathParts_append (separated_backslash directory)
  rw [List.append_cons, split name component.starts (.inr placed), List.mem_append, not_or] at upward
  have clean' : [WChar.dot, WChar.dot] ∉ parts ++ rest.splitOnP isSeparator := by
    rw [List.mem_append, not_or]
    exact ⟨upward.1, clean⟩
  obtain ⟨state, run⟩ := pushSegments_some win clean' ⟨[], []⟩
  refine ⟨state.result, ?_⟩
  rw [List.append_cons, vfsNormalizePath, split rest starts (.inr placed), run, Option.map_some]

theorem not_dots {name : WString} (last : name.getLast? ≠ some WChar.dot) :
    name ≠ [WChar.dot] ∧ name ≠ [WChar.dot, WChar.dot] := by
  constructor
  · rintro rfl
    exact last rfl
  · rintro rfl
    exact last rfl

theorem spelled_ne_nil {directory name key : WString} (component : Component name)
    (placed : dropSeparators (directory ++ [WChar.backslash]) ≠ []) (last : name.getLast? ≠ some WChar.dot)
    (spelled : vfsNormalizePath win (directory ++ WChar.backslash :: name) = some key) : key ≠ [] := by
  rw [List.append_cons] at spelled
  obtain ⟨front, rfl, _⟩ := vfsNormalizePath_append (separated_backslash directory) component (.inr placed)
    (not_dots last).1 (not_dots last).2 spelled
  simp [component.nonempty]

/-- The name of a canonical path below the root, and what is left of it without `.bak`, are components. -/
theorem Canonical.components {source root : WString} (canonical : Canonical source)
    (under : pathIsUnderRoot win source root = true) (extended : logicalExtension win source ≠ []) :
    ∃ directory name, source = directory ++ WChar.backslash :: name ∧ root.length ≤ directory.length ∧
      Component name ∧ Component (logicalSource win name) := by
  obtain ⟨directory, split, inside⟩ := canonical.split under
  have separators (c : WChar) (member : c ∈ mlPathFilename source) : isSeparator c = false :=
    not_isSeparator_of_mem_mlPathFilename member
  generalize mlPathFilename source = name at split separators
  subst split
  rw [logicalExtension_backslash] at extended
  have present : logicalSource win name ≠ [] := fun empty => extended (by rw [logicalExtension, empty]; rfl)
  have component : Component name :=
    ⟨fun empty => present (List.prefix_nil.mp (empty ▸ logicalSource_isPrefix win name)), separators⟩
  exact ⟨directory, name, rfl, inside, component,
    component_of_isPrefix component (logicalSource_isPrefix win name) present⟩

/-- What the scans say of the name behind the last colon holds of the whole path. -/
theorem Canonical.own_name {source root : WString} (canonical : Canonical source)
    (under : pathIsUnderRoot win source root = true) (extended : logicalExtension win source ≠ []) :
    let name := pathFindFileName (logicalSource win source)
    (WChar.colon ∈ name → name.getLast? = some WChar.colon) ∧
      (WChar.dot ∈ name → pathFindExtension name = logicalExtension win source ∧
        (isBackup win source = false → isBackup win name = false)) := by
  obtain ⟨directory, name, rfl, _, _, component⟩ := canonical.components under extended
  obtain ⟨_, _, _, _, ends⟩ := component.fileName
  intro own
  refine ⟨?_, fun dotted => ?_⟩
  · rw [show own = pathFindFileName (logicalSource win name) by
      rw [← pathFindFileName_component directory component, ← logicalSource_backslash]]
    exact ends
  obtain ⟨front, whole⟩ := pathFindFileName_suffix (logicalSource win (directory ++ WChar.backslash :: name))
  have extension : pathFindExtension own = logicalExtension win (directory ++ WChar.backslash :: name) := by
    rw [logicalExtension]
    conv_rhs => rw [← whole]
    exact (findExtension_append (fun last => findExtension_of_dot dotted last []) [] front).symm
  refine ⟨extension, fun save => ?_⟩
  rw [isBackup, extension, logicalExtension, logicalSource, if_neg (by rw [save]; exact Bool.false_ne_true)]
  exact save

/-- Behind the directory of the file, a target has one more directory at most, and no `..`. -/
theorem targetFor_parts {directory name overrideName given : WString} (component : Component (logicalSource win name))
    (own : given = renamed win (isBackup win name) (pathFindFileName (logicalSource win name)) overrideName)
    (component' : Component given) (last : given.getLast? ≠ some WChar.dot) :
    ∃ folder rest, targetFor win (directory ++ WChar.backslash :: name) overrideName =
        folder ++ WChar.backslash :: given ∧
      folder ++ WChar.backslash :: given = directory ++ WChar.backslash :: rest ∧ startsName rest = true ∧
      [WChar.dot, WChar.dot] ∉ rest.splitOnP isSeparator ∧
      (dropSeparators (directory ++ [WChar.backslash]) ≠ [] → dropSeparators (folder ++ [WChar.backslash]) ≠ []) := by
  rcases targetFor_component directory component overrideName with ⟨_, target⟩ | ⟨front, border, split, target⟩
  · refine ⟨directory, given, own ▸ target, rfl, component'.starts, ?_, id⟩
    rw [List.splitOnP_eq_singleton component'.separators, List.mem_singleton]
    exact (not_dots last).2.symm
  · have separators (c : WChar) (member : c ∈ front) : isSeparator c = false :=
      component.separators c (by rw [split]; exact List.mem_append_left _ member)
    have present : front ≠ [] := by
      rintro rfl
      cases border
    have starts : startsName (front ++ WChar.backslash :: given) = true := by
      obtain ⟨c, more, rfl⟩ := List.exists_cons_of_ne_nil present
      simp [startsName, separators c]
    refine ⟨directory ++ WChar.backslash :: front, front ++ WChar.backslash :: given, ?_, by simp, starts, ?_,
      fun placed => ?_⟩
    · rw [own, target, List.append_assoc, List.cons_append]
    · rw [List.splitOnP_append_cons _ _ isSeparator_backslash, List.splitOnP_eq_singleton separators,
        List.splitOnP_eq_singleton component'.separators, List.mem_append, List.mem_singleton, List.mem_singleton,
        not_or]
      refine ⟨?_, (not_dots last).2.symm⟩
      rintro rfl
      cases border
    · rw [List.append_cons directory, List.append_assoc, dropSeparators, List.dropWhile_append,
        if_neg (by simpa [dropSeparators] using placed)]
      exact List.append_ne_nil_of_left_ne_nil placed _

theorem targetFor_made (compares : ComparesNames win) {s : Routing} {source root overrideName : WString}
    (accepted : ∀ entry ∈ s.saves.mappings, Accepted win entry) (canonical : Canonical source)
    (rooted : s.saves.saveRoot = some root) (under : pathIsUnderRoot win source root = true)
    (consistent : Consistent win s.writable) (cache : s.writable.cache.isSome)
    (mapped : findOverride win s.saves.mappings (logicalExtension win source) = some overrideName) :
    ∃ directory key, Target win s root (targetFor win source overrideName) directory
      (renamed win (isBackup win source) (pathFindFileName (logicalSource win source)) overrideName) key := by
  have active : s.saves.active = true := by
    obtain ⟨entry, first, _⟩ := Option.map_eq_some_iff.mp mapped
    simp [SaveMapping.active, List.ne_nil_of_mem (List.mem_of_find?_eq_some first)]
  have valid := findOverride_valid accepted mapped
  obtain ⟨directory, name, rfl, inside, component, component'⟩ := canonical.components under
    (logicalExtension_ne_nil compares _ (fun entry member => (accepted entry member).dotted)
      (by rw [mapped]; exact Option.some_ne_none _))
  rw [isBackup_backslash, logicalSource_backslash, pathFindFileName_component directory component']
  obtain ⟨_, _, nonempty, _, _⟩ := component'.fileName
  have logical : Component (pathFindFileName (logicalSource win name)) :=
    ⟨nonempty, fun c member => component'.separators c ((pathFindFileName_suffix _).subset member)⟩
  have given := renamed_component valid logical (isBackup win name)
  have last := renamed_last valid compares.crt (isBackup win name) (pathFindFileName (logicalSource win name))
  obtain ⟨folder, rest, target, behind, starts, clean, placed⟩ :=
    @targetFor_parts win directory _ _ _ component' rfl given last
  obtain ⟨key, spelled⟩ := spelled_sibling win component canonical starts clean
  refine ⟨folder, key, rooted, active, consistent, cache, target, given, ?_, ?_,
    spelled_ne_nil given (placed (canonical.placed component)) last (by rw [behind, spelled])⟩
  · rw [target, behind]
    exact pathIsUnderRoot_sibling inside under
  · rw [target, behind, spelled]

/-- Whatever the history, the target of a routed path is settled in every nested call exactly when it
stays: it was made for a file that the spelling of the path named, from the name of that file. -/
theorem routed_again_settled_iff (compares : ComparesNames win) (marks : KeepsMarks win.ordinalFold)
    (root : Option WString) (extensions : List (WString × WString)) (cache : Bool) (calls : List RoutingCall)
    (env : Environment) (path target : WString)
    (canonical : ∀ call ∈ calls ++ [⟨.save, path, env⟩], ∀ source,
      call.canonical = some source → Canonical source)
    (first : (mlSaveMappingRoute win env path (performRoutes win
      (startRouting (configure win root extensions) cache) calls)).2 = .mapped target) :
    let config := configure win root extensions
    let s := (mlSaveMappingRoute win env path
      (performRoutes win (startRouting config cache) calls)).1
    ∃ call ∈ calls ++ [⟨.save, path, env⟩], ∃ source overrideName,
      call.spelling win = vfsNormalizePath win path ∧ call.canonical = some source ∧
      findOverride win config.mappings (logicalExtension win source) = some overrideName ∧
      target = targetFor win source overrideName ∧
      ((∀ nested, Leaves nested target →
          Settled win nested target (mlSaveMappingRoute win nested target s).2) ↔
        Stays win s target (isBackup win source) (pathFindFileName (logicalSource win source)) overrideName) := by
  intro config s
  have before := performRoutes_routed win config cache calls
  have after : Routed win config (calls ++ [⟨.save, path, env⟩]) s :=
    before.perform ⟨.save, path, env⟩
  obtain ⟨usable, key, spelled, found⟩ := (mlSaveMappingRoute_keeps env path before.consistent).2 target first
  obtain ⟨call, asked, same, named⟩ := after.backed key target (Memo.lookup_mem found)
  obtain ⟨source, root', overrideName, answered, rooted, under, mapped, rfl⟩ := namedTarget_some named
  have accepted : ∀ entry ∈ s.saves.mappings, Accepted win entry := by
    rw [after.mappings]
    exact configure_accepted win root extensions
  obtain ⟨directory, key', made⟩ := targetFor_made compares accepted
    (canonical call asked source answered) (after.root.trans rooted) under after.consistent usable
    (after.mappings ▸ mapped)
  have mapped' := after.mappings ▸ mapped
  obtain ⟨ends, own⟩ := (canonical call asked source answered).own_name under
    (logicalExtension_ne_nil compares _ (fun entry member => (accepted entry member).dotted)
      (by rw [mapped']; exact Option.some_ne_none _))
  refine ⟨call, asked, source, overrideName, same.trans spelled.symm, answered, mapped, rfl,
    settled_iff made compares marks accepted (nameStays_renamed compares (findOverride_valid accepted mapped') ends
      fun dotted => ⟨?_, (own dotted).2⟩)⟩
  rw [(own dotted).1]
  exact mapped'

end Again

theorem asciiWindows_comparesNames : ComparesNames asciiWindows :=
  { asciiWindows_cased with
    empty := fun _ => rfl
    self := by decide }

private def saveCall : RoutingCall :=
  ⟨.save, wide "C:\\r\\a.sl2", .calm fun _ => some (wide "C:\\r\\a.sl2")⟩

private def seamless : SaveMapping :=
  configure asciiWindows (some (wide "C:\\r")) [(wide ".sl2", wide ".seam.sl2")]

private theorem saveCall_canonical : ∀ call ∈ [saveCall], ∀ source,
    call.canonical = some source → Canonical source := by
  intro call member source canonical
  obtain rfl := List.mem_singleton.mp member
  cases canonical
  exact ⟨by decide, by decide, WChar.backslash, by decide, rfl⟩

private def seamlessAfter : Routing := (saveCall.perform asciiWindows (startRouting seamless true)).1

private theorem seamless_stays :
    Stays asciiWindows seamlessAfter (wide "C:\\r\\a.seam.sl2") false (wide "a.sl2") (wide ".seam.sl2") := by
  have memo : remembered asciiWindows seamlessAfter (wide "C:\\r\\a.seam.sl2") = none := by decide
  have shorter : (wide "a.sl2").length ≤ (wide ".seam.sl2").length := by decide
  unfold Stays RenamedStays
  simp only [memo]
  rw [if_neg (by decide), if_neg (by omega)]
  refine ⟨⟨by decide, fun overrideName mapped => ?_⟩, fun _ backup => absurd backup (by decide)⟩
  have again : findOverride asciiWindows seamless.mappings
      (logicalExtension asciiWindows (wide "a.seam.sl2")) = some (wide ".seam.sl2") := by decide
  obtain rfl := Option.some.inj (again.symm.trans mapped)
  exact ⟨by decide, .inl (by decide)⟩

/-- A suffix override settles: the target carries the suffix. -/
theorem routed_again_settled_suffix :
    Settled asciiWindows (.calm fun _ => some (wide "C:\\r\\a.seam.sl2"))
      (wide "C:\\r\\a.seam.sl2")
      (mlSaveMappingRoute asciiWindows (.calm fun _ => some (wide "C:\\r\\a.seam.sl2"))
        (wide "C:\\r\\a.seam.sl2") seamlessAfter).2 := by
  obtain ⟨call, asked, source, overrideName, _, canonical, mapped, _, settled⟩ :=
    routed_again_settled_iff asciiWindows_comparesNames asciiLower_keepsMarks (some (wide "C:\\r"))
      [(wide ".sl2", wide ".seam.sl2")] true [] saveCall.env saveCall.path
      (wide "C:\\r\\a.seam.sl2") saveCall_canonical (by decide)
  obtain rfl := List.mem_singleton.mp asked
  cases canonical
  have own : findOverride asciiWindows seamless.mappings
      (logicalExtension asciiWindows saveCall.path) = some (wide ".seam.sl2") := by decide
  obtain rfl := Option.some.inj (own.symm.trans mapped)
  exact settled.mpr seamless_stays _ fun _ same => (Option.some.inj same).symm

/-- A target whose extension has an entry of its own goes on to a third file. -/
theorem routed_again_third_file :
    ¬ ∀ (root : Option WString) (extensions : List (WString × WString)) (env : Environment)
      (path target : WString) (nested : Environment) (target' : WString),
      (mlSaveMappingRoute asciiWindows env path
        (startRouting (configure asciiWindows root extensions) true)).2 = .mapped target →
      Leaves nested target →
      (mlSaveMappingRoute asciiWindows nested target (mlSaveMappingRoute asciiWindows env path
        (startRouting (configure asciiWindows root extensions) true)).1).2 = .mapped target' →
      asciiWindows.ordinalEqual target' target = true := by
  intro always
  have same := always (some (wide "C:\\r")) [(wide ".sl2", wide ".co2"), (wide ".co2", wide ".abc")]
    saveCall.env saveCall.path (wide "C:\\r\\a.co2") (.calm fun _ => some (wide "C:\\r\\a.co2"))
    (wide "C:\\r\\a.abc") (by decide) (fun _ same => (Option.some.inj same).symm) (by decide)
  exact absurd same (by decide)

end Yafsml.Save
