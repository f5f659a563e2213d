import Yafsml.Save.Idempotent

/-!
# Backups

The backup of a save is the save with another extension behind it. It is routed behind the target of its
save.
-/

namespace Yafsml.Save

open Vfs

section Names

variable {win : Windows} {path : WString}

variable (self : win.lstrcmpiEqual backupExtension backupExtension = true)

include self

/-- A backup has the extension of its save, and the target of its save with `.bak` behind it. -/
theorem targetFor_backup (save : isBackup win path = false) (overrideName : WString) :
    logicalExtension win (path ++ backupExtension) = logicalExtension win path ∧
      targetFor win (path ++ backupExtension) overrideName = targetFor win path overrideName ++ backupExtension := by
  have logical : logicalSource win path = path := by
    rw [logicalSource, save, if_neg Bool.false_ne_true]
  constructor
  · rw [logicalExtension, logicalExtension, logicalSource_backup self, logical]
  · unfold targetFor
    rw [logicalSource_backup self, logical, isBackup_backup self, save, if_pos rfl, if_neg Bool.false_ne_true,
      List.append_nil]

end Names

section Paths

variable {win : Windows} {path root : WString}

theorem pathIsUnderRoot_append (under : pathIsUnderRoot win path root = true) (extension : WString) :
    pathIsUnderRoot win (path ++ extension) root = true := by
  simp only [pathIsUnderRoot, Windows.wcsnicmpPrefix, Bool.and_eq_true, decide_eq_true_eq] at under ⊢
  obtain ⟨⟨⟨nonempty, longer⟩, starts⟩, next⟩ := under
  have inside : root.length ≤ (path.map win.crtFold).length := by
    rw [List.length_map]
    exact Nat.le_of_lt longer
  have dropped : (path.drop root.length) ≠ [] := by
    rw [ne_eq, List.drop_eq_nil_iff]
    exact Nat.not_le.mpr longer
  refine ⟨⟨⟨nonempty, ?_⟩, ?_⟩, ?_⟩
  · rw [List.length_append]
    exact Nat.lt_add_right _ longer
  · rw [List.map_append, List.take_append_of_le_length inside]
    exact starts
  · rw [List.drop_append_of_le_length (Nat.le_of_lt longer), List.head?_append_of_ne_nil _ dropped]
    exact next

theorem splitOnP_append {segment : WString} (plain : ∀ c ∈ segment, isSeparator c = false) (front : WString) :
    ∃ parts last, front.splitOnP isSeparator = parts ++ [last] ∧
      (front ++ segment).splitOnP isSeparator = parts ++ [last ++ segment] := by
  obtain ⟨before, whole, separated⟩ := mlPathFilename_split front
  have name (c : WChar) (member : c ∈ mlPathFilename front) : isSeparator c = false :=
    not_isSeparator_of_mem_mlPathFilename member
  have longer (c : WChar) (member : c ∈ mlPathFilename front ++ segment) : isSeparator c = false :=
    (List.mem_append.mp member).elim (name c) (plain c)
  rcases List.eq_nil_or_concat before with rfl | ⟨rest, c, rfl⟩
  · rw [List.nil_append] at whole
    refine ⟨[], front, ?_, ?_⟩
    · rw [whole]
      exact List.splitOnP_eq_singleton name
    · rw [whole]
      exact List.splitOnP_eq_singleton longer
  · have separator : isSeparator c = true := separated c (by simp)
    rw [List.concat_eq_append, List.append_assoc, List.singleton_append] at whole
    refine ⟨rest.splitOnP isSeparator, mlPathFilename front, ?_, ?_⟩
    · conv_lhs => rw [whole]
      rw [List.splitOnP_append_cons _ _ separator, List.splitOnP_eq_singleton name]
    · conv_lhs => rw [whole]
      rw [List.append_assoc, List.cons_append, List.splitOnP_append_cons _ _ separator,
        List.splitOnP_eq_singleton longer]

theorem spelled_backup {key : WString} (spelled : vfsNormalizePath win path = some key) :
    ∃ key', vfsNormalizePath win (path ++ backupExtension) = some key' ∧ key' ≠ [] := by
  obtain ⟨parts, last, own, longer⟩ :=
    splitOnP_append backupExtension_plain.separators (dropSeparators (dropPrefix (dropSeparators path)))
  obtain ⟨state, run, -⟩ := Option.map_eq_some_iff.mp spelled
  rw [pathParts, own, List.foldlM_append] at run
  obtain ⟨earlier, before, -⟩ := Option.bind_eq_some_iff.mp run
  have length : 4 ≤ (last ++ backupExtension).length := by
    rw [List.length_append]
    exact Nat.le_add_left _ _
  have name : ¬ (last ++ backupExtension = [] ∨ last ++ backupExtension = [WChar.dot]) := by
    rintro (short | short)
    · rw [short] at length
      cases length
    · rw [short] at length
      exact absurd length (by decide)
  have dots : last ++ backupExtension ≠ [WChar.dot, WChar.dot] := by
    intro short
    rw [short] at length
    exact absurd length (by decide)
  have normalized : vfsNormalizePath win (path ++ backupExtension) = some (earlier.result ++
      (if earlier.result = [] then [] else [WChar.backslash]) ++ (last ++ backupExtension).map win.towlower) := by
    rw [vfsNormalizePath, pathParts, dropSeparators_append backupExtension_plain.starts,
      dropPrefix_append (.inl backupExtension_plain.colon), dropSeparators_append backupExtension_plain.starts, longer,
      List.foldlM_append, before]
    change (pushSegment win earlier (last ++ backupExtension) >>= pure).map _ = _
    rw [pushSegment, if_neg name, if_neg dots]
    rfl
  refine ⟨_, normalized, fun empty => ?_⟩
  have none := congrArg List.length empty
  rw [List.length_append, List.length_map, List.length_nil] at none
  omega

end Paths

theorem configure_root (win : Windows) (root : Option WString) (extensions : List (WString × WString)) :
    (configure win root extensions).saveRoot = root := by
  have kept (s : SaveMapping) : (extensions.foldl (fun s extension =>
      (mlSaveMappingAddExtension win extension.1 extension.2 s).1) s).saveRoot = s.saveRoot := by
    induction extensions generalizing s with
    | nil => rfl
    | cons extension rest ih =>
        refine (ih _).trans ?_
        unfold mlSaveMappingAddExtension
        dsimp only
        split
        · rfl
        · unfold rememberFailedExtension
          split
          · rfl
          split
          · rfl
          split
          · rfl
          · rfl
  exact kept _

section Routes

variable {win : Windows} {config : SaveMapping}

theorem performRoutes_cache (cache : Bool) (calls : List RoutingCall) :
    (performRoutes win (startRouting config cache) calls).writable.cache.isSome =
      (startRouting config cache).writable.cache.isSome := by
  induction calls using List.reverseRecOn with
  | nil => rfl
  | append_singleton calls call ih =>
      have before := performRoutes_routed win config cache calls
      rw [performRoutes, List.foldl_append]
      exact (perform_keeps call before.consistent).1.cache.trans ih

theorem routed_fresh {s : Routing} {env : Environment} {path target : WString} (consistent : Consistent win s.writable)
    (fresh : remembered win s path = none) (routed : (mlSaveMappingRoute win env path s).2 = .mapped target) :
    s.writable.cache.isSome ∧ namedTarget win s.saves (canonicalizePath env path) = some target ∧
      ∃ key, vfsNormalizePath win path = some key := by
  obtain ⟨kept, answered⟩ := mlSaveMappingRoute_keeps env path consistent
  obtain ⟨usable, key, spelled, found⟩ := answered target routed
  rw [remembered, spelled, Option.bind_some] at fresh
  refine ⟨kept.cache ▸ usable, ?_, key, spelled⟩
  rcases kept.entries with same | ⟨key', target', spelled', named, unknown, added⟩
  · rw [same, fresh] at found
    cases found
  · obtain rfl : key = key' := Option.some.inj (spelled.symm.trans spelled')
    rw [added, Memo.lookup_append _ _ _ _ unknown, if_pos rfl, Option.some.injEq] at found
    exact found ▸ named

/-- Whatever was routed before, the backup of a routed save is routed behind the target of the save. -/
theorem route_backup (cased : win.Cased) (self : win.lstrcmpiEqual backupExtension backupExtension = true)
    (root : WString) (extensions : List (WString × WString)) (cache : Bool) (calls calls' : List RoutingCall)
    (env env' : Environment) {path target : WString} (canonical : canonicalizePath env path = some path)
    (save : isBackup win path = false) :
    let config := configure win (some root) extensions
    let s := performRoutes win (startRouting config cache) calls
    let s' := performRoutes win (startRouting config cache) calls'
    remembered win s path = none → (mlSaveMappingRoute win env path s).2 = .mapped target →
    Unfailing env' (path ++ backupExtension) → pathContainsLink env' (path ++ backupExtension) root = false →
    extensionIn win (pathFindExtension path) s'.saves.failedExtensions = false →
    remembered win s' (path ++ backupExtension) = none →
    (mlSaveMappingRoute win env' (path ++ backupExtension) s').2 = .mapped (target ++ backupExtension) := by
  intro config s s' fresh routed unfailing unlinked watched fresh'
  have before := performRoutes_routed win config cache calls
  have before' := performRoutes_routed win config cache calls'
  have rooted : config.saveRoot = some root := configure_root ..
  obtain ⟨usable, named, key, spelled⟩ := routed_fresh before.consistent fresh routed
  rw [namedTarget_congr before.root before.mappings, canonical] at named
  simp only [namedTarget, rooted] at named
  split at named
  · rename_i under
    obtain ⟨overrideName, mapped, rfl⟩ := Option.map_eq_some_iff.mp named
    obtain ⟨extension, same⟩ := targetFor_backup self save overrideName
    obtain ⟨key', spelled', nonempty⟩ := spelled_backup spelled
    have mapped' : findOverride win s'.saves.mappings (logicalExtension win (path ++ backupExtension)) =
        some overrideName := by
      rw [extension, before'.mappings]
      exact mapped
    have active : s'.saves.active = true := by
      obtain ⟨entry, found, -⟩ := Option.map_eq_some_iff.mp mapped'
      simp [SaveMapping.active, List.ne_nil_of_mem (List.mem_of_find?_eq_some found)]
    have routable : Routable win s' root (path ++ backupExtension) key' := {
      rooted := before'.root.trans rooted
      active := active
      consistent := before'.consistent
      cache := by
        rw [performRoutes_cache] at usable ⊢
        exact usable
      under := pathIsUnderRoot_append under backupExtension
      spelled := spelled'
      nonempty := nonempty
      stripped := stripSeparators_eq (by rw [List.getLast?_append]; rfl) (show isSeparator 107 = false by decide) }
    have passes : interesting win s'.saves (path ++ backupExtension) = true := by
      have backup := isBackup_backup self path
      rw [isBackup] at backup
      rw [interesting, backup]
      rfl
    have outcome := route_unfailing routable unfailing unlinked cased passes fun other _ => by
      rw [(targetFor_backup self save other).2]
      exact List.append_ne_nil_of_right_ne_nil _ backupExtension_plain.nonempty
    have kept : extensionIn win (logicalExtension win (path ++ backupExtension)) s'.saves.failedExtensions = false := by
      rw [extension, logicalExtension, logicalSource, save, if_neg Bool.false_ne_true]
      exact watched
    rw [fresh', mapped', kept, if_neg Bool.false_ne_true] at outcome
    exact outcome.trans (congrArg SaveRoute.mapped same)
  · cases named

end Routes

private def calmCall (path : WString) : RoutingCall := ⟨.save, path, .calm some⟩

private theorem calm_unfailing (isLink : WString → Bool) (path : WString) :
    Unfailing { Environment.calm some with isLink } path :=
  ⟨⟨rfl, rfl, rfl, rfl, rfl, rfl, CopyOutcome.noConfusion, fun _ => ⟨rfl, rfl⟩, rfl, rfl, rfl⟩, rfl⟩

/-- A save with two dots in its name, and then its backup. -/
theorem route_backup_dots :
    (mlSaveMappingRoute asciiWindows (.calm some) (wide "C:\\r\\a.b.sl2" ++ backupExtension)
      (performRoutes asciiWindows
        (startRouting (configure asciiWindows (some (wide "C:\\r")) [(wide ".sl2", wide ".co2")]) true)
        [calmCall (wide "C:\\r\\a.b.sl2")])).2 = .mapped (wide "C:\\r\\a.b.co2" ++ backupExtension) :=
  route_backup asciiWindows_cased asciiWindows_comparesNames.self (wide "C:\\r") [(wide ".sl2", wide ".co2")] true []
    [calmCall (wide "C:\\r\\a.b.sl2")] (.calm some) (.calm some) (by decide) (by decide) (by decide) (by decide)
    (calm_unfailing (fun _ => false) _) (by decide) (by decide) (by decide)

/-- A backup that is a link itself is denied. -/
theorem route_backup_linked :
    ¬ ∀ (root : WString) (extensions : List (WString × WString)) (env : Environment) (path target : WString),
      let s := startRouting (configure asciiWindows (some root) extensions) true
      let s' := performRoutes asciiWindows s [⟨.save, path, env⟩]
      canonicalizePath env path = some path → pathIsUnderRoot asciiWindows path root = true →
      pathContainsLink env path root = false → isBackup asciiWindows path = false →
      Unfailing env path → Unfailing env (path ++ backupExtension) →
      extensionIn asciiWindows (pathFindExtension path) s'.saves.failedExtensions = false →
      remembered asciiWindows s path = none → remembered asciiWindows s' (path ++ backupExtension) = none →
      (mlSaveMappingRoute asciiWindows env path s).2 = .mapped target →
      (mlSaveMappingRoute asciiWindows env (path ++ backupExtension) s').2 = .mapped (target ++ backupExtension) := by
  intro always
  have routed := always (wide "C:\\r") [(wide ".sl2", wide ".co2")]
    { Environment.calm some with isLink := fun path => path = wide "C:\\r\\a.sl2.bak" }
    (wide "C:\\r\\a.sl2") (wide "C:\\r\\a.co2") (by decide) (by decide) (by decide) (by decide)
    (calm_unfailing _ _) (calm_unfailing _ _) (by decide) (by decide) (by decide) (by decide)
  exact absurd routed (by decide)

end Yafsml.Save
