import Yafsml.Save.FailClosed
import Yafsml.Save.Spelling

/-!
# Routing no other file

Two exits return true before the logical extension is compared with the table: the one for links below
the root, and the one for a path that is registered already.
-/

namespace Yafsml.Save

open Vfs

section Exits

variable (win : Windows) (env : Environment) (path : WString) (s : Routing)

/-- A call that returns true was made for a watched extension. -/
def Precise : Prop :=
  (mlSaveMappingRoute win env path s).2 ≠ .unrouted →
    ∃ source, canonicalizePath env path = some source ∧ WatchedExtension win s.saves source

/-- The call comes to a file below the root whose extension is not watched. -/
structure OtherFile (source root : WString) : Prop where
  active : s.saves.active = true
  passes : interesting win s.saves path = true
  canonical : canonicalizePath env path = some source
  rooted : s.saves.saveRoot = some root
  under : pathIsUnderRoot win source root = true
  unwatched : ¬ WatchedExtension win s.saves source

/-- The first call of `vfs_route_writable_path` has an answer. -/
def Registered : Prop := (vfsRouteWritablePath win env.guarded (env.writable 0) path s.writable).2 ≠ none

/-- Such a file lies behind a link, or its path is registered. -/
def UncheckedExit : Prop :=
  ∃ source root, OtherFile win env path s source root ∧
    (pathContainsLink env source root = true ∨ Registered win env path s)

/-- The allocations of a call before the comparison succeed. -/
structure Environment.Allocates : Prop where
  rootCopy : env.rootCopy = true
  prefixCopy : env.prefixCopy = true
  logicalCopy : env.logicalCopy = true

end Exits

section Precise

variable {win : Windows} {env : Environment} {path : WString} {s : Routing}

theorem routeSource_watched {source : WString} (rooted : Bool) (logicalCopy : env.logicalCopy = true)
    (routed : (routeSource win env path source rooted s).2 ≠ .unrouted) :
    WatchedExtension win s.saves source := by
  unfold routeSource at routed
  rw [logicalCopy, Bool.not_true, if_neg Bool.false_ne_true] at routed
  split at routed
  · rename_i failed
    exact .inl failed
  · split at routed
    · exact absurd rfl routed
    · rename_i overrideName mapped
      cases rooted with
      | false => cases mapped
      | true =>
          rw [if_pos rfl] at mapped
          exact .inr (by simp [mapped])

theorem OtherFile.reaches {source root : WString} (other : OtherFile win env path s source root)
    (allocates : env.Allocates) :
    (mlSaveMappingRoute win env path s).2 ≠ .unrouted ↔
      pathContainsLink env source root = true ∨ Registered win env path s := by
  unfold mlSaveMappingRoute Registered
  rw [other.active, other.passes, other.canonical]
  simp only [Bool.not_true, Bool.false_eq_true, if_false, allocates.rootCopy, if_true, other.rooted, other.under]
  cases pathContainsLink env source root with
  | true => simp
  | false =>
      simp only [Bool.false_eq_true, if_false, false_or]
      cases vfsRouteWritablePath win env.guarded (env.writable 0) path s.writable with
      | mk writable registered =>
          cases registered with
          | some registered => simp
          | none =>
              simp only [ne_eq, not_true_eq_false, iff_false, not_not]
              by_contra routed
              exact other.unwatched (routeSource_watched (s := ⟨s.saves, writable⟩) true allocates.logicalCopy routed)

theorem watched_or_otherFile (allocates : env.Allocates)
    (routed : (mlSaveMappingRoute win env path s).2 ≠ .unrouted) :
    ∃ source, canonicalizePath env path = some source ∧
      (WatchedExtension win s.saves source ∨ ∃ root, OtherFile win env path s source root) := by
  by_cases active : s.saves.active = true
  swap
  · exact absurd (by simp [mlSaveMappingRoute, active]) routed
  by_cases passes : interesting win s.saves path = true
  swap
  · exact absurd (by simp [mlSaveMappingRoute, active, passes]) routed
  cases canonical : canonicalizePath env path with
  | none => exact absurd (by simp [mlSaveMappingRoute, active, passes, canonical]) routed
  | some source =>
      refine ⟨source, rfl, ?_⟩
      cases rooted : s.saves.saveRoot with
      | none =>
          apply Or.inl
          apply routeSource_watched false allocates.logicalCopy
          simpa [mlSaveMappingRoute, active, passes, canonical, rooted] using routed
      | some root =>
          by_cases under : pathIsUnderRoot win source root = true
          · by_cases watched : WatchedExtension win s.saves source
            · exact .inl watched
            · exact .inr ⟨root, active, passes, canonical, rooted, under, watched⟩
          · refine absurd ?_ routed
            simp [mlSaveMappingRoute, active, passes, canonical, rooted, under, allocates.rootCopy]

theorem precise_iff (allocates : env.Allocates) : Precise win env path s ↔ ¬ UncheckedExit win env path s := by
  constructor
  · rintro precise ⟨source, root, other, left⟩
    obtain ⟨source', canonical, watched⟩ := precise ((other.reaches allocates).mpr left)
    rw [other.canonical] at canonical
    cases canonical
    exact other.unwatched watched
  · intro checked routed
    obtain ⟨source, canonical, watched | ⟨root, other⟩⟩ := watched_or_otherFile allocates routed
    · exact ⟨source, canonical, watched⟩
    · exact absurd ⟨source, root, other, (other.reaches allocates).mp routed⟩ checked

end Precise

section Histories

variable {win : Windows} {fold : WChar → WChar} {env : Environment} {path : WString}

/-- `GetFullPathNameW` answers one spelling with one file name, whatever the current directory is. -/
def SpellingKeepsName (win : Windows) (fold : WChar → WChar) (config : SaveMapping)
    (earlier later : RoutingCall) : Prop :=
  earlier.spelling win = later.spelling win → namedTarget win config earlier.canonical ≠ none →
    ∀ source, later.canonical = some source → ∃ directory directory' name name',
      earlier.canonical = some (directory ++ WChar.backslash :: name) ∧
        source = directory' ++ WChar.backslash :: name' ∧ Alike fold name name'

theorem Registered.watched (folds : win.CaseFold fold) {config : SaveMapping} {calls : List RoutingCall}
    {s : Routing} (routed : Routed win config calls s)
    (keeps : ∀ call ∈ calls, SpellingKeepsName win fold config call ⟨.save, path, env⟩)
    (registered : Registered win env path s) {source : WString}
    (canonical : canonicalizePath env path = some source) : WatchedExtension win s.saves source := by
  obtain ⟨target, answer⟩ := Option.ne_none_iff_exists'.mp registered
  obtain ⟨-, -, -, found⟩ := vfsRouteWritablePath_spec env.guarded (env.writable 0) path routed.consistent
  obtain ⟨-, key, spelled, present⟩ := found target answer
  obtain ⟨call, asked, same, named⟩ := routed.backed key target (Memo.lookup_mem present)
  have own : namedTarget win config call.canonical = some target := named
  obtain ⟨directory, directory', name, name', answered, rfl, alike⟩ :=
    keeps call asked (same.trans spelled.symm) (by simp [own]) source canonical
  apply Or.inr
  rw [logicalExtension_backslash, routed.mappings, ← alike.findOverride folds]
  rw [answered] at own
  obtain ⟨file, _, overrideName, known, _, _, mapped, _⟩ := namedTarget_some own
  cases known
  rw [logicalExtension_backslash] at mapped
  simp [mapped]

end Histories

/-- Where a spelling keeps its file name, only a link below the root denies another file. -/
theorem route_precise_iff {win : Windows} {fold : WChar → WChar} (folds : win.CaseFold fold)
    {env : Environment} (allocates : env.Allocates) (path : WString) :
    (∀ s, Precise win env path s ↔ ¬ UncheckedExit win env path s) ∧
    ∀ (root : Option WString) (extensions : List (WString × WString)) (cache : Bool)
      (calls : List RoutingCall),
      (∀ call ∈ calls, SpellingKeepsName win fold (configure win root extensions) call ⟨.save, path, env⟩) →
      let s := performRoutes win (startRouting (configure win root extensions) cache) calls
      Precise win env path s ↔
        ¬ ∃ source root, OtherFile win env path s source root ∧ pathContainsLink env source root = true := by
  refine ⟨fun s => precise_iff allocates, fun root extensions cache calls keeps => ?_⟩
  intro s
  have routed : Routed win (configure win root extensions) calls s := performRoutes_routed ..
  rw [precise_iff allocates, not_iff_not]
  constructor
  · rintro ⟨source, root', other, link | registered⟩
    · exact ⟨source, root', other, link⟩
    · exact absurd (registered.watched folds routed keeps other.canonical) other.unwatched
  · rintro ⟨source, root', other, link⟩
    exact ⟨source, root', other, .inl link⟩

private def coopSaves : SaveMapping :=
  configure asciiWindows (some (wide "C:\\r")) [(wide ".sl2", wide ".co2")]

private def coopBackup : WString := wide "C:\\r\\l\\a.sl2.bak"

private def otherBackup : WString := wide "C:\\r\\l\\a.bak"

private def junction : Environment :=
  { Environment.calm some with isLink := fun directory => directory = wide "C:\\r\\l" }

theorem route_precise_backup :
    Precise asciiWindows (.calm some) coopBackup (performRoutes asciiWindows (startRouting coopSaves true)
      [⟨.save, coopBackup, .calm some⟩]) := by
  have keeps : ∀ call ∈ [(⟨.save, coopBackup, .calm some⟩ : RoutingCall)],
      SpellingKeepsName asciiWindows asciiLower coopSaves call ⟨.save, coopBackup, .calm some⟩ := by
    intro call member _ _ source canonical
    obtain rfl := List.mem_singleton.mp member
    cases canonical
    exact ⟨wide "C:\\r\\l", wide "C:\\r\\l", wide "a.sl2.bak", wide "a.sl2.bak", rfl, rfl, rfl⟩
  apply ((route_precise_iff asciiWindows_caseFold ⟨rfl, rfl, rfl⟩ coopBackup).2 (some (wide "C:\\r"))
    [(wide ".sl2", wide ".co2")] true _ keeps).mpr
  rintro ⟨source, root, -, link⟩
  simp [pathContainsLink, Environment.calm] at link

/-- A backup of another type is denied behind a junction. -/
theorem route_denies_other_backup :
    junction.Allocates ∧ ¬ Precise asciiWindows junction otherBackup (startRouting coopSaves true) := by
  refine ⟨⟨rfl, rfl, rfl⟩, fun precise => ?_⟩
  obtain ⟨source, canonical, watched⟩ := precise (by decide)
  have own : canonicalizePath junction otherBackup = some otherBackup := by decide
  obtain rfl := Option.some.inj (own.symm.trans canonical)
  rcases watched with failed | mapped
  · exact absurd failed (by decide)
  · exact mapped (by decide)

end Yafsml.Save
