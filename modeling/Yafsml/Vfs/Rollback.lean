import Yafsml.Foundation.FiniteMap
import Yafsml.Foundation.Journal
import Yafsml.Vfs.Index

/-!
# Packages are indexed whole or not at all

One successful `vfs_insert` either re-points the entry of its key or appends a new one; a failed one
changes nothing a lookup can see. Every record undoes its own insert, so the undo log of a failing
package leads back to the VFS before the call.
-/

namespace Yafsml.Vfs

/-- Nothing but the capacity of `entries` and the layout of the index differs. -/
structure Same (s t : State) : Prop where
  lookup : ∀ key, s.index.lookup key = t.index.lookup key
  entries : s.entries = t.entries
  zipPackages : s.zipPackages = t.zipPackages
  frozen : s.frozen = t.frozen

namespace Same

theorem refl (s : State) : Same s s := ⟨fun _ => rfl, rfl, rfl, rfl⟩

theorem trans {s t u : State} (h : Same s t) (h' : Same t u) : Same s u :=
  ⟨fun key => (h.lookup key).trans (h'.lookup key), h.entries.trans h'.entries,
    h.zipPackages.trans h'.zipPackages, h.frozen.trans h'.frozen⟩

theorem symm {s t : State} (h : Same s t) : Same t s :=
  ⟨fun key => (h.lookup key).symm, h.entries.symm, h.zipPackages.symm, h.frozen.symm⟩

end Same

/-- The index and `entries[0..entry_count)` are in bijection, and every entry carries the UIDs of
its own number. -/
structure WellFormed (s : State) : Prop where
  numbered : ∀ key i, s.index.lookup key = some i ↔ ∃ e, s.entries[i]? = some e ∧ e.key = key
  uids : ∀ i e, s.entries[i]? = some e → e.uid = uidOf i ∧ e.streamingUid = streamingUidOf i

theorem WellFormed.congr {s t : State} (same : Same s t) (wf : WellFormed t) : WellFormed s where
  numbered key i := by rw [same.lookup, same.entries, wf.numbered]
  uids i e := by rw [same.entries]; exact wf.uids i e

theorem WellFormed.lookup_lt {s : State} (wf : WellFormed s) {key : WString} {i : Nat}
    (h : s.index.lookup key = some i) : i < s.entries.length := by
  obtain ⟨e, located, -⟩ := (wf.numbered key i).mp h
  exact (List.getElem?_eq_some_iff.mp located).1

theorem vfsInit_wellFormed : WellFormed vfsInit where
  numbered key i := by simp [vfsInit]
  uids i e := by simp [vfsInit]

/-- What an entry resolves to: a loose file's path, or the archive and its file number. -/
structure Source where
  path : Option WString
  zip : Option ZipPackage
  zipFile : Nat
deriving DecidableEq

def VfsEntry.source (e : VfsEntry) : Source := ⟨e.path, e.zip, e.zipFile⟩

def VfsEntry.pointTo (e : VfsEntry) (source : Source) : VfsEntry :=
  { e with path := source.path, zip := source.zip, zipFile := source.zipFile }

def newEntry (key : WString) (source : Source) (i : Nat) : VfsEntry :=
  ⟨key, source.path, uidOf i, streamingUidOf i, source.zip, source.zipFile⟩

/-- Everything a successful `vfs_insert` can do. -/
inductive Inserted (s : State) (key : WString) (source : Source) : Touched → State → Prop
  | override {i : Nat} {e : VfsEntry} {t : State} :
      s.index.lookup key = some i → s.entries[i]? = some e →
      (∀ k, t.index.lookup k = s.index.lookup k) →
      t.entries = s.entries.set i (e.pointTo source) →
      t.zipPackages = s.zipPackages → t.frozen = s.frozen →
      Inserted s key source ⟨some e, i⟩ t
  | fresh {t : State} :
      s.index.lookup key = none →
      (∀ k, t.index.lookup k = if k = key then some s.entries.length else s.index.lookup k) →
      t.entries = s.entries ++ [newEntry key source s.entries.length] →
      t.zipPackages = s.zipPackages → t.frozen = s.frozen →
      Inserted s key source ⟨none, s.entries.length⟩ t

theorem insertNew_cases (s : State) (key : WString) (source : Source) (memory : InsertMemory)
    (absent : s.index.lookup key = none) :
    (∃ t, insertNew s key source.path source.zip source.zipFile memory = (t, none) ∧ Same t s) ∨
    (∃ t touched, insertNew s key source.path source.zip source.zipFile memory = (t, some touched) ∧
      Inserted s key source touched t) := by
  unfold insertNew
  split
  · refine .inl ⟨_, rfl, ?_, rfl, rfl, rfl⟩
    intro k
    by_cases same : k = key
    · subst same
      simp [absent]
    · simp [same]
  · rename_i room
    dsimp only
    split
    · refine .inl ⟨_, rfl, ?_, ?_, ?_, ?_⟩
      · intro k
        by_cases same : k = key
        · subst same
          simp [absent]
        · simp only [FiniteMap.lookup_erase, FiniteMap.lookup_insert, same, if_false]
          split <;> simp [same]
      all_goals dsimp only
      all_goals split <;> rfl
    · refine .inr ⟨_, _, rfl, .fresh absent ?_ ?_ ?_ ?_⟩
      · intro k
        simp only [FiniteMap.lookup_insert]
        split
        · rfl
        · rename_i other
          split <;> simp [other]
      all_goals dsimp only
      all_goals split <;> rfl

section Calls

variable (win : Windows)

/-- `vfs_insert` fails without a trace, or does one `Inserted` step for the normalized name. -/
theorem vfsInsert_cases {s : State} (wf : WellFormed s) (relative : WString) (source : Source)
    (memory : InsertMemory) :
    (∃ t, vfsInsert win s relative source.path source.zip source.zipFile memory = (t, none) ∧
      Same t s) ∨
    (∃ t touched key,
      vfsInsert win s relative source.path source.zip source.zipFile memory = (t, some touched) ∧
      vfsNormalizePath win relative = some key ∧ (source.path ≠ none ∨ source.zip ≠ none) ∧
      Inserted s key source touched t) := by
  unfold vfsInsert
  split
  · exact .inl ⟨s, rfl, .refl s⟩
  rename_i pointed
  split
  · exact .inl ⟨s, rfl, .refl s⟩
  rename_i key normalized
  have spelled : vfsNormalizePath win relative = some key := by
    split at normalized
    · exact normalized
    · cases normalized
  have somewhere : source.path ≠ none ∨ source.zip ≠ none := by
    simpa only [not_and_or] using pointed
  split
  · exact .inl ⟨s, rfl, .refl s⟩
  split
  · rename_i i found
    obtain ⟨e, located, -⟩ := (wf.numbered key i).mp found
    rw [located]
    exact .inr ⟨_, _, key, rfl, spelled, somewhere,
      .override found located (fun _ => rfl) rfl rfl rfl⟩
  · rename_i absent
    rcases insertNew_cases s key source memory absent with ⟨t, run, same⟩ | ⟨t, touched, run, step⟩
    · exact .inl ⟨t, run, same⟩
    · exact .inr ⟨t, touched, key, run, spelled, somewhere, step⟩

theorem Inserted.wellFormed {s t : State} {key : WString} {source : Source} {touched : Touched}
    (step : Inserted s key source touched t) (wf : WellFormed s) : WellFormed t := by
  cases step with
  | @override i e _ found located lookup entries _ _ =>
      have inside := (List.getElem?_eq_some_iff.mp located).1
      have at_i (j : Nat) : t.entries[j]? = if j = i then some (e.pointTo source) else s.entries[j]? := by
        rw [entries, List.getElem?_set]
        by_cases same : i = j
        · simp [← same, inside]
        · simp [same, Ne.symm same]
      constructor
      · intro k j
        rw [lookup, wf.numbered, at_i]
        by_cases same : j = i
        · subst same
          simp [located, VfsEntry.pointTo]
        · simp [same]
      · intro j e' located'
        rw [at_i] at located'
        split at located'
        · rename_i same
          cases located'
          exact same ▸ wf.uids i e located
        · exact wf.uids j e' located'
  | fresh absent lookup entries _ _ =>
      constructor
      · intro k j
        rw [lookup, entries, List.getElem?_append]
        by_cases inside : j < s.entries.length
        · rw [if_pos inside, ← wf.numbered]
          by_cases same : k = key
          · subst same
            simp only [absent, if_true, Option.some.injEq, reduceCtorEq, iff_false]
            omega
          · simp [same]
        · rw [if_neg inside]
          by_cases last : j = s.entries.length
          · subst last
            by_cases same : k = key
            · simp [same, newEntry]
            · simp only [same, if_false, Nat.sub_self, List.getElem?_cons_zero, Option.some.injEq,
                exists_eq_left', newEntry, Ne.symm same, iff_false]
              intro h
              exact absurd (wf.lookup_lt h) inside
          · have none_at : [newEntry key source s.entries.length][j - s.entries.length]? = none := by
              simp; omega
            rw [none_at]
            by_cases same : k = key
            · simp [same, Ne.symm last]
            · simp only [same, if_false, reduceCtorEq, false_and, exists_false, iff_false]
              intro h
              exact absurd (wf.lookup_lt h) inside
      · intro j e located
        rw [entries, List.getElem?_append] at located
        split at located
        · exact wf.uids j e located
        · have last : j - s.entries.length = 0 := by
            have := (List.getElem?_eq_some_iff.mp located).1
            simpa using this
          rw [last] at located
          have here : j = s.entries.length := by omega
          cases located
          exact ⟨by simp [newEntry, here], by simp [newEntry, here]⟩

theorem undoInsert_inserted {s t : State} {key : WString} {source : Source} {touched : Touched}
    (step : Inserted s key source touched t) :
    Same (undoInsert t touched) s := by
  cases step with
  | @override i e _ found located lookup entries packages frozen =>
      refine ⟨lookup, ?_, packages, frozen⟩
      simp only [undoInsert, entries, List.set_set]
      obtain ⟨inside, rfl⟩ := List.getElem?_eq_some_iff.mp located
      exact List.set_getElem_self inside
  | fresh absent lookup entries packages frozen =>
      refine ⟨?_, ?_, packages, frozen⟩
      · intro k
        simp only [undoInsert, entries, FiniteMap.lookup_erase, lookup]
        by_cases same : k = key
        · subst same
          simp [newEntry, absent]
        · simp [newEntry, same]
      · simp [undoInsert, entries]

theorem undoInsert_congr (s t : State) (touched : Touched) (same : Same s t) :
    Same (undoInsert s touched) (undoInsert t touched) := by
  unfold undoInsert
  split
  · exact ⟨same.lookup, by simp only [same.entries], same.zipPackages, same.frozen⟩
  · refine ⟨?_, by simp only [same.entries], same.zipPackages, same.frozen⟩
    intro k
    simp only [FiniteMap.lookup_erase, same.entries, same.lookup]

theorem insertLoop_logged (package : Package) (memory : Nat → InsertMemory) {s t : State}
    {start log : List Touched} (wf : WellFormed s)
    (logged : Journal.Logged (fun s touched t => ∃ key source, Inserted s key source touched t)
      s start t) (applied : Nat) (names : List WString) {u : State} {result : Bool}
    (run : insertLoop win package memory t start applied names = (u, log, result)) :
    ∃ v, Journal.Logged (fun s touched t => ∃ key source, Inserted s key source touched t) s log v ∧
      Same u v := by
  induction names generalizing t start applied with
  | nil =>
      cases run
      exact ⟨_, logged, .refl _⟩
  | cons relative rest ih =>
      have here : WellFormed t := logged.preserves
        (fun _ _ _ wf ⟨_, _, step⟩ => step.wellFormed wf) wf
      simp only [insertLoop] at run
      rcases vfsInsert_cases win here relative
          ⟨package.diskPath (memory applied).joinBuffer (memory applied).joinExtended relative,
            package.zipPackage, applied⟩ (memory applied) with
        ⟨v, failed, same⟩ | ⟨v, touched, key, inserted, -, -, step⟩
      · rw [failed] at run
        cases run
        exact ⟨t, logged, same⟩
      · rw [inserted] at run
        exact ih (logged.cons ⟨_, _, step⟩) _ run

theorem vfsInsertPackage_failed {s : State} (wf : WellFormed s) (package : Package)
    (memory : PackageMemory) (failed : (vfsInsertPackage win s package memory).result = false) :
    Same (vfsInsertPackage win s package memory).vfs s := by
  unfold vfsInsertPackage at failed ⊢
  split
  · exact .refl s
  split
  · exact .refl s
  split
  · simp_all
  · rename_i t log run
    obtain ⟨u, logged, same⟩ := insertLoop_logged win package memory.file wf .nil 0 _ run
    have back : Same (Journal.rollback undoInsert u log) s :=
      Journal.rollback_logged Same.refl Same.trans undoInsert_congr
        (fun _ _ _ wf ⟨_, _, step⟩ => step.wellFormed wf)
        (fun _ _ _ _ ⟨_, _, step⟩ => undoInsert_inserted step) logged wf
    exact (Journal.rollback_congr undoInsert_congr log same).trans back

theorem vfsInsertPackage_wellFormed {s : State} (wf : WellFormed s) (package : Package)
    (memory : PackageMemory) : WellFormed (vfsInsertPackage win s package memory).vfs := by
  cases result : (vfsInsertPackage win s package memory).result with
  | false => exact .congr (vfsInsertPackage_failed win wf package memory result) wf
  | true =>
      unfold vfsInsertPackage at result ⊢
      split
      · exact wf
      split
      · exact wf
      split
      · rename_i run
        obtain ⟨u, logged, same⟩ := insertLoop_logged win package memory.file wf .nil 0 _ run
        exact .congr same (logged.preserves (fun _ _ _ wf ⟨_, _, step⟩ => step.wellFormed wf) wf)
      · simp_all

theorem vfsAddPackage_failed {s : State} (wf : WellFormed s) (request : AddRequest)
    (failed : (vfsAddPackage win s request).result = false) :
    Same (vfsAddPackage win s request).vfs s := by
  unfold vfsAddPackage at failed ⊢
  split
  · exact .refl s
  rename_i accepted
  rw [if_neg accepted] at failed
  split
  · exact .refl s
  · rename_i root files package
    rw [package] at failed
    exact vfsInsertPackage_failed win wf _ _ failed
  · rename_i archive package
    rw [package] at failed
    dsimp only at failed ⊢
    split at failed
    · rename_i succeeded
      exact absurd failed (by simpa using succeeded)
    · rename_i rolledBack
      rw [if_neg rolledBack]
      exact vfsInsertPackage_failed win wf _ _ (by simpa using rolledBack)

theorem vfsAddPackage_wellFormed {s : State} (wf : WellFormed s) (request : AddRequest) :
    WellFormed (vfsAddPackage win s request).vfs := by
  unfold vfsAddPackage
  split
  · exact wf
  split
  · exact wf
  · exact vfsInsertPackage_wellFormed win wf _ _
  · rename_i archive _
    have wf' := vfsInsertPackage_wellFormed win wf (.zip archive) request.memory
    dsimp only
    split
    · exact ⟨wf'.numbered, wf'.uids⟩
    · exact wf'

theorem vfsAddPackages_wellFormed {s : State} (wf : WellFormed s) (requests : List AddRequest) :
    WellFormed (vfsAddPackages win s requests) := by
  induction requests generalizing s with
  | nil => exact wf
  | cons request rest ih => exact ih (vfsAddPackage_wellFormed win wf request)

/-- A `vfs_add_package` call that returns false leaves the mapping of the index, `entry_count` and
every entry as they were. -/
theorem vfsAddPackage_all_or_nothing (s : State) (wf : WellFormed s) (request : AddRequest)
    (failed : (vfsAddPackage win s request).result = false) :
    let after := (vfsAddPackage win s request).vfs
    (∀ key, after.index.lookup key = s.index.lookup key) ∧
      after.entries.length = s.entries.length ∧
      ∀ i : Nat, after.entries[i]? = s.entries[i]? := by
  have same := vfsAddPackage_failed win wf request failed
  exact ⟨same.lookup, by rw [same.entries], fun i => by rw [same.entries]⟩

end Calls

private def allAllocated : InsertMemory := ⟨true, true, true, true, 0, true, true⟩

/-- A loose directory with `parts/a.bin`. -/
private def looseRequest : AddRequest where
  path := wide "C:\\loose"
  isDirectory _ := true
  attributesValid _ := true
  listing := .directory (wide "parts") true false
    (.file (wide "a.bin") true true (.finished true)) (.finished true)
  zipPackageOpen _ _ := none
  diskPathMemory := true
  nodeMemory := true
  memory := ⟨true, fun _ => allAllocated⟩

/-- An archive that overrides a key, adds one twice and runs out of memory for the next UID. -/
private def failingRequest : AddRequest where
  path := wide "C:\\a.zip:def"
  isDirectory _ := false
  attributesValid _ := true
  listing := .failed
  zipPackageOpen _ _ := some ⟨1, [⟨wide "Parts\\A.bin", 0, 1⟩, ⟨wide "b", 1, 1⟩,
    ⟨wide "B", 2, 1⟩, ⟨wide "c", 3, 1⟩]⟩
  diskPathMemory := true
  nodeMemory := true
  memory := ⟨true, fun i => { allAllocated with uid := i ≠ 3 }⟩

theorem vfsAddPackage_all_or_nothing_rolledBack :
    let s := vfsAddPackages asciiWindows vfsInit [looseRequest]
    let after := (vfsAddPackage asciiWindows s failingRequest).vfs
    (∀ key, after.index.lookup key = s.index.lookup key) ∧
      after.entries.length = s.entries.length ∧
      ∀ i : Nat, after.entries[i]? = s.entries[i]? :=
  vfsAddPackage_all_or_nothing asciiWindows (vfsAddPackages asciiWindows vfsInit [looseRequest])
    (vfsAddPackages_wellFormed asciiWindows vfsInit_wellFormed _) failingRequest (by decide)

end Yafsml.Vfs
