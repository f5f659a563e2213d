import Yafsml.Foundation.Overlay
import Yafsml.Vfs.Lookup
import Yafsml.Vfs.Rollback

/-!
# The index is the overlay of the added packages

Every package is a list of layers, one for each file in its own order. A package that is added puts
its layers on top; a package that fails leaves the index alone.
-/

namespace Yafsml.Vfs
open Overlay

def resolves (s : State) (key : WString) : Option Source :=
  ((s.index.lookup key).bind fun i => s.entries[i]?).map VfsEntry.source

theorem resolves_congr {s t : State} (same : Same s t) (key : WString) :
    resolves s key = resolves t key := by
  simp only [resolves, same.lookup, same.entries]

theorem Inserted.resolves_eq {s t : State} {key : WString} {source : Source} {touched : Touched}
    (step : Inserted s key source touched t) (wf : WellFormed s) (k : WString) :
    resolves t k = if key = k then some source else resolves s k := by
  cases step with
  | @override i e _ found located lookup entries _ _ =>
      have inside := (List.getElem?_eq_some_iff.mp located).1
      unfold resolves
      rw [lookup, entries]
      by_cases same : key = k
      · subst same
        simp [found, inside, VfsEntry.pointTo, VfsEntry.source]
      · rw [if_neg same]
        cases h : s.index.lookup k with
        | none => rfl
        | some j =>
            -- Distinct keys have distinct numbers.
            have other : i ≠ j := by
              rintro rfl
              obtain ⟨e₁, located₁, rfl⟩ := (wf.numbered key i).mp found
              obtain ⟨e₂, located₂, rfl⟩ := (wf.numbered k i).mp h
              rw [located₁, Option.some.injEq] at located₂
              exact same (by rw [located₂])
            simp [List.getElem?_set_ne other]
  | fresh absent lookup entries _ _ =>
      unfold resolves
      rw [lookup, entries]
      by_cases same : k = key
      · subst same
        simp [newEntry, VfsEntry.source]
      · rw [if_neg same, if_neg (Ne.symm same)]
        cases h : s.index.lookup k with
        | none => rfl
        | some j => simp [List.getElem?_append_left (wf.lookup_lt h)]

section Layers

variable (win : Windows)

def Package.layersFrom (package : Package) : Nat → List WString → List (WString × Source)
  | _, [] => []
  | applied, relative :: rest =>
      match vfsNormalizePath win relative with
      | some key => (key, ⟨package.diskPath true true relative, package.zipPackage, applied⟩) ::
          package.layersFrom (applied + 1) rest
      | none => package.layersFrom (applied + 1) rest

def Package.layers (package : Package) : List (WString × Source) :=
  package.layersFrom win 0 package.relativePaths

def AddRequest.layers (request : AddRequest) : List (WString × Source) :=
  match request.package win with
  | some package => package.layers win
  | none => []

/-- The layers of the packages that a sequence of calls adds successfully, in order. -/
def addedLayers : State → List AddRequest → List (WString × Source)
  | _, [] => []
  | s, request :: rest =>
      (if (vfsAddPackage win s request).result then request.layers win else []) ++
        addedLayers (vfsAddPackage win s request).vfs rest

theorem mlPathExtend_memory {memory : Bool} {path extended : WString}
    (h : mlPathExtend memory path = some extended) : mlPathExtend true path = some extended := by
  cases memory with
  | true => exact h
  | false =>
      simp only [mlPathExtend, mlPathBuffer, Bool.and_false, Bool.false_eq_true, if_false] at h ⊢
      split at h
      · rename_i short
        rw [if_pos short]
        exact h
      · rename_i long
        rw [if_neg long]
        split at h
        · split_ifs at h ⊢
          exact h
        · exact h

theorem diskPath_memory (package : Package) {buffer extended : Bool} {relative : WString}
    (named : package.diskPath buffer extended relative ≠ none ∨ package.zipPackage ≠ none) :
    package.diskPath buffer extended relative = package.diskPath true true relative := by
  cases package with
  | zip archive => rfl
  | directory root files =>
      obtain ⟨path, joined⟩ := Option.ne_none_iff_exists'.mp
        (named.resolve_right (by simp [Package.zipPackage]))
      rw [joined]
      simp only [Package.diskPath, vfsJoin] at joined ⊢
      cases buffer with
      | false => simp at joined
      | true => exact (mlPathExtend_memory (by simpa using joined)).symm

theorem insertLoop_resolves (package : Package) (memory : Nat → InsertMemory) {s t : State}
    {log log' : List Touched} (wf : WellFormed s) (applied : Nat) (names : List WString)
    (run : insertLoop win package memory s log applied names = (t, log', true)) (k : WString) :
    resolves t k = (overlay (package.layersFrom win applied names) k).or (resolves s k) := by
  induction names generalizing s log applied with
  | nil =>
      cases run
      simp [Package.layersFrom]
  | cons relative rest ih =>
      simp only [insertLoop] at run
      rcases vfsInsert_cases win wf relative
          ⟨package.diskPath (memory applied).joinBuffer (memory applied).joinExtended relative,
            package.zipPackage, applied⟩ (memory applied) with
        ⟨u, failed, -⟩ | ⟨u, touched, key, inserted, normalized, named, step⟩
      · rw [failed] at run
        cases run
      · rw [inserted] at run
        rw [ih (step.wellFormed wf) (applied + 1) run, step.resolves_eq wf, Package.layersFrom,
          normalized, diskPath_memory package named]
        dsimp only
        rw [← List.singleton_append, overlay_append]
        cases overlay (package.layersFrom win (applied + 1) rest) k with
        | some value => rfl
        | none => by_cases same : key = k <;> simp [overlay, same]

theorem vfsInsertPackage_resolves {s : State} (wf : WellFormed s) (package : Package)
    (memory : PackageMemory) (added : (vfsInsertPackage win s package memory).result = true)
    (key : WString) :
    resolves (vfsInsertPackage win s package memory).vfs key =
      (overlay (package.layers win) key).or (resolves s key) := by
  unfold vfsInsertPackage at added ⊢
  split
  · rename_i empty
    simp [Package.layers, Package.layersFrom, empty]
  split
  · simp_all
  split
  · rename_i t log run
    exact insertLoop_resolves win package memory.file wf 0 _ run key
  · simp_all

theorem vfsAddPackage_resolves {s : State} (wf : WellFormed s) (request : AddRequest)
    (added : (vfsAddPackage win s request).result = true) (key : WString) :
    resolves (vfsAddPackage win s request).vfs key =
      (overlay (request.layers win) key).or (resolves s key) := by
  unfold vfsAddPackage AddRequest.layers at *
  split at added
  · cases added
  rename_i accepted
  rw [if_neg accepted]
  split at added
  · cases added
  · rename_i root files package
    rw [package]
    exact vfsInsertPackage_resolves win wf _ _ added key
  · rename_i archive package
    rw [package]
    dsimp only at added ⊢
    split at added
    · rename_i succeeded
      rw [if_pos succeeded]
      exact vfsInsertPackage_resolves win wf _ _ succeeded key
    · rename_i rolledBack
      exact absurd added rolledBack

theorem vfsAddPackages_resolves {s : State} (wf : WellFormed s) (requests : List AddRequest)
    (key : WString) :
    resolves (vfsAddPackages win s requests) key =
      (overlay (addedLayers win s requests) key).or (resolves s key) := by
  induction requests generalizing s with
  | nil => simp [vfsAddPackages, addedLayers]
  | cons request rest ih =>
      have first : resolves (vfsAddPackage win s request).vfs key =
          (overlay (if (vfsAddPackage win s request).result then request.layers win else []) key).or
            (resolves s key) := by
        cases result : (vfsAddPackage win s request).result with
        | true => simpa using vfsAddPackage_resolves win wf request result key
        | false => simp [resolves_congr (vfsAddPackage_failed win wf request result)]
      rw [vfsAddPackages, List.foldl_cons, ← vfsAddPackages,
        ih (vfsAddPackage_wellFormed win wf request), first, addedLayers, overlay_append,
        Option.or_assoc]

theorem Inserted.lookup_kept {s t : State} {key : WString} {source : Source} {touched : Touched}
    (step : Inserted s key source touched t) {k : WString} {i : Nat}
    (h : s.index.lookup k = some i) : t.index.lookup k = some i := by
  cases step with
  | override _ _ lookup => rw [lookup, h]
  | fresh absent lookup =>
      rw [lookup, if_neg]
      · exact h
      · rintro rfl
        rw [absent] at h
        cases h

theorem insertLoop_lookup_kept (package : Package) (memory : Nat → InsertMemory) {s t : State}
    {log log' : List Touched} (wf : WellFormed s) (applied : Nat) (names : List WString)
    (run : insertLoop win package memory s log applied names = (t, log', true)) {key : WString}
    {i : Nat} (h : s.index.lookup key = some i) : t.index.lookup key = some i := by
  induction names generalizing s log applied with
  | nil =>
      cases run
      exact h
  | cons relative rest ih =>
      simp only [insertLoop] at run
      rcases vfsInsert_cases win wf relative
          ⟨package.diskPath (memory applied).joinBuffer (memory applied).joinExtended relative,
            package.zipPackage, applied⟩ (memory applied) with
        ⟨u, failed, -⟩ | ⟨u, touched, _, inserted, -, -, step⟩
      · rw [failed] at run
        cases run
      · rw [inserted] at run
        exact ih (step.wellFormed wf) (applied + 1) run (step.lookup_kept h)

theorem vfsInsertPackage_lookup_kept {s : State} (wf : WellFormed s) (package : Package)
    (memory : PackageMemory) {key : WString} {i : Nat} (h : s.index.lookup key = some i) :
    (vfsInsertPackage win s package memory).vfs.index.lookup key = some i := by
  cases result : (vfsInsertPackage win s package memory).result with
  | false => rw [(vfsInsertPackage_failed win wf package memory result).lookup, h]
  | true =>
      unfold vfsInsertPackage at result ⊢
      split
      · exact h
      split
      · exact h
      split
      · rename_i run
        exact insertLoop_lookup_kept win package memory.file wf 0 _ run h
      · simp_all

theorem vfsAddPackage_lookup_kept {s : State} (wf : WellFormed s) (request : AddRequest)
    {key : WString} {i : Nat} (h : s.index.lookup key = some i) :
    (vfsAddPackage win s request).vfs.index.lookup key = some i := by
  unfold vfsAddPackage
  split
  · exact h
  split
  · exact h
  · exact vfsInsertPackage_lookup_kept win wf _ _ h
  · dsimp only
    split <;> exact vfsInsertPackage_lookup_kept win wf _ _ h

theorem vfsAddPackages_lookup_kept {s : State} (wf : WellFormed s) (requests : List AddRequest)
    {key : WString} {i : Nat} (h : s.index.lookup key = some i) :
    (vfsAddPackages win s requests).index.lookup key = some i := by
  induction requests generalizing s with
  | nil => exact h
  | cons request rest ih =>
      exact ih (vfsAddPackage_wellFormed win wf request) (vfsAddPackage_lookup_kept win wf request h)

theorem vfsUidToPath_virtualToUid {s : State} (wf : WellFormed s) (memory : Bool) (path : WString)
    (plain : vfsUidEntry s path = none) :
    (vfsVirtualToUid win memory s path).bind (vfsUidToPath s) = vfsLookup win memory s path := by
  have direct : vfsUidToPath s path = none := by simp [vfsUidToPath, plain]
  rw [vfsVirtualToUid, vfsLookup, direct, Option.none_or]
  cases found : indexedEntry win memory s path with
  | none => rfl
  | some e =>
      obtain ⟨i, located⟩ : ∃ i, s.entries[i]? = some e := by
        simp only [indexedEntry, Option.bind_eq_some_iff] at found
        obtain ⟨_, _, i, _, located⟩ := found
        exact ⟨i, located⟩
      have inside := (List.getElem?_eq_some_iff.mp located).1
      simp [(wf.uids i e located).1, vfsUidToPath, vfsUidEntry_uidOf s i inside, located]

/-- What `vfs_add_package` calls leave behind, between any two of them. -/
structure OverlayLaw (requests : List AddRequest) : Prop where
  /-- The index maps a key to exactly the last file with that key among the packages added. -/
  last_wins : ∀ key source,
    (∃ i e, (vfsAddPackages win vfsInit requests).index.lookup key = some i ∧
      (vfsAddPackages win vfsInit requests).entries[i]? = some e ∧ e.source = source) ↔
    ∃ lower upper, addedLayers win vfsInit requests = lower ++ (key, source) :: upper ∧
      key ∉ upper.map Prod.fst
  /-- Keys and entry numbers are in bijection. -/
  numbered : ∀ key i, (vfsAddPackages win vfsInit requests).index.lookup key = some i ↔
    ∃ e, (vfsAddPackages win vfsInit requests).entries[i]? = some e ∧ e.key = key
  uids : ∀ i e, (vfsAddPackages win vfsInit requests).entries[i]? = some e →
    e.uid = uidPrefix ++ hexDigits i
  /-- Later packages change neither the number nor the UID of a key. -/
  kept : ∀ later key i e, (vfsAddPackages win vfsInit requests).index.lookup key = some i →
    (vfsAddPackages win vfsInit requests).entries[i]? = some e →
    ∃ e', (vfsAddPackages win vfsInit (requests ++ later)).index.lookup key = some i ∧
      (vfsAddPackages win vfsInit (requests ++ later)).entries[i]? = some e' ∧ e'.uid = e.uid
  lookup : ∀ memory path, vfsUidEntry (vfsAddPackages win vfsInit requests) path = none →
    (vfsVirtualToUid win memory (vfsAddPackages win vfsInit requests) path).bind
        (vfsUidToPath (vfsAddPackages win vfsInit requests)) =
      vfsLookup win memory (vfsAddPackages win vfsInit requests) path

theorem vfsAddPackages_overlayLaw (requests : List AddRequest) : OverlayLaw win requests := by
  have wf := vfsAddPackages_wellFormed win vfsInit_wellFormed requests
  refine ⟨fun key source => ?_, wf.numbered, fun i e located => (wf.uids i e located).1, ?_,
    fun memory path plain => vfsUidToPath_virtualToUid win wf memory path plain⟩
  · rw [← overlay_eq_some]
    have resolved := vfsAddPackages_resolves win vfsInit_wellFormed requests key
    rw [show resolves vfsInit key = none from rfl, Option.or_none] at resolved
    simp [← resolved, resolves, Option.bind_eq_some_iff]
  · intro later key i e found located
    have both : vfsAddPackages win vfsInit (requests ++ later) =
        vfsAddPackages win (vfsAddPackages win vfsInit requests) later := List.foldl_append
    have wf' := vfsAddPackages_wellFormed win vfsInit_wellFormed (requests ++ later)
    have found' := vfsAddPackages_lookup_kept win wf later found
    rw [← both] at found'
    obtain ⟨e', located', -⟩ := (wf'.numbered key i).mp found'
    exact ⟨e', found', located',
      (wf'.uids i e' located').1.trans (wf.uids i e located).1.symm⟩

end Layers

end Yafsml.Vfs
