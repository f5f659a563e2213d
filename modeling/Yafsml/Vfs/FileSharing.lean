import Yafsml.Vfs.FileInvariant

/-!
# Acquiring, releasing and dropping caches

An acquired cache is a copy of what the entry of its identity points to. A released one goes idle or
away with its last file. Dropping the table leaves every cache that is still used detached.
-/

namespace Yafsml.Vfs

variable {contents : ZipPackage → Nat → Bytes} {s : FileState}

/-! ## Acquiring -/

/-- The file `package[zipFile]` is what the entry numbered `identity - 1` points to. -/
def PointsTo (s : FileState) (identity : Nat) (package : ZipPackage) (zipFile : Nat) : Prop :=
  ∃ i e, identity = i + 1 ∧ s.vfs.entries[i]? = some e ∧ e.zip = some package ∧ e.zipFile = zipFile

theorem Core.faithful (invariant : Core contents (Named s) pins s) {identity zipFile c : Nat}
    {package : ZipPackage} (points : PointsTo s identity package zipFile) (named : Named s identity c) :
    ∃ cache, s.heap c = some cache ∧ Faithful contents package zipFile cache := by
  obtain ⟨cache, located, rfl, attached⟩ := (invariant.named identity c).mp named
  obtain ⟨i, e, package', same, at_i, zip, faithful⟩ := invariant.current c cache located attached
  obtain ⟨j, e', same', at_j, zip', rfl⟩ := points
  obtain rfl : i = j := by omega
  rw [at_i, Option.some.injEq] at at_j
  subst at_j
  rw [zip, Option.some.injEq] at zip'
  exact ⟨cache, located, zip' ▸ faithful⟩

theorem Core.withTable {pins : Nat → Nat} (core : Core contents (Named s) pins s)
    {table : AList fun _ : Nat => Nat} (same : ∀ identity, table.lookup identity = tableAt s identity) :
    Core contents (Named { s with table := some table }) pins { s with table := some table } ∧
      Frame contents s { s with table := some table } := by
  have names (identity c : Nat) : Named { s with table := some table } identity c ↔
      Named s identity c := by
    unfold Named
    rw [← same]
    rfl
  exact ⟨⟨core.fresh, core.references, core.alive, core.listed, core.nodup, core.unused,
    fun identity c => (names identity c).trans (core.named identity c), core.current⟩,
    ⟨rfl, rfl, le_rfl, fun _ cache located _ => ⟨cache, located, fun _ _ => id⟩,
      fun identity c named => .inl ((names identity c).mp named)⟩⟩

theorem Faithful.congr {package : ZipPackage} {zipFile : Nat} {cache : Cache}
    (faithful : Faithful contents package zipFile cache) (references : Nat) (idle detached : Bool) :
    Faithful contents package zipFile
      { cache with idle := idle, references := references, detached := detached } :=
  ⟨faithful.entry, faithful.size, faithful.undecoded, faithful.memory, faithful.disk,
    faithful.decoded⟩

theorem useCache_frame (s : FileState) (c : Nat) (cache : Cache) :
    (useCache s c cache).vfs = s.vfs ∧ (useCache s c cache).files = s.files ∧
      (useCache s c cache).allocated = s.allocated ∧ (useCache s c cache).table = s.table := by
  obtain ⟨_, vfs, files, allocated, table⟩ := idleUnlink_frame s c cache
  unfold useCache setCache
  cases cache.idle with
  | true => exact ⟨vfs, files, allocated, table⟩
  | false => exact ⟨rfl, rfl, rfl, rfl⟩

theorem named_useCache (s : FileState) (c : Nat) (cache : Cache) (identity c' : Nat) :
    Named (useCache s c cache) identity c' ↔ Named s identity c' := by
  simp only [Named, tableAt, (useCache_frame s c cache).2.2.2]

theorem useCache_core (core : Core contents (Named s) (fun _ => 0) s) {c : Nat} {cache : Cache}
    (located : s.heap c = some cache) :
    Core contents (Named (useCache s c cache)) (pin c) (useCache s c cache) ∧
      Frame contents s (useCache s c cache) := by
  have heap := (idleUnlink_frame s c cache).1
  have rest := useCache_frame s c cache
  have names := named_useCache s c cache
  have heap' : (useCache s c cache).heap = Function.update s.heap c
      (some { cache with idle := false, references := cache.references + 1 }) := by
    unfold useCache setCache
    cases cache.idle with
    | true => simp only [if_true, heap, Function.update_idem]
    | false => simp only [Bool.false_eq_true, if_false]
  have members (inMemory : Bool) (c' : Nat) : c' ∈ idleMembers (useCache s c cache) inMemory ↔
      c' ≠ c ∧ c' ∈ idleMembers s inMemory := by
    cases idle : cache.idle with
    | true =>
        rw [← mem_idleMembers_idleUnlink core located]
        simp [useCache, idle, idleMembers, setCache]
    | false =>
        have same : idleMembers (useCache s c cache) inMemory = idleMembers s inMemory := by
          simp [useCache, idle, idleMembers, setCache]
        rw [same]
        refine ⟨fun member => ⟨?_, member⟩, fun member => member.2⟩
        rintro rfl
        obtain ⟨cache', located', idle', _⟩ := (core.listed inMemory c').mp member
        rw [located, Option.some.injEq] at located'
        rw [← located', idle] at idle'
        cases idle'
  have nodup (inMemory : Bool) : (idleMembers (useCache s c cache) inMemory).Nodup := by
    cases idle : cache.idle with
    | true =>
        have := nodup_idleMembers_idleUnlink core c cache inMemory
        simpa [useCache, idle, idleMembers, setCache] using this
    | false => simpa [useCache, idle, idleMembers, setCache] using core.nodup inMemory
  constructor
  · refine core.replace c _ heap' rest.1 rest.2.1
      ⟨rest.2.2.1.ge, rest.2.2.1 ▸ core.lt_allocated located⟩ ?_ ?_ nodup ?_ ?_ ?_
    · intro id file opened cached
      obtain ⟨cache', located', size⟩ := core.alive id file c opened cached
      rw [located, Option.some.injEq] at located'
      exact ⟨_, rfl, located' ▸ size⟩
    · intro inMemory c'
      rw [members]
      by_cases same : c' = c <;> simp [same]
    · intro c' other
      simp [pin, other]
    · intro identity c'
      rw [names]
      by_cases same : c' = c
      · subst same
        simp [core.named, located]
      · rw [if_neg same]
    · intro _ new
      cases new
      refine ⟨?_, fun idle => (by cases idle), fun attached => ?_⟩
      · simp [pin, core.references c cache located]
      · obtain ⟨i, e, package, identity, entry, zip, faithful⟩ := core.current c cache located attached
        exact ⟨i, e, package, identity, entry, zip, faithful.congr _ _ _⟩
  · refine ⟨rest.1, rest.2.1, rest.2.2.1.ge, ?_, fun identity c' named => .inl ((names _ _).mp named)⟩
    intro c' cache' located' _
    rw [heap']
    by_cases same : c' = c
    · subst same
      rw [located, Option.some.injEq] at located'
      subst located'
      exact ⟨_, Function.update_self _ _ _, fun _ _ faithful => faithful.congr _ _ _⟩
    · exact ⟨cache', by rw [Function.update_of_ne same, located'], fun _ _ => id⟩

theorem newCache_core {table : AList fun _ : Nat => Nat} (core : Core contents (Named s) (fun _ => 0) s)
    (same : s.table = some table) {identity zipFile : Nat} {package : ZipPackage}
    (free : table.lookup identity = none) (points : PointsTo s identity package zipFile) :
    let t := newCache s table identity (zipPackageFileSize package zipFile) package zipFile
    Core contents (Named t) (pin s.allocated) t ∧ Frame contents s t ∧ Named t identity s.allocated := by
  intro t
  have nobody : s.heap s.allocated = none := core.fresh s.allocated le_rfl
  have unheld : holders s s.allocated = 0 := by
    by_contra held
    obtain ⟨slot, member, cached⟩ := List.countP_pos_iff.mp (Nat.pos_of_ne_zero held)
    obtain ⟨id, located⟩ := List.mem_iff_getElem?.mp member
    obtain ⟨file, rfl, cached'⟩ : ∃ file, slot = some file ∧ file.cache = some s.allocated := by
      simpa only [beq_iff_eq, Option.bind_eq_some_iff] using cached
    have opened : fileAt s id = some file := by simp [fileAt, located]
    obtain ⟨cache, located', _⟩ := core.alive id file _ opened cached'
    rw [nobody] at located'
    cases located'
  have names (identity' c' : Nat) : Named t identity' c' ↔
      if identity' = identity then c' = s.allocated else Named s identity' c' := by
    simp only [Named, tableAt, t, newCache, setCache, Option.bind_some, FiniteMap.lookup_insert, same]
    split
    · simp [eq_comm]
    · rfl
  have apart {identity' : Nat} : ¬ Named s identity' s.allocated := by
    intro named
    obtain ⟨cache, located, _⟩ := (core.named _ _).mp named
    rw [nobody] at located
    cases located
  refine ⟨core.replace s.allocated _ rfl rfl rfl ⟨Nat.le_succ _, Nat.lt_succ_self _⟩ ?_ ?_ core.nodup
    ?_ ?_ ?_, ⟨rfl, rfl, Nat.le_succ _, ?_, ?_⟩, (names _ _).mpr (by simp)⟩
  · intro id file opened cached
    have := holders_pos opened cached
    omega
  · intro inMemory c'
    by_cases same : c' = s.allocated
    · subst same
      rw [if_pos rfl]
      refine iff_of_false ?_ ?_
      · intro member
        obtain ⟨cache, located, _⟩ := (core.listed inMemory _).mp member
        rw [nobody] at located
        cases located
      · rintro ⟨_, new, idle, _⟩
        cases new
        cases idle
    · rw [if_neg same]
      rfl
  · intro c' other
    simp [pin, other]
  · intro identity' c'
    rw [names]
    by_cases fresh : c' = s.allocated
    · subst fresh
      by_cases own : identity' = identity
      · simp [own]
      · simp [own, Ne.symm own, apart]
    · rw [if_neg fresh]
      by_cases own : identity' = identity
      · subst own
        have unnamed : ¬ Named s identity' c' := by simp [Named, tableAt, same, free]
        simp [fresh, unnamed]
      · rw [if_neg own]
  · intro _ new
    cases new
    refine ⟨by simp [pin, unheld], fun idle => (by cases idle), fun _ => ?_⟩
    obtain ⟨i, e, rfl, entry, zip, rfl⟩ := points
    refine ⟨i, e, package, rfl, entry, zip, rfl, rfl, fun _ => rfl, fun _ stored => ?_,
      fun _ stored => ?_, fun decoded => absurd rfl decoded⟩
    · cases stored
    · cases stored
  · intro c cache located held
    have other : c ≠ s.allocated := by
      rintro rfl
      omega
    exact ⟨cache, (Function.update_of_ne other _ _).trans located, fun _ _ => id⟩
  · intro identity' c' named
    rw [names] at named
    split at named
    · exact .inr named.ge
    · exact .inl named

theorem cacheAcquire_cases (core : Core contents (Named s) (fun _ => 0) s) {identity zipFile : Nat}
    {package : ZipPackage} (memory : AcquireMemory) (points : PointsTo s identity package zipFile) :
    (∃ t, cacheAcquire package zipFile identity (zipPackageFileSize package zipFile) memory s =
        (t, none) ∧ Core contents (Named t) (fun _ => 0) t ∧ Frame contents s t) ∨
    (∃ t c, cacheAcquire package zipFile identity (zipPackageFileSize package zipFile) memory s =
        (t, some c) ∧ Core contents (Named t) (pin c) t ∧ Frame contents s t ∧
        Named t identity c) := by
  unfold cacheAcquire
  split
  · exact .inl ⟨s, rfl, core, .refl s⟩
  rename_i table tables
  have same (identity : Nat) : table.lookup identity = tableAt s identity := by
    unfold tableAt
    cases present : s.table with
    | some table' =>
        rw [present, Option.some_or, Option.some.injEq] at tables
        rw [← tables, Option.bind_some]
    | none =>
        rw [present, Option.none_or] at tables
        split at tables
        · cases tables
          rfl
        · cases tables
  obtain ⟨core', frame⟩ := core.withTable same
  dsimp only
  split
  · exact .inl ⟨_, rfl, core', frame⟩
  split
  · rename_i c found
    have named : Named { s with table := some table } identity c := found
    obtain ⟨cache, located, _⟩ := (core'.named identity c).mp named
    change s.heap c = some cache at located
    simp only [located]
    obtain ⟨used, frame'⟩ := useCache_core core' located
    exact .inr ⟨_, _, rfl, used, frame.trans frame', (named_useCache _ _ _ _ _).mpr named⟩
  · rename_i free
    split
    · exact .inl ⟨_, rfl, core', frame⟩
    · obtain ⟨created, frame', named⟩ := newCache_core core' rfl free points
      exact .inr ⟨_, _, rfl, created, frame.trans frame', named⟩

/-! ## Releasing -/

section Release

variable {c : Nat} {cache : Cache} (core : Core contents (Named s) (pin c) s)
  (located : s.heap c = some cache)

include core located

theorem references_of_pinned : cache.references = holders s c + 1 := by
  simpa [pin] using core.references c cache located

theorem pinned_not_idle : cache.idle = false := by
  by_contra idle
  rw [Bool.not_eq_false] at idle
  have := (core.unused c cache located idle).1
  have := references_of_pinned core located
  omega

theorem pinned_not_member (inMemory : Bool) : c ∉ idleMembers s inMemory := by
  intro member
  obtain ⟨cache', located', idle, _⟩ := (core.listed inMemory c).mp member
  rw [located, Option.some.injEq] at located'
  rw [← located', pinned_not_idle core located] at idle
  cases idle

theorem unreference_core :
    Core contents (Named s) (fun _ => 0) (setCache s c cache.unreference) ∧
      Frame contents s (setCache s c cache.unreference) := by
  have counted := references_of_pinned core located
  have working := pinned_not_idle core located
  constructor
  · refine core.replace c _ rfl rfl rfl ⟨le_rfl, core.lt_allocated located⟩ ?_ ?_ core.nodup ?_ ?_ ?_
    · intro id file opened cached
      obtain ⟨cache', located', size⟩ := core.alive id file c opened cached
      rw [located, Option.some.injEq] at located'
      exact ⟨_, rfl, located' ▸ size⟩
    · intro inMemory c'
      by_cases same : c' = c
      · subst same
        rw [if_pos rfl]
        refine iff_of_false (pinned_not_member core located inMemory) ?_
        rintro ⟨_, new, idle, _⟩
        cases new
        exact absurd idle (by simp [Cache.unreference, working])
      · rw [if_neg same]
        rfl
    · intro c' other
      simp [pin, other]
    · intro identity c'
      by_cases same : c' = c
      · subst same
        simp [core.named, located, Cache.unreference]
      · rw [if_neg same]
    · intro _ new
      cases new
      refine ⟨by simp [Cache.unreference, counted],
        fun idle => absurd idle (by simp [Cache.unreference, working]), fun attached => ?_⟩
      obtain ⟨i, e, package, identity, entry, zip, faithful⟩ := core.current c cache located attached
      exact ⟨i, e, package, identity, entry, zip, faithful.congr _ _ _⟩
  · refine ⟨rfl, rfl, le_rfl, ?_, fun _ _ => .inl⟩
    intro c' cache' located' _
    by_cases same : c' = c
    · subst same
      rw [located, Option.some.injEq] at located'
      subst located'
      exact ⟨_, Function.update_self _ _ _, fun _ _ faithful => faithful.congr _ _ _⟩
    · exact ⟨cache', (Function.update_of_ne same _ _).trans located', fun _ _ => id⟩

end Release

theorem unheld_frame {c : Nat} {t : FileState} (unheld : holders s c = 0) (vfs : t.vfs = s.vfs) (files : t.files = s.files)
    (allocated : t.allocated = s.allocated) (new : Option Cache)
    (heap : t.heap = Function.update s.heap c new)
    (table : ∀ identity c', Named t identity c' → Named s identity c') : Frame contents s t := by
  refine ⟨vfs, files, allocated.ge, fun c' cache' located' held => ?_,
    fun identity c' named => .inl (table identity c' named)⟩
  have other : c' ≠ c := by
    rintro rfl
    omega
  exact ⟨cache', by rw [heap, Function.update_of_ne other, located'], fun _ _ => id⟩

section Unheld

variable {c : Nat} {cache : Cache} (core : Core contents (Named s) (fun _ => 0) s)
  (located : s.heap c = some cache) (unheld : holders s c = 0)

include core located unheld

theorem idlePush_core (working : cache.idle = false) (attached : cache.detached = false) :
    Core contents (Named (idlePush s c cache)) (fun _ => 0) (idlePush s c cache) ∧
      Frame contents s (idlePush s c cache) := by
  have heap : (idlePush s c cache).heap = Function.update s.heap c
      (some { cache with idle := true }) := by
    unfold idlePush
    dsimp only
    split <;> rfl
  have rest : (idlePush s c cache).vfs = s.vfs ∧ (idlePush s c cache).files = s.files ∧
      (idlePush s c cache).allocated = s.allocated ∧ (idlePush s c cache).table = s.table := by
    unfold idlePush
    dsimp only
    split <;> exact ⟨rfl, rfl, rfl, rfl⟩
  have names (identity c' : Nat) : Named (idlePush s c cache) identity c' ↔ Named s identity c' := by
    simp only [Named, tableAt, rest.2.2.2]
  have members (inMemory : Bool) : idleMembers (idlePush s c cache) inMemory =
      if inMemory = cache.memory.isSome then idleMembers s inMemory ++ [c]
      else idleMembers s inMemory := by
    unfold idlePush idleMembers
    cases inMemory <;> cases cache.memory.isSome <;> rfl
  have absent (inMemory : Bool) : c ∉ idleMembers s inMemory := by
    intro member
    obtain ⟨cache', located', idle, _⟩ := (core.listed inMemory c).mp member
    rw [located, Option.some.injEq] at located'
    rw [← located', working] at idle
    cases idle
  constructor
  · refine core.replace c _ heap rest.1 rest.2.1
      ⟨rest.2.2.1.ge, rest.2.2.1 ▸ core.lt_allocated located⟩ ?_ ?_ ?_ (fun _ _ => rfl) ?_ ?_
    · intro id file opened cached
      have := holders_pos opened cached
      omega
    · intro inMemory c'
      rw [members]
      by_cases same : c' = c
      · subst same
        by_cases storage : inMemory = cache.memory.isSome
        · simp [storage]
        · simp [storage, absent, Ne.symm storage]
      · split <;> simp [same]
    · intro inMemory
      rw [members]
      split
      · exact List.concat_eq_append ▸ (core.nodup inMemory).concat (absent inMemory)
      · exact core.nodup inMemory
    · intro identity c'
      rw [names]
      by_cases same : c' = c
      · subst same
        simp [core.named, located]
      · rw [if_neg same]
    · intro _ new
      cases new
      have none_held := core.references c cache located
      refine ⟨none_held, fun _ => ⟨by simp only; omega, attached⟩, fun attached => ?_⟩
      obtain ⟨i, e, package, identity, entry, zip, faithful⟩ := core.current c cache located attached
      exact ⟨i, e, package, identity, entry, zip, faithful.congr _ _ _⟩
  · exact unheld_frame unheld rest.1 rest.2.1 rest.2.2.1 _ heap
      fun identity c' => (names identity c').mp

theorem cacheDestroy_core (working : cache.idle = false) :
    let t := cacheDestroy (if cache.detached then s else cacheForget s cache) c cache
    Core contents (Named t) (fun _ => 0) t ∧ Frame contents s t := by
  intro t
  have heap : t.heap = Function.update s.heap c none := by
    cases h : cache.detached <;> simp [t, h, cacheDestroy, cacheForget]
  have rest : t.vfs = s.vfs ∧ t.files = s.files ∧ t.allocated = s.allocated ∧
      ∀ inMemory, idleMembers t inMemory = idleMembers s inMemory := by
    cases h : cache.detached <;> simp [t, h, cacheDestroy, cacheForget, idleMembers]
  have names (identity c' : Nat) : Named t identity c' ↔ c' ≠ c ∧ Named s identity c' := by
    cases detached : cache.detached with
    | false =>
        rw [← named_cacheForget core located detached]
        simp only [t, detached, Bool.false_eq_true, if_false]
        rfl
    | true =>
        have same : Named t identity c' ↔ Named s identity c' := by
          simp only [t, detached, if_true]
          rfl
        rw [same]
        refine ⟨fun named => ⟨?_, named⟩, fun named => named.2⟩
        rintro rfl
        obtain ⟨cache', located', _, attached⟩ := (core.named identity c').mp named
        rw [located, Option.some.injEq] at located'
        rw [← located', detached] at attached
        cases attached
  constructor
  · refine core.replace c none heap rest.1 rest.2.1
      ⟨rest.2.2.1.ge, rest.2.2.1 ▸ core.lt_allocated located⟩ ?_ ?_ ?_ (fun _ _ => rfl) ?_ (by simp)
    · intro id file opened cached
      have := holders_pos opened cached
      omega
    · intro inMemory c'
      rw [rest.2.2.2]
      by_cases same : c' = c
      · subst same
        rw [if_pos rfl]
        refine iff_of_false ?_ (by simp)
        intro member
        obtain ⟨cache', located', idle, _⟩ := (core.listed inMemory c').mp member
        rw [located, Option.some.injEq] at located'
        rw [← located', working] at idle
        cases idle
      · rw [if_neg same]
    · exact fun inMemory => rest.2.2.2 inMemory ▸ core.nodup inMemory
    · intro identity c'
      rw [names]
      by_cases same : c' = c <;> simp [same]
  · exact unheld_frame unheld rest.1 rest.2.1 rest.2.2.1 _ heap
      fun identity c' named => ((names identity c').mp named).2

end Unheld

theorem cacheRelease_core (limits : Limits) {c : Nat} {cache : Cache}
    (core : Core contents (Named s) (pin c) s) (located : s.heap c = some cache) :
    Core contents (Named (cacheRelease limits c s)) (fun _ => 0) (cacheRelease limits c s) ∧
      Frame contents s (cacheRelease limits c s) := by
  obtain ⟨core', frame⟩ := unreference_core core located
  have counted := references_of_pinned core located
  have working := pinned_not_idle core located
  have located' : (setCache s c cache.unreference).heap c = some cache.unreference :=
    Function.update_self _ _ _
  unfold cacheRelease
  simp only [located]
  split
  · exact ⟨core', frame⟩
  rename_i unreferenced
  have unheld : holders (setCache s c cache.unreference) c = 0 := by
    have : cache.references - 1 = 0 := not_not.mp unreferenced
    change holders s c = 0
    omega
  split
  · rename_i keep
    have attached : cache.detached = false := by
      simp only [Bool.and_eq_true, Bool.not_eq_true'] at keep
      exact keep.1
    obtain ⟨pushed, frame'⟩ := idlePush_core core' located' unheld working attached
    have trimmed := trimIdleDisk_evicts limits
      (idlePush (setCache s c cache.unreference) c cache.unreference).idleDisk.members.length pushed
    exact ⟨trimmed.core, frame.trans (frame'.trans trimmed.frame)⟩
  · obtain ⟨destroyed, frame'⟩ := cacheDestroy_core core' located' unheld working
    exact ⟨destroyed, frame.trans frame'⟩

/-! ## Dropping -/

theorem Core.congr {named named' : Nat → Nat → Prop} {pins : Nat → Nat}
    (core : Core contents named pins s) (same : ∀ identity c, named' identity c ↔ named identity c) :
    Core contents named' pins s :=
  ⟨core.fresh, core.references, core.alive, core.listed, core.nodup, core.unused,
    fun identity c => (same identity c).trans (core.named identity c), core.current⟩

def InSlots (slots : List (Sigma fun _ : Nat => Nat)) (identity c : Nat) : Prop :=
  ⟨identity, c⟩ ∈ slots

theorem dropCache_core {identity c : Nat} {rest : List (Sigma fun _ : Nat => Nat)}
    (core : Core contents (InSlots (⟨identity, c⟩ :: rest)) (fun _ => 0) s)
    (nodup : (⟨identity, c⟩ :: rest : List (Sigma fun _ : Nat => Nat)).NodupKeys) :
    Core contents (InSlots rest) (fun _ => 0) (dropCache s c) ∧
      Frame contents s (dropCache s c) ∧ (dropCache s c).table = s.table := by
  obtain ⟨cache, located, same, attached⟩ := (core.named identity c).mp (List.mem_cons_self ..)
  have names (identity' c' : Nat) : InSlots rest identity' c' ↔
      c' ≠ c ∧ InSlots (⟨identity, c⟩ :: rest) identity' c' := by
    unfold InSlots
    constructor
    · intro member
      refine ⟨?_, List.mem_cons_of_mem _ member⟩
      rintro rfl
      obtain ⟨cache', located', same', _⟩ :=
        (core.named identity' c').mp (List.mem_cons_of_mem _ member)
      rw [located, Option.some.injEq] at located'
      obtain rfl : identity = identity' := by rw [← same, ← same', located']
      exact (List.nodupKeys_cons.mp nodup).1 (List.mem_keys_of_mem member)
    · rintro ⟨other, member⟩
      rcases List.mem_cons.mp member with equal | member
      · cases equal
        exact absurd rfl other
      · exact member
  obtain ⟨heap, vfs, files, allocated, table⟩ := idleUnlink_frame s c cache
  unfold dropCache
  simp only [located]
  split
  · rename_i idle
    have unheld : holders s c = 0 := by
      have := core.references c cache located
      have := (core.unused c cache located idle).1
      omega
    have heap' : (cacheDestroy (idleUnlink s c cache) c cache).heap = Function.update s.heap c none := by
      simp only [cacheDestroy, heap, Function.update_idem]
    refine ⟨core.replace c none heap' vfs files
      ⟨allocated.ge, allocated ▸ core.lt_allocated located⟩ ?_ ?_ ?_ (fun _ _ => rfl) ?_ (by simp), ?_,
      table⟩
    · intro id file opened cached
      have := holders_pos opened cached
      omega
    · intro inMemory c'
      refine (mem_idleMembers_idleUnlink core located inMemory c').trans ?_
      by_cases other : c' = c <;> simp [other]
    · exact nodup_idleMembers_idleUnlink core c cache
    · intro identity' c'
      rw [names]
      by_cases other : c' = c <;> simp [other]
    · refine unheld_frame unheld vfs files allocated _ heap' fun identity' c' => ?_
      simp only [Named, tableAt, cacheDestroy, table, imp_self]
  · rename_i working
    refine ⟨core.replace c _ rfl rfl rfl ⟨le_rfl, core.lt_allocated located⟩ ?_ ?_ core.nodup
      (fun _ _ => rfl) ?_ ?_, ⟨rfl, rfl, le_rfl, ?_, fun _ _ => .inl⟩, rfl⟩
    · intro id file opened cached
      obtain ⟨cache', located', size⟩ := core.alive id file c opened cached
      rw [located, Option.some.injEq] at located'
      exact ⟨_, rfl, located' ▸ size⟩
    · intro inMemory c'
      by_cases other : c' = c
      · subst other
        refine (core.listed inMemory c').trans ?_
        simp [located]
      · rw [if_neg other]
        rfl
    · intro identity' c'
      rw [names]
      by_cases other : c' = c <;> simp [other]
    · intro _ new
      cases new
      refine ⟨core.references c cache located, fun idle => absurd idle working, fun attached => ?_⟩
      cases attached
    · intro c' cache' located' _
      by_cases other : c' = c
      · subst other
        rw [located, Option.some.injEq] at located'
        subst located'
        exact ⟨_, Function.update_self _ _ _, fun _ _ faithful => faithful.congr _ _ _⟩
      · exact ⟨cache', (Function.update_of_ne other _ _).trans located', fun _ _ => id⟩

theorem dropCaches_core (slots : List (Sigma fun _ : Nat => Nat)) (nodup : slots.NodupKeys)
    (core : Core contents (InSlots slots) (fun _ => 0) s) :
    let t := (slots.map fun slot => slot.2).foldl dropCache s
    Core contents (InSlots []) (fun _ => 0) t ∧ Frame contents s t ∧ t.table = s.table := by
  induction slots generalizing s with
  | nil => exact ⟨core, .refl s, rfl⟩
  | cons slot rest ih =>
      obtain ⟨identity, c⟩ := slot
      obtain ⟨core', frame, table⟩ := dropCache_core core nodup
      obtain ⟨core'', frame', table'⟩ := ih (List.nodupKeys_cons.mp nodup).2 core'
      exact ⟨core'', frame.trans frame', table'.trans table⟩

theorem vfsFileDropCaches_core (core : Core contents (Named s) (fun _ => 0) s) :
    Core contents (Named (vfsFileDropCaches s)) (fun _ => 0) (vfsFileDropCaches s) ∧
      Frame contents s (vfsFileDropCaches s) ∧ (vfsFileDropCaches s).table = none := by
  unfold vfsFileDropCaches
  split
  · rename_i none
    exact ⟨core, .refl s, none⟩
  · rename_i table present
    have slots : Core contents (InSlots table.entries) (fun _ => 0) { s with table := none } := by
      have named (identity c : Nat) : InSlots table.entries identity c ↔ Named s identity c := by
        rw [Named, tableAt, present, Option.bind_some, InSlots]
        exact AList.mem_lookup_iff.symm
      exact ⟨core.fresh, core.references, core.alive, core.listed, core.nodup, core.unused,
        fun identity c => (named identity c).trans (core.named identity c), core.current⟩
    obtain ⟨core', frame, gone⟩ := dropCaches_core table.entries table.nodupKeys slots
    refine ⟨core'.congr ?_, ⟨frame.vfs, frame.files, frame.allocated, frame.kept, ?_⟩, gone⟩
    · intro identity c
      simp [Named, tableAt, gone, InSlots]
    · intro identity c named
      rw [Named, tableAt, gone] at named
      cases named

end Yafsml.Vfs
