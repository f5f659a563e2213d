import Yafsml.Foundation.FiniteMap
import Yafsml.Vfs.File

/-!
# The invariant of the decoded caches

A cache that is not detached is named by the table under its identity and belongs to what the entry
of that number points to now. The other parts keep caches alive: references count the open files,
idle lists hold exactly the caches without any.
-/

namespace Yafsml.Vfs

/-! ## Open files -/

def holders (s : FileState) (c : Nat) : Nat :=
  s.files.countP fun slot => (slot.bind fun file => file.cache) == some c

theorem holders_pos {s : FileState} {id c : Nat} {file : VfsFile} (opened : fileAt s id = some file)
    (cached : file.cache = some c) : 0 < holders s c := by
  obtain ⟨slot, located, rfl⟩ : ∃ slot, s.files[id]? = some slot ∧ slot = some file := by
    simpa [fileAt, Option.join_eq_some_iff] using opened
  exact List.countP_pos_iff.mpr ⟨some file, List.mem_of_getElem? located, by simp [cached]⟩

theorem holders_set {s t : FileState} {id : Nat} {file : VfsFile} {slot : Option VfsFile}
    (opened : fileAt s id = some file) (files : t.files = s.files.set id slot) (c : Nat) :
    holders t c + (if file.cache = some c then 1 else 0) =
      holders s c + (if (slot.bind fun file => file.cache) = some c then 1 else 0) := by
  obtain ⟨inside, located⟩ : ∃ inside : id < s.files.length, s.files[id] = some file := by
    simpa [fileAt, Option.join_eq_some_iff, List.getElem?_eq_some_iff] using opened
  unfold holders
  rw [files, List.countP_set inside, located]
  by_cases held : file.cache = some c
  · have := holders_pos opened held
    unfold holders at this
    simp only [held, Option.bind_some, beq_self_eq_true, if_true, beq_iff_eq]
    omega
  · simp [held]

theorem fileAt_set {s t : FileState} {id : Nat} {slot : Option VfsFile}
    (files : t.files = s.files.set id slot) (inside : id < s.files.length) (j : Nat) :
    fileAt t j = if j = id then slot else fileAt s j := by
  unfold fileAt
  rw [files, List.getElem?_set]
  by_cases same : id = j
  · simp [same, same ▸ inside]
  · simp [same, Ne.symm same]

theorem fileAt_lt {s : FileState} {id : Nat} {file : VfsFile} (opened : fileAt s id = some file) :
    id < s.files.length := by
  by_contra outside
  rw [fileAt, List.getElem?_eq_none (by omega)] at opened
  cases opened

/-! ## The invariant -/

/-- The cache is the decoded copy of this file of this archive, or will be. -/
structure Faithful (contents : ZipPackage → Nat → Bytes) (package : ZipPackage) (zipFile : Nat)
    (cache : Cache) : Prop where
  entry : cache.entry = zipFile
  size : cache.size = zipPackageFileSize package zipFile
  undecoded : cache.state = .empty → cache.package = some package
  memory : ∀ data, cache.memory = some data → data = (contents package zipFile).take cache.size
  disk : ∀ data, cache.disk = some data → data = (contents package zipFile).take cache.size
  decoded : cache.state ≠ .empty → cache.size ≠ 0 → cache.memory.isSome ∨ cache.disk.isSome

def idleMembers (s : FileState) (inMemory : Bool) : List Nat :=
  if inMemory then s.idleMemory.members else s.idleDisk.members

/-- `named` is what the table says, and `pins` counts references that no file accounts for yet. -/
structure Core (contents : ZipPackage → Nat → Bytes) (named : Nat → Nat → Prop) (pins : Nat → Nat)
    (s : FileState) : Prop where
  fresh : ∀ c, s.allocated ≤ c → s.heap c = none
  references : ∀ c cache, s.heap c = some cache → cache.references = holders s c + pins c
  alive : ∀ id file c, fileAt s id = some file → file.cache = some c →
    ∃ cache, s.heap c = some cache ∧ cache.size = file.size
  listed : ∀ inMemory c, c ∈ idleMembers s inMemory ↔
    ∃ cache, s.heap c = some cache ∧ cache.idle = true ∧ cache.memory.isSome = inMemory
  nodup : ∀ inMemory, (idleMembers s inMemory).Nodup
  unused : ∀ c cache, s.heap c = some cache → cache.idle = true →
    cache.references = 0 ∧ cache.detached = false
  named : ∀ identity c, named identity c ↔
    ∃ cache, s.heap c = some cache ∧ cache.identity = identity ∧ cache.detached = false
  current : ∀ c cache, s.heap c = some cache → cache.detached = false →
    ∃ i e package, cache.identity = i + 1 ∧ s.vfs.entries[i]? = some e ∧ e.zip = some package ∧
      Faithful contents package e.zipFile cache

def tableAt (s : FileState) (identity : Nat) : Option Nat :=
  s.table.bind fun table => table.lookup identity

def Named (s : FileState) (identity c : Nat) : Prop := tableAt s identity = some c

def Invariant (contents : ZipPackage → Nat → Bytes) (s : FileState) : Prop :=
  Core contents (Named s) (fun _ => 0) s

def pin (c : Nat) : Nat → Nat := fun c' => if c' = c then 1 else 0

section Replace

variable {contents : ZipPackage → Nat → Bytes} {named named' : Nat → Nat → Prop}
  {pins pins' : Nat → Nat} {s s' : FileState}

/-- An operation on the cache `c` alone keeps the invariant when `c` itself meets it afterwards. -/
theorem Core.replace (core : Core contents named pins s) (c : Nat) (new : Option Cache)
    (heap : s'.heap = Function.update s.heap c new) (vfs : s'.vfs = s.vfs)
    (files : s'.files = s.files) (allocated : s.allocated ≤ s'.allocated ∧ c < s'.allocated)
    (alive : ∀ id file, fileAt s id = some file → file.cache = some c →
      ∃ cache, new = some cache ∧ cache.size = file.size)
    (listed : ∀ inMemory c', c' ∈ idleMembers s' inMemory ↔ if c' = c then
      ∃ cache, new = some cache ∧ cache.idle = true ∧ cache.memory.isSome = inMemory
      else c' ∈ idleMembers s inMemory)
    (nodup : ∀ inMemory, (idleMembers s' inMemory).Nodup)
    (others : ∀ c', c' ≠ c → pins' c' = pins c')
    (names : ∀ identity c', named' identity c' ↔ if c' = c then
      ∃ cache, new = some cache ∧ cache.identity = identity ∧ cache.detached = false
      else named identity c')
    (meets : ∀ cache, new = some cache → cache.references = holders s c + pins' c ∧
      (cache.idle = true → cache.references = 0 ∧ cache.detached = false) ∧
      (cache.detached = false → ∃ i e package, cache.identity = i + 1 ∧
        s.vfs.entries[i]? = some e ∧ e.zip = some package ∧
        Faithful contents package e.zipFile cache)) :
    Core contents named' pins' s' := by
  have at_c : s'.heap c = new := by rw [heap, Function.update_self]
  have elsewhere {c' : Nat} (other : c' ≠ c) : s'.heap c' = s.heap c' := by
    rw [heap, Function.update_of_ne other]
  have held (c' : Nat) : holders s' c' = holders s c' := by simp only [holders, files]
  have opened (id : Nat) : fileAt s' id = fileAt s id := by simp only [fileAt, files]
  constructor
  · intro c' bound
    rw [elsewhere (by omega)]
    exact core.fresh c' (by omega)
  · intro c' cache located
    rw [held]
    by_cases same : c' = c
    · subst same
      exact (meets cache (at_c ▸ located)).1
    · rw [others c' same]
      exact core.references c' cache (elsewhere same ▸ located)
  · intro id file c' open' cached
    rw [opened] at open'
    by_cases same : c' = c
    · subst same
      rw [at_c]
      exact alive id file open' cached
    · rw [elsewhere same]
      exact core.alive id file c' open' cached
  · intro inMemory c'
    rw [listed]
    by_cases same : c' = c
    · subst same
      rw [if_pos rfl, at_c]
    · rw [if_neg same, elsewhere same]
      exact core.listed inMemory c'
  · exact nodup
  · intro c' cache located idle
    by_cases same : c' = c
    · subst same
      exact (meets cache (at_c ▸ located)).2.1 idle
    · exact core.unused c' cache (elsewhere same ▸ located) idle
  · intro identity c'
    rw [names]
    by_cases same : c' = c
    · subst same
      rw [if_pos rfl, at_c]
    · rw [if_neg same, elsewhere same]
      exact core.named identity c'
  · intro c' cache located attached
    rw [vfs]
    by_cases same : c' = c
    · subst same
      exact (meets cache (at_c ▸ located)).2.2 attached
    · exact core.current c' cache (elsewhere same ▸ located) attached

/-- What an operation on caches keeps: the caches of open files, up to decoding, and the table up to
forgotten and new caches. -/
structure Frame (contents : ZipPackage → Nat → Bytes) (s s' : FileState) : Prop where
  vfs : s'.vfs = s.vfs
  files : s'.files = s.files
  allocated : s.allocated ≤ s'.allocated
  kept : ∀ c cache, s.heap c = some cache → 0 < holders s c → ∃ cache', s'.heap c = some cache' ∧
    ∀ package zipFile, Faithful contents package zipFile cache →
      Faithful contents package zipFile cache'
  table : ∀ identity c, Named s' identity c → Named s identity c ∨ s.allocated ≤ c

namespace Frame

theorem refl (s : FileState) : Frame contents s s :=
  ⟨rfl, rfl, le_rfl, fun _ cache located _ => ⟨cache, located, fun _ _ => id⟩, fun _ _ => .inl⟩

theorem trans {t : FileState} (first : Frame contents s s') (second : Frame contents s' t) :
    Frame contents s t where
  vfs := second.vfs.trans first.vfs
  files := second.files.trans first.files
  allocated := first.allocated.trans second.allocated
  kept c cache located held := by
    obtain ⟨cache', located', same⟩ := first.kept c cache located held
    have held' : 0 < holders s' c := by simpa only [holders, first.files] using held
    obtain ⟨cache'', located'', same'⟩ := second.kept c cache' located' held'
    exact ⟨cache'', located'', fun _ _ faithful => same' _ _ (same _ _ faithful)⟩
  table identity c named := by
    rcases second.table identity c named with named | fresh
    · exact first.table identity c named
    · exact .inr (first.allocated.trans fresh)

end Frame

theorem Core.lt_allocated (core : Core contents named pins s) {c : Nat} {cache : Cache}
    (located : s.heap c = some cache) : c < s.allocated := by
  by_contra outside
  rw [core.fresh c (by omega)] at located
  cases located

/-! ## Eviction -/

theorem idleMembers_idleUnlink (s : FileState) (c : Nat) (cache : Cache) (inMemory : Bool) :
    idleMembers (idleUnlink s c cache) inMemory =
      if inMemory = cache.memory.isSome then (idleMembers s inMemory).erase c
      else idleMembers s inMemory := by
  unfold idleUnlink idleMembers
  cases inMemory <;> cases cache.memory.isSome <;> rfl

theorem mem_idleMembers_idleUnlink (core : Core contents named pins s) {c : Nat} {cache : Cache}
    (located : s.heap c = some cache) (inMemory : Bool) (c' : Nat) :
    c' ∈ idleMembers (idleUnlink s c cache) inMemory ↔ c' ≠ c ∧ c' ∈ idleMembers s inMemory := by
  rw [idleMembers_idleUnlink]
  split
  · exact (core.nodup inMemory).mem_erase_iff
  · rename_i other
    refine ⟨fun member => ⟨?_, member⟩, fun member => member.2⟩
    rintro rfl
    obtain ⟨cache', located', _, storage⟩ := (core.listed inMemory c').mp member
    rw [located, Option.some.injEq] at located'
    exact other (located' ▸ storage.symm)

theorem nodup_idleMembers_idleUnlink (core : Core contents named pins s) (c : Nat) (cache : Cache)
    (inMemory : Bool) : (idleMembers (idleUnlink s c cache) inMemory).Nodup := by
  rw [idleMembers_idleUnlink]
  split
  · exact (core.nodup inMemory).erase c
  · exact core.nodup inMemory

theorem idleUnlink_frame (s : FileState) (c : Nat) (cache : Cache) :
    (idleUnlink s c cache).heap = Function.update s.heap c (some { cache with idle := false }) ∧
      (idleUnlink s c cache).vfs = s.vfs ∧ (idleUnlink s c cache).files = s.files ∧
      (idleUnlink s c cache).allocated = s.allocated ∧ (idleUnlink s c cache).table = s.table := by
  unfold idleUnlink
  dsimp only
  split <;> exact ⟨rfl, rfl, rfl, rfl, rfl⟩

theorem tableAt_cacheForget (s : FileState) (cache : Cache) (identity : Nat) :
    tableAt (cacheForget s cache) identity =
      if identity = cache.identity then none else tableAt s identity := by
  unfold tableAt cacheForget
  cases s.table with
  | none => simp
  | some table => simp [FiniteMap.lookup_erase]

theorem named_cacheForget (core : Core contents (Named s) pins s) {c : Nat} {cache : Cache}
    (located : s.heap c = some cache) (attached : cache.detached = false) (identity c' : Nat) :
    Named (cacheForget s cache) identity c' ↔ c' ≠ c ∧ Named s identity c' := by
  have own : Named s cache.identity c := (core.named _ c).mpr ⟨cache, located, rfl, attached⟩
  unfold Named at own ⊢
  rw [tableAt_cacheForget]
  split
  · rename_i same
    rw [same, own]
    simp only [reduceCtorEq, Option.some.injEq, false_iff, not_and]
    exact fun other same => other same.symm
  · rename_i different
    refine ⟨fun named => ⟨?_, named⟩, fun named => named.2⟩
    rintro rfl
    obtain ⟨cache', located', same, _⟩ := (core.named identity c').mp named
    rw [located, Option.some.injEq] at located'
    exact different (located' ▸ same.symm)

theorem idleEvict_core (core : Core contents (Named s) pins s) {c : Nat} {cache : Cache}
    (located : s.heap c = some cache) (idle : cache.idle = true) :
    Core contents (Named (idleEvict s c)) pins (idleEvict s c) ∧
      Frame contents s (idleEvict s c) := by
  obtain ⟨none_held, attached⟩ := core.unused c cache located idle
  have nobody : holders s c = 0 := by
    have := core.references c cache located
    omega
  obtain ⟨heap, vfs, files, allocated, table⟩ := idleUnlink_frame s c cache
  have evicted : idleEvict s c = cacheDestroy (cacheForget (idleUnlink s c cache) cache) c cache := by
    rw [idleEvict, located]
  have heap' : (idleEvict s c).heap = Function.update s.heap c none := by
    rw [evicted, cacheDestroy, cacheForget]
    simp only [heap, Function.update_idem]
  have members (inMemory : Bool) : idleMembers (idleEvict s c) inMemory =
      idleMembers (idleUnlink s c cache) inMemory := by rw [evicted]; rfl
  have names (identity c' : Nat) : Named (idleEvict s c) identity c' ↔
      c' ≠ c ∧ Named s identity c' := by
    rw [← named_cacheForget core located attached]
    have same : (idleEvict s c).table = (cacheForget s cache).table := by
      rw [evicted, cacheDestroy, cacheForget, cacheForget, table]
    simp only [Named, tableAt, same]
  constructor
  · refine core.replace c none heap' (by rw [evicted]; exact vfs) (by rw [evicted]; exact files)
      ⟨by rw [evicted]; exact allocated.ge, ?_⟩ ?_ ?_ ?_ (fun _ _ => rfl) ?_ (by simp)
    · rw [evicted]
      exact allocated ▸ core.lt_allocated located
    · intro id file opened cached
      have := holders_pos opened cached
      omega
    · intro inMemory c'
      rw [members, mem_idleMembers_idleUnlink core located]
      by_cases same : c' = c <;> simp [same]
    · exact fun inMemory => members inMemory ▸ nodup_idleMembers_idleUnlink core c cache inMemory
    · intro identity c'
      rw [names]
      by_cases same : c' = c <;> simp [same]
  · refine ⟨by rw [evicted]; exact vfs, by rw [evicted]; exact files,
      by rw [evicted]; exact allocated.ge, ?_, fun identity c' named => .inl ((names _ _).mp named).2⟩
    intro c' cache' located' held
    have other : c' ≠ c := by
      rintro rfl
      omega
    exact ⟨cache', by rw [heap', Function.update_of_ne other, located'], fun _ _ => id⟩

theorem idleEvict_heap {c c' : Nat} {cache : Cache} (located : s.heap c = some cache)
    (other : c' ≠ c) : (idleEvict s c).heap c' = s.heap c' := by
  obtain ⟨heap, _⟩ := idleUnlink_frame s c cache
  simp only [idleEvict, located, cacheDestroy, cacheForget, heap, Function.update_of_ne other]

/-- Evicting idle caches and counting memory: what is in use stays as it is. -/
structure Evicts (contents : ZipPackage → Nat → Bytes) (pins : Nat → Nat) (s s' : FileState) :
    Prop where
  core : Core contents (Named s') pins s'
  frame : Frame contents s s'
  busy : ∀ c cache, s.heap c = some cache → cache.idle = false → s'.heap c = some cache

namespace Evicts

theorem memoryUsed (core : Core contents (Named s) pins s) (used : Nat) :
    Evicts contents pins s { s with memoryUsed := used } :=
  ⟨⟨core.fresh, core.references, core.alive, core.listed, core.nodup, core.unused, core.named,
    core.current⟩, ⟨rfl, rfl, le_rfl, fun _ cache located _ => ⟨cache, located, fun _ _ => id⟩,
    fun _ _ => .inl⟩, fun _ _ located _ => located⟩

theorem trans {t : FileState} (first : Evicts contents pins s s') (second : Evicts contents pins s' t) :
    Evicts contents pins s t :=
  ⟨second.core, first.frame.trans second.frame, fun c cache located working =>
    second.busy c cache (first.busy c cache located working) working⟩

theorem oldest (core : Core contents (Named s) pins s) (inMemory : Bool) {c : Nat}
    (member : c ∈ idleMembers s inMemory) : Evicts contents pins s (idleEvict s c) := by
  obtain ⟨cache, located, idle, _⟩ := (core.listed inMemory c).mp member
  obtain ⟨core', frame⟩ := idleEvict_core core located idle
  refine ⟨core', frame, fun c' cache' located' working => ?_⟩
  have other : c' ≠ c := by
    rintro rfl
    rw [located, Option.some.injEq] at located'
    rw [← located', idle] at working
    cases working
  rw [idleEvict_heap located other, located']

end Evicts

variable (limits : Limits)

theorem reserveRounds_evicts (size rounds : Nat) (core : Core contents (Named s) pins s) :
    Evicts contents pins s (reserveRounds limits size rounds s).1 := by
  induction rounds generalizing s with
  | zero =>
      unfold reserveRounds tryReserveMemory
      split
      · rename_i reserved
        split at reserved
        · cases reserved
        · cases reserved
          exact .memoryUsed core _
      · exact .memoryUsed core _
  | succ rounds ih =>
      unfold reserveRounds
      split
      · rename_i reserved
        unfold tryReserveMemory at reserved
        split at reserved
        · cases reserved
        · cases reserved
          exact .memoryUsed core _
      · split
        · rename_i oldest rest more members
          cases more
          split
          · have member : oldest ∈ idleMembers s true := by simp [idleMembers, members]
            have evicted := Evicts.oldest core true member
            exact evicted.trans (ih evicted.core)
          · exact .memoryUsed core _
        · exact .memoryUsed core _

theorem reserveMemory_evicts (size : Nat) (core : Core contents (Named s) pins s) :
    Evicts contents pins s (reserveMemory limits size s).1 := by
  unfold reserveMemory
  split
  · exact .memoryUsed core _
  · exact reserveRounds_evicts limits size _ core

theorem trimIdleDisk_evicts (rounds : Nat) (core : Core contents (Named s) pins s) :
    Evicts contents pins s (trimIdleDisk limits rounds s) := by
  induction rounds generalizing s with
  | zero => exact .memoryUsed core _
  | succ rounds ih =>
      unfold trimIdleDisk
      split
      · rename_i oldest rest members
        split
        · have member : oldest ∈ idleMembers s false := by simp [idleMembers, members]
          have evicted := Evicts.oldest core false member
          exact evicted.trans (ih evicted.core)
        · exact .memoryUsed core _
      · exact .memoryUsed core _

/-! ## Decoding -/

theorem decodeChunks_eq {content : Bytes} {size : Nat} {toDisk : Bool} {outcome : DecodeOutcome}
    {fuel offset : Nat} {data result : Bytes} (inside : offset ≤ size)
    (begun : data = content.take offset)
    (done : decodeChunks content size toDisk outcome fuel offset data = some result) :
    result = content.take size := by
  induction fuel generalizing offset data with
  | zero => cases done
  | succ fuel ih =>
      rw [decodeChunks] at done
      split at done
      · split at done
        · cases done
        · rename_i delivered _
          dsimp only at done
          split at done
          · cases done
          · rename_i whole
            split at done
            · cases done
            · rw [not_not, List.length_take, List.length_drop] at whole
              have all : min delivered (min (size - offset) cacheChunkSize) =
                  min (size - offset) cacheChunkSize := by omega
              refine ih (by omega) ?_ done
              rw [begun, all, List.take_add]
      · cases done
        rw [begun, show offset = size by omega]

theorem decodeData_eq {cache : Cache} {toDisk : Bool} {outcome : DecodeOutcome} {data : Bytes}
    {package : ZipPackage} {zipFile : Nat} (faithful : Faithful contents package zipFile cache)
    (undecoded : cache.state = .empty)
    (done : decodeData contents cache toDisk outcome = some data) :
    data = (contents package zipFile).take cache.size := by
  rw [decodeData, faithful.undecoded undecoded] at done
  dsimp only at done
  split at done
  · cases done
  split at done
  · rename_i empty
    split at done
    · cases done
      simp [empty]
    · cases done
  · exact faithful.entry ▸ decodeChunks_eq (Nat.zero_le _) rfl done

theorem decodeStorage_evicts (cache : Cache) (outcome : DecodeOutcome)
    (core : Core contents (Named s) pins s) :
    Evicts contents pins s (decodeStorage limits cache outcome s).1 := by
  have reserved := reserveMemory_evicts limits cache.size core
  unfold decodeStorage
  split
  · exact .memoryUsed core _
  · split
    · rename_i t run
      rwa [run] at reserved
    · rename_i t run
      rw [run] at reserved
      split
      · exact reserved
      · exact reserved.trans (.memoryUsed reserved.core _)

theorem not_idle_of_held (core : Core contents named pins s) {c : Nat} {cache : Cache}
    (located : s.heap c = some cache) (held : 0 < holders s c) : cache.idle = false := by
  by_contra idle
  rw [Bool.not_eq_false] at idle
  have := (core.unused c cache located idle).1
  have := core.references c cache located
  omega

theorem Faithful.decode {package : ZipPackage} {zipFile : Nat} {cache : Cache}
    (faithful : Faithful contents package zipFile cache) (undecoded : cache.state = .empty)
    {memory : Bool} {outcome : DecodeOutcome} {data : Bytes}
    (done : decodeData contents cache (cache.size ≠ 0 && !memory) outcome = some data) :
    Faithful contents package zipFile { cache with
      package := none
      memory := if memory then some data else none
      disk := if cache.size ≠ 0 && !memory then some data else none
      state := if cache.size ≠ 0 && !memory then .disk else .memory } := by
  have same := decodeData_eq faithful undecoded done
  refine ⟨faithful.entry, faithful.size, ?_, ?_, ?_, ?_⟩
  · intro empty
    split at empty <;> cases empty
  · intro data' stored
    cases memory with
    | true =>
        cases stored
        exact same
    | false => cases stored
  · intro data' stored
    dsimp only at stored
    split at stored
    · cases stored
      exact same
    · cases stored
  · intro _ sized
    cases memory with
    | true => exact .inl rfl
    | false => exact .inr (by simp [show cache.size ≠ 0 from sized])

theorem cachePrepare_core {c : Nat} {cache : Cache} (outcome : DecodeOutcome)
    (core : Core contents (Named s) pins s) (located : s.heap c = some cache)
    (held : 0 < holders s c) :
    Core contents (Named (cachePrepare contents limits c cache outcome s).1) pins
        (cachePrepare contents limits c cache outcome s).1 ∧
      Frame contents s (cachePrepare contents limits c cache outcome s).1 := by
  unfold cachePrepare
  split
  · exact ⟨core, .refl s⟩
  rename_i undecoded
  rw [not_not] at undecoded
  have stored := decodeStorage_evicts limits cache outcome core
  unfold cacheDecode
  cases run : decodeStorage limits cache outcome s with
  | mk t memory =>
    rw [run] at stored
    have core' : Core contents (Named t) pins t := stored.core
    have located' : t.heap c = some cache :=
      stored.busy c cache located (not_idle_of_held core located held)
    have files : t.files = s.files := stored.frame.files
    have held' : 0 < holders t c := by simpa only [holders, files] using held
    have idle := not_idle_of_held core' located' held'
    dsimp only
    split
    · exact ⟨core', stored.frame⟩
    split
    · rename_i data done
      constructor
      · refine core'.replace c _ rfl rfl rfl ⟨le_rfl, core'.lt_allocated located'⟩ ?_ ?_ core'.nodup
          (fun _ _ => rfl) ?_ ?_
        · intro id file opened cached
          obtain ⟨cache', located'', size⟩ := core'.alive id file c opened cached
          rw [located', Option.some.injEq] at located''
          subst located''
          exact ⟨_, rfl, size⟩
        · intro inMemory c'
          by_cases same : c' = c
          · subst same
            rw [if_pos rfl]
            refine iff_of_false ?_ ?_
            · intro member
              obtain ⟨cache', located'', idle', _⟩ := (core'.listed inMemory c').mp member
              rw [located', Option.some.injEq] at located''
              rw [← located'', idle] at idle'
              cases idle'
            · rintro ⟨_, new, idle', _⟩
              cases new
              exact absurd idle' (by simp [idle])
          · rw [if_neg same]
            rfl
        · intro identity c'
          refine (core'.named identity c').trans ?_
          by_cases same : c' = c
          · subst same
            simp [located']
          · rw [if_neg same, core'.named]
        · intro _ new
          cases new
          refine ⟨core'.references c cache located', fun idle' => ?_, fun attached => ?_⟩
          · exact absurd idle' (by simp [idle])
          · obtain ⟨i, e, package, identity, entry, zip, faithful⟩ :=
              core'.current c cache located' attached
            exact ⟨i, e, package, identity, entry, zip, faithful.decode undecoded done⟩
      · refine stored.frame.trans ⟨rfl, rfl, le_rfl, ?_, fun _ _ => .inl⟩
        intro c' cache' located'' held''
        by_cases same : c' = c
        · subst same
          rw [located', Option.some.injEq] at located''
          subst located''
          refine ⟨_, Function.update_self _ _ _, fun package zipFile faithful => ?_⟩
          exact faithful.decode undecoded done
        · exact ⟨cache', (Function.update_of_ne same _ _).trans located'', fun _ _ => id⟩
    · split
      · have counted := Evicts.memoryUsed core' (t.memoryUsed - cache.size)
        exact ⟨counted.core, stored.frame.trans counted.frame⟩
      · exact ⟨core', stored.frame⟩

end Replace

end Yafsml.Vfs
