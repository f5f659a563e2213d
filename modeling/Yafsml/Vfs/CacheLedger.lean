import Mathlib.Algebra.BigOperators.Intervals
import Mathlib.Algebra.Order.BigOperators.Group.Finset
import Yafsml.Foundation.FiniteMap
import Yafsml.Vfs.CacheLists

/-!
# The ledger of the caches

What holds between two turns: who refers to which cache, where the caches without references are, and what
the memory budget is spent on. Under `cache_lock` only the table may differ from the code's, which
`vfs_file_drop_caches` takes away first.
-/

namespace Yafsml.Vfs

open DoublyLinked

/-! ## The memory budget -/

def DecodeStep.reserved : DecodeStep → Bool
  | .allocate => true
  | .fill memory _ => memory
  | _ => false

def SharedCache.resident (cache : SharedCache) : Nat := if cache.memory then cache.size else 0

def SharedCache.reservation (cache : SharedCache) : Nat :=
  match cache.lock with
  | some (_, step) => if step.reserved then cache.size else 0
  | none => 0

def residentSize (cache : Option SharedCache) : Nat := cache.elim 0 SharedCache.resident

def reservedSize (cache : Option SharedCache) : Nat := cache.elim 0 SharedCache.reservation

def charge (cache : Option SharedCache) : Nat := residentSize cache + reservedSize cache

def charged (cache : Nat → Option SharedCache) (allocated : Nat) : Nat :=
  ∑ c ∈ Finset.range allocated, charge (cache c)

theorem charged_update (cache : Nat → Option SharedCache) {c allocated : Nat} (known : c < allocated)
    (value : Option SharedCache) :
    charged (Function.update cache c value) allocated + charge (cache c) = charged cache allocated + charge value := by
  have member : c ∈ Finset.range allocated := Finset.mem_range.mpr known
  have others : ∑ d ∈ (Finset.range allocated).erase c, charge (Function.update cache c value d) =
      ∑ d ∈ (Finset.range allocated).erase c, charge (cache d) := by
    apply Finset.sum_congr rfl
    intro d there
    rw [Function.update_of_ne (Finset.ne_of_mem_erase there)]
  rw [charged, charged, ← Finset.add_sum_erase _ _ member, ← Finset.add_sum_erase _ _ member, others,
    Function.update_self]
  omega

theorem sum_le_charged (cache : Nat → Option SharedCache) {allocated : Nat} {items : List Nat}
    (nodup : items.Nodup) (known : ∀ c ∈ items, c < allocated) (weight : Nat → Nat)
    (resident : ∀ c ∈ items, weight c ≤ charge (cache c)) : (items.map weight).sum ≤ charged cache allocated := by
  calc (items.map weight).sum
    _ = ∑ c ∈ items.toFinset, weight c := (List.sum_toFinset weight nodup).symm
    _ ≤ ∑ c ∈ items.toFinset, charge (cache c) :=
        Finset.sum_le_sum fun c member => resident c (List.mem_toFinset.mp member)
    _ ≤ charged cache allocated := Finset.sum_le_sum_of_subset fun c member =>
        Finset.mem_range.mpr (known c (List.mem_toFinset.mp member))

/-! ## One cache -/

def openCount (files : AList fun _ : Nat => SharedFile) (c : Nat) : Nat :=
  FiniteMap.tally (fun opened => opened.cache == c) files

def fileCache (files : AList fun _ : Nat => SharedFile) (file : Nat) : Option Nat :=
  (files.lookup file).map SharedFile.cache

section Files

variable (files : AList fun _ : Nat => SharedFile) {file c : Nat}

theorem fileCache_insert (opened : SharedFile) (k : Nat) :
    fileCache (files.insert file opened) k = if k = file then some opened.cache else fileCache files k := by
  rw [fileCache, FiniteMap.lookup_insert]
  split_ifs <;> rfl

theorem fileCache_erase (k : Nat) :
    fileCache (files.erase file) k = if k = file then none else fileCache files k := by
  rw [fileCache, FiniteMap.lookup_erase]
  split_ifs <;> rfl

theorem share_eq (d : Nat) : FiniteMap.share (fun opened : SharedFile => opened.cache == d) (files.lookup file) =
    if fileCache files file = some d then 1 else 0 := by
  rw [fileCache]
  cases files.lookup file with
  | none => rfl
  | some opened => simp [FiniteMap.share]

variable {files}

theorem openCount_insert (unused : fileCache files file = none) (readers d : Nat) :
    openCount (files.insert file ⟨c, readers⟩) d = openCount files d + if c = d then 1 else 0 := by
  have counted := FiniteMap.tally_insert (fun opened : SharedFile => opened.cache == d) files file ⟨c, readers⟩
  rw [share_eq, unused] at counted
  simpa [openCount] using counted

theorem openCount_erase (opened : fileCache files file = some c) (d : Nat) :
    openCount (files.erase file) d + (if c = d then 1 else 0) = openCount files d := by
  have counted := FiniteMap.tally_erase (fun opened : SharedFile => opened.cache == d) files file
  rw [share_eq, opened] at counted
  simpa [openCount] using counted

theorem openCount_readers (opened : fileCache files file = some c) (readers d : Nat) :
    openCount (files.insert file ⟨c, readers⟩) d = openCount files d := by
  have counted := FiniteMap.tally_insert (fun opened : SharedFile => opened.cache == d) files file ⟨c, readers⟩
  rw [share_eq, opened] at counted
  simpa [openCount] using counted

theorem openCount_pos (opened : fileCache files file = some c) : 0 < openCount files c := by
  have counted := openCount_erase opened c
  rw [if_pos rfl] at counted
  omega

theorem openCount_eq_zero (closed : ∀ file, fileCache files file ≠ some c) : openCount files c = 0 := by
  apply List.countP_eq_zero.mpr
  intro opened member
  obtain ⟨⟨file, value⟩, entered, rfl⟩ := List.mem_map.mp member
  have found : files.lookup file = some value := AList.mem_lookup_iff.mpr entered
  intro here
  apply closed file
  rw [fileCache, found]
  exact congrArg some (beq_iff_eq.mp here)

theorem fileCache_readers (opened : fileCache files file = some c) (readers k : Nat) :
    fileCache (files.insert file ⟨c, readers⟩) k = fileCache files k := by
  rw [fileCache_insert]
  split_ifs with same
  · rw [same, opened]
  · rfl

end Files

def DecodeStep.Sound (limits : CacheLimits) (cache : SharedCache) : DecodeStep → Prop
  | .reserve | .evict | .destroy => cache.state = .empty ∧ cache.size ≤ limits.memoryTotalLimit
  | .exchange used => cache.state = .empty ∧ used + cache.size ≤ limits.memoryTotalLimit
  | .allocate | .create => cache.state = .empty
  | .fill memory disk => cache.state = .empty ∧ (memory && disk) = false
  | .unlock _ => True

structure Entry (limits : CacheLimits) (allocated : Nat) (files : AList fun _ : Nat => SharedFile)
    (table : Nat → Option Nat) (c : Nat) (cache : SharedCache) : Prop where
  known : c < allocated
  counted : cache.references = openCount files c
  single : (cache.memory && cache.disk) = false
  empty : cache.state = .empty → cache.memory = false ∧ cache.disk = false
  idle : cache.idle = true ↔ table cache.identity = some c ∧ cache.references = 0
  stored : cache.idle = true → cache.memory = true ∨ cache.disk = true
  attached : cache.detached = false → 0 < cache.references → table cache.identity = some c
  detached : cache.detached = true → table cache.identity ≠ some c
  decoding : ∀ file step, cache.lock = some (file, step) → fileCache files file = some c ∧ step.Sound limits cache

theorem Entry.frame {limits : CacheLimits} {allocated allocated' : Nat}
    {files files' : AList fun _ : Nat => SharedFile} {table table' : Nat → Option Nat} {c : Nat}
    {cache : SharedCache} (entry : Entry limits allocated files table c cache) (grown : allocated ≤ allocated')
    (count : openCount files' c = openCount files c)
    (kept : ∀ file, fileCache files file = some c → fileCache files' file = some c)
    (same : table' cache.identity = some c ↔ table cache.identity = some c) :
    Entry limits allocated' files' table' c cache where
  known := Nat.lt_of_lt_of_le entry.known grown
  counted := entry.counted.trans count.symm
  single := entry.single
  empty := entry.empty
  idle := by rw [same, entry.idle]
  stored := entry.stored
  attached attached used := same.mpr (entry.attached attached used)
  detached detached := fun named => entry.detached detached (same.mp named)
  decoding file step locked := ⟨kept file (entry.decoding file step locked).1, (entry.decoding file step locked).2⟩

theorem Entry.decoding_erase {limits : CacheLimits} {allocated : Nat} {files : AList fun _ : Nat => SharedFile}
    {table : Nat → Option Nat} {c : Nat} {cache : SharedCache} (entry : Entry limits allocated files table c cache)
    {file : Nat} (unread : ∀ step, cache.lock ≠ some (file, step)) (file' : Nat) (step : DecodeStep)
    (locked : cache.lock = some (file', step)) :
    fileCache (files.erase file) file' = some c ∧ step.Sound limits cache := by
  have other : file' ≠ file := by
    rintro rfl
    exact unread step locked
  rw [fileCache_erase, if_neg other]
  exact entry.decoding file' step locked

namespace CacheSystem

variable {limits : CacheLimits} {s : CacheSystem} {table : Nat → Option Nat}

def listing (s : CacheSystem) (c : Nat) : Option (Backend × Nat) :=
  (s.cache c).bind fun cache => if cache.idle then some (cache.backend, cache.size) else none

def spare (s : CacheSystem) (c : Nat) : Prop :=
  ∃ cache, s.cache c = some cache ∧ cache.references = 0 ∧ cache.idle = false

structure Ledger (limits : CacheLimits) (s : CacheSystem) (table : Nat → Option Nat) : Prop where
  entry : ∀ c cache, s.cache c = some cache → Entry limits s.allocated s.files table c cache
  named : ∀ identity c, table identity = some c → ∃ cache, s.cache c = some cache ∧ cache.identity = identity
  opened : ∀ file c, fileCache s.files file = some c → ∃ cache, s.cache c = some cache
  idle : ∃ items, IdleLedger s.links s.idle s.listing s.released s.clock items
  chains : ∃ chains, Chains s.links.newer s.unused s.spare chains
  used : s.memoryUsed = charged s.cache s.allocated
  within : s.memoryUsed ≤ limits.memoryTotalLimit
  once : s.destroyed.Nodup
  ended : ∀ c, c ∈ s.destroyed ↔ c < s.allocated ∧ s.cache c = none

theorem Ledger.withTable (ledger : Ledger limits s table) (t : Option (AList fun _ : Nat => Nat)) :
    Ledger limits { s with table := t } table :=
  ⟨ledger.entry, ledger.named, ledger.opened, ledger.idle, ledger.chains, ledger.used, ledger.within,
    ledger.once, ledger.ended⟩

theorem listing_setCache (c : Nat) (cache : SharedCache) : (s.setCache c cache).listing =
    Function.update s.listing c (if cache.idle then some (cache.backend, cache.size) else none) := by
  funext d
  by_cases same : d = c
  · subst same
    simp [listing, setCache]
  · simp [listing, setCache, Function.update_of_ne same]

theorem spare_setCache (c : Nat) (cache : SharedCache) (d : Nat) : (s.setCache c cache).spare d ↔
    if d = c then cache.references = 0 ∧ cache.idle = false else s.spare d := by
  split_ifs with same
  · subst same
    simp [spare, setCache]
  · simp [spare, setCache, Function.update_of_ne same]

/-! ## Taking an idle cache off its list -/

def unlinked (s : CacheSystem) (c : Nat) (cache : SharedCache) : CacheSystem :=
  { s.setCache c { cache with idle := false } with
    links := (unlink s.links (s.idle cache.backend).ends c).1
    idle := Function.update s.idle cache.backend
      ⟨(unlink s.links (s.idle cache.backend).ends c).2, sub64 (s.idle cache.backend).bytes cache.size⟩ }

theorem live_of_listed {c : Nat} {shown : Backend × Nat} (listed : s.listing c = some shown) : s.live c = true := by
  rw [live]
  cases found : s.cache c with
  | none =>
      rw [listing, found] at listed
      cases listed
  | some cache => rfl

theorem listing_of_idle {c : Nat} {cache : SharedCache} (found : s.cache c = some cache)
    (idle : cache.idle = true) : s.listing c = some (cache.backend, cache.size) := by
  rw [listing, found, Option.bind_some, if_pos idle]

theorem listing_eq_none {c : Nat} {cache : SharedCache} (found : s.cache c = some cache)
    (busy : cache.idle = false) : s.listing c = none := by
  rw [listing, found, Option.bind_some, busy]
  rfl

theorem idleUnlink_eq (ledger : Ledger limits s table) {c : Nat} {cache : SharedCache}
    (found : s.cache c = some cache) (idle : cache.idle = true) : s.idleUnlink c = some (s.unlinked c cache) := by
  obtain ⟨items, lists⟩ := ledger.idle
  have member := (lists.listed cache.backend c).mpr ⟨_, listing_of_idle found idle⟩
  have alive : ∀ d ∈ items cache.backend, s.live d = true := fun d there =>
    live_of_listed ((lists.listed cache.backend d).mp there).choose_spec
  have older : (s.links.older c).all s.live = true := by
    cases next : s.links.older c with
    | none => rfl
    | some d => exact alive d ((lists.linked _).older_mem member next)
  have newer : (s.links.newer c).all s.live = true := by
    cases next : s.links.newer c with
    | none => rfl
    | some d => exact alive d ((lists.linked _).newer_mem member next)
  rw [idleUnlink, found]
  dsimp only
  rw [older, newer]
  rfl

theorem listing_unlinked {c : Nat} (cache : SharedCache) :
    (s.unlinked c cache).listing = Function.update s.listing c none :=
  listing_setCache c { cache with idle := false }

theorem lists_unlinked (ledger : Ledger limits s table) {c : Nat} {cache : SharedCache}
    (found : s.cache c = some cache) (idle : cache.idle = true) : ∃ items,
    IdleLedger (s.unlinked c cache).links (s.unlinked c cache).idle (s.unlinked c cache).listing s.released
      s.clock items := by
  obtain ⟨items, lists⟩ := ledger.idle
  rw [listing_unlinked]
  exact ⟨_, lists.unlink (listing_of_idle found idle)⟩

theorem newer_unlinked (ledger : Ledger limits s table) {c : Nat} {cache : SharedCache}
    (found : s.cache c = some cache) (idle : cache.idle = true) {d : Nat} (spare : s.spare d) :
    (s.unlinked c cache).links.newer d = s.links.newer d := by
  obtain ⟨items, lists⟩ := ledger.idle
  obtain ⟨other, found', -, busy⟩ := spare
  have member := (lists.listed cache.backend c).mpr ⟨_, listing_of_idle found idle⟩
  have absent : d ∉ items cache.backend := by
    intro there
    obtain ⟨size, listed⟩ := (lists.listed cache.backend d).mp there
    rw [listing_eq_none found' busy] at listed
    cases listed
  exact ((lists.linked cache.backend).unlink_other member absent).2

theorem update_table_iff {c d identity identity' : Nat} (named : table identity = some c) (other : d ≠ c) :
    Function.update table identity none identity' = some d ↔ table identity' = some d := by
  by_cases same : identity' = identity
  · subst same
    rw [Function.update_self, named]
    exact ⟨nofun, fun itself => absurd (Option.some.inj itself).symm other⟩
  · rw [Function.update_of_ne same]

theorem ended_update {c : Nat} {cache cache' : SharedCache} (found : s.cache c = some cache) {d : Nat} :
    Function.update s.cache c (some cache') d = none ↔ s.cache d = none := by
  by_cases same : d = c
  · subst same
    rw [Function.update_self, found]
    simp
  · rw [Function.update_of_ne same]

theorem Ledger.rebuild (ledger : Ledger limits s table) (s' : CacheSystem) {table' : Nat → Option Nat} {c : Nat}
    {cache : SharedCache} (found : s.cache c = some cache) (cache' : SharedCache)
    (caches : s'.cache = Function.update s.cache c (some cache')) (allocated : s'.allocated = s.allocated)
    (destroyed : s'.destroyed = s.destroyed) (entry : Entry limits s.allocated s'.files table' c cache')
    (names : ∀ d, d ≠ c → ∀ identity, table' identity = some d ↔ table identity = some d)
    (name : ∀ identity, table' identity = some c → cache'.identity = identity)
    (counts : ∀ d, d ≠ c → openCount s'.files d = openCount s.files d)
    (files : ∀ file d, d ≠ c → (fileCache s'.files file = some d ↔ fileCache s.files file = some d))
    (lists : ∃ items, IdleLedger s'.links s'.idle s'.listing s'.released s'.clock items)
    (chains : ∃ chains, Chains s'.links.newer s'.unused s'.spare chains)
    (used : s'.memoryUsed + charge (some cache) = s.memoryUsed + charge (some cache'))
    (within : s'.memoryUsed ≤ limits.memoryTotalLimit) : Ledger limits s' table' := by
  have known := (ledger.entry c cache found).known
  constructor
  case entry =>
    intro d other found'
    rw [caches] at found'
    rw [allocated]
    by_cases same : d = c
    · subst same
      rw [Function.update_self] at found'
      cases found'
      exact entry
    · rw [Function.update_of_ne same] at found'
      exact (ledger.entry d other found').frame (Nat.le_refl _) (counts d same)
        (fun file => (files file d same).mpr) (names d same _)
  case named =>
    intro identity d named
    rw [caches]
    by_cases same : d = c
    · subst same
      exact ⟨cache', by rw [Function.update_self], name identity named⟩
    · rw [Function.update_of_ne same]
      exact ledger.named identity d ((names d same identity).mp named)
  case opened =>
    intro file d opened
    rw [caches]
    by_cases same : d = c
    · exact ⟨cache', by rw [same, Function.update_self]⟩
    · rw [Function.update_of_ne same]
      exact ledger.opened file d ((files file d same).mp opened)
  case idle =>
    exact lists
  case chains =>
    exact chains
  case used =>
    have counted := charged_update s.cache known (some cache')
    rw [found, ← ledger.used] at counted
    rw [caches, allocated]
    omega
  case within =>
    exact within
  case once =>
    rw [destroyed]
    exact ledger.once
  case ended =>
    intro d
    rw [destroyed, allocated, caches, ended_update found]
    exact ledger.ended d

theorem Ledger.name (ledger : Ledger limits s table) {c : Nat} {cache : SharedCache}
    (found : s.cache c = some cache) {identity : Nat} (named : table identity = some c) :
    cache.identity = identity := by
  obtain ⟨shown, found', same⟩ := ledger.named identity c named
  rw [found] at found'
  cases found'
  exact same

theorem Ledger.unnamed (ledger : Ledger limits s table) {c : Nat} {cache : SharedCache}
    (found : s.cache c = some cache) (identity : Nat) :
    Function.update table cache.identity none identity ≠ some c := by
  intro named
  by_cases same : identity = cache.identity
  · rw [same, Function.update_self] at named
    cases named
  · rw [Function.update_of_ne same] at named
    exact same (ledger.name found named).symm

theorem Ledger.retire (ledger : Ledger limits s table) {holder : Holder}
    (room : ∀ k, holder = .decode k → s.unused holder = none) {c : Nat} {cache : SharedCache} (found : s.cache c = some cache) (idle : cache.idle = true) :
    Ledger limits ((s.unlinked c cache).chain holder c) (Function.update table cache.identity none) := by
  have entry := ledger.entry c cache found
  obtain ⟨named, unreferenced⟩ := entry.idle.mp idle
  have unnamed := ledger.unnamed found
  apply ledger.rebuild ((s.unlinked c cache).chain holder c) found { cache with idle := false } rfl rfl rfl
  · exact {
      known := entry.known
      counted := entry.counted
      single := entry.single
      empty := entry.empty
      idle := ⟨nofun, fun both => absurd both.1 (unnamed _)⟩
      stored := nofun
      attached := fun _ used => absurd unreferenced (Nat.ne_of_gt used)
      detached := fun _ => unnamed _
      decoding := entry.decoding }
  · exact fun d other identity => update_table_iff named other
  · exact fun identity named' => absurd named' (unnamed identity)
  · exact fun d other => rfl
  · exact fun file d other => Iff.rfl
  · obtain ⟨items, lists⟩ := lists_unlinked ledger found idle
    refine ⟨items, lists.congr_links fun d listed => ?_⟩
    have other : some c ≠ some d := by
      rintro ⟨⟩
      rw [listing_unlinked, Function.update_self] at listed
      exact listed rfl
    exact ⟨by rw [chain, Links.setNewer_older], Links.setNewer_newer _ other⟩
  · obtain ⟨chains, held⟩ := ledger.chains
    have held : Chains (s.unlinked c cache).links.newer s.unused s.spare chains :=
      held.congr (fun d spare => newer_unlinked ledger found idle spare) fun d => Iff.rfl
    have fresh : ¬s.spare c := by
      rintro ⟨other, found', -, busy⟩
      rw [found] at found'
      cases found'
      rw [idle] at busy
      cases busy
    refine ⟨_, held.take room fresh fun d => ?_⟩
    change (s.setCache c { cache with idle := false }).spare d ↔ _
    rw [spare_setCache]
    split_ifs with same
    · exact ⟨fun _ => .inr same, fun _ => ⟨unreferenced, rfl⟩⟩
    · exact (or_iff_left same).symm
  · rfl
  · exact ledger.within

/-! ## Changing a cache that stays where it is -/

theorem Ledger.change (ledger : Ledger limits s table) {table' : Nat → Option Nat} {c : Nat} {cache : SharedCache}
    (found : s.cache c = some cache) (cache' : SharedCache) (files' : AList fun _ : Nat => SharedFile)
    (memoryUsed' : Nat) (entry : Entry limits s.allocated files' table' c cache')
    (names : ∀ d, d ≠ c → ∀ identity, table' identity = some d ↔ table identity = some d)
    (name : ∀ identity, table' identity = some c → cache'.identity = identity)
    (counts : ∀ d, d ≠ c → openCount files' d = openCount s.files d)
    (files : ∀ file d, d ≠ c → (fileCache files' file = some d ↔ fileCache s.files file = some d))
    (listed : (if cache'.idle then some (cache'.backend, cache'.size) else none) = s.listing c)
    (spare : cache'.references = 0 ∧ cache'.idle = false ↔ s.spare c)
    (used : memoryUsed' + charge (some cache) = s.memoryUsed + charge (some cache'))
    (within : memoryUsed' ≤ limits.memoryTotalLimit) :
    Ledger limits { s.setCache c cache' with files := files', memoryUsed := memoryUsed' } table' := by
  apply ledger.rebuild { s.setCache c cache' with files := files', memoryUsed := memoryUsed' } found cache'
    rfl rfl rfl entry names name counts files
  · obtain ⟨items, lists⟩ := ledger.idle
    change ∃ items, IdleLedger s.links s.idle (s.setCache c cache').listing s.released s.clock items
    rw [listing_setCache, listed, Function.update_eq_self]
    exact ⟨items, lists⟩
  · obtain ⟨chains, held⟩ := ledger.chains
    refine ⟨chains, held.congr (fun _ _ => rfl) fun d => ?_⟩
    change (s.setCache c cache').spare d ↔ s.spare d
    rw [spare_setCache]
    split_ifs with same
    · rw [same, spare]
    · rfl
  · exact used
  · exact within

theorem spare_iff {c : Nat} {cache : SharedCache} (found : s.cache c = some cache) :
    s.spare c ↔ cache.references = 0 ∧ cache.idle = false := by
  constructor
  · rintro ⟨other, found', both⟩
    rw [found] at found'
    cases found'
    exact both
  · exact fun both => ⟨cache, found, both⟩

theorem Ledger.detach (ledger : Ledger limits s table) {c : Nat} {cache : SharedCache}
    (found : s.cache c = some cache) (busy : cache.idle = false) (named : table cache.identity = some c) :
    Ledger limits (s.setCache c { cache with detached := true }) (Function.update table cache.identity none) := by
  have entry := ledger.entry c cache found
  have unnamed := ledger.unnamed found
  apply ledger.change found { cache with detached := true } s.files s.memoryUsed
  · exact {
      known := entry.known
      counted := entry.counted
      single := entry.single
      empty := entry.empty
      idle := ⟨fun idle => absurd (busy.symm.trans idle) nofun, fun both => absurd both.1 (unnamed _)⟩
      stored := entry.stored
      attached := nofun
      detached := fun _ => unnamed _
      decoding := entry.decoding }
  · exact fun d other identity => update_table_iff named other
  · exact fun identity named' => absurd named' (unnamed identity)
  · exact fun d other => rfl
  · exact fun file d other => Iff.rfl
  · dsimp only
    rw [listing_eq_none found busy, busy]
    rfl
  · exact (spare_iff found).symm
  · rfl
  · exact ledger.within

theorem Ledger.advance (ledger : Ledger limits s table) {c : Nat} {cache : SharedCache}
    (found : s.cache c = some cache) (busy : cache.idle = false) (lock : Option (Nat × DecodeStep))
    (state : CacheState) (memory disk : Bool) (files' : AList fun _ : Nat => SharedFile) (memoryUsed' : Nat)
    (counts : ∀ d, openCount files' d = openCount s.files d)
    (files : ∀ file, fileCache files' file = fileCache s.files file)
    (single : (memory && disk) = false) (empty : state = .empty → memory = false ∧ disk = false)
    (decoding : ∀ file step, lock = some (file, step) →
      fileCache s.files file = some c ∧ step.Sound limits { cache with lock, state, memory, disk })
    (used : memoryUsed' + charge (some cache) =
      s.memoryUsed + charge (some { cache with lock, state, memory, disk }))
    (within : memoryUsed' ≤ limits.memoryTotalLimit) :
    Ledger limits { s.setCache c { cache with lock, state, memory, disk } with
      files := files', memoryUsed := memoryUsed' } table := by
  have entry := ledger.entry c cache found
  apply ledger.change found { cache with lock, state, memory, disk } files' memoryUsed'
  · exact {
      known := entry.known
      counted := entry.counted.trans (counts c).symm
      single := single
      empty := empty
      idle := entry.idle
      stored := fun idle => absurd (busy.symm.trans idle) nofun
      attached := entry.attached
      detached := entry.detached
      decoding := fun file step locked => by
        rw [files]
        exact decoding file step locked }
  · exact fun d other identity => Iff.rfl
  · exact fun identity named => ledger.name found named
  · exact fun d other => counts d
  · exact fun file d other => by rw [files]
  · dsimp only
    rw [listing_eq_none found busy, busy]
    rfl
  · exact (spare_iff found).symm
  · exact used
  · exact within

end CacheSystem

end Yafsml.Vfs
