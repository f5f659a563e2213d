import Yafsml.Vfs.CacheLedger

/-!
# Files and caches come and go

One file more or less for a cache, a new cache, and one that is destroyed.
-/

namespace Yafsml.Vfs

open DoublyLinked

namespace CacheSystem

variable {limits : CacheLimits} {s : CacheSystem} {table : Nat → Option Nat}

/-! ## One file more -/

theorem Ledger.shared_entry (ledger : Ledger limits s table) {c : Nat} {cache : SharedCache}
    (found : s.cache c = some cache) (named : table cache.identity = some c) {file : Nat}
    (free : fileCache s.files file = none) :
    Entry limits s.allocated (s.files.insert file ⟨c, 0⟩) table c
      { cache with idle := false, references := cache.references + 1 } := by
  have entry := ledger.entry c cache found
  exact {
    known := entry.known
    counted := by rw [openCount_insert free, if_pos rfl, entry.counted]
    single := entry.single
    empty := entry.empty
    idle := ⟨nofun, fun both => absurd both.2 (Nat.succ_ne_zero _)⟩
    stored := nofun
    attached := fun _ _ => named
    detached := entry.detached
    decoding := fun file' step locked => by
      obtain ⟨opened, sound⟩ := entry.decoding file' step locked
      rw [fileCache_insert]
      refine ⟨?_, sound⟩
      split_ifs with same
      · rfl
      · exact opened }

theorem counts_insert {c file : Nat} (free : fileCache s.files file = none) (d : Nat) (other : d ≠ c) :
    openCount (s.files.insert file ⟨c, 0⟩) d = openCount s.files d := by
  rw [openCount_insert free, if_neg (Ne.symm other), Nat.add_zero]

theorem files_insert {c file : Nat} (free : fileCache s.files file = none) (k d : Nat) (other : d ≠ c) :
    fileCache (s.files.insert file ⟨c, 0⟩) k = some d ↔ fileCache s.files k = some d := by
  rw [fileCache_insert]
  split_ifs with same
  · rw [same, free]
    exact ⟨fun itself => absurd (Option.some.inj itself).symm other, nofun⟩
  · rfl

theorem Ledger.share_busy (ledger : Ledger limits s table) {c : Nat} {cache : SharedCache}
    (found : s.cache c = some cache) (busy : cache.idle = false) (named : table cache.identity = some c)
    {file : Nat} (free : fileCache s.files file = none) :
    Ledger limits { s.setCache c { cache with idle := false, references := cache.references + 1 } with
      files := s.files.insert file ⟨c, 0⟩ } table := by
  have entry := ledger.entry c cache found
  have used : cache.references ≠ 0 := fun unused => by
    rw [entry.idle.mpr ⟨named, unused⟩] at busy
    cases busy
  apply ledger.change found _ (s.files.insert file ⟨c, 0⟩) s.memoryUsed
    (ledger.shared_entry found named free)
  · exact fun d other identity => Iff.rfl
  · exact fun identity named => ledger.name found named
  · exact counts_insert free
  · exact files_insert free
  · rw [listing_eq_none found busy]
    rfl
  · rw [spare_iff found]
    exact ⟨fun both => absurd both.1 (Nat.succ_ne_zero _), fun both => absurd both.1 used⟩
  · rfl
  · exact ledger.within

theorem Ledger.share_idle (ledger : Ledger limits s table) {c : Nat} {cache : SharedCache}
    (found : s.cache c = some cache) (idle : cache.idle = true)
    {file : Nat} (free : fileCache s.files file = none) :
    Ledger limits { (s.unlinked c cache).setCache c
        { cache with idle := false, references := cache.references + 1 } with
      files := s.files.insert file ⟨c, 0⟩ } table := by
  have named := ((ledger.entry c cache found).idle.mp idle).1
  apply ledger.rebuild { (s.unlinked c cache).setCache c
      { cache with idle := false, references := cache.references + 1 } with
    files := s.files.insert file ⟨c, 0⟩ } found _ (Function.update_idem ..) rfl rfl
    (ledger.shared_entry found named free)
  · exact fun d other identity => Iff.rfl
  · exact fun identity named => ledger.name found named
  · exact counts_insert free
  · exact files_insert free
  · obtain ⟨items, lists⟩ := lists_unlinked ledger found idle
    refine ⟨items, ?_⟩
    change IdleLedger (s.unlinked c cache).links (s.unlinked c cache).idle
      ((s.unlinked c cache).setCache c _).listing s.released s.clock items
    rw [listing_unlinked] at lists
    rw [listing_setCache, listing_unlinked, Function.update_idem]
    exact lists
  · obtain ⟨chains, held⟩ := ledger.chains
    refine ⟨chains, held.congr (fun d spare => newer_unlinked ledger found idle spare) fun d => ?_⟩
    change ((s.unlinked c cache).setCache c _).spare d ↔ s.spare d
    rw [spare_setCache]
    split_ifs with same
    · rw [same, spare_iff found, idle]
      simp
    · change (s.setCache c _).spare d ↔ s.spare d
      rw [spare_setCache, if_neg same]
  · rfl
  · exact ledger.within

/-! ## One file less -/

theorem counts_erase {c file : Nat} (opened : fileCache s.files file = some c) (d : Nat) (other : d ≠ c) :
    openCount (s.files.erase file) d = openCount s.files d := by
  have counted := openCount_erase opened d
  rw [if_neg (Ne.symm other)] at counted
  exact counted

theorem files_erase {c file : Nat} (opened : fileCache s.files file = some c) (k d : Nat) (other : d ≠ c) :
    fileCache (s.files.erase file) k = some d ↔ fileCache s.files k = some d := by
  rw [fileCache_erase]
  split_ifs with same
  · rw [same, opened]
    exact ⟨nofun, fun itself => absurd (Option.some.inj itself).symm other⟩
  · rfl

theorem Ledger.busy_of_opened (ledger : Ledger limits s table) {c : Nat} {cache : SharedCache}
    (found : s.cache c = some cache) {file : Nat} (opened : fileCache s.files file = some c) :
    0 < cache.references ∧ cache.idle = false := by
  have entry := ledger.entry c cache found
  have used : 0 < cache.references := entry.counted ▸ openCount_pos opened
  refine ⟨used, Bool.eq_false_iff.mpr fun idle => ?_⟩
  exact absurd (entry.idle.mp idle).2 (Nat.ne_of_gt used)

theorem Ledger.unshare (ledger : Ledger limits s table) {c : Nat} {cache : SharedCache}
    (found : s.cache c = some cache) {file : Nat} (opened : fileCache s.files file = some c)
    (unread : ∀ step, cache.lock ≠ some (file, step)) (more : cache.references - 1 ≠ 0) :
    Ledger limits { s.setCache c { cache with references := cache.references - 1 } with
      files := s.files.erase file } table := by
  have entry := ledger.entry c cache found
  obtain ⟨used, busy⟩ := ledger.busy_of_opened found opened
  have counted := openCount_erase opened c
  rw [if_pos rfl, ← entry.counted] at counted
  apply ledger.change found { cache with references := cache.references - 1 } (s.files.erase file) s.memoryUsed
  · exact {
      known := entry.known
      counted := by dsimp only; omega
      single := entry.single
      empty := entry.empty
      idle := ⟨fun idle => absurd (busy.symm.trans idle) nofun, fun both => absurd both.2 more⟩
      stored := entry.stored
      attached := fun attached _ => entry.attached attached used
      detached := entry.detached
      decoding := entry.decoding_erase unread }
  · exact fun d other identity => Iff.rfl
  · exact fun identity named => ledger.name found named
  · exact counts_erase opened
  · exact files_erase opened
  · dsimp only
    rw [listing_eq_none found busy, busy]
    rfl
  · rw [spare_iff found]
    exact ⟨fun both => absurd both.1 more, fun both => absurd both.1 (Nat.ne_of_gt used)⟩
  · rfl
  · exact ledger.within

def pushed (s : CacheSystem) (c : Nat) (cache : SharedCache) : CacheSystem :=
  { s.setCache c { cache with idle := true } with
    links := (push s.links (s.idle cache.backend).ends c).1
    idle := Function.update s.idle cache.backend
      ⟨(push s.links (s.idle cache.backend).ends c).2, add64 (s.idle cache.backend).bytes cache.size⟩
    released := Function.update s.released c s.clock
    clock := s.clock + 1 }

/-- `--cache->references` when a file is closed. -/
def dereferenced (s : CacheSystem) (file c : Nat) (cache : SharedCache) : CacheSystem :=
  { s with files := s.files.erase file }.setCache c { cache with references := cache.references - 1 }

theorem listing_pushed (file c : Nat) (cache : SharedCache) :
    ((s.dereferenced file c cache).pushed c { cache with references := cache.references - 1 }).listing =
      Function.update s.listing c (some (cache.backend, cache.size)) := by
  change ((s.dereferenced file c cache).setCache c _).listing = _
  rw [listing_setCache]
  change Function.update (s.setCache c _).listing c _ = _
  rw [listing_setCache, Function.update_idem]
  rfl

theorem newest_live (ledger : Ledger limits s table) (b : Backend) : (s.idle b).ends.newest.all s.live = true := by
  obtain ⟨items, lists⟩ := ledger.idle
  cases newest : (s.idle b).ends.newest with
  | none => rfl
  | some d =>
      obtain ⟨size, listed⟩ := (lists.listed b d).mp ((lists.linked b).newest_mem newest)
      exact live_of_listed listed

theorem Ledger.keep (ledger : Ledger limits s table) {c : Nat} {cache : SharedCache}
    (found : s.cache c = some cache) {file : Nat} (opened : fileCache s.files file = some c)
    (unread : ∀ step, cache.lock ≠ some (file, step)) (last : cache.references - 1 = 0)
    (attached : cache.detached = false) (stored : cache.memory = true ∨ cache.disk = true)
    (fits : (s.idle cache.backend).bytes + cache.size < 2 ^ 64) :
    Ledger limits ((s.dereferenced file c cache).pushed c { cache with references := cache.references - 1 })
      table := by
  have entry := ledger.entry c cache found
  obtain ⟨used, busy⟩ := ledger.busy_of_opened found opened
  have counted := openCount_erase opened c
  rw [if_pos rfl, ← entry.counted] at counted
  obtain ⟨items, lists⟩ := ledger.idle
  have away := listing_eq_none found busy
  apply ledger.rebuild ((s.dereferenced file c cache).pushed c { cache with references := cache.references - 1 })
    found { cache with references := cache.references - 1, idle := true } (Function.update_idem ..) rfl rfl
  · exact {
      known := entry.known
      counted := by
        change cache.references - 1 = openCount (s.files.erase file) c
        omega
      single := entry.single
      empty := entry.empty
      idle := ⟨fun _ => ⟨entry.attached attached used, last⟩, fun _ => rfl⟩
      stored := fun _ => stored
      attached := fun attached _ => entry.attached attached used
      detached := entry.detached
      decoding := entry.decoding_erase unread }
  · exact fun d other identity => Iff.rfl
  · exact fun identity named => ledger.name found named
  · exact counts_erase opened
  · exact files_erase opened
  · rw [listing_pushed]
    exact ⟨_, lists.push cache.backend cache.size away fits⟩
  · obtain ⟨chains, held⟩ := ledger.chains
    refine ⟨chains, held.congr (fun d spare => ?_) fun d => ?_⟩
    · obtain ⟨other, found', unused, free⟩ := spare
      refine ((lists.linked cache.backend).push_other ?_ fun there => ?_).2
      · rintro rfl
        rw [found] at found'
        cases found'
        exact absurd unused (Nat.ne_of_gt used)
      · obtain ⟨size, listed⟩ := (lists.listed cache.backend d).mp there
        rw [listing_eq_none found' free] at listed
        cases listed
    · change ((s.dereferenced file c cache).setCache c _).spare d ↔ s.spare d
      rw [spare_setCache]
      split_ifs with same
      · rw [same, spare_iff found]
        exact ⟨fun both => absurd both.2 nofun, fun both => absurd both.1 (Nat.ne_of_gt used)⟩
      · change (s.setCache c _).spare d ↔ s.spare d
        rw [spare_setCache, if_neg same]
  · rfl
  · exact ledger.within

theorem Ledger.discard (ledger : Ledger limits s table) {c : Nat} {cache : SharedCache}
    (found : s.cache c = some cache) {file : Nat} (opened : fileCache s.files file = some c)
    (unread : ∀ step, cache.lock ≠ some (file, step)) (last : cache.references - 1 = 0) (holder : Holder)
    (room : ∀ k, holder = .decode k → s.unused holder = none) {table' : Nat → Option Nat}
    (names : ∀ d, d ≠ c → ∀ identity, table' identity = some d ↔ table identity = some d)
    (unnamed : ∀ identity, table' identity ≠ some c) :
    Ledger limits ((s.dereferenced file c cache).chain holder c) table' := by
  have entry := ledger.entry c cache found
  obtain ⟨used, busy⟩ := ledger.busy_of_opened found opened
  have counted := openCount_erase opened c
  rw [if_pos rfl, ← entry.counted] at counted
  apply ledger.rebuild ((s.dereferenced file c cache).chain holder c) found
    { cache with references := cache.references - 1 } rfl rfl rfl
  · exact {
      known := entry.known
      counted := by
        change cache.references - 1 = openCount (s.files.erase file) c
        omega
      single := entry.single
      empty := entry.empty
      idle := ⟨fun idle => absurd (busy.symm.trans idle) nofun, fun both => absurd both.1 (unnamed _)⟩
      stored := entry.stored
      attached := fun _ used => absurd last (Nat.ne_of_gt used)
      detached := fun _ => unnamed _
      decoding := entry.decoding_erase unread }
  · exact names
  · exact fun identity named => absurd named (unnamed identity)
  · exact counts_erase opened
  · exact files_erase opened
  · obtain ⟨items, lists⟩ := ledger.idle
    have listing : ((s.dereferenced file c cache).chain holder c).listing = s.listing := by
      change (s.setCache c _).listing = _
      rw [listing_setCache, busy]
      exact Function.update_eq_self_iff.mpr (listing_eq_none found busy).symm
    rw [listing]
    refine ⟨items, lists.congr_links fun d listed => ?_⟩
    have other : some c ≠ some d := by
      rintro ⟨⟩
      exact listed (listing_eq_none found busy)
    exact ⟨by rw [chain, Links.setNewer_older]; rfl, Links.setNewer_newer _ other⟩
  · obtain ⟨chains, held⟩ := ledger.chains
    have fresh : ¬s.spare c := by
      rw [spare_iff found]
      exact fun both => absurd both.1 (Nat.ne_of_gt used)
    refine ⟨_, held.take room fresh fun d => ?_⟩
    change (s.setCache c _).spare d ↔ _
    rw [spare_setCache]
    split_ifs with same
    · exact ⟨fun _ => .inr same, fun _ => ⟨last, busy⟩⟩
    · exact (or_iff_left same).symm
  · rfl
  · exact ledger.within

/-! ## New and destroyed caches -/

def newCache (identity size : Nat) : SharedCache := ⟨identity, size, none, .empty, false, false, 1, false, false⟩

def created (s : CacheSystem) (identity size : Nat) : CacheSystem :=
  { s.setCache s.allocated (newCache identity size) with allocated := s.allocated + 1 }

theorem Ledger.unborn (ledger : Ledger limits s table) : s.cache s.allocated = none := by
  cases found : s.cache s.allocated with
  | none => rfl
  | some cache => exact absurd (ledger.entry _ cache found).known (Nat.lt_irrefl _)

theorem Ledger.create (ledger : Ledger limits s table) {identity : Nat} (size : Nat) (fresh : table identity = none)
    {file : Nat} (free : fileCache s.files file = none) :
    Ledger limits { s.created identity size with files := s.files.insert file ⟨s.allocated, 0⟩ }
      (Function.update table identity (some s.allocated)) := by
  have unborn := ledger.unborn
  have closed : ∀ file, fileCache s.files file ≠ some s.allocated := by
    intro file opened
    obtain ⟨cache, found⟩ := ledger.opened file _ opened
    rw [unborn] at found
    cases found
  have old : ∀ {d shown}, s.cache d = some shown → d ≠ s.allocated := by
    rintro d shown found rfl
    rw [unborn] at found
    cases found
  have listing : (s.created identity size).listing = s.listing := by
    change (s.setCache s.allocated (newCache identity size)).listing = s.listing
    rw [listing_setCache]
    apply Function.update_eq_self_iff.mpr
    rw [CacheSystem.listing, unborn]
    rfl
  constructor
  case entry =>
    intro d other found
    change Function.update s.cache s.allocated _ d = some other at found
    by_cases same : d = s.allocated
    · subst same
      rw [Function.update_self] at found
      cases found
      exact {
        known := Nat.lt_succ_self _
        counted := by
          change 1 = openCount (s.files.insert file ⟨s.allocated, 0⟩) s.allocated
          rw [openCount_insert free, openCount_eq_zero closed, if_pos rfl]
        single := rfl
        empty := fun _ => ⟨rfl, rfl⟩
        idle := ⟨fun idle => absurd idle Bool.false_ne_true, fun both => absurd both.2 Nat.one_ne_zero⟩
        stored := by simp [newCache]
        attached := fun _ _ => Function.update_self ..
        detached := by simp [newCache]
        decoding := by simp [newCache] }
    · rw [Function.update_of_ne same] at found
      refine (ledger.entry d other found).frame (Nat.le_succ _) (counts_insert free d same)
        (fun k => (files_insert free k d same).mpr) ?_
      by_cases named : other.identity = identity
      · rw [named, Function.update_self, fresh]
        exact ⟨fun itself => absurd (Option.some.inj itself).symm same, by simp⟩
      · rw [Function.update_of_ne named]
  case named =>
    intro identity' d named
    by_cases same : identity' = identity
    · subst same
      rw [Function.update_self] at named
      cases named
      exact ⟨_, Function.update_self .., rfl⟩
    · rw [Function.update_of_ne same] at named
      obtain ⟨shown, found, named⟩ := ledger.named identity' d named
      exact ⟨shown, (Function.update_of_ne (old found) ..).trans found, named⟩
  case opened =>
    intro k d opened
    by_cases same : d = s.allocated
    · subst same
      exact ⟨_, Function.update_self ..⟩
    · obtain ⟨shown, found⟩ := ledger.opened k d ((files_insert free k d same).mp opened)
      exact ⟨shown, (Function.update_of_ne (old found) ..).trans found⟩
  case idle =>
    obtain ⟨items, lists⟩ := ledger.idle
    refine ⟨items, ?_⟩
    change IdleLedger s.links s.idle (s.created identity size).listing s.released s.clock items
    rw [listing]
    exact lists
  case chains =>
    obtain ⟨chains, held⟩ := ledger.chains
    refine ⟨chains, held.congr (fun _ _ => rfl) fun d => ?_⟩
    change (s.setCache s.allocated (newCache identity size)).spare d ↔ s.spare d
    rw [spare_setCache]
    split_ifs with same
    · subst same
      refine ⟨fun both => absurd both.1 Nat.one_ne_zero, ?_⟩
      rintro ⟨cache, found, -⟩
      exact absurd rfl (old found)
    · rfl
  case used =>
    have others : ∀ d ∈ Finset.range s.allocated,
        charge (Function.update s.cache s.allocated (some (newCache identity size)) d) = charge (s.cache d) := by
      intro d member
      rw [Function.update_of_ne (Nat.ne_of_lt (Finset.mem_range.mp member))]
    change s.memoryUsed = ∑ d ∈ Finset.range (s.allocated + 1), charge (Function.update s.cache s.allocated _ d)
    rw [Finset.sum_range_succ, Finset.sum_congr rfl others, Function.update_self, ledger.used]
    rfl
  case within =>
    exact ledger.within
  case once =>
    exact ledger.once
  case ended =>
    intro d
    change d ∈ s.destroyed ↔ d < s.allocated + 1 ∧ Function.update s.cache s.allocated _ d = none
    rw [ledger.ended]
    by_cases same : d = s.allocated
    · subst same
      rw [Function.update_self]
      simp
    · rw [Function.update_of_ne same]
      exact and_congr_left fun _ => ⟨fun below => by omega, fun below => by omega⟩

theorem Ledger.spare_alone (ledger : Ledger limits s table) {c : Nat} {cache : SharedCache}
    (found : s.cache c = some cache) (spare : s.spare c) :
    (∀ file, fileCache s.files file ≠ some c) ∧ (∀ identity, table identity ≠ some c) ∧ cache.lock = none := by
  have entry := ledger.entry c cache found
  obtain ⟨unused, busy⟩ := (spare_iff found).mp spare
  have closed : ∀ file, fileCache s.files file ≠ some c := fun file opened =>
    absurd unused (Nat.ne_of_gt (ledger.busy_of_opened found opened).1)
  refine ⟨closed, ?_, ?_⟩
  · intro identity named
    have same := ledger.name found named
    rw [← same] at named
    rw [entry.idle.mpr ⟨named, unused⟩] at busy
    cases busy
  · cases locked : cache.lock with
    | none => rfl
    | some lock => exact absurd (entry.decoding lock.1 lock.2 locked).1 (closed lock.1)

theorem Ledger.resident_le (ledger : Ledger limits s table) {c : Nat} {cache : SharedCache}
    (found : s.cache c = some cache) : charge (some cache) ≤ s.memoryUsed := by
  have counted := charged_update s.cache (ledger.entry c cache found).known none
  rw [found, ← ledger.used] at counted
  change _ = _ + 0 at counted
  omega

theorem Ledger.destroy (ledger : Ledger limits s table) {holder : Holder} {c : Nat}
    (head : s.unused holder = some c) {cache : SharedCache} (found : s.cache c = some cache) :
    Ledger limits { s with
      cache := Function.update s.cache c none
      memoryUsed := if cache.memory then sub64 s.memoryUsed cache.size else s.memoryUsed
      destroyed := s.destroyed ++ [c]
      unused := Function.update s.unused holder (s.links.newer c) } table := by
  obtain ⟨chains, held⟩ := ledger.chains
  have spare := held.spare_of_unused head
  obtain ⟨closed, unnamed, unlocked⟩ := ledger.spare_alone found spare
  have entry := ledger.entry c cache found
  have busy := ((spare_iff found).mp spare).2
  have fits : s.memoryUsed < 2 ^ 64 := Nat.lt_of_le_of_lt ledger.within limits.memory_fits
  have resident := ledger.resident_le found
  have charged_here : charge (some cache) = if cache.memory then cache.size else 0 := by
    change cache.resident + cache.reservation = _
    rw [SharedCache.reservation, unlocked]
    rfl
  have spent : (if cache.memory then sub64 s.memoryUsed cache.size else s.memoryUsed) =
      s.memoryUsed - charge (some cache) := by
    rw [charged_here] at resident ⊢
    split_ifs at resident ⊢
    · exact sub64_eq resident fits
    · rfl
  have listing : ({ s with cache := Function.update s.cache c none } : CacheSystem).listing = s.listing := by
    funext d
    by_cases same : d = c
    · subst same
      rw [listing_eq_none found busy]
      simp [CacheSystem.listing]
    · simp only [CacheSystem.listing, Function.update_of_ne same]
  constructor
  case entry =>
    intro d other found'
    change Function.update s.cache c none d = some other at found'
    have different : d ≠ c := by
      rintro rfl
      rw [Function.update_self] at found'
      cases found'
    rw [Function.update_of_ne different] at found'
    exact (ledger.entry d other found').frame (Nat.le_refl _) rfl (fun _ => id) Iff.rfl
  case named =>
    intro identity d named
    have different : d ≠ c := by
      rintro rfl
      exact unnamed identity named
    obtain ⟨shown, found', same⟩ := ledger.named identity d named
    exact ⟨shown, (Function.update_of_ne different ..).trans found', same⟩
  case opened =>
    intro file d opened
    have different : d ≠ c := by
      rintro rfl
      exact closed file opened
    obtain ⟨shown, found'⟩ := ledger.opened file d opened
    exact ⟨shown, (Function.update_of_ne different ..).trans found'⟩
  case idle =>
    obtain ⟨items, lists⟩ := ledger.idle
    refine ⟨items, ?_⟩
    change IdleLedger s.links s.idle ({ s with cache := Function.update s.cache c none } : CacheSystem).listing
      s.released s.clock items
    rw [listing]
    exact lists
  case chains =>
    refine ⟨_, held.drop head fun d => ?_⟩
    by_cases same : d = c
    · subst same
      refine ⟨?_, fun both => absurd rfl both.2⟩
      rintro ⟨shown, found', -⟩
      change Function.update s.cache d none d = some shown at found'
      rw [Function.update_self] at found'
      cases found'
    · have untouched : Function.update s.cache c none d = s.cache d := Function.update_of_ne same ..
      simp only [CacheSystem.spare, untouched]
      exact (and_iff_left same).symm
  case used =>
    have counted := charged_update s.cache entry.known none
    rw [found, ← ledger.used] at counted
    change _ = _ + 0 at counted
    change (if cache.memory then sub64 s.memoryUsed cache.size else s.memoryUsed) =
      charged (Function.update s.cache c none) s.allocated
    rw [spent]
    omega
  case within =>
    change (if cache.memory then sub64 s.memoryUsed cache.size else s.memoryUsed) ≤ limits.memoryTotalLimit
    rw [spent]
    exact Nat.le_trans (Nat.sub_le ..) ledger.within
  case once =>
    have fresh : c ∉ s.destroyed := by
      rw [ledger.ended]
      rintro ⟨-, gone⟩
      rw [found] at gone
      cases gone
    exact List.nodup_append.mpr ⟨ledger.once, List.nodup_singleton c, by
      rintro d member e same rfl
      exact fresh (List.mem_singleton.mp same ▸ member)⟩
  case ended =>
    intro d
    change d ∈ s.destroyed ++ [c] ↔ d < s.allocated ∧ Function.update s.cache c none d = none
    rw [List.mem_append, List.mem_singleton, ledger.ended]
    by_cases same : d = c
    · subst same
      rw [Function.update_self]
      exact ⟨fun _ => ⟨entry.known, rfl⟩, fun _ => .inr rfl⟩
    · rw [Function.update_of_ne same]
      exact or_iff_left same

/-! ## What a release adds to the idle lists fits -/

theorem Ledger.memory_fits (ledger : Ledger limits s table) {c : Nat} {cache : SharedCache}
    (found : s.cache c = some cache) (busy : cache.idle = false) (memory : cache.memory = true) :
    (s.idle .memory).bytes + cache.size ≤ s.memoryUsed := by
  obtain ⟨items, lists⟩ := ledger.idle
  have weighs : ∀ d ∈ items .memory, ((s.listing d).map Prod.snd).getD 0 ≤ charge (s.cache d) ∧ d < s.allocated := by
    intro d member
    obtain ⟨size, listed⟩ := (lists.listed .memory d).mp member
    rw [listed]
    cases found' : s.cache d with
    | none =>
        rw [listing, found'] at listed
        cases listed
    | some other =>
        refine ⟨?_, (ledger.entry d other found').known⟩
        rw [listing, found', Option.bind_some] at listed
        split_ifs at listed with idle
        obtain ⟨backend, rfl⟩ := Prod.mk.inj (Option.some.inj listed)
        have resident : other.memory = true := by
          by_contra empty
          rw [SharedCache.backend, if_neg empty] at backend
          cases backend
        change other.size ≤ other.resident + other.reservation
        rw [SharedCache.resident, if_pos resident]
        exact Nat.le_add_right ..
  have absent : c ∉ items .memory := by
    intro member
    obtain ⟨size, listed⟩ := (lists.listed .memory c).mp member
    rw [listing_eq_none found busy] at listed
    cases listed
  have counted := charged_update s.cache (ledger.entry c cache found).known none
  have rest : ((items .memory).map fun d => ((s.listing d).map Prod.snd).getD 0).sum ≤
      charged (Function.update s.cache c none) s.allocated := by
    apply sum_le_charged _ (lists.nodup .memory) fun d member => (weighs d member).2
    intro d member
    rw [Function.update_of_ne (ne_of_mem_of_not_mem member absent)]
    exact (weighs d member).1
  rw [← lists.bytes .memory] at rest
  have here : cache.size ≤ charge (some cache) := by
    change cache.size ≤ cache.resident + cache.reservation
    rw [SharedCache.resident, if_pos memory]
    exact Nat.le_add_right ..
  rw [found, ← ledger.used] at counted
  change _ = _ + 0 at counted
  omega

end CacheSystem

end Yafsml.Vfs
