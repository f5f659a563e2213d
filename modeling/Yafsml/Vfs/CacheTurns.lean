import Yafsml.Vfs.CacheMoves

/-!
# The sections under `cache_lock` keep the ledger

Opening, closing and dropping, and what they evict: the oldest of a list first.
-/

namespace Yafsml.Vfs.CacheSystem

open DoublyLinked

variable {limits : CacheLimits} {s : CacheSystem}

/-- The next step of the thread that decodes a cache. -/
def pending (s : CacheSystem) (c : Nat) : Option DecodeStep :=
  (s.cache c).bind fun cache => cache.lock.map Prod.snd

structure Invariant (limits : CacheLimits) (s : CacheSystem) : Prop where
  ledger : Ledger limits s s.lookup
  victims : ∀ c, s.unused (.decode c) ≠ none ↔ s.pending c = some .destroy
  disk : (s.idle .disk).bytes ≤ limits.idleDiskLimit

def OldestFirst (s s' : CacheSystem) : Prop :=
  ∀ b c d n m, s.listing c = some (b, n) → (∀ identity, s'.lookup identity ≠ some c) →
    s'.listing d = some (b, m) → s'.released c < s'.released d

def Effect.Keeps (limits : CacheLimits) (s : CacheSystem) : Effect → Prop
  | .blocked => True
  | .fault => False
  | .next s' => Invariant limits s' ∧ OldestFirst s s'

theorem idle_of_listed {c size : Nat} {b : Backend} (listed : s.listing c = some (b, size)) :
    ∃ cache, s.cache c = some cache ∧ cache.idle = true ∧ cache.backend = b ∧ cache.size = size := by
  cases found : s.cache c with
  | none =>
      rw [listing, found] at listed
      cases listed
  | some cache =>
      rw [listing, found, Option.bind_some] at listed
      split_ifs at listed with idle
      cases listed
      exact ⟨cache, rfl, idle, rfl, rfl⟩

theorem Ledger.named_of_listed (ledger : Ledger limits s s.lookup) {c : Nat} {shown : Backend × Nat}
    (listed : s.listing c = some shown) : ∃ identity, s.lookup identity = some c := by
  obtain ⟨cache, found, idle, -⟩ := idle_of_listed listed
  exact ⟨cache.identity, ((ledger.entry c cache found).idle.mp idle).1⟩

theorem Ledger.oldest_of_names (ledger : Ledger limits s s.lookup) (s' : CacheSystem)
    (names : ∀ identity c, s.listing c ≠ none → s.lookup identity = some c → s'.lookup identity = some c) :
    OldestFirst s s' := by
  intro b c d n m listed unnamed
  obtain ⟨identity, named⟩ := ledger.named_of_listed listed
  exact absurd (names identity c (by rw [listed]; exact nofun) named) (unnamed identity)

theorem lookup_erase (identity : Nat) (s' : CacheSystem)
    (erased : s'.table = s.table.map fun table => table.erase identity) :
    s'.lookup = Function.update s.lookup identity none := by
  funext k
  rw [lookup, erased]
  by_cases same : k = identity
  · subst same
    rw [Function.update_self]
    cases s.table with
    | none => rfl
    | some table => exact (FiniteMap.lookup_erase table k k).trans (if_pos rfl)
  · rw [Function.update_of_ne same, lookup]
    cases s.table with
    | none => rfl
    | some table => exact (FiniteMap.lookup_erase table identity k).trans (if_neg same)

/-! ## Eviction -/

/-- What an eviction from one list leaves alone, and in which order it takes from the list. -/
structure Evicted (b : Backend) (s s' : CacheSystem) : Prop where
  released : s'.released = s.released
  allocated : s'.allocated = s.allocated
  files : s'.files = s.files
  memoryUsed : s'.memoryUsed = s.memoryUsed
  decodes : ∀ c cache, s.cache c = some cache → cache.idle = false → s'.cache c = some cache
  pending : ∀ c, s'.pending c = s.pending c
  others : ∀ a, a ≠ b → (s'.idle a).bytes = (s.idle a).bytes
  listed : ∀ c shown, s'.listing c = some shown → s.listing c = some shown
  names : ∀ identity c, s'.lookup identity = some c → s.lookup identity = some c
  order : ∀ c d a n m, s.listing c = some (a, n) → s'.listing c = none → s'.listing d = some (a, m) →
    s.released c < s.released d

theorem Evicted.refl (b : Backend) (s : CacheSystem) : Evicted b s s := by
  refine ⟨rfl, rfl, rfl, rfl, fun _ _ found _ => found, fun _ => rfl, fun _ _ => rfl, fun _ _ => id,
    fun _ _ => id, ?_⟩
  intro c d a n m here gone
  rw [here] at gone
  cases gone

theorem Evicted.trans {b : Backend} {s s' s'' : CacheSystem} (first : Evicted b s s') (second : Evicted b s' s'') :
    Evicted b s s'' where
  released := second.released.trans first.released
  allocated := second.allocated.trans first.allocated
  files := second.files.trans first.files
  memoryUsed := second.memoryUsed.trans first.memoryUsed
  decodes c cache found busy := second.decodes c cache (first.decodes c cache found busy) busy
  pending c := (second.pending c).trans (first.pending c)
  others a other := (second.others a other).trans (first.others a other)
  listed c shown listed := first.listed c shown (second.listed c shown listed)
  names identity c named := first.names identity c (second.names identity c named)
  order c d a n m here gone there := by
    cases between : s'.listing c with
    | none => exact first.order c d a n m here between (second.listed d _ there)
    | some shown =>
        have same := first.listed c shown between
        rw [here] at same
        cases same
        have later := second.order c d a n m between gone there
        rwa [first.released] at later

theorem Evicted.oldestFirst {b : Backend} {s' : CacheSystem} (evicted : Evicted b s s')
    (ledger : Ledger limits s' s'.lookup) : OldestFirst s s' := by
  intro a c d n m here unnamed there
  rw [evicted.released]
  apply evicted.order c d a n m here ?_ there
  cases still : s'.listing c with
  | none => rfl
  | some shown =>
      obtain ⟨identity, named⟩ := ledger.named_of_listed still
      exact absurd named (unnamed identity)

theorem Ledger.idleEvict (ledger : Ledger limits s s.lookup) (holder : Holder)
    (room : ∀ k, holder = .decode k → s.unused holder = none) {b : Backend} {c : Nat}
    (oldest : (s.idle b).ends.oldest = some c) :
    ∃ s', s.idleEvict holder c = some s' ∧ Ledger limits s' s'.lookup ∧ Evicted b s s' ∧
      s'.unused = Function.update s.unused holder (some c) ∧ s'.listing = Function.update s.listing c none ∧
      s.listing c ≠ none := by
  obtain ⟨items, lists⟩ := ledger.idle
  obtain ⟨size, listed⟩ := (lists.listed b c).mp ((lists.linked b).oldest_mem oldest)
  obtain ⟨cache, found, idle, backend, -⟩ := idle_of_listed listed
  let s' : CacheSystem := { (s.unlinked c cache).chain holder c with
    table := s.table.map fun table => table.erase cache.identity }
  have evicted : s.idleEvict holder c = some s' := by
    have still : (s.unlinked c cache).cache c = some { cache with idle := false } := Function.update_self ..
    rw [CacheSystem.idleEvict, idleUnlink_eq ledger found idle]
    dsimp only
    rw [cacheForget, still]
    rfl
  have lookup : s'.lookup = Function.update s.lookup cache.identity none := lookup_erase cache.identity s' rfl
  have listing : s'.listing = Function.update s.listing c none := listing_unlinked cache
  refine ⟨s', evicted, ?_, ?_, rfl, listing, by rw [listed]; exact nofun⟩
  · rw [lookup]
    exact (ledger.retire room found idle).withTable _
  · constructor
    · rfl
    · rfl
    · rfl
    · rfl
    · intro d other found' busy
      have different : d ≠ c := by
        rintro rfl
        rw [found] at found'
        cases found'
        rw [idle] at busy
        cases busy
      exact (Function.update_of_ne different ..).trans found'
    · intro d
      by_cases same : d = c
      · subst same
        change (Function.update s.cache d _ d).bind _ = _
        rw [Function.update_self, CacheSystem.pending, found]
        rfl
      · change (Function.update s.cache c _ d).bind _ = _
        rw [Function.update_of_ne same]
        rfl
    · intro a other
      change (Function.update s.idle cache.backend _ a).bytes = _
      rw [backend, Function.update_of_ne other]
    · intro d shown listed'
      rw [listing] at listed'
      by_cases same : d = c
      · subst same
        rw [Function.update_self] at listed'
        cases listed'
      · rwa [Function.update_of_ne same] at listed'
    · intro identity d named
      rw [lookup] at named
      by_cases same : identity = cache.identity
      · rw [same, Function.update_self] at named
        cases named
      · rwa [Function.update_of_ne same] at named
    · intro d e a n m here gone there
      rw [listing] at gone there
      have itself : d = c := by
        by_contra other
        rw [Function.update_of_ne other, here] at gone
        cases gone
      subst itself
      rw [listed] at here
      cases here
      have other : e ≠ d := by
        rintro rfl
        rw [Function.update_self] at there
        cases there
      rw [Function.update_of_ne other] at there
      exact lists.oldest_first oldest there other

/-! ## The loop at the end of a release -/

theorem decode_ne_thread (k thread : Nat) : Holder.decode k ≠ .thread thread := nofun

theorem no_decode (thread k : Nat) (same : Holder.thread thread = .decode k) :
    s.unused (.thread thread) = none := nomatch same

theorem chain_unused (thread c k : Nat) : (s.chain (.thread thread) c).unused (.decode k) = s.unused (.decode k) := by
  simp only [chain, Function.update_of_ne (decode_ne_thread k thread)]

def idleCount (s : CacheSystem) : Nat :=
  ((Finset.range s.allocated).filter fun c => (s.listing c).isSome).card

theorem idleCount_lt {s' : CacheSystem} {c : Nat} (known : c < s.allocated) (listed : s.listing c ≠ none)
    (allocated : s'.allocated = s.allocated) (listing : s'.listing = Function.update s.listing c none) :
    s'.idleCount < s.idleCount := by
  apply Finset.card_lt_card
  rw [Finset.ssubset_iff_of_subset]
  · refine ⟨c, Finset.mem_filter.mpr ⟨Finset.mem_range.mpr known, Option.isSome_iff_ne_none.mpr listed⟩, ?_⟩
    rw [Finset.mem_filter, listing, Function.update_self]
    exact fun member => absurd member.2 nofun
  · intro d member
    obtain ⟨below, here⟩ := Finset.mem_filter.mp member
    rw [allocated] at below
    refine Finset.mem_filter.mpr ⟨below, ?_⟩
    by_cases same : d = c
    · subst same
      exact Option.isSome_iff_ne_none.mpr listed
    · rwa [listing, Function.update_of_ne same] at here

theorem idleCount_le : s.idleCount < s.allocated + 1 := by
  have few := Finset.card_filter_le (Finset.range s.allocated) fun c => (s.listing c).isSome
  rw [Finset.card_range] at few
  exact Nat.lt_succ_of_le few

theorem Ledger.oldest_of_bytes (ledger : Ledger limits s s.lookup) {b : Backend}
    (positive : 0 < (s.idle b).bytes) : ∃ c, (s.idle b).ends.oldest = some c := by
  obtain ⟨items, lists⟩ := ledger.idle
  have oldest := (lists.linked b).oldest
  cases members : items b with
  | nil =>
      have bytes := lists.bytes b
      rw [members] at bytes
      exact absurd bytes (Nat.ne_of_gt positive)
  | cons c rest => exact ⟨c, by rw [oldest, members]; rfl⟩

theorem Ledger.trimIdleDisk (thread : Nat) {fuel : Nat} (ledger : Ledger limits s s.lookup)
    (enough : s.idleCount < fuel) :
    ∃ s', trimIdleDisk limits (.thread thread) fuel s = some s' ∧ Ledger limits s' s'.lookup ∧
      Evicted .disk s s' ∧ (∀ k, s'.unused (.decode k) = s.unused (.decode k)) ∧
      (s'.idle .disk).bytes ≤ limits.idleDiskLimit := by
  induction fuel generalizing s with
  | zero => exact absurd enough (Nat.not_lt_zero _)
  | succ fuel ih =>
      rw [CacheSystem.trimIdleDisk]
      split_ifs with much
      · obtain ⟨c, oldest⟩ := ledger.oldest_of_bytes (Nat.zero_lt_of_lt much)
        obtain ⟨s₁, evicts, kept, evicted, unused, listing, listed⟩ :=
          ledger.idleEvict (.thread thread) (no_decode thread) oldest
        have known : c < s.allocated := by
          obtain ⟨shown, here⟩ := Option.ne_none_iff_exists'.mp listed
          obtain ⟨cache, found, -⟩ := idle_of_listed here
          exact (ledger.entry c cache found).known
        have fewer := idleCount_lt known listed evicted.allocated listing
        obtain ⟨s', trims, kept', evicted', unused', little⟩ := ih kept (by omega)
        refine ⟨s', ?_, kept', evicted.trans evicted', fun k => ?_, little⟩
        · rw [oldest]
          dsimp only
          rw [evicts]
          exact trims
        · rw [unused', unused, Function.update_of_ne (decode_ne_thread k thread)]
      · exact ⟨s, rfl, ledger, .refl _ s, fun _ => rfl, Nat.not_lt.mp much⟩

/-! ## Closing a file -/

theorem pending_setCache (c : Nat) (cache : SharedCache) :
    (s.setCache c cache).pending = Function.update s.pending c (cache.lock.map Prod.snd) := by
  funext d
  by_cases same : d = c
  · subst same
    simp [pending, setCache]
  · simp [pending, setCache, Function.update_of_ne same]

theorem pending_same {c : Nat} {cache cache' : SharedCache} (found : s.cache c = some cache)
    (lock : cache'.lock = cache.lock) : (s.setCache c cache').pending = s.pending := by
  rw [pending_setCache, lock]
  apply Function.update_eq_self_iff.mpr
  rw [pending, found]
  rfl

theorem live_setCache {c : Nat} {cache : SharedCache} (found : s.cache c = some cache) (cache' : SharedCache) :
    (s.setCache c cache').live = s.live := by
  funext d
  by_cases same : d = c
  · subst same
    simp [live, setCache, found]
  · simp [live, setCache, Function.update_of_ne same]

theorem idlePush_eq {c : Nat} {cache : SharedCache} (found : s.cache c = some cache)
    (newest : (s.idle cache.backend).ends.newest.all s.live = true) :
    s.idlePush c = some (s.pushed c cache) := by
  rw [idlePush, found]
  dsimp only
  rw [newest]
  rfl

theorem dereferenced_cache (s : CacheSystem) (file c : Nat) (cache : SharedCache) :
    (s.dereferenced file c cache).cache c = some { cache with references := cache.references - 1 } :=
  Function.update_self ..

theorem pending_dereferenced (file : Nat) {c : Nat} {cache : SharedCache} (found : s.cache c = some cache) :
    (s.dereferenced file c cache).pending = s.pending :=
  pending_same (s := { s with files := s.files.erase file }) found rfl

theorem Invariant.of_release (invariant : Invariant limits s) (s' : CacheSystem)
    (ledger : Ledger limits s' s'.lookup) (unused : ∀ k, s'.unused (.decode k) = s.unused (.decode k))
    (pending : s'.pending = s.pending) (disk : (s'.idle .disk).bytes ≤ limits.idleDiskLimit) :
    Invariant limits s' := by
  refine ⟨ledger, fun k => ?_, disk⟩
  rw [unused, pending]
  exact invariant.victims k

theorem Ledger.keep_fits (invariant : Invariant limits s) {c : Nat} {cache : SharedCache}
    (found : s.cache c = some cache) (busy : cache.idle = false)
    (kept : cache.memory = true ∨ cache.size ≤ limits.idleDiskLimit) :
    (s.idle cache.backend).bytes + cache.size < 2 ^ 64 := by
  cases memory : cache.memory with
  | true =>
      have fits := invariant.ledger.memory_fits found busy memory
      have within := invariant.ledger.within
      have := limits.memory_fits
      rw [SharedCache.backend, if_pos memory]
      omega
  | false =>
      rw [memory] at kept
      have small := kept.resolve_left Bool.false_ne_true
      have := invariant.disk
      have := limits.disk_fits
      rw [SharedCache.backend, if_neg (by rw [memory]; exact Bool.false_ne_true)]
      omega

section Release

variable (invariant : Invariant limits s) {file c : Nat} {cache : SharedCache} (found : s.cache c = some cache)
  (opened : fileCache s.files file = some c) (unread : ∀ step, cache.lock ≠ some (file, step)) (thread : Nat)

include invariant found opened unread

theorem keep_keeps (last : cache.references - 1 = 0) (attached : cache.detached = false)
    (kept : cache.memory = true ∨ cache.disk = true ∧ cache.size ≤ limits.idleDiskLimit) :
    Effect.Keeps limits s (.of (match (s.dereferenced file c cache).idlePush c with
      | none => none
      | some s => trimIdleDisk limits (.thread thread) (s.allocated + 1) s)) := by
  have ledger := invariant.ledger
  have busy := (ledger.busy_of_opened found opened).2
  let released : SharedCache := { cache with references := cache.references - 1 }
  have newest : ((s.dereferenced file c cache).idle released.backend).ends.newest.all
      (s.dereferenced file c cache).live = true := by
    have live : (s.dereferenced file c cache).live = s.live :=
      live_setCache (s := { s with files := s.files.erase file }) found released
    rw [live]
    exact newest_live ledger cache.backend
  have pushed := idlePush_eq (s.dereferenced_cache file c cache) newest
  have stays := ledger.keep found opened unread last attached (kept.imp id And.left)
    (Ledger.keep_fits invariant found busy (kept.imp id And.right))
  obtain ⟨s', trims, kept', evicted, unused, little⟩ :=
    Ledger.trimIdleDisk thread stays idleCount_le
  have pending : s'.pending = s.pending := by
    funext d
    rw [evicted.pending d]
    have same : ((s.dereferenced file c cache).pushed c released).pending = (s.dereferenced file c cache).pending :=
      pending_same (s.dereferenced_cache file c cache) rfl
    rw [same, pending_dereferenced file found]
  rw [pushed]
  dsimp only
  rw [trims]
  refine ⟨invariant.of_release s' kept' unused pending little, ?_⟩
  intro b a d n m listed unnamed there
  have other : a ≠ c := by
    rintro rfl
    rw [listing_eq_none found busy] at listed
    cases listed
  apply evicted.oldestFirst kept' b a d n m ?_ unnamed there
  rwa [listing_pushed, Function.update_of_ne other]

theorem release_keeps : Effect.Keeps limits s
    (.of ({ s with files := s.files.erase file }.cacheRelease limits (.thread thread) c)) := by
  have ledger := invariant.ledger
  obtain ⟨used, busy⟩ := ledger.busy_of_opened found opened
  have found' : ({ s with files := s.files.erase file } : CacheSystem).cache c = some cache := found
  have pending := pending_dereferenced file found
  rw [cacheRelease, found']
  change Effect.Keeps limits s (.of (if cache.references - 1 ≠ 0 then some (s.dereferenced file c cache)
    else if !cache.detached && (cache.memory || (cache.disk && cache.size ≤ limits.idleDiskLimit)) then
      match (s.dereferenced file c cache).idlePush c with
      | none => none
      | some s => trimIdleDisk limits (.thread thread) (s.allocated + 1) s
    else if cache.detached then some ((s.dereferenced file c cache).chain (.thread thread) c)
    else ((s.dereferenced file c cache).cacheForget c).map fun s => s.chain (.thread thread) c))
  split_ifs with more kept detached
  · exact ⟨invariant.of_release _ (ledger.unshare found opened unread more) (fun _ => rfl) pending invariant.disk,
      ledger.oldest_of_names _ fun _ _ _ => id⟩
  · simp only [Bool.and_eq_true, Bool.not_eq_true', Bool.or_eq_true, decide_eq_true_eq] at kept
    exact keep_keeps invariant found opened unread thread (not_not.mp more) kept.1 kept.2
  · have unnamed : ∀ identity, s.lookup identity ≠ some c := by
      intro identity named
      have same := ledger.name found named
      exact (ledger.entry c cache found).detached detached (same ▸ named)
    have kept := ledger.discard found opened unread (not_not.mp more) (.thread thread) (no_decode thread)
      (fun _ _ _ => Iff.rfl) unnamed
    exact ⟨invariant.of_release _ kept (chain_unused thread c) pending invariant.disk,
      ledger.oldest_of_names _ fun _ _ _ => id⟩
  · have named := (ledger.entry c cache found).attached (Bool.eq_false_iff.mpr detached) used
    let s' : CacheSystem := { (s.dereferenced file c cache).chain (.thread thread) c with
      table := s.table.map fun table => table.erase cache.identity }
    have lookup : s'.lookup = Function.update s.lookup cache.identity none := lookup_erase cache.identity s' rfl
    have kept : Ledger limits s' s'.lookup := by
      rw [lookup]
      exact (ledger.discard found opened unread (not_not.mp more) (.thread thread) (no_decode thread)
        (fun d other identity => update_table_iff named other) (ledger.unnamed found)).withTable _
    rw [cacheForget, dereferenced_cache]
    refine ⟨invariant.of_release s' kept (chain_unused thread c) pending invariant.disk, ledger.oldest_of_names s' fun identity d listed named' => ?_⟩
    have other : d ≠ c := by
      rintro rfl
      exact listed (listing_eq_none found busy)
    rw [lookup, update_table_iff named other]
    exact named'

end Release

theorem closeFile_keeps (invariant : Invariant limits s) (thread file : Nat) :
    (s.closeFile limits thread file).Keeps limits s := by
  have ledger := invariant.ledger
  rw [closeFile]
  split_ifs with working
  · trivial
  · split
    · rename_i c opened
      have opened : fileCache s.files file = some c := by rw [fileCache, opened]; rfl
      obtain ⟨cache, found⟩ := ledger.opened file c opened
      rw [found]
      dsimp only
      split_ifs with reading
      · trivial
      · have unread : ∀ step, cache.lock ≠ some (file, step) := by
          intro step locked
          rw [locked] at reading
          exact reading (beq_self_eq_true file)
        exact release_keeps invariant found opened unread thread
    · trivial

/-! ## Destroying what is left -/

theorem Ledger.destroyed_pending (ledger : Ledger limits s s.lookup) {holder : Holder} {c : Nat}
    (head : s.unused holder = some c) : ∃ cache, s.cache c = some cache ∧ cache.lock = none := by
  obtain ⟨chains, held⟩ := ledger.chains
  have spare := held.spare_of_unused head
  obtain ⟨cache, found, -⟩ := id spare
  exact ⟨cache, found, (ledger.spare_alone found spare).2.2⟩

theorem pending_destroyed {c : Nat} {cache : SharedCache} (found : s.cache c = some cache)
    (unlocked : cache.lock = none) (s' : CacheSystem) (gone : s'.cache = Function.update s.cache c none) :
    s'.pending = s.pending := by
  funext d
  rw [pending, pending, gone]
  by_cases same : d = c
  · subst same
    rw [Function.update_self, found, Option.bind_some, unlocked]
    rfl
  · rw [Function.update_of_ne same]

theorem destroyNext_keeps (invariant : Invariant limits s) (thread : Nat) :
    (s.destroyNext thread).Keeps limits s := by
  have ledger := invariant.ledger
  rw [destroyNext]
  cases head : s.unused (.thread thread) with
  | none => trivial
  | some c =>
      obtain ⟨cache, found, unlocked⟩ := ledger.destroyed_pending head
      dsimp only
      rw [cacheDestroy, found]
      exact ⟨invariant.of_release _ (ledger.destroy head found)
          (fun k => by simp only [Function.update_of_ne (decode_ne_thread k thread)])
          (pending_destroyed found unlocked _ rfl) invariant.disk,
        ledger.oldest_of_names _ fun _ _ _ => id⟩

/-! ## Dropping the table -/

theorem Ledger.dropEach (thread : Nat) {order : List Nat} {table : Nat → Option Nat}
    (ledger : Ledger limits s table) (nodup : order.Nodup)
    (listed : ∀ c, c ∈ order ↔ ∃ identity, table identity = some c) :
    ∃ s', dropEach (.thread thread) order s = some s' ∧ Ledger limits s' (fun _ => none) ∧ s'.table = s.table ∧
      s'.pending = s.pending ∧ ∀ k, s'.unused (.decode k) = s.unused (.decode k) := by
  induction order generalizing s table with
  | nil =>
      have empty : table = fun _ => none := by
        funext identity
        cases named : table identity with
        | none => rfl
        | some c => exact absurd ((listed c).mpr ⟨identity, named⟩) List.not_mem_nil
      exact ⟨s, rfl, empty ▸ ledger, rfl, rfl, fun _ => rfl⟩
  | cons c rest ih =>
      obtain ⟨fresh, nodup⟩ := List.nodup_cons.mp nodup
      obtain ⟨identity, named⟩ := (listed c).mp (.head _)
      obtain ⟨cache, found, rfl⟩ := ledger.named identity c named
      have remaining : ∀ d, d ∈ rest ↔ ∃ identity, Function.update table cache.identity none identity = some d := by
        intro d
        by_cases same : d = c
        · subst same
          exact ⟨fun member => absurd member fresh,
            fun ⟨identity, named'⟩ => absurd named' (ledger.unnamed found identity)⟩
        · have elsewhere := listed d
          rw [List.mem_cons, or_iff_right same] at elsewhere
          rw [elsewhere]
          exact exists_congr fun identity => (update_table_iff named same).symm
      rw [CacheSystem.dropEach, found]
      dsimp only
      by_cases idle : cache.idle = true
      · have retired := ledger.retire (no_decode thread) found idle
        obtain ⟨s', drops, kept, same_table, pending, unused⟩ := ih retired nodup remaining
        refine ⟨s', ?_, kept, same_table, ?_, fun k => ?_⟩
        · rw [if_pos idle, idleUnlink_eq ledger found idle]
          exact drops
        · rw [pending]
          exact pending_same found rfl
        · rw [unused, chain_unused]
          rfl
      · have detached := ledger.detach found (Bool.eq_false_iff.mpr idle) named
        obtain ⟨s', drops, kept, same_table, pending, unused⟩ := ih detached nodup remaining
        refine ⟨s', ?_, kept, same_table, ?_, unused⟩
        · rw [if_neg idle]
          exact drops
        · rw [pending]
          exact pending_same found rfl

theorem Ledger.table_values (ledger : Ledger limits s s.lookup) {table : AList fun _ : Nat => Nat}
    (here : s.table = some table) : (table.entries.map Sigma.snd).Nodup ∧
      ∀ c, c ∈ table.entries.map Sigma.snd ↔ ∃ identity, s.lookup identity = some c := by
  have looked : ∀ identity c, s.lookup identity = some c ↔ (⟨identity, c⟩ : Sigma fun _ => Nat) ∈ table.entries := by
    intro identity c
    rw [lookup, here]
    exact AList.mem_lookup_iff
  constructor
  · apply List.Nodup.map_on _ table.nodupKeys.nodup
    rintro ⟨identity, c⟩ member ⟨identity', c'⟩ member' same
    obtain rfl : c = c' := same
    obtain ⟨cache, found, name⟩ := ledger.named identity c ((looked identity c).mpr member)
    have name' := ledger.name found ((looked identity' c).mpr member')
    rw [name] at name'
    rw [name']
  · intro c
    rw [List.mem_map]
    constructor
    · rintro ⟨⟨identity, c⟩, member, rfl⟩
      exact ⟨identity, (looked identity c).mpr member⟩
    · rintro ⟨identity, named⟩
      exact ⟨⟨identity, c⟩, (looked identity c).mp named, rfl⟩

theorem Ledger.unlisted (ledger : Ledger limits s fun _ => none) (c : Nat) : s.listing c = none := by
  cases shown : s.listing c with
  | none => rfl
  | some both =>
      obtain ⟨cache, found, idle, -⟩ := idle_of_listed shown
      exact absurd ((ledger.entry c cache found).idle.mp idle).1 nofun

theorem Ledger.no_bytes (ledger : Ledger limits s fun _ => none) (b : Backend) : (s.idle b).bytes = 0 := by
  obtain ⟨items, lists⟩ := ledger.idle
  have empty : items b = [] := by
    apply List.eq_nil_iff_forall_not_mem.mpr
    intro c member
    obtain ⟨size, listed⟩ := (lists.listed b c).mp member
    rw [ledger.unlisted c] at listed
    cases listed
  rw [lists.bytes b, empty]
  rfl

theorem dropCaches_keeps (invariant : Invariant limits s) (thread : Nat) (order : List Nat) :
    (s.dropCaches thread order).Keeps limits s := by
  have ledger := invariant.ledger
  rw [dropCaches]
  split_ifs with working
  · trivial
  · cases here : s.table with
    | none => exact ⟨invariant, ledger.oldest_of_names s fun _ _ _ => id⟩
    | some table =>
        dsimp only
        split_ifs with slots
        · obtain ⟨nodup, values⟩ := ledger.table_values here
          have listed : ∀ c, c ∈ order ↔ ∃ identity, s.lookup identity = some c := fun c =>
            slots.mem_iff.trans (values c)
          obtain ⟨s', drops, kept, no_table, pending, unused⟩ :=
            (ledger.withTable none).dropEach thread (slots.nodup_iff.mpr nodup) listed
          have lookup : s'.lookup = fun _ => none := by
            funext identity
            rw [CacheSystem.lookup, no_table]
            rfl
          rw [drops]
          refine ⟨invariant.of_release s' (lookup ▸ kept) unused pending ?_, ?_⟩
          · rw [kept.no_bytes]
            exact Nat.zero_le _
          · intro b c d n m listed unnamed there
            rw [kept.unlisted d] at there
            cases there
        · trivial

/-! ## Opening a file -/

theorem unlinked_bytes_le {table : Nat → Option Nat} (ledger : Ledger limits s table) {c : Nat}
    {cache : SharedCache} (found : s.cache c = some cache) (idle : cache.idle = true) (b : Backend) :
    ((s.unlinked c cache).idle b).bytes ≤ (s.idle b).bytes := by
  obtain ⟨items, lists⟩ := ledger.idle
  have weighs := lists.weighs (listing_of_idle found idle)
  change (Function.update s.idle cache.backend _ b).bytes ≤ _
  by_cases same : b = cache.backend
  · subst same
    rw [Function.update_self]
    change sub64 _ _ ≤ _
    rw [sub64_eq (by omega) (lists.fits _)]
    exact Nat.sub_le ..
  · rw [Function.update_of_ne same]

section Acquire

variable (invariant : Invariant limits s) {file : Nat} (free : fileCache s.files file = none)

include invariant free

theorem share_keeps {identity c : Nat} (named : s.lookup identity = some c) {cache : SharedCache}
    (found : s.cache c = some cache) : ∃ s', (if cache.idle then s.idleUnlink c else some s) = some s' ∧
      let opened := s'.setCache c { cache with idle := false, references := cache.references + 1 }
      Invariant limits { opened with files := s'.files.insert file ⟨c, 0⟩ } ∧
        OldestFirst s { opened with files := s'.files.insert file ⟨c, 0⟩ } := by
  have ledger := invariant.ledger
  obtain rfl := ledger.name found named
  split_ifs with idle
  · refine ⟨s.unlinked c cache, idleUnlink_eq ledger found idle, ?_, ledger.oldest_of_names _ fun _ _ _ => id⟩
    refine invariant.of_release _ (ledger.share_idle found idle free) (fun _ => rfl) ?_ ?_
    · have unlinked : (s.unlinked c cache).pending = s.pending := pending_same found rfl
      rw [← unlinked]
      have still : (s.unlinked c cache).cache c = some { cache with idle := false } := Function.update_self ..
      exact pending_same still rfl
    · exact Nat.le_trans (unlinked_bytes_le ledger found idle .disk) invariant.disk
  · refine ⟨s, rfl, ?_, ledger.oldest_of_names _ fun _ _ _ => id⟩
    exact invariant.of_release _ (ledger.share_busy found (Bool.eq_false_iff.mpr idle) named free) (fun _ => rfl)
      (pending_same found rfl) invariant.disk

theorem create_keeps {table : AList fun _ : Nat => Nat} (here : s.table = some table) {identity : Nat} (size : Nat)
    (fresh : table.lookup identity = none) :
    let created : CacheSystem := { s.created identity size with
      table := some (table.insert identity s.allocated), files := s.files.insert file ⟨s.allocated, 0⟩ }
    Invariant limits created ∧ OldestFirst s created := by
  intro created
  have ledger := invariant.ledger
  have unnamed : s.lookup identity = none := by
    rw [lookup, here]
    exact fresh
  have lookup : created.lookup = Function.update s.lookup identity (some s.allocated) := by
    funext k
    change (table.insert identity s.allocated).lookup k = _
    rw [FiniteMap.lookup_insert]
    split_ifs with same
    · rw [same, Function.update_self]
    · rw [Function.update_of_ne same, CacheSystem.lookup, here]
      rfl
  have kept : Ledger limits created created.lookup := by
    rw [lookup]
    exact (ledger.create size unnamed free).withTable _
  have pending : created.pending = s.pending := by
    have pending := s.pending_setCache s.allocated (newCache identity size)
    have nobody : s.pending s.allocated = none := by rw [CacheSystem.pending, ledger.unborn]; rfl
    rw [Function.update_eq_self_iff.mpr nobody.symm] at pending
    exact pending
  refine ⟨invariant.of_release created kept (fun _ => rfl) pending invariant.disk,
    ledger.oldest_of_names created fun k c _ named => ?_⟩
  have other : k ≠ identity := by
    rintro rfl
    rw [unnamed] at named
    cases named
  rw [lookup, Function.update_of_ne other]
  exact named

end Acquire

theorem openFile_keeps (invariant : Invariant limits s) (file identity size : Nat) (memory : AcquireMemory) :
    (s.openFile file identity size memory).Keeps limits s := by
  have ledger := invariant.ledger
  rw [openFile]
  split_ifs with taken huge
  · trivial
  · exact ⟨invariant, ledger.oldest_of_names s fun _ _ _ => id⟩
  have free : fileCache s.files file = none := by
    rw [fileCache, Option.not_isSome_iff_eq_none.mp taken]
    rfl
  rw [cacheAcquire]
  cases tables : s.table.or (if memory.table then some ∅ else none) with
  | none => exact ⟨invariant, ledger.oldest_of_names s fun _ _ _ => id⟩
  | some table =>
      have lookup : ({ s with table := some table } : CacheSystem).lookup = s.lookup := by
        funext k
        rw [CacheSystem.lookup, CacheSystem.lookup]
        cases here : s.table with
        | some old =>
            rw [here] at tables
            cases tables
            rfl
        | none =>
            rw [here, Option.none_or] at tables
            split_ifs at tables
            cases tables
            exact AList.lookup_empty k
      have invariant' : Invariant limits { s with table := some table } := by
        refine invariant.of_release _ ?_ (fun _ => rfl) rfl invariant.disk
        rw [lookup]
        exact ledger.withTable _
      have stays : OldestFirst s { s with table := some table } :=
        ledger.oldest_of_names _ fun k c _ named => lookup ▸ named
      dsimp only
      by_cases put : (!memory.put) = true
      · rw [if_pos put]
        exact ⟨invariant', stays⟩
      rw [if_neg put]
      cases named : table.lookup identity with
      | some c =>
          have named : ({ s with table := some table } : CacheSystem).lookup identity = some c := named
          obtain ⟨cache, found, -⟩ := invariant'.ledger.named identity c named
          obtain ⟨s', unlinks, keeps⟩ := share_keeps invariant' free named found
          have found' : s.cache c = some cache := found
          dsimp only
          rw [found']
          dsimp only
          rw [unlinks]
          exact keeps
      | none =>
          dsimp only
          by_cases room : (!memory.cache) = true
          · rw [if_pos room]
            exact ⟨invariant', stays⟩
          · rw [if_neg room]
            exact create_keeps invariant' free rfl size named

end Yafsml.Vfs.CacheSystem
