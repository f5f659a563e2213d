import Yafsml.Vfs.CacheTurns

/-!
# Reading and decoding keep the ledger

Every step of a decode, and with them every turn of every run.
-/

namespace Yafsml.Vfs.CacheSystem

open DoublyLinked

variable {limits : CacheLimits} {s : CacheSystem}

/-! ## Reading -/

theorem Ledger.readers {table : Nat → Option Nat} (ledger : Ledger limits s table) {file c : Nat}
    (opened : fileCache s.files file = some c) (readers : Nat) :
    Ledger limits { s with files := s.files.insert file ⟨c, readers⟩ } table := by
  obtain ⟨cache, found⟩ := ledger.opened file c opened
  have entry := ledger.entry c cache found
  have kept := ledger.advance found (ledger.busy_of_opened found opened).2 cache.lock cache.state cache.memory
    cache.disk (s.files.insert file ⟨c, readers⟩) s.memoryUsed (openCount_readers opened readers)
    (fileCache_readers opened readers) entry.single entry.empty entry.decoding rfl ledger.within
  have same : s.setCache c cache = s := by
    rw [setCache, Function.update_eq_self_iff.mpr found.symm]
  have whole : { s.setCache c { cache with } with
      files := s.files.insert file ⟨c, readers⟩, memoryUsed := s.memoryUsed } =
        { s with files := s.files.insert file ⟨c, readers⟩ } := by
    rw [same]
  rw [← whole]
  exact kept

theorem readers_keeps (invariant : Invariant limits s) {file c : Nat} (opened : fileCache s.files file = some c)
    (readers : Nat) : Invariant limits { s with files := s.files.insert file ⟨c, readers⟩ } ∧
      OldestFirst s { s with files := s.files.insert file ⟨c, readers⟩ } :=
  ⟨invariant.of_release _ (invariant.ledger.readers opened readers) (fun _ => rfl) rfl invariant.disk,
    invariant.ledger.oldest_of_names _ fun _ _ _ => id⟩

theorem readFile_keeps (invariant : Invariant limits s) (file : Nat) : (s.readFile file).Keeps limits s := by
  rw [readFile]
  cases here : s.files.lookup file with
  | none => trivial
  | some opened => exact readers_keeps invariant (by rw [fileCache, here]; rfl) (opened.readers + 1)

theorem finishRead_keeps (invariant : Invariant limits s) (file : Nat) : (s.finishRead file).Keeps limits s := by
  rw [finishRead]
  split
  · rename_i c readers here
    have opened : fileCache s.files file = some c := by rw [fileCache, here]; rfl
    obtain ⟨cache, found⟩ := invariant.ledger.opened file c opened
    have live : s.live c = true := by rw [live, found]; rfl
    rw [if_pos live]
    exact readers_keeps invariant opened readers
  · trivial

theorem decodeStart_sound (limits : CacheLimits) {cache : SharedCache} (empty : cache.state = .empty) :
    (decodeStart limits cache.size).Sound limits cache ∧ (decodeStart limits cache.size).reserved = false ∧
      decodeStart limits cache.size ≠ .destroy := by
  rw [decodeStart]
  split_ifs with nothing large
  · exact ⟨⟨empty, rfl⟩, rfl, nofun⟩
  · exact ⟨empty, rfl, nofun⟩
  · exact ⟨⟨empty, by omega⟩, rfl, nofun⟩

theorem Invariant.of_decode (invariant : Invariant limits s) (s' : CacheSystem)
    (ledger : Ledger limits s' s'.lookup) {c : Nat} {step : Option DecodeStep}
    (pending : s'.pending = Function.update s.pending c step) (before : s.pending c ≠ some .destroy)
    (after : step ≠ some .destroy) (unused : ∀ k, s'.unused (.decode k) = s.unused (.decode k))
    (disk : (s'.idle .disk).bytes ≤ limits.idleDiskLimit) : Invariant limits s' := by
  refine ⟨ledger, fun k => ?_, disk⟩
  rw [unused, pending, invariant.victims]
  by_cases same : k = c
  · rw [same, Function.update_self]
    exact iff_of_false before after
  · rw [Function.update_of_ne same]

theorem lockCache_keeps (invariant : Invariant limits s) (file : Nat) :
    (s.lockCache limits file).Keeps limits s := by
  have ledger := invariant.ledger
  rw [lockCache]
  split
  · rename_i c readers here
    have opened : fileCache s.files file = some c := by rw [fileCache, here]; rfl
    obtain ⟨cache, found⟩ := ledger.opened file c opened
    rw [found]
    dsimp only
    split_ifs with decoded locked
    · exact ⟨invariant, ledger.oldest_of_names s fun _ _ _ => id⟩
    · trivial
    · have entry := ledger.entry c cache found
      have empty : cache.state = .empty := not_not.mp decoded
      have unlocked : cache.lock = none := Option.not_isSome_iff_eq_none.mp locked
      obtain ⟨sound, unreserved, other⟩ := decodeStart_sound limits empty
      have used : s.memoryUsed + charge (some cache) = s.memoryUsed +
          charge (some { cache with lock := some (file, decodeStart limits cache.size) }) := by
        change s.memoryUsed + (cache.resident + cache.reservation) =
          s.memoryUsed + (cache.resident + if (decodeStart limits cache.size).reserved then cache.size else 0)
        rw [SharedCache.reservation, unlocked, unreserved]
        rfl
      have kept := ledger.advance found (ledger.busy_of_opened found opened).2
        (some (file, decodeStart limits cache.size)) cache.state cache.memory cache.disk
        (s.files.insert file ⟨c, readers⟩) s.memoryUsed (openCount_readers opened readers)
        (fileCache_readers opened readers) entry.single entry.empty
        (by
          rintro file' step ⟨⟩
          exact ⟨opened, sound⟩) used ledger.within
      have nothing : s.pending c ≠ some .destroy := by
        rw [pending, found, Option.bind_some, unlocked]
        simp
      exact ⟨invariant.of_decode _ kept (pending_setCache c _) nothing (fun same => other (Option.some.inj same))
        (fun _ => rfl) invariant.disk, ledger.oldest_of_names _ fun _ _ _ => id⟩
  · trivial

/-! ## Decoding -/

section Decode

variable {c : Nat} {cache : SharedCache} {file : Nat} {step : DecodeStep}

theorem setCache_setCache (cache cache' : SharedCache) :
    (s.setCache c cache).setCache c cache' = s.setCache c cache' := by
  rw [setCache, setCache, setCache]
  simp only [Function.update_idem]

theorem listing_lock (found : s.cache c = some cache) (busy : cache.idle = false)
    (lock : Option (Nat × DecodeStep)) : (s.setCache c { cache with lock }).listing = s.listing := by
  rw [listing_setCache, busy]
  exact Function.update_eq_self_iff.mpr (listing_eq_none found busy).symm

theorem goOn_eq (found : s.cache c = some cache) (locked : cache.lock = some (file, step)) (next : DecodeStep) :
    s.goOn c next = some (s.setCache c { cache with lock := some (file, next) }) := by
  rw [goOn, found]
  dsimp only
  rw [locked]
  rfl

theorem Ledger.next_step {table : Nat → Option Nat} (ledger : Ledger limits s table)
    (found : s.cache c = some cache) (locked : cache.lock = some (file, step)) (next : DecodeStep)
    (memoryUsed : Nat) (sound : next.Sound limits cache)
    (used : memoryUsed + (if step.reserved then cache.size else 0) =
      s.memoryUsed + if next.reserved then cache.size else 0)
    (within : memoryUsed ≤ limits.memoryTotalLimit) :
    Ledger limits { s.setCache c { cache with lock := some (file, next) } with memoryUsed := memoryUsed } table := by
  have entry := ledger.entry c cache found
  obtain ⟨opened, -⟩ := entry.decoding file step locked
  have spent : memoryUsed + charge (some cache) =
      s.memoryUsed + charge (some { cache with lock := some (file, next) }) := by
    change memoryUsed + (cache.resident + cache.reservation) =
      s.memoryUsed + (cache.resident + if next.reserved then cache.size else 0)
    rw [SharedCache.reservation, locked]
    dsimp only
    omega
  exact ledger.advance found (ledger.busy_of_opened found opened).2 (some (file, next)) cache.state
    cache.memory cache.disk s.files memoryUsed (fun _ => rfl) (fun _ => rfl) entry.single entry.empty
    (by
      rintro file' step' ⟨⟩
      exact ⟨opened, sound⟩) spent within

variable (invariant : Invariant limits s) (found : s.cache c = some cache) (locked : cache.lock = some (file, step))

include invariant found locked

theorem reservation_le : (if step.reserved then cache.size else 0) ≤ s.memoryUsed := by
  have resident := invariant.ledger.resident_le found
  change cache.resident + cache.reservation ≤ _ at resident
  rw [SharedCache.reservation, locked] at resident
  exact Nat.le_trans (Nat.le_add_left ..) resident

theorem goOn_keeps (next : DecodeStep) (memoryUsed : Nat) (sound : next.Sound limits cache)
    (used : memoryUsed + (if step.reserved then cache.size else 0) =
      s.memoryUsed + if next.reserved then cache.size else 0)
    (within : memoryUsed ≤ limits.memoryTotalLimit) (before : step ≠ .destroy) (after : next ≠ .destroy) :
    Effect.Keeps limits s (.of ({ s with memoryUsed := memoryUsed }.goOn c next)) := by
  have ledger := invariant.ledger
  have kept := ledger.next_step found locked next memoryUsed sound used within
  have pending : s.pending c ≠ some .destroy := by
    rw [CacheSystem.pending, found, Option.bind_some, locked]
    exact fun same => before (Option.some.inj same)
  rw [goOn_eq (s := { s with memoryUsed := memoryUsed }) found locked]
  exact ⟨invariant.of_decode _ kept (pending_setCache c _) pending (fun same => after (Option.some.inj same))
    (fun _ => rfl) invariant.disk, ledger.oldest_of_names _ fun _ _ _ => id⟩

theorem goOn_keeps_same (next : DecodeStep) (sound : next.Sound limits cache) (same : next.reserved = step.reserved)
    (before : step ≠ .destroy) (after : next ≠ .destroy) : Effect.Keeps limits s (.of (s.goOn c next)) :=
  goOn_keeps invariant found locked next s.memoryUsed sound (by rw [same]) invariant.ledger.within before after

theorem goOn_keeps_refund (next : DecodeStep) (sound : next.Sound limits cache) (reserved : step.reserved = true)
    (refunded : next.reserved = false) (before : step ≠ .destroy) (after : next ≠ .destroy) :
    Effect.Keeps limits s (.of ({ s with memoryUsed := sub64 s.memoryUsed cache.size }.goOn c next)) := by
  have enough := reservation_le invariant found locked
  rw [if_pos reserved] at enough
  have within := invariant.ledger.within
  have given_back : sub64 s.memoryUsed cache.size = s.memoryUsed - cache.size :=
    sub64_eq enough (Nat.lt_of_le_of_lt within limits.memory_fits)
  rw [given_back]
  apply goOn_keeps invariant found locked next (s.memoryUsed - cache.size) sound _ (by omega) before after
  rw [if_pos reserved, refunded]
  exact Nat.sub_add_cancel enough

theorem reserve_keeps (at_step : step = .reserve) (answer : Bool) :
    Effect.Keeps limits s (.of (s.decodeStep limits c cache file answer .reserve)) := by
  subst at_step
  obtain ⟨empty, fits⟩ := ((invariant.ledger.entry c cache found).decoding file _ locked).2
  rw [decodeStep]
  split_ifs with full
  · exact goOn_keeps_same invariant found locked .evict ⟨empty, fits⟩ rfl nofun nofun
  · exact goOn_keeps_same invariant found locked (.exchange s.memoryUsed) ⟨empty, by omega⟩ rfl nofun nofun

theorem exchange_keeps {used : Nat} (at_step : step = .exchange used) (answer : Bool) :
    Effect.Keeps limits s (.of (s.decodeStep limits c cache file answer (.exchange used))) := by
  subst at_step
  obtain ⟨empty, fits⟩ := ((invariant.ledger.entry c cache found).decoding file _ locked).2
  rw [decodeStep]
  split_ifs with unchanged
  · subst unchanged
    have raised : add64 s.memoryUsed cache.size = s.memoryUsed + cache.size :=
      add64_eq (Nat.lt_of_le_of_lt fits limits.memory_fits)
    rw [raised]
    exact goOn_keeps invariant found locked .allocate (s.memoryUsed + cache.size) empty rfl fits nofun nofun
  · exact goOn_keeps_same invariant found locked .reserve ⟨empty, by omega⟩ rfl nofun nofun

theorem allocate_keeps (at_step : step = .allocate) (answer : Bool) :
    Effect.Keeps limits s (.of (s.decodeStep limits c cache file answer .allocate)) := by
  subst at_step
  have empty : cache.state = .empty := ((invariant.ledger.entry c cache found).decoding file _ locked).2
  rw [decodeStep]
  split_ifs with allocated
  · exact goOn_keeps_same invariant found locked (.fill true false) ⟨empty, rfl⟩ rfl nofun nofun
  · exact goOn_keeps_refund invariant found locked .create empty rfl rfl nofun nofun

theorem create_step_keeps (at_step : step = .create) (answer : Bool) :
    Effect.Keeps limits s (.of (s.decodeStep limits c cache file answer .create)) := by
  subst at_step
  have empty : cache.state = .empty := ((invariant.ledger.entry c cache found).decoding file _ locked).2
  rw [decodeStep]
  split_ifs with created
  · exact goOn_keeps_same invariant found locked (.fill false true) ⟨empty, rfl⟩ rfl nofun nofun
  · exact goOn_keeps_same invariant found locked (.unlock false) trivial rfl nofun nofun

theorem fill_keeps {memory disk : Bool} (at_step : step = .fill memory disk) (answer : Bool) :
    Effect.Keeps limits s (.of (s.decodeStep limits c cache file answer (.fill memory disk))) := by
  subst at_step
  have ledger := invariant.ledger
  have entry := ledger.entry c cache found
  obtain ⟨opened, empty, single⟩ := entry.decoding file _ locked
  rw [decodeStep]
  by_cases filled : answer = true
  · have spent : s.memoryUsed + charge (some cache) = s.memoryUsed + charge (some { cache with
        lock := some (file, .unlock true), state := if disk then .disk else .memory, memory, disk }) := by
      change s.memoryUsed + (cache.resident + cache.reservation) =
        s.memoryUsed + ((if memory then cache.size else 0) + 0)
      rw [SharedCache.resident, (entry.empty empty).1, SharedCache.reservation, locked,
        if_neg Bool.false_ne_true, Nat.zero_add]
      rfl
    have kept := ledger.advance found (ledger.busy_of_opened found opened).2 (some (file, .unlock true))
      (if disk then .disk else .memory) memory disk s.files s.memoryUsed (fun _ => rfl) (fun _ => rfl) single
      (fun still => by split_ifs at still)
      (by
        rintro file' step' ⟨⟩
        exact ⟨opened, trivial⟩) spent ledger.within
    have pending : s.pending c ≠ some .destroy := by
      rw [CacheSystem.pending, found, Option.bind_some, locked]
      simp
    let stored : SharedCache := { cache with memory, disk, state := if disk then .disk else .memory }
    have still : (s.setCache c stored).cache c = some stored := Function.update_self ..
    rw [if_pos filled, goOn_eq still locked, setCache_setCache]
    exact ⟨invariant.of_decode _ kept (pending_setCache c _) pending (by simp) (fun _ => rfl) invariant.disk,
      ledger.oldest_of_names _ fun _ _ _ => id⟩
  · rw [if_neg filled]
    by_cases reserved : memory = true
    · rw [if_pos reserved]
      exact goOn_keeps_refund invariant found locked (.unlock false) trivial reserved rfl (by simp) (by simp)
    · rw [if_neg reserved]
      exact goOn_keeps_same invariant found locked (.unlock false) trivial
        (Bool.eq_false_iff.mpr reserved).symm (by simp) (by simp)

theorem unlock_keeps {result : Bool} (at_step : step = .unlock result) (answer : Bool) :
    Effect.Keeps limits s (.of (s.decodeStep limits c cache file answer (.unlock result))) := by
  subst at_step
  have ledger := invariant.ledger
  have entry := ledger.entry c cache found
  obtain ⟨opened, -⟩ := entry.decoding file _ locked
  cases here : s.files.lookup file with
  | none =>
      rw [fileCache, here] at opened
      cases opened
  | some shown =>
      obtain ⟨d, readers⟩ := shown
      obtain rfl : d = c := by
        rw [fileCache, here] at opened
        exact Option.some.inj opened
      have spent : s.memoryUsed + charge (some cache) = s.memoryUsed + charge (some { cache with lock := none }) := by
        change s.memoryUsed + (cache.resident + cache.reservation) = s.memoryUsed + (cache.resident + 0)
        rw [SharedCache.reservation, locked]
        rfl
      have kept := ledger.advance found (ledger.busy_of_opened found opened).2 none cache.state cache.memory
        cache.disk (s.files.insert file ⟨d, readers + if result then 1 else 0⟩) s.memoryUsed
        (openCount_readers opened _) (fileCache_readers opened _) entry.single entry.empty (by simp) spent ledger.within
      have pending : s.pending d ≠ some .destroy := by
        rw [CacheSystem.pending, found, Option.bind_some, locked]
        simp
      have still : (s.setCache d { cache with lock := none }).files.lookup file = some ⟨d, readers⟩ := here
      rw [decodeStep]
      simp only [still]
      exact ⟨invariant.of_decode _ kept (pending_setCache d _) pending (by simp) (fun _ => rfl) invariant.disk,
        ledger.oldest_of_names _ fun _ _ _ => id⟩

theorem evict_keeps (at_step : step = .evict) (answer : Bool) :
    Effect.Keeps limits s (.of (s.decodeStep limits c cache file answer .evict)) := by
  subst at_step
  have ledger := invariant.ledger
  obtain ⟨opened, empty, fits⟩ := (ledger.entry c cache found).decoding file _ locked
  have create : Effect.Keeps limits s (.of (s.goOn c .create)) :=
    goOn_keeps_same invariant found locked .create empty rfl (by simp) (by simp)
  have here : s.pending c = some .evict := by
    rw [CacheSystem.pending, found, Option.bind_some, locked]
    rfl
  have room : s.unused (.decode c) = none := by
    by_contra busy
    rw [invariant.victims c |>.mp busy] at here
    cases here
  rw [decodeStep, evictOldest]
  cases oldest : (s.idle .memory).ends.oldest with
  | none => exact create
  | some victim =>
      dsimp only
      split_ifs with enough
      · obtain ⟨s', evicts, kept, evicted, unused, listing, listed⟩ :=
          ledger.idleEvict (.decode c) (fun _ _ => room) oldest
        have busy := (ledger.busy_of_opened found opened).2
        have found' : s'.cache c = some cache := evicted.decodes c cache found busy
        rw [evicts]
        dsimp only
        rw [goOn_eq found' locked]
        refine ⟨⟨?_, fun k => ?_, ?_⟩, ?_⟩
        · exact kept.next_step found' locked .destroy s'.memoryUsed ⟨empty, fits⟩ rfl kept.within
        · rw [pending_setCache]
          change s'.unused (.decode k) ≠ none ↔ _
          rw [unused]
          by_cases same : k = c
          · subst same
            rw [Function.update_self, Function.update_self]
            exact iff_of_true (Option.some_ne_none _) rfl
          · have other : Holder.decode k ≠ .decode c := fun equal => same (Holder.decode.inj equal)
            rw [Function.update_of_ne other, Function.update_of_ne same, evicted.pending, invariant.victims]
        · exact Nat.le_trans (Nat.le_of_eq (evicted.others .disk (by decide))) invariant.disk
        · intro b a d n m shown unnamed there
          rw [listing_lock found' busy] at there
          exact evicted.oldestFirst kept b a d n m shown unnamed there
      · exact create

theorem destroy_keeps (at_step : step = .destroy) (answer : Bool) :
    Effect.Keeps limits s (.of (s.decodeStep limits c cache file answer .destroy)) := by
  subst at_step
  have ledger := invariant.ledger
  obtain ⟨opened, empty, fits⟩ := (ledger.entry c cache found).decoding file _ locked
  obtain ⟨used, busy⟩ := ledger.busy_of_opened found opened
  have here : s.pending c = some .destroy := by
    rw [CacheSystem.pending, found, Option.bind_some, locked]
    rfl
  obtain ⟨victim, head⟩ := Option.ne_none_iff_exists'.mp (invariant.victims c |>.mpr here)
  obtain ⟨chains, held⟩ := ledger.chains
  obtain ⟨doomed, victim_found, unreferenced, -⟩ := held.spare_of_unused head
  obtain ⟨-, -, unlocked⟩ := ledger.spare_alone victim_found (held.spare_of_unused head)
  have other : c ≠ victim := by
    rintro rfl
    rw [found] at victim_found
    cases victim_found
    exact absurd unreferenced (Nat.ne_of_gt used)
  have kept := ledger.destroy head victim_found
  rw [held.newer_of_decode head] at kept
  rw [decodeStep, destroyVictim, head]
  dsimp only
  rw [cacheDestroy, victim_found]
  dsimp only
  generalize destroyed : ({ s with
    cache := Function.update s.cache victim none
    memoryUsed := if doomed.memory then sub64 s.memoryUsed doomed.size else s.memoryUsed
    destroyed := s.destroyed ++ [victim]
    unused := Function.update s.unused (.decode c) none } : CacheSystem) = s' at kept ⊢
  have found' : s'.cache c = some cache := by
    rw [← destroyed]
    exact (Function.update_of_ne other ..).trans found
  have pending : s'.pending = s.pending := pending_destroyed victim_found unlocked s' (by rw [← destroyed])
  have lookup : s'.lookup = s.lookup := by rw [← destroyed]; rfl
  have unused : s'.unused = Function.update s.unused (.decode c) none := by rw [← destroyed]
  have disk : s'.idle = s.idle := by rw [← destroyed]
  rw [← lookup] at kept
  rw [goOn_eq found' locked]
  refine ⟨⟨?_, fun k => ?_, ?_⟩, ?_⟩
  · exact kept.next_step found' locked .reserve s'.memoryUsed ⟨empty, fits⟩ rfl kept.within
  · rw [pending_setCache]
    change s'.unused (.decode k) ≠ none ↔ _
    rw [unused]
    by_cases same : k = c
    · subst same
      rw [Function.update_self, Function.update_self]
      exact iff_of_false (not_not.mpr rfl) (by simp)
    · have different : Holder.decode k ≠ .decode c := fun equal => same (Holder.decode.inj equal)
      rw [Function.update_of_ne different, Function.update_of_ne same, pending, invariant.victims]
  · change (s'.idle .disk).bytes ≤ _
    rw [disk]
    exact invariant.disk
  · apply ledger.oldest_of_names
    intro identity d _ named
    change s'.lookup identity = some d
    rw [lookup]
    exact named

end Decode

theorem decode_keeps (invariant : Invariant limits s) (c : Nat) (answer : Bool) :
    (s.decode limits c answer).Keeps limits s := by
  rw [decode]
  cases found : s.cache c with
  | none => trivial
  | some cache =>
      dsimp only
      cases locked : cache.lock with
      | none => trivial
      | some lock =>
          obtain ⟨file, step⟩ := lock
          cases step with
          | reserve => exact reserve_keeps invariant found locked rfl answer
          | exchange used => exact exchange_keeps invariant found locked rfl answer
          | evict => exact evict_keeps invariant found locked rfl answer
          | destroy => exact destroy_keeps invariant found locked rfl answer
          | allocate => exact allocate_keeps invariant found locked rfl answer
          | create => exact create_step_keeps invariant found locked rfl answer
          | fill memory disk => exact fill_keeps invariant found locked rfl answer
          | unlock result => exact unlock_keeps invariant found locked rfl answer

/-! ## Every run -/

theorem act_keeps (invariant : Invariant limits s) (turn : Turn) : (s.act limits turn).Keeps limits s := by
  cases turn with
  | openFile file identity size memory => exact openFile_keeps invariant file identity size memory
  | readFile file => exact readFile_keeps invariant file
  | lockCache file => exact lockCache_keeps invariant file
  | decode c answer => exact decode_keeps invariant c answer
  | finishRead file => exact finishRead_keeps invariant file
  | closeFile thread file => exact closeFile_keeps invariant thread file
  | dropCaches thread order => exact dropCaches_keeps invariant thread order
  | destroyNext thread => exact destroyNext_keeps invariant thread

theorem invariant_init (limits : CacheLimits) : Invariant limits cacheSystemInit where
  ledger := {
    entry := nofun
    named := nofun
    opened := nofun
    idle := ⟨fun _ => [], {
      linked := fun _ => ⟨trivial, rfl, rfl, List.nodup_nil⟩
      listed := fun _ _ => ⟨nofun, nofun⟩
      bytes := fun _ => rfl
      fits := fun _ => Nat.pow_pos Nat.two_pos
      ordered := fun _ => .nil
      past := nofun }⟩
    chains := ⟨fun _ => [], {
      follows := fun _ => rfl
      nodup := fun _ => List.nodup_nil
      apart := nofun
      spare := fun _ => ⟨nofun, nofun⟩
      short := fun _ => Nat.zero_le _ }⟩
    used := rfl
    within := Nat.zero_le _
    once := List.nodup_nil
    ended := fun _ => ⟨nofun, nofun⟩ }
  victims _ := ⟨fun busy => absurd rfl busy, nofun⟩
  disk := Nat.zero_le _

theorem Reachable.invariant (reachable : Reachable limits s) : Invariant limits s := by
  induction reachable with
  | refl => exact invariant_init limits
  | tail _ step ih =>
      obtain ⟨turn, taken⟩ := step
      have keeps := act_keeps ih turn
      rw [taken] at keeps
      exact keeps.1

end Yafsml.Vfs.CacheSystem
