import Yafsml.Vfs.CacheDecodes

/-!
# The accounts of the caches

What the ledger says of every state that threads can reach, in terms of the state alone.
-/

namespace Yafsml.Vfs.CacheSystem

open DoublyLinked

def Waiting (s : CacheSystem) (holder : Holder) (c : Nat) : Prop :=
  ∃ chain, Follows s.links.newer (s.unused holder) chain ∧ c ∈ chain

def sizeAt (s : CacheSystem) (c : Nat) : Nat := ((s.cache c).map SharedCache.size).getD 0

/-- The idle list is one of the caches in the table that no file uses. -/
structure IdleListed (s : CacheSystem) (b : Backend) (items : List Nat) : Prop where
  linked : Linked s.links (s.idle b).ends items
  unused : ∀ c, c ∈ items ↔ ∃ cache, s.cache c = some cache ∧ s.lookup cache.identity = some c ∧
    cache.references = 0 ∧ cache.backend = b
  bytes : (s.idle b).bytes = (items.map s.sizeAt).sum
  ordered : items.Pairwise fun a c => s.released a < s.released c

structure Accounted (limits : CacheLimits) (s : CacheSystem) : Prop where
  safe : ∀ turn, s.act limits turn ≠ .fault
  memory : s.memoryUsed = ∑ c ∈ Finset.range s.allocated, residentSize (s.cache c) +
    ∑ c ∈ Finset.range s.allocated, reservedSize (s.cache c)
  budget : s.memoryUsed ≤ limits.memoryTotalLimit
  idle : ∀ b, ∃ items, IdleListed s b items
  disk : (s.idle .disk).bytes ≤ limits.idleDiskLimit
  references : ∀ c cache, s.cache c = some cache → cache.references = openCount s.files c
  detached : ∀ c cache, s.cache c = some cache → cache.detached = true →
    (∀ identity, s.lookup identity ≠ some c) ∧ ∀ b items, IdleListed s b items → c ∉ items
  once : s.destroyed.Nodup
  last : ∀ c ∈ s.destroyed, openCount s.files c = 0 ∧ ∀ identity, s.lookup identity ≠ some c
  remaining : ∀ c < s.allocated, c ∉ s.destroyed → ∃ cache, s.cache c = some cache ∧
    (0 < cache.references ∨ s.lookup cache.identity = some c ∨ ∃! holder, s.Waiting holder c)
  destroys : ∀ holder c, s.unused holder = some c →
    ∃ turn s', s.act limits turn = .next s' ∧ s'.destroyed = s.destroyed ++ [c]
  oldest : ∀ turn s', s.act limits turn = .next s' → OldestFirst s s'

variable {limits : CacheLimits} {s : CacheSystem}

theorem Invariant.idleListed (invariant : Invariant limits s) (b : Backend) : ∃ items, IdleListed s b items := by
  have ledger := invariant.ledger
  obtain ⟨items, lists⟩ := ledger.idle
  refine ⟨items b, lists.linked b, fun c => ?_, ?_, lists.ordered b⟩
  · rw [lists.listed]
    constructor
    · rintro ⟨size, listed⟩
      obtain ⟨cache, found, idle, backend, -⟩ := idle_of_listed listed
      obtain ⟨named, unreferenced⟩ := (ledger.entry c cache found).idle.mp idle
      exact ⟨cache, found, named, unreferenced, backend⟩
    · rintro ⟨cache, found, named, unreferenced, rfl⟩
      have idle := (ledger.entry c cache found).idle.mpr ⟨named, unreferenced⟩
      exact ⟨cache.size, listing_of_idle found idle⟩
  · rw [lists.bytes b]
    congr 1
    apply List.map_congr_left
    intro c member
    obtain ⟨size, listed⟩ := (lists.listed b c).mp member
    obtain ⟨cache, found, -, -, rfl⟩ := idle_of_listed listed
    rw [listed, sizeAt, found]
    rfl

theorem Invariant.remaining (invariant : Invariant limits s) {c : Nat} (known : c < s.allocated)
    (still : c ∉ s.destroyed) : ∃ cache, s.cache c = some cache ∧
      (0 < cache.references ∨ s.lookup cache.identity = some c ∨ ∃! holder, s.Waiting holder c) := by
  have ledger := invariant.ledger
  obtain ⟨cache, found⟩ : ∃ cache, s.cache c = some cache := by
    apply Option.ne_none_iff_exists'.mp
    exact fun gone => still ((ledger.ended c).mpr ⟨known, gone⟩)
  refine ⟨cache, found, ?_⟩
  by_cases used : 0 < cache.references
  · exact .inl used
  have unused : cache.references = 0 := Nat.eq_zero_of_not_pos used
  by_cases idle : cache.idle = true
  · exact .inr (.inl ((ledger.entry c cache found).idle.mp idle).1)
  · obtain ⟨chains, held⟩ := ledger.chains
    obtain ⟨holder, member⟩ := (held.spare c).mp ⟨cache, found, unused, Bool.eq_false_iff.mpr idle⟩
    refine .inr (.inr ⟨holder, ⟨chains holder, held.follows holder, member⟩, ?_⟩)
    rintro other ⟨chain, follows, member'⟩
    rw [follows.unique (held.follows other)] at member'
    exact held.apart other holder c member' member

theorem Invariant.destroys (invariant : Invariant limits s) {holder : Holder} {c : Nat}
    (head : s.unused holder = some c) :
    ∃ turn s', s.act limits turn = .next s' ∧ s'.destroyed = s.destroyed ++ [c] := by
  have ledger := invariant.ledger
  obtain ⟨cache, found, unlocked⟩ := ledger.destroyed_pending head
  cases holder with
  | thread thread =>
      have taken : s.act limits (.destroyNext thread) = .next { s with
          cache := Function.update s.cache c none
          memoryUsed := if cache.memory then sub64 s.memoryUsed cache.size else s.memoryUsed
          destroyed := s.destroyed ++ [c]
          unused := Function.update s.unused (.thread thread) (s.links.newer c) } := by
        rw [act, destroyNext, head]
        dsimp only
        rw [cacheDestroy, found]
      exact ⟨_, _, taken, rfl⟩
  | decode k =>
      have here := (invariant.victims k).mp (by rw [head]; exact Option.some_ne_none c)
      obtain ⟨cache', found', locks⟩ := Option.bind_eq_some_iff.mp here
      obtain ⟨⟨file, step⟩, locked, at_step⟩ := Option.map_eq_some_iff.mp locks
      obtain rfl : step = .destroy := at_step
      have other : k ≠ c := by
        rintro rfl
        rw [found] at found'
        cases found'
        rw [unlocked] at locked
        cases locked
      let s₁ : CacheSystem := { s with
        cache := Function.update s.cache c none
        memoryUsed := if cache.memory then sub64 s.memoryUsed cache.size else s.memoryUsed
        destroyed := s.destroyed ++ [c]
        unused := Function.update s.unused (.decode k) none }
      have still : s₁.cache k = some cache' := (Function.update_of_ne other ..).trans found'
      have taken : s.act limits (.decode k true) = .next (s₁.setCache k { cache' with lock := some (file, .reserve) }) := by
        rw [act, decode, found']
        dsimp only
        rw [locked]
        dsimp only
        rw [decodeStep, destroyVictim, head]
        dsimp only
        rw [cacheDestroy, found]
        exact congrArg Effect.of (goOn_eq still locked .reserve)
      exact ⟨_, _, taken, rfl⟩

theorem Invariant.safe (invariant : Invariant limits s) (turn : Turn) : s.act limits turn ≠ .fault := by
  intro faults
  have keeps := act_keeps invariant turn
  rw [faults] at keeps
  exact keeps

/-- The caches, their lists and the memory budget in every run. -/
theorem caches_accounted (limits : CacheLimits) {s : CacheSystem} (reachable : Reachable limits s) :
    Accounted limits s := by
  have invariant := reachable.invariant
  have ledger := invariant.ledger
  refine ⟨invariant.safe, ?_, ledger.within, invariant.idleListed, invariant.disk, ?_, ?_, ledger.once, ?_,
    fun c => invariant.remaining, fun holder c => invariant.destroys, ?_⟩
  · rw [ledger.used, charged, ← Finset.sum_add_distrib]
    rfl
  · exact fun c cache found => (ledger.entry c cache found).counted
  · intro c cache found detached
    have unnamed : ∀ identity, s.lookup identity ≠ some c := by
      intro identity named
      exact (ledger.entry c cache found).detached detached (ledger.name found named ▸ named)
    refine ⟨unnamed, fun b items listed member => ?_⟩
    obtain ⟨other, -, named, -⟩ := (listed.unused c).mp member
    exact unnamed _ named
  · intro c gone
    have nothing := ((ledger.ended c).mp gone).2
    constructor
    · apply openCount_eq_zero
      intro file opened
      obtain ⟨cache, found⟩ := ledger.opened file c opened
      rw [nothing] at found
      cases found
    · intro identity named
      obtain ⟨cache, found, -⟩ := ledger.named identity c named
      rw [nothing] at found
      cases found
  · intro turn s' taken
    have keeps := act_keeps invariant turn
    rw [taken] at keeps
    exact keeps.2

def run (limits : CacheLimits) : List Turn → CacheSystem → Option CacheSystem
  | [], s => some s
  | turn :: rest, s =>
      match s.act limits turn with
      | .next s => run limits rest s
      | _ => none

theorem run_reachable {turns : List Turn} {start final : CacheSystem} (reachable : Reachable limits start)
    (ran : run limits turns start = some final) : Reachable limits final := by
  induction turns generalizing start with
  | nil =>
      cases ran
      exact reachable
  | cons turn rest ih =>
      rw [run] at ran
      split at ran
      · rename_i next taken
        exact ih (.tail reachable ⟨turn, taken⟩) ran
      · cases ran

private def hundredBytes : CacheLimits := ⟨⟨100, 100, 100⟩, by decide, by decide⟩

private def memoryFound : AcquireMemory := ⟨true, true, true⟩

/-- A thread reads a whole file, in memory when nothing is to be evicted. -/
private def reads (file identity size : Nat) (answers : List Bool) : List Turn :=
  [.openFile file identity size memoryFound, .readFile file, .lockCache file] ++
    answers.map (.decode identity) ++ [.finishRead file]

/-- Sixty idle bytes make room for sixty others. -/
theorem caches_accounted_evicted : ∃ s, run hundredBytes
      (reads 0 0 60 [true, true, true, true, true] ++ [.closeFile 0 0] ++
        reads 1 1 60 [true, true, true, true, true, true, true, true]) cacheSystemInit = some s ∧
    s.destroyed = [0] ∧ s.memoryUsed = 60 ∧ Accounted hundredBytes s := by
  have ran : ((run hundredBytes (reads 0 0 60 [true, true, true, true, true] ++ [.closeFile 0 0] ++
      reads 1 1 60 [true, true, true, true, true, true, true, true]) cacheSystemInit).map fun s =>
        (s.destroyed, s.memoryUsed)) = some ([0], 60) := by decide +kernel
  obtain ⟨s, ran, outcome⟩ := Option.map_eq_some_iff.mp ran
  obtain ⟨destroyed, used⟩ := Prod.mk.inj outcome
  exact ⟨s, ran, destroyed, used, caches_accounted hundredBytes (run_reachable .refl ran)⟩

end Yafsml.Vfs.CacheSystem
