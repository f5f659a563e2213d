import Mathlib.Algebra.GroupWithZero.Nat
import Mathlib.Logic.Relation
import Yafsml.Foundation.DoublyLinked
import Yafsml.Vfs.File

/-!
# Decoded caches under threads

The caches of `vfs_file.c` for threads that take turns. A turn is a section under `cache_lock` or an
interlocked operation, with the thread's own work around it. What a cache holds is the matter of
`File.lean`; here `memory` and `disk` tell whether it holds anything, and the idle lists are pointers.

A thread that reads through a file is counted by the file or, once it has the lock of the cache, is in the
cache's `lock`. The caches a thread has taken out of the table and not yet destroyed are its `unused`.
-/

namespace Yafsml.Vfs

open DoublyLinked

inductive Backend
  | memory
  | disk
deriving DecidableEq

/-- What the thread with `cache->lock` does next. -/
inductive DecodeStep
  | reserve
  | exchange (used : Nat)
  | evict
  | destroy
  | allocate
  | create
  | fill (memory disk : Bool)
  | unlock (result : Bool)
deriving DecidableEq

/-- `vfs_cache_t`; `lock` is the file through which the thread with the lock reads, and its next step. -/
structure SharedCache where
  identity : Nat
  size : Nat
  lock : Option (Nat × DecodeStep)
  state : CacheState
  memory : Bool
  disk : Bool
  references : Nat
  idle : Bool
  detached : Bool

/-- Which of the two lists `idle_list` returns. -/
def SharedCache.backend (cache : SharedCache) : Backend := if cache.memory then .memory else .disk

/-- `idle_list_t`. -/
structure IdlePointers where
  ends : Ends Nat
  bytes : Nat

structure SharedFile where
  cache : Nat
  readers : Nat

/-- A thread outside a decode, or the one that decodes a cache. -/
inductive Holder
  | thread (id : Nat)
  | decode (cache : Nat)
deriving DecidableEq

structure CacheLimits extends Limits where
  memory_fits : memoryTotalLimit < 2 ^ 64
  disk_fits : idleDiskLimit < 2 ^ 63

/-- The values `vfs_file.c` starts with. -/
def vfsFileLimits : CacheLimits where
  memoryFileLimit := 32 * 1024 * 1024
  memoryTotalLimit := 128 * 1024 * 1024
  idleDiskLimit := 1024 * 1024 * 1024
  memory_fits := by decide
  disk_fits := by decide

/-- `links` are the fields `older` and `newer`. The last three fields are history: when a cache last became
idle, and which caches `cache_destroy` was called for. -/
structure CacheSystem where
  cache : Nat → Option SharedCache
  links : Links Nat
  allocated : Nat
  table : Option (AList fun _ : Nat => Nat)
  idle : Backend → IdlePointers
  memoryUsed : Nat
  files : AList fun _ : Nat => SharedFile
  unused : Holder → Option Nat
  clock : Nat
  released : Nat → Nat
  destroyed : List Nat

def cacheSystemInit : CacheSystem where
  cache _ := none
  links := ⟨fun _ => none, fun _ => none⟩
  allocated := 0
  table := none
  idle _ := ⟨⟨none, none⟩, 0⟩
  memoryUsed := 0
  files := ∅
  unused _ := none
  clock := 0
  released _ := 0
  destroyed := []

/-- Additions and subtractions of `uint64_t`, and of `LONG64` by its bits. -/
def add64 (a b : Nat) : Nat := (a + b) % 2 ^ 64

def sub64 (a b : Nat) : Nat := (a + (2 ^ 64 - b)) % 2 ^ 64

theorem add64_eq {a b : Nat} (fits : a + b < 2 ^ 64) : add64 a b = a + b := Nat.mod_eq_of_lt fits

theorem sub64_eq {a b : Nat} (within : b ≤ a) (fits : a < 2 ^ 64) : sub64 a b = a - b := by
  have shifted : a + (2 ^ 64 - b) = (a - b) + 2 ^ 64 := by omega
  rw [sub64, shifted, Nat.add_mod_right, Nat.mod_eq_of_lt (by omega)]

namespace CacheSystem

variable (limits : CacheLimits) (s : CacheSystem)

/-! ## Under `cache_lock`

`none` is an access through a null pointer or to a cache that was freed. -/

def setCache (c : Nat) (cache : SharedCache) : CacheSystem :=
  { s with cache := Function.update s.cache c (some cache) }

def lookup (identity : Nat) : Option Nat := s.table.bind fun table => table.lookup identity

def live (c : Nat) : Bool := (s.cache c).isSome

def idleUnlink (c : Nat) : Option CacheSystem :=
  match s.cache c with
  | none => none
  | some cache =>
      let list := s.idle cache.backend
      if (s.links.older c).all s.live && (s.links.newer c).all s.live then
        let (links, ends) := unlink s.links list.ends c
        some { s.setCache c { cache with idle := false } with
          links
          idle := Function.update s.idle cache.backend ⟨ends, sub64 list.bytes cache.size⟩ }
      else none

def idlePush (c : Nat) : Option CacheSystem :=
  match s.cache c with
  | none => none
  | some cache =>
      let list := s.idle cache.backend
      if list.ends.newest.all s.live then
        let (links, ends) := push s.links list.ends c
        some { s.setCache c { cache with idle := true } with
          links
          idle := Function.update s.idle cache.backend ⟨ends, add64 list.bytes cache.size⟩
          released := Function.update s.released c s.clock
          clock := s.clock + 1 }
      else none

def cacheForget (c : Nat) : Option CacheSystem :=
  match s.cache c with
  | none => none
  | some cache => some { s with table := s.table.map fun table => table.erase cache.identity }

/-- `cache->newer = unused; unused = cache;` -/
def chain (holder : Holder) (c : Nat) : CacheSystem :=
  { s with
    links := s.links.setNewer (some c) (s.unused holder)
    unused := Function.update s.unused holder (some c) }

def idleEvict (holder : Holder) (c : Nat) : Option CacheSystem :=
  match s.idleUnlink c with
  | none => none
  | some s => (s.cacheForget c).map fun s => s.chain holder c

/-- The loop at the end of `cache_release`. -/
def trimIdleDisk (holder : Holder) : Nat → CacheSystem → Option CacheSystem
  | 0, _ => none
  | fuel + 1, s =>
      if limits.idleDiskLimit < (s.idle .disk).bytes then
        match (s.idle .disk).ends.oldest with
        | none => none
        | some oldest =>
            match s.idleEvict holder oldest with
            | none => none
            | some s => trimIdleDisk holder fuel s
      else some s

def cacheRelease (holder : Holder) (c : Nat) : Option CacheSystem :=
  match s.cache c with
  | none => none
  | some cache =>
      let cache := { cache with references := cache.references - 1 }
      let s := s.setCache c cache
      if cache.references ≠ 0 then some s
      else if !cache.detached && (cache.memory || (cache.disk && cache.size ≤ limits.idleDiskLimit)) then
        match s.idlePush c with
        | none => none
        | some s => trimIdleDisk limits holder (s.allocated + 1) s
      else if cache.detached then some (s.chain holder c)
      else (s.cacheForget c).map fun s => s.chain holder c

/-- `kh_put` may have to grow the table before it looks for the key. -/
def cacheAcquire (identity size : Nat) (memory : AcquireMemory) : Option (CacheSystem × Option Nat) :=
  match s.table.or (if memory.table then some ∅ else none) with
  | none => some (s, none)
  | some table =>
      let s := { s with table := some table }
      if !memory.put then some (s, none)
      else match table.lookup identity with
        | some c =>
            match s.cache c with
            | none => none
            | some cache =>
                match if cache.idle then s.idleUnlink c else some s with
                | none => none
                | some s =>
                    some (s.setCache c { cache with idle := false, references := cache.references + 1 }, some c)
        | none =>
            if !memory.cache then some (s, none)
            else
              let s := s.setCache s.allocated ⟨identity, size, none, .empty, false, false, 1, false, false⟩
              some ({ s with table := some (table.insert identity s.allocated), allocated := s.allocated + 1 },
                some s.allocated)

/-- The loop of `vfs_file_drop_caches` over the table it took. -/
def dropEach (holder : Holder) : List Nat → CacheSystem → Option CacheSystem
  | [], s => some s
  | c :: rest, s =>
      match s.cache c with
      | none => none
      | some cache =>
          if cache.idle then
            match s.idleUnlink c with
            | none => none
            | some s => dropEach holder rest (s.chain holder c)
          else dropEach holder rest (s.setCache c { cache with detached := true })

/-! ## Outside `cache_lock` -/

def cacheDestroy (c : Nat) : Option CacheSystem :=
  match s.cache c with
  | none => none
  | some cache => some { s with
      cache := Function.update s.cache c none
      memoryUsed := if cache.memory then sub64 s.memoryUsed cache.size else s.memoryUsed
      destroyed := s.destroyed ++ [c] }

/-- Where `cache_decode` starts. -/
def decodeStart (size : Nat) : DecodeStep :=
  if size = 0 then .fill false false
  else if limits.memoryFileLimit < size ∨ limits.memoryTotalLimit < size then .create
  else .reserve

/-- The thread with the lock of `c` goes on to another step. -/
def goOn (c : Nat) (step : DecodeStep) : Option CacheSystem :=
  match s.cache c with
  | none => none
  | some cache => some (s.setCache c { cache with lock := cache.lock.map fun lock => (lock.1, step) })

/-- The section under `cache_lock` in `reserve_memory`. -/
def evictOldest (c size : Nat) : Option CacheSystem :=
  let list := s.idle .memory
  match list.ends.oldest with
  | none => s.goOn c .create
  | some oldest =>
      if list.bytes ≤ s.memoryUsed ∧ s.memoryUsed - list.bytes ≤ limits.memoryTotalLimit - size then
        match s.idleEvict (.decode c) oldest with
        | none => none
        | some s => s.goOn c .destroy
      else s.goOn c .create

def destroyVictim (c : Nat) : Option CacheSystem :=
  match s.unused (.decode c) with
  | none => none
  | some victim =>
      match s.cacheDestroy victim with
      | none => none
      | some s => { s with unused := Function.update s.unused (.decode c) none }.goOn c .reserve

/-- One step of `cache_decode`; `answer` is what the allocator, the system or the archive says. -/
def decodeStep (c : Nat) (cache : SharedCache) (file : Nat) (answer : Bool) : DecodeStep → Option CacheSystem
  | .reserve =>
      if limits.memoryTotalLimit - cache.size < s.memoryUsed then s.goOn c .evict
      else s.goOn c (.exchange s.memoryUsed)
  | .exchange used =>
      if s.memoryUsed = used then { s with memoryUsed := add64 used cache.size }.goOn c .allocate
      else s.goOn c .reserve
  | .evict => s.evictOldest limits c cache.size
  | .destroy => s.destroyVictim c
  | .allocate =>
      if answer then s.goOn c (.fill true false)
      else { s with memoryUsed := sub64 s.memoryUsed cache.size }.goOn c .create
  | .create => if answer then s.goOn c (.fill false true) else s.goOn c (.unlock false)
  | .fill memory disk =>
      if answer then
        (s.setCache c { cache with memory, disk, state := if disk then .disk else .memory }).goOn c (.unlock true)
      else if memory then { s with memoryUsed := sub64 s.memoryUsed cache.size }.goOn c (.unlock false)
      else s.goOn c (.unlock false)
  | .unlock result =>
      let s := s.setCache c { cache with lock := none }
      match s.files.lookup file with
      | none => none
      | some opened =>
          some { s with
            files := s.files.insert file { opened with readers := opened.readers + if result then 1 else 0 } }

/-! ## Turns -/

inductive Effect
  | blocked
  | fault
  | next (s : CacheSystem)

def Effect.of : Option CacheSystem → Effect
  | none => .fault
  | some s => .next s

/-- `order` is the order of the slots of the table. -/
inductive Turn
  | openFile (file identity size : Nat) (memory : AcquireMemory)
  | readFile (file : Nat)
  | lockCache (file : Nat)
  | decode (c : Nat) (answer : Bool)
  | finishRead (file : Nat)
  | closeFile (thread file : Nat)
  | dropCaches (thread : Nat) (order : List Nat)
  | destroyNext (thread : Nat)

def openFile (file identity size : Nat) (memory : AcquireMemory) : Effect :=
  if (s.files.lookup file).isSome then .blocked
  else if 2 ^ 63 ≤ size then .next s
  else match s.cacheAcquire identity size memory with
    | none => .fault
    | some (s, none) => .next s
    | some (s, some c) => .next { s with files := s.files.insert file ⟨c, 0⟩ }

/-- A thread enters `vfs_file_read_at`. -/
def readFile (file : Nat) : Effect :=
  match s.files.lookup file with
  | none => .blocked
  | some opened => .next { s with files := s.files.insert file { opened with readers := opened.readers + 1 } }

/-- `cache_prepare` of a thread that reads through the file. -/
def lockCache (file : Nat) : Effect :=
  match s.files.lookup file with
  | some ⟨c, readers + 1⟩ =>
      match s.cache c with
      | none => .fault
      | some cache =>
          if cache.state ≠ .empty then .next s
          else if cache.lock.isSome then .blocked
          else .next { s.setCache c { cache with lock := some (file, decodeStart limits cache.size) } with
            files := s.files.insert file ⟨c, readers⟩ }
  | _ => .blocked

def decode (c : Nat) (answer : Bool) : Effect :=
  match s.cache c with
  | none => .blocked
  | some cache =>
      match cache.lock with
      | none => .blocked
      | some (file, step) => .of (s.decodeStep limits c cache file answer step)

def finishRead (file : Nat) : Effect :=
  match s.files.lookup file with
  | some ⟨c, readers + 1⟩ =>
      if s.live c then .next { s with files := s.files.insert file ⟨c, readers⟩ } else .fault
  | _ => .blocked

/-- A file is closed when no thread reads through it any more. -/
def closeFile (thread file : Nat) : Effect :=
  if (s.unused (.thread thread)).isSome then .blocked
  else match s.files.lookup file with
    | some ⟨c, 0⟩ =>
        match s.cache c with
        | none => .fault
        | some cache =>
            if cache.lock.any fun lock => lock.1 == file then .blocked
            else .of ({ s with files := s.files.erase file }.cacheRelease limits (.thread thread) c)
    | _ => .blocked

def dropCaches (thread : Nat) (order : List Nat) : Effect :=
  if (s.unused (.thread thread)).isSome then .blocked
  else match s.table with
    | none => .next s
    | some table =>
        if order.Perm (table.entries.map Sigma.snd) then
          .of (dropEach (.thread thread) order { s with table := none })
        else .blocked

/-- One round of `cache_destroy_chain`. -/
def destroyNext (thread : Nat) : Effect :=
  match s.unused (.thread thread) with
  | none => .blocked
  | some c =>
      let next := s.links.newer c
      match s.cacheDestroy c with
      | none => .fault
      | some s => .next { s with unused := Function.update s.unused (.thread thread) next }

def act : Turn → Effect
  | .openFile file identity size memory => s.openFile file identity size memory
  | .readFile file => s.readFile file
  | .lockCache file => s.lockCache limits file
  | .decode c answer => s.decode limits c answer
  | .finishRead file => s.finishRead file
  | .closeFile thread file => s.closeFile limits thread file
  | .dropCaches thread order => s.dropCaches thread order
  | .destroyNext thread => s.destroyNext thread

def Step (s s' : CacheSystem) : Prop := ∃ turn, s.act limits turn = .next s'

def Reachable : CacheSystem → Prop := Relation.ReflTransGen (Step limits) cacheSystemInit

end CacheSystem

end Yafsml.Vfs
