import Yafsml.Foundation.FiniteMap
import Yafsml.Foundation.Interleaving
import Yafsml.Vfs.Lookup

/-!
# The lookup caches

`vfs_lookup_domain` and `vfs_virtual_to_uid` with their caches, run by any number of threads against
the two functions that clear the caches. What a thread does under `lookup_cache_lock` is one turn.
-/

namespace Yafsml.Vfs
open Interleaving

inductive LookupDomain
  | virtual
  | diskWide
  | diskAnsi
  | wwise
deriving DecidableEq

/-- `lookup_caches[domain]` and `uid_cache`. -/
inductive CacheName
  | lookup (domain : LookupDomain)
  | uid
deriving DecidableEq

abbrev LookupCache := AList fun _ : WString => Option WString

structure Shared where
  vfs : State
  caches : CacheName → Option LookupCache
  generation : UInt64
  generationSequence : UInt64

/-- What `vfs_init` leaves, when `tables` tells which caches `kh_init` could allocate. -/
def Shared.init (vfs : State) (tables : CacheName → Bool) : Shared where
  vfs
  caches name := if tables name then some ∅ else none
  generation := 0
  generationSequence := 0

inductive Request
  | lookupDomain (path : WString) (domain : LookupDomain)
  | virtualToUid (path : WString)
deriving DecidableEq

namespace Request

def path : Request → WString
  | lookupDomain path _ => path
  | virtualToUid path => path

def cache : Request → CacheName
  | lookupDomain _ domain => .lookup domain
  | virtualToUid _ => .uid

def direct (s : State) : Request → Option WString
  | lookupDomain path _ => vfsUidToPath s path
  | virtualToUid _ => none

def read (entry : VfsEntry) : Request → Option WString
  | lookupDomain _ _ => vfsEntryReadPath entry
  | virtualToUid _ => some entry.uid

end Request

def clearLookupCache (caches : CacheName → Option LookupCache) : CacheName → Option LookupCache :=
  fun name => (caches name).map fun _ => ∅

/-- The locked part of `vfs_begin_lookup_reset`. -/
def vfsBeginLookupReset (s : Shared) : Shared :=
  { s with generation := 0, caches := clearLookupCache s.caches }

def vfsResetLookupCaches (s : Shared) : Shared :=
  { s with
    vfs := { s.vfs with frozen := true }
    caches := clearLookupCache s.caches
    generationSequence := s.generationSequence + 1
    generation := s.generationSequence + 1 }

/-- Where a thread is. The numbers are the `lookup_generation` it read; `returned` keeps whether the
buffers of `vfs_normalize_path` were allocated, if the call needed them. -/
inductive Thread
  | idle
  | entered (request : Request)
  | loading (request : Request)
  | probing (request : Request) (generation : UInt64)
  | missed (request : Request) (generation : UInt64)
  | computed (request : Request) (generation : UInt64) (result : Option WString)
  | returned (request : Request) (memory : Bool) (answer : Option WString)
  | resetting

structure LookupMemory where
  normalize : Bool
  cacheKey : Bool
  put : Bool

section Turn

variable (win : Windows)

def Shared.cached (s : Shared) (request : Request) : Option (Option WString) :=
  (s.caches request.cache).bind fun cache => cache.lookup request.path

def Shared.put (s : Shared) (request : Request) (result : Option WString) : Shared :=
  { s with
    caches := Function.update s.caches request.cache
      ((s.caches request.cache).map fun cache => cache.insert request.path result) }

def advance (memory : LookupMemory) (s : Shared) : Thread → Shared × Thread
  | .idle => (s, .idle)
  | .entered request =>
      if s.caches request.cache = none then (s, .returned request true none)
      else match request.direct s.vfs with
        | some result => (s, .returned request true (some result))
        | none => (s, .loading request)
  | .loading request =>
      if s.generation = 0 then (s, .missed request 0) else (s, .probing request s.generation)
  | .probing request generation =>
      match s.cached request with
      | some result => (s, .returned request true result)
      | none => (s, .missed request generation)
  | .missed request generation =>
      match if memory.normalize then vfsNormalizePath win request.path else none with
      | none => (s, .returned request memory.normalize none)
      | some key =>
          let entry := (s.vfs.index.lookup key).bind fun i => s.vfs.entries[i]?
          let result := entry.bind request.read
          if generation = 0 ∨ !memory.cacheKey then (s, .returned request true result)
          else (s, .computed request generation result)
  | .computed request generation result =>
      -- Another thread may have cleared the caches, or cached this path, in the meantime.
      if s.generation ≠ generation then (s, .returned request true result)
      else match s.cached request with
        | some found => (s, .returned request true found)
        | none => (if memory.put then s.put request result else s, .returned request true result)
  | .returned _ _ _ => (s, .idle)
  | .resetting => (vfsBeginLookupReset s, .idle)

inductive Move
  | lookup (request : Request)
  | beginLookupReset
  | resetLookupCaches
  | advance (memory : LookupMemory)

def act (move : Move) (s : Shared) (thread : Thread) : Option (Shared × Thread) :=
  match move, thread with
  | .lookup request, .idle => some (s, .entered request)
  | .beginLookupReset, .idle => some ({ s with vfs := { s.vfs with frozen := true } }, .resetting)
  | .resetLookupCaches, .idle => some (vfsResetLookupCaches s, .idle)
  | .advance memory, thread => some (advance win memory s thread)
  | _, _ => none

/-- Threads `ι`, none of them inside a call, over the VFS that the packages left. -/
def startLookups (ι : Type) (requests : List AddRequest) (tables : CacheName → Bool) :
    Config ι Shared Thread :=
  ⟨Shared.init (vfsAddPackages win vfsInit requests) tables, fun _ => .idle⟩

def Request.uncached (memory : Bool) (s : State) (request : Request) : Option WString :=
  match request with
  | lookupDomain path _ => vfsLookup win memory s path
  | virtualToUid path => vfsVirtualToUid win memory s path

/-! ## Cached answers are the index's answers -/

theorem Request.ext {request request' : Request} (cache : request.cache = request'.cache)
    (path : request.path = request'.path) : request = request' := by
  cases request <;> cases request' <;> simp_all [Request.cache, Request.path]

def Request.indexed (memory : Bool) (s : State) (request : Request) : Option WString :=
  (indexedEntry win memory s request.path).bind request.read

theorem Request.uncached_eq (memory : Bool) (s : State) (request : Request) :
    request.uncached win memory s = (request.direct s).or (request.indexed win memory s) := by
  cases request with
  | lookupDomain path domain => rfl
  | virtualToUid path =>
      unfold Request.uncached vfsVirtualToUid
      simp only [Request.direct, Request.indexed, Request.read, Request.path, Option.none_or]
      cases indexedEntry win memory s path <;> rfl

theorem Shared.cached_put (s : Shared) (request request' : Request) (result : Option WString) :
    (s.put request result).cached request' =
      if request' = request then (s.caches request.cache).map fun _ => result
      else s.cached request' := by
  unfold Shared.put Shared.cached
  by_cases same : request' = request
  · subst same
    cases s.caches request'.cache <;> simp
  · by_cases cache : request'.cache = request.cache
    · have path : request'.path ≠ request.path := fun path => same (Request.ext cache path)
      rw [cache]
      cases s.caches request.cache <;> simp [same, path]
    · simp [same, Function.update_of_ne cache]

theorem cached_clearLookupCache (s : Shared) (request : Request) :
    (clearLookupCache s.caches request.cache).bind (fun cache => cache.lookup request.path) =
      none := by
  unfold clearLookupCache
  cases s.caches request.cache <;> simp

/-- Every cache agrees with the index of `v`, which no turn changes. -/
structure CachesAgree (v : State) (tables : CacheName → Bool) (s : Shared) : Prop where
  index : s.vfs.index = v.index
  entries : s.vfs.entries = v.entries
  tables : ∀ name, (s.caches name).isSome = tables name
  answers : ∀ request answer, s.cached request = some answer → answer = request.indexed win true v

/-- What a thread inside a call knows about the index of `v`. -/
def Thread.Knows (v : State) (tables : CacheName → Bool) : Thread → Prop
  | .idle | .entered _ | .resetting => True
  | .loading request | .probing request _ | .missed request _ =>
      tables request.cache = true ∧ request.direct v = none
  | .computed request _ result =>
      tables request.cache = true ∧ request.direct v = none ∧ result = request.indexed win true v
  | .returned request memory answer =>
      answer = if tables request.cache then request.uncached win memory v else none

variable {win} {v : State} {tables : CacheName → Bool} {s : Shared}

theorem CachesAgree.direct (agree : CachesAgree win v tables s) (request : Request) :
    request.direct s.vfs = request.direct v := by
  cases request with
  | virtualToUid path => rfl
  | lookupDomain path domain =>
      simp only [Request.direct, vfsUidToPath, vfsUidEntry, agree.entries]

theorem CachesAgree.cleared (agree : CachesAgree win v tables s) (t : Shared)
    (index : t.vfs.index = s.vfs.index) (entries : t.vfs.entries = s.vfs.entries)
    (caches : t.caches = clearLookupCache s.caches) : CachesAgree win v tables t where
  index := index.trans agree.index
  entries := entries.trans agree.entries
  tables name := by
    rw [caches, ← agree.tables name, clearLookupCache, Option.isSome_map]
  answers request answer cached := by
    rw [Shared.cached, caches, cached_clearLookupCache] at cached
    cases cached

theorem CachesAgree.put (agree : CachesAgree win v tables s) (request : Request) :
    CachesAgree win v tables (s.put request (request.indexed win true v)) where
  index := agree.index
  entries := agree.entries
  tables name := by
    rw [← agree.tables name]
    by_cases same : name = request.cache
    · simp [Shared.put, same]
    · simp [Shared.put, Function.update_of_ne same]
  answers request' answer cached := by
    rw [Shared.cached_put] at cached
    split at cached
    · rename_i same
      obtain ⟨_, _, rfl⟩ := Option.map_eq_some_iff.mp cached
      rw [same]
    · exact agree.answers request' answer cached

theorem CachesAgree.start (v : State) (tables : CacheName → Bool) :
    CachesAgree win v tables (Shared.init v tables) where
  index := rfl
  entries := rfl
  tables name := by
    cases h : tables name <;> simp [Shared.init, h]
  answers request answer cached := by
    unfold Shared.cached Shared.init at cached
    cases h : tables request.cache <;> simp [h] at cached

theorem advance_knows (agree : CachesAgree win v tables s) {thread : Thread}
    (knows : thread.Knows win v tables) (memory : LookupMemory) :
    CachesAgree win v tables (advance win memory s thread).1 ∧
      (advance win memory s thread).2.Knows win v tables := by
  cases thread with
  | idle => exact ⟨agree, trivial⟩
  | entered request =>
      have table := agree.tables request.cache
      simp only [advance]
      split
      · rename_i missing
        rw [missing, Option.isSome_none] at table
        exact ⟨agree, by simp [Thread.Knows, ← table]⟩
      · rename_i present
        have there : tables request.cache = true := by
          rw [← table, Option.isSome_iff_ne_none]
          exact present
        split
        · rename_i result found
          rw [agree.direct] at found
          exact ⟨agree, by simp [Thread.Knows, there, Request.uncached_eq, found]⟩
        · rename_i found
          rw [agree.direct] at found
          exact ⟨agree, there, found⟩
  | loading request =>
      simp only [advance]
      split
      · exact ⟨agree, knows⟩
      · exact ⟨agree, knows⟩
  | probing request generation =>
      simp only [advance]
      split
      · rename_i result cached
        have answer := agree.answers request result cached
        exact ⟨agree, by simp [Thread.Knows, knows.1, Request.uncached_eq, knows.2, answer]⟩
      · exact ⟨agree, knows⟩
  | missed request generation =>
      obtain ⟨there, direct⟩ := knows
      simp only [advance]
      split
      · rename_i escaped
        refine ⟨agree, ?_⟩
        simp [Thread.Knows, there, Request.uncached_eq, direct, Request.indexed, indexedEntry, escaped]
      · rename_i key normalized
        have spelled : vfsNormalizePath win request.path = some key := by
          split at normalized
          · exact normalized
          · cases normalized
        have result : ((s.vfs.index.lookup key).bind fun i => s.vfs.entries[i]?).bind request.read =
            request.indexed win true v := by
          simp [agree.index, agree.entries, Request.indexed, indexedEntry, spelled]
        split
        · exact ⟨agree, by simp [Thread.Knows, there, Request.uncached_eq, direct, result]⟩
        · exact ⟨agree, there, direct, result⟩
  | computed request generation result =>
      obtain ⟨there, direct, rfl⟩ := knows
      have answer : (Thread.returned request true (request.indexed win true v)).Knows win v tables := by
        simp [Thread.Knows, there, Request.uncached_eq, direct]
      simp only [advance]
      split
      · exact ⟨agree, answer⟩
      · split
        · rename_i found cached
          exact ⟨agree, agree.answers request found cached ▸ answer⟩
        · cases memory.put with
          | true => exact ⟨agree.put request, answer⟩
          | false => exact ⟨agree, answer⟩
  | returned request memory answer => exact ⟨agree, trivial⟩
  | resetting => exact ⟨agree.cleared _ rfl rfl rfl, trivial⟩

theorem act_knows {move : Move} {s' : Shared} {thread thread' : Thread}
    (agree : CachesAgree win v tables s) (knows : thread.Knows win v tables)
    (acted : act win move s thread = some (s', thread')) :
    CachesAgree win v tables s' ∧ thread'.Knows win v tables := by
  unfold act at acted
  split at acted
  · cases acted
    exact ⟨agree, trivial⟩
  · cases acted
    exact ⟨⟨agree.index, agree.entries, agree.tables, agree.answers⟩, trivial⟩
  · cases acted
    exact ⟨agree.cleared _ rfl rfl rfl, trivial⟩
  · rename_i memory
    have next := advance_knows agree knows memory
    rw [Option.some.injEq] at acted
    rwa [acted] at next
  · cases acted

/-- Every answer is the answer of the index, unless `vfs_init` could not allocate the cache that the
function guards on. -/
theorem lookups_answer_index {ι : Type} [DecidableEq ι] (requests : List AddRequest)
    (tables : CacheName → Bool) {c : Config ι Shared Thread}
    (reachable : Reachable (act win) (startLookups win ι requests tables) c) (i : ι)
    {request : Request} {memory : Bool} {answer : Option WString}
    (returned : c.threads i = .returned request memory answer) :
    answer = if tables request.cache then
      request.uncached win memory (vfsAddPackages win vfsInit requests) else none := by
  have holds : Holds (CachesAgree win (vfsAddPackages win vfsInit requests) tables)
      (fun _ thread => thread.Knows win (vfsAddPackages win vfsInit requests) tables) c :=
    reachable.holds (fun _ _ _ _ _ agree knows acted => act_knows agree knows acted)
      (fun _ _ _ _ _ _ _ _ _ knows => knows) ⟨.start _ _, fun _ => trivial⟩
  have knows := holds.threads i
  rw [returned] at knows
  exact knows

end Turn

private def looseFile : AddRequest where
  path := wide "C:\\mod"
  isDirectory _ := true
  attributesValid _ := true
  listing := .file (wide "a.bin") true true (.finished true)
  zipPackageOpen _ _ := none
  diskPathMemory := true
  nodeMemory := true
  memory := ⟨true, fun _ => ⟨true, true, true, true, 0, true, true⟩⟩

private def request : Request := .lookupDomain (wide "A.bin") .virtual

private def memory : LookupMemory := ⟨true, true, true⟩

/-- The other thread publishes the caches and clears them again while `request` is on its way. -/
private def schedule : List (Bool × Move) :=
  [(false, .resetLookupCaches), (true, .lookup request), (true, .advance memory),
    (true, .advance memory), (true, .advance memory), (true, .advance memory),
    (false, .resetLookupCaches), (true, .advance memory), (true, .advance memory),
    (true, .lookup request), (true, .advance memory), (true, .advance memory),
    (true, .advance memory), (true, .advance memory), (true, .advance memory),
    (true, .advance memory), (true, .lookup request), (true, .advance memory),
    (true, .advance memory), (true, .advance memory)]

theorem lookups_answer_index_hit :
    some (wide "C:\\mod\\a.bin") =
      request.uncached asciiWindows true (vfsAddPackages asciiWindows vfsInit [looseFile]) := by
  let played := play (act asciiWindows) (startLookups asciiWindows Bool [looseFile] fun _ => true)
    schedule
  have finished : played.isSome := by decide
  have answered : (played.get finished).threads true =
      .returned request true (some (wide "C:\\mod\\a.bin")) := rfl
  have answer := lookups_answer_index [looseFile] (fun _ => true)
    (play_reachable (Option.some_get finished).symm) true answered
  simpa only [if_true] using answer

private def lost : List (Bool × Move) := [(true, .lookup request), (true, .advance memory)]

/-- Without the table of its domain a lookup finds nothing, whatever the index has. -/
theorem lookups_answer_index_needs_table :
    ¬ ∀ (requests : List AddRequest) (tables : CacheName → Bool) (c : Config Bool Shared Thread),
      Reachable (act asciiWindows) (startLookups asciiWindows Bool requests tables) c →
      ∀ i request memory answer, c.threads i = .returned request memory answer →
        answer = request.uncached asciiWindows memory
          (vfsAddPackages asciiWindows vfsInit requests) := by
  intro always
  let tables : CacheName → Bool := fun name => name ≠ .lookup .virtual
  let played := play (act asciiWindows) (startLookups asciiWindows Bool [looseFile] tables) lost
  have finished : played.isSome := by decide
  have answered : (played.get finished).threads true = .returned request true none := rfl
  have answer := always [looseFile] tables _ (play_reachable (Option.some_get finished).symm) true
    request true none answered
  exact absurd answer (by decide)

end Yafsml.Vfs
