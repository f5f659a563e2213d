import Yafsml.Vfs.FileSharing
import Yafsml.Vfs.Rollback

/-!
# No stale bytes

Every operation keeps the invariant, keeps what the open files read from, and names in the table only
caches it named before or made new. A seekable file therefore reads the archive file its entry pointed
to when it was opened, whatever packages come later, and shares no cache older than the last
re-pointing of its entry.
-/

namespace Yafsml.Vfs

variable {contents : ZipPackage → Nat → Bytes} {s t : FileState}

/-- The seekable file `id` reads `package[zipFile]`. -/
structure Serves (contents : ZipPackage → Nat → Bytes) (s : FileState) (id : Nat)
    (package : ZipPackage) (zipFile : Nat) (file : VfsFile) (c : Nat) (cache : Cache) : Prop where
  opened : fileAt s id = some file
  seekable : file.zip = none
  cached : file.cache = some c
  located : s.heap c = some cache
  faithful : Faithful contents package zipFile cache
  size : file.size = zipPackageFileSize package zipFile

/-- `id` was given to a file of `package[zipFile]`, which may be closed by now. -/
def Tracks (contents : ZipPackage → Nat → Bytes) (s : FileState) (id : Nat) (package : ZipPackage)
    (zipFile : Nat) : Prop :=
  id < s.files.length ∧
    (fileAt s id = none ∨ ∃ file c cache, Serves contents s id package zipFile file c cache)

structure Keeps (contents : ZipPackage → Nat → Bytes) (s t : FileState) : Prop where
  invariant : Invariant contents t
  tracks : ∀ id package zipFile, Tracks contents s id package zipFile →
    Tracks contents t id package zipFile
  allocated : s.allocated ≤ t.allocated
  table : ∀ identity c, Named t identity c → Named s identity c ∨ s.allocated ≤ c

namespace Keeps

theorem refl (invariant : Invariant contents s) : Keeps contents s s :=
  ⟨invariant, fun _ _ _ => id, le_rfl, fun _ _ => .inl⟩

theorem trans {u : FileState} (first : Keeps contents s t) (second : Keeps contents t u) :
    Keeps contents s u where
  invariant := second.invariant
  tracks id package zipFile tracked := second.tracks _ _ _ (first.tracks _ _ _ tracked)
  allocated := first.allocated.trans second.allocated
  table identity c named := by
    rcases second.table identity c named with named | fresh
    · exact first.table identity c named
    · exact .inr (first.allocated.trans fresh)

end Keeps

theorem Serves.frame {id zipFile c : Nat} {package : ZipPackage} {file : VfsFile} {cache : Cache}
    (serves : Serves contents s id package zipFile file c cache) (frame : Frame contents s t) :
    ∃ cache', Serves contents t id package zipFile file c cache' := by
  obtain ⟨cache', located, same⟩ :=
    frame.kept c cache serves.located (holders_pos serves.opened serves.cached)
  have opened : fileAt t id = some file := by
    rw [fileAt, frame.files]
    exact serves.opened
  exact ⟨cache', opened, serves.seekable, serves.cached, located, same _ _ serves.faithful, serves.size⟩

theorem Tracks.frame {id zipFile : Nat} {package : ZipPackage}
    (tracked : Tracks contents s id package zipFile) (frame : Frame contents s t) :
    Tracks contents t id package zipFile := by
  obtain ⟨inside, closed | ⟨file, c, cache, serves⟩⟩ := tracked
  · exact ⟨frame.files ▸ inside, .inl (by rwa [fileAt, frame.files])⟩
  · obtain ⟨cache', serves'⟩ := serves.frame frame
    exact ⟨frame.files ▸ inside, .inr ⟨file, c, cache', serves'⟩⟩

theorem Frame.keeps (frame : Frame contents s t) (invariant : Invariant contents t) :
    Keeps contents s t where
  invariant := invariant
  tracks _ _ _ tracked := tracked.frame frame
  allocated := frame.allocated
  table := frame.table

/-! ## The list of files -/

def withFiles (s : FileState) (files : List (Option VfsFile)) : FileState := { s with files := files }

theorem Core.withFiles {named : Nat → Nat → Prop} {pins pins' : Nat → Nat}
    (core : Core contents named pins s) (files : List (Option VfsFile))
    (counted : ∀ c, holders (withFiles s files) c + pins' c = holders s c + pins c)
    (alive : ∀ id file c, fileAt (Vfs.withFiles s files) id = some file → file.cache = some c →
      ∃ cache, s.heap c = some cache ∧ cache.size = file.size) :
    Core contents named pins' (Vfs.withFiles s files) := by
  refine ⟨core.fresh, ?_, alive, core.listed, core.nodup, core.unused, core.named, core.current⟩
  intro c cache located
  have := core.references c cache located
  have := counted c
  omega

theorem setFile_keeps (invariant : Invariant contents s) {id : Nat} {file file' : VfsFile}
    (opened : fileAt s id = some file) (zip : file'.zip = none ↔ file.zip = none)
    (cache : file'.cache = file.cache) (size : file'.size = file.size) :
    Keeps contents s (setFile s id file') := by
  have inside := fileAt_lt opened
  have files (j : Nat) : fileAt (setFile s id file') j = if j = id then some file' else fileAt s j :=
    fileAt_set rfl inside j
  refine ⟨invariant.withFiles (s.files.set id (some file')) ?_ ?_, ?_, le_rfl, fun _ _ => .inl⟩
  · intro c
    have := holders_set (t := setFile s id file') opened rfl c
    simp only [Option.bind_some, cache, Nat.add_right_cancel_iff] at this
    exact congrArg (· + 0) this
  · intro j other c opened' cached
    change fileAt (setFile s id file') j = _ at opened'
    rw [files] at opened'
    split at opened'
    · cases opened'
      rw [size]
      exact invariant.alive id file c opened (cache ▸ cached)
    · exact invariant.alive j other c opened' cached
  · intro j package zipFile ⟨inside', tracked⟩
    refine ⟨by simpa [setFile] using inside', ?_⟩
    by_cases same : j = id
    · subst same
      rcases tracked with closed | ⟨_, c, cache', serves⟩
      · rw [opened] at closed
        cases closed
      · obtain rfl : file = _ := Option.some.inj (opened.symm.trans serves.opened)
        refine .inr ⟨file', c, cache', ?_, zip.mpr serves.seekable, cache.trans serves.cached,
          serves.located, serves.faithful, size.trans serves.size⟩
        rw [files, if_pos rfl]
    · rcases tracked with closed | ⟨other, c, cache', serves⟩
      · exact .inl (by rw [files, if_neg same, closed])
      · exact .inr ⟨other, c, cache', by rw [files, if_neg same, serves.opened], serves.seekable,
          serves.cached, serves.located, serves.faithful, serves.size⟩

/-! ## Reading -/

theorem vfsFileReadAt_keeps (limits : Limits) (id offset size : Nat) (outcome : ReadOutcome)
    (invariant : Invariant contents s) :
    Keeps contents s (vfsFileReadAt contents limits id offset size outcome s).1 := by
  unfold vfsFileReadAt
  split
  · exact .refl invariant
  rename_i file opened
  split
  · exact .refl invariant
  split
  · exact .refl invariant
  split
  · rename_i package entry zip
    split
    · exact .refl invariant
    · exact setFile_keeps invariant opened Iff.rfl rfl rfl
  · exact .refl invariant
  · rename_i c seekable cached
    split
    · exact .refl invariant
    rename_i cache located
    obtain ⟨core, frame⟩ := cachePrepare_core limits outcome.decode invariant located
      (holders_pos opened cached)
    cases run : cachePrepare contents limits c cache outcome.decode s with
    | mk u prepared =>
        rw [run] at core frame
        have kept := frame.keeps core
        cases prepared with
        | false =>
            have opened' : fileAt u id = some file := by
              rw [fileAt, frame.files]
              exact opened
            exact kept.trans (setFile_keeps core opened' Iff.rfl rfl rfl)
        | true =>
            dsimp only
            split
            · exact kept
            · split <;> exact kept

theorem vfsFileRead_keeps (limits : Limits) (id size : Nat) (outcome : ReadOutcome)
    (invariant : Invariant contents s) :
    Keeps contents s (vfsFileRead contents limits id size outcome s).1 := by
  unfold vfsFileRead
  split
  · exact .refl invariant
  rename_i file opened
  have kept := vfsFileReadAt_keeps limits id file.position size outcome invariant
  dsimp only
  split
  · exact kept
  · rename_i file' opened'
    exact kept.trans (setFile_keeps kept.invariant opened' Iff.rfl rfl rfl)

theorem vfsFileSeek_keeps (id : Nat) (distance : Int) (origin : SeekOrigin)
    (invariant : Invariant contents s) : Keeps contents s (vfsFileSeek id distance origin s).1 := by
  unfold vfsFileSeek
  split
  · exact .refl invariant
  rename_i file opened
  dsimp only
  split
  · exact .refl invariant
  split
  · exact .refl invariant
  · exact setFile_keeps invariant opened Iff.rfl rfl rfl

/-! ## Closing -/

theorem clearFile_tracks {id : Nat} (inside : id < s.files.length)
    (contents : ZipPackage → Nat → Bytes) (j : Nat) (package : ZipPackage)
    (zipFile : Nat) (tracked : Tracks contents s j package zipFile) :
    Tracks contents (withFiles s (s.files.set id none)) j package zipFile := by
  have files : fileAt (withFiles s (s.files.set id none)) j = if j = id then none else fileAt s j :=
    fileAt_set rfl inside j
  obtain ⟨inside', tracked⟩ := tracked
  refine ⟨by simpa [withFiles] using inside', ?_⟩
  by_cases same : j = id
  · exact .inl (by rw [files, if_pos same])
  · rw [if_neg same] at files
    rcases tracked with closed | ⟨file, c, cache, serves⟩
    · exact .inl (files.trans closed)
    · exact .inr ⟨file, c, cache, files.trans serves.opened, serves.seekable, serves.cached,
        serves.located, serves.faithful, serves.size⟩

theorem vfsFileClose_keeps (limits : Limits) (id : Nat) (invariant : Invariant contents s) :
    Keeps contents s (vfsFileClose limits id s) := by
  unfold vfsFileClose
  split
  · exact .refl invariant
  rename_i file opened
  have inside := fileAt_lt opened
  have cleared := clearFile_tracks inside contents
  have counted (c : Nat) := holders_set (t := withFiles s (s.files.set id none)) opened rfl c
  have alive (j : Nat) (other : VfsFile) (c : Nat)
      (opened' : fileAt (withFiles s (s.files.set id none)) j = some other)
      (cached : other.cache = some c) : ∃ cache, s.heap c = some cache ∧ cache.size = other.size := by
    rw [fileAt_set rfl inside] at opened'
    split at opened'
    · cases opened'
    · exact invariant.alive j other c opened' cached
  dsimp only
  split
  · rename_i c cached
    obtain ⟨cache, located, _⟩ := invariant.alive id file c opened cached
    have pinned : Core contents (Named (withFiles s (s.files.set id none))) (pin c)
        (withFiles s (s.files.set id none)) := by
      refine invariant.withFiles _ (fun c' => ?_) alive
      have := counted c'
      simpa [cached, pin, eq_comm] using this
    obtain ⟨released, frame⟩ := cacheRelease_core limits pinned located
    exact ⟨released, fun j package zipFile tracked => (cleared j package zipFile tracked).frame frame,
      frame.allocated, frame.table⟩
  · rename_i uncached
    have plain : Invariant contents (withFiles s (s.files.set id none)) := by
      refine invariant.withFiles _ (fun c' => ?_) alive
      have := counted c'
      simpa [uncached] using this
    exact ⟨plain, cleared, le_rfl, fun _ _ => .inl⟩

/-! ## Opening -/

theorem fileAt_append (s : FileState) (file : VfsFile) (j : Nat) :
    fileAt (withFiles s (s.files ++ [some file])) j =
      if j = s.files.length then some file else fileAt s j := by
  unfold fileAt withFiles
  rw [List.getElem?_append]
  by_cases inside : j < s.files.length
  · rw [if_pos inside, if_neg (by omega)]
  · rw [if_neg inside]
    by_cases last : j = s.files.length
    · simp [last]
    · rw [if_neg last, List.getElem?_eq_none (by simp; omega), List.getElem?_eq_none (by omega)]

theorem holders_append (s : FileState) (file : VfsFile) (c : Nat) :
    holders (withFiles s (s.files ++ [some file])) c =
      holders s c + (if file.cache = some c then 1 else 0) := by
  simp only [holders, withFiles, List.countP_append, List.countP_singleton, Option.bind_some,
    beq_iff_eq]

theorem append_tracks (file : VfsFile) (j : Nat) (package : ZipPackage) (zipFile : Nat)
    (tracked : Tracks contents s j package zipFile) :
    Tracks contents (withFiles s (s.files ++ [some file])) j package zipFile := by
  obtain ⟨inside, tracked⟩ := tracked
  have files : fileAt (withFiles s (s.files ++ [some file])) j = fileAt s j := by
    rw [fileAt_append, if_neg (by omega)]
  refine ⟨by simp [withFiles]; omega, ?_⟩
  rcases tracked with closed | ⟨other, c, cache, serves⟩
  · exact .inl (files.trans closed)
  · exact .inr ⟨other, c, cache, files.trans serves.opened, serves.seekable, serves.cached,
      serves.located, serves.faithful, serves.size⟩

theorem addFile_invariant {pins : Nat → Nat} (core : Core contents (Named s) pins s) (file : VfsFile)
    (accounted : ∀ c, pins c = if file.cache = some c then 1 else 0)
    (alive : ∀ c, file.cache = some c → ∃ cache, s.heap c = some cache ∧ cache.size = file.size) :
    Invariant contents (addFile file s).1 := by
  refine core.withFiles (s.files ++ [some file]) (fun c => ?_) ?_
  · rw [holders_append, accounted, Nat.add_zero]
  · intro j other c opened cached
    rw [fileAt_append] at opened
    split at opened
    · cases opened
      exact alive c cached
    · exact core.alive j other c opened cached

theorem vfsFileCreate_cases (invariant : Invariant contents s) {identity zipFile : Nat}
    {package : ZipPackage} (streaming : Bool) (outcome : OpenOutcome)
    (points : PointsTo s identity package zipFile) :
    Keeps contents s (vfsFileCreate package zipFile identity streaming outcome s).1 ∧
      ∀ id, (vfsFileCreate package zipFile identity streaming outcome s).2 = some id →
        streaming = false → ∃ file c cache,
          Serves contents (vfsFileCreate package zipFile identity streaming outcome s).1 id package
            zipFile file c cache ∧ (Named s identity c ∨ s.allocated ≤ c) := by
  unfold vfsFileCreate
  dsimp only
  split
  · exact ⟨.refl invariant, fun _ failed => (by cases failed)⟩
  split
  · rename_i stream
    split
    · refine ⟨⟨addFile_invariant invariant _ (fun _ => rfl) (fun _ cached => (by cases cached)),
        append_tracks _, le_rfl, fun _ _ => .inl⟩, fun _ _ seekable => ?_⟩
      rw [stream] at seekable
      cases seekable
    · exact ⟨.refl invariant, fun _ failed => (by cases failed)⟩
  split
  · exact ⟨.refl invariant, fun _ failed => (by cases failed)⟩
  rcases cacheAcquire_cases invariant outcome.acquire points with
    ⟨t, run, core, frame⟩ | ⟨t, c, run, core, frame, named⟩
  · rw [run]
    exact ⟨frame.keeps core, fun _ failed => (by cases failed)⟩
  · rw [run]
    have points' : PointsTo t identity package zipFile := by
      unfold PointsTo
      rw [frame.vfs]
      exact points
    obtain ⟨cache, located, faithful⟩ := core.faithful points' named
    have opened : fileAt (withFiles t (t.files ++ [some ⟨none, some c,
        zipPackageFileSize package zipFile, identity, 0, 0, 0⟩])) t.files.length = _ :=
      (fileAt_append _ _ _).trans (if_pos rfl)
    refine ⟨⟨addFile_invariant core _ (fun c' => ?_) (fun c' cached => ?_),
      fun j package' zipFile' tracked => append_tracks _ j package' zipFile' (tracked.frame frame),
      frame.allocated, frame.table⟩, fun id added _ => ?_⟩
    · simp [pin, eq_comm]
    · cases cached
      exact ⟨cache, located, faithful.size⟩
    · cases added
      exact ⟨_, c, cache, ⟨opened, rfl, rfl, located, faithful, rfl⟩, frame.table identity c named⟩

section Opened

variable (win : Windows)

/-- The entry an open path names, and whether it asks for the forward-only variant. -/
def openedEntry (path : WString) (outcome : OpenOutcome) (s : FileState) : Option (Nat × Bool) :=
  let routed := if mlPathIsAbsolute path then none else vfsLookup win outcome.normalize s.vfs path
  vfsUidEntry s.vfs (routed.getD path)

theorem vfsFileOpen_cases (invariant : Invariant contents s) (path : WString)
    (outcome : OpenOutcome) :
    Keeps contents s (vfsFileOpen win path outcome s).1 ∧
      ∀ id, (vfsFileOpen win path outcome s).2 = some id → ∃ i streaming e package,
        openedEntry win path outcome s = some (i, streaming) ∧ s.vfs.entries[i]? = some e ∧
        e.zip = some package ∧ (streaming = false → ∃ file c cache,
          Serves contents (vfsFileOpen win path outcome s).1 id package e.zipFile file c cache ∧
          (Named s (i + 1) c ∨ s.allocated ≤ c)) := by
  unfold vfsFileOpen openedEntry
  dsimp only
  split
  · exact ⟨.refl invariant, fun _ failed => (by cases failed)⟩
  rename_i i streaming found
  split
  · exact ⟨.refl invariant, fun _ failed => (by cases failed)⟩
  rename_i package zipFile pointed
  obtain ⟨e, located, pointed⟩ := Option.bind_eq_some_iff.mp pointed
  obtain ⟨_, zip, pair⟩ := Option.map_eq_some_iff.mp pointed
  cases pair
  have points : PointsTo s (i + 1) package e.zipFile := ⟨i, e, rfl, located, zip, rfl⟩
  obtain ⟨kept, served⟩ := vfsFileCreate_cases invariant streaming outcome points
  exact ⟨kept, fun id opened => ⟨i, streaming, e, package, found, located, zip, served id opened⟩⟩

end Opened

/-! ## Sessions -/

section Sessions

variable (win : Windows) (limits : Limits)

theorem vfsAddPackage_undropped (vfs : State) (request : AddRequest)
    (undropped : (vfsAddPackage win vfs request).droppedCaches = false) :
    (vfsAddPackage win vfs request).vfs.entries = vfs.entries := by
  have inserted (package : Package)
      (undropped : (vfsInsertPackage win vfs package request.memory).droppedCaches = false) :
      (vfsInsertPackage win vfs package request.memory).vfs.entries = vfs.entries := by
    unfold vfsInsertPackage at undropped ⊢
    split
    · rfl
    rename_i some_files
    rw [if_neg some_files] at undropped
    split
    · rfl
    rename_i arrays
    rw [if_neg arrays] at undropped
    split at undropped <;> cases undropped
  unfold vfsAddPackage at undropped ⊢
  split
  · rfl
  rename_i accepted
  rw [if_neg accepted] at undropped
  split
  · rfl
  · rename_i package
    rw [package] at undropped
    exact inserted _ undropped
  · rename_i package
    rw [package] at undropped
    dsimp only at undropped ⊢
    split at undropped
    · rename_i added
      rw [if_pos added]
      exact inserted _ undropped
    · rename_i refused
      rw [if_neg refused]
      exact inserted _ undropped

theorem withVfs_keeps {vfs : State} (frame : Frame contents s t) (invariant : Invariant contents t)
    (current : ∀ c cache, t.heap c = some cache → cache.detached = false →
      ∃ i e package, cache.identity = i + 1 ∧ vfs.entries[i]? = some e ∧ e.zip = some package ∧
        Faithful contents package e.zipFile cache) :
    Keeps contents s { t with vfs := vfs } := by
  refine ⟨⟨invariant.fresh, invariant.references, invariant.alive, invariant.listed, invariant.nodup,
    invariant.unused, invariant.named, current⟩, fun id package zipFile tracked => ?_, frame.allocated,
    frame.table⟩
  obtain ⟨inside, closed | ⟨file, c, cache, serves⟩⟩ := tracked.frame frame
  · exact ⟨inside, .inl closed⟩
  · exact ⟨inside, .inr ⟨file, c, cache, serves.opened, serves.seekable, serves.cached,
      serves.located, serves.faithful, serves.size⟩⟩

/-- After the caches were dropped all that is left is detached, whatever the entries are now. -/
theorem addPackage_dropped (request : AddRequest) (invariant : Invariant contents s)
    (dropped : (vfsAddPackage win s.vfs request).droppedCaches = true) :
    Keeps contents s (addPackage win request s) ∧ (addPackage win request s).table = none := by
  obtain ⟨core, frame, gone⟩ := vfsFileDropCaches_core invariant
  simp only [addPackage, dropped, if_true]
  refine ⟨withVfs_keeps frame core fun c cache located attached => ?_, gone⟩
  have named : Named (vfsFileDropCaches s) cache.identity c :=
    (core.named _ c).mpr ⟨cache, located, rfl, attached⟩
  rw [Named, tableAt, gone] at named
  cases named

theorem addPackage_keeps (request : AddRequest) (invariant : Invariant contents s) :
    Keeps contents s (addPackage win request s) := by
  cases dropped : (vfsAddPackage win s.vfs request).droppedCaches with
  | true => exact (addPackage_dropped win request invariant dropped).1
  | false =>
      have entries := vfsAddPackage_undropped win s.vfs request dropped
      simp only [addPackage, dropped, Bool.false_eq_true, if_false]
      refine withVfs_keeps (.refl s) invariant ?_
      rw [entries]
      exact invariant.current

theorem perform_keeps (operation : Operation) (invariant : Invariant contents s) :
    Keeps contents s (perform win contents limits s operation) := by
  cases operation with
  | addPackage request => exact addPackage_keeps win request invariant
  | fileOpen path outcome => exact (vfsFileOpen_cases win invariant path outcome).1
  | readAt id offset size outcome => exact vfsFileReadAt_keeps limits id offset size outcome invariant
  | read id size outcome => exact vfsFileRead_keeps limits id size outcome invariant
  | seek id distance origin => exact vfsFileSeek_keeps id distance origin invariant
  | close id => exact vfsFileClose_keeps limits id invariant

theorem performAll_keeps (operations : List Operation) (invariant : Invariant contents s) :
    Keeps contents s (performAll win contents limits s operations) := by
  induction operations generalizing s with
  | nil => exact .refl invariant
  | cons operation rest ih =>
      have kept := perform_keeps win limits operation invariant
      exact kept.trans (ih kept.invariant)

theorem fileInit_invariant : Invariant contents fileInit := by
  refine ⟨fun _ _ => rfl, fun _ _ located => ?_, fun _ _ _ opened => ?_, fun inMemory c => ?_,
    fun inMemory => ?_, fun _ _ located => ?_, fun _ _ => ?_, fun _ _ located => ?_⟩
  · cases located
  · simp [fileAt, fileInit] at opened
  · cases inMemory <;> simp [idleMembers, fileInit]
  · cases inMemory <;> exact List.nodup_nil
  · cases located
  · simp [Named, tableAt, fileInit]
  · cases located

/-! ## Reads -/

/-- The bytes of `package[zipFile]`. -/
def fileBytes (contents : ZipPackage → Nat → Bytes) (package : ZipPackage) (zipFile : Nat) : Bytes :=
  (contents package zipFile).take (zipPackageFileSize package zipFile)

theorem cacheRead_eq {package : ZipPackage} {zipFile : Nat} {cache : Cache}
    (faithful : Faithful contents package zipFile cache) (decoded : cache.state ≠ .empty)
    (sized : cache.size ≠ 0) {offset size : Nat} {outcome : ReadOutcome} {data : Bytes}
    (succeeded : cacheRead cache offset size outcome = (true, data)) :
    data = ((fileBytes contents package zipFile).drop offset).take size := by
  rw [fileBytes, ← faithful.size]
  unfold cacheRead at succeeded
  split at succeeded
  · rename_i memory stored
    cases succeeded
    rw [faithful.memory memory stored]
  · rename_i unstored
    obtain ⟨disk, stored⟩ : ∃ disk, cache.disk = some disk := by
      have := faithful.decoded decoded sized
      simpa [unstored, Option.isSome_iff_exists] using this
    simp only [Prod.mk.injEq] at succeeded
    obtain ⟨whole, rfl⟩ := succeeded
    rw [if_pos whole, stored, faithful.disk disk stored, Option.getD_some]

theorem cachePrepare_decoded (contents : ZipPackage → Nat → Bytes) (c : Nat) (cache : Cache) (outcome : DecodeOutcome)
    (located : s.heap c = some cache)
    (prepared : (cachePrepare contents limits c cache outcome s).2 = true) :
    ∃ cache', (cachePrepare contents limits c cache outcome s).1.heap c = some cache' ∧
      cache'.state ≠ .empty := by
  unfold cachePrepare at prepared ⊢
  split
  · rename_i decoded
    exact ⟨cache, located, decoded⟩
  · rename_i undecoded
    rw [if_neg undecoded] at prepared
    unfold cacheDecode at prepared ⊢
    cases run : decodeStorage limits cache outcome s with
    | mk t memory =>
        rw [run] at prepared
        dsimp only at prepared ⊢
        split at prepared
        · cases prepared
        · rename_i storage
          rw [if_neg storage]
          split at prepared
          · refine ⟨_, Function.update_self _ _ _, ?_⟩
            dsimp only
            split <;> simp
          · cases prepared

theorem vfsFileReadAt_serves {id zipFile c : Nat} {package : ZipPackage} {file : VfsFile}
    {cache : Cache} (invariant : Invariant contents s)
    (serves : Serves contents s id package zipFile file c cache) {offset size : Nat}
    {outcome : ReadOutcome} {data : Bytes}
    (succeeded : (vfsFileReadAt contents limits id offset size outcome s).2 = (true, data)) :
    data = ((fileBytes contents package zipFile).drop offset).take size := by
  have length : (fileBytes contents package zipFile).length ≤ file.size := by
    rw [fileBytes, serves.size]
    exact List.length_take_le _ _
  unfold vfsFileReadAt at succeeded
  simp only [serves.opened, serves.seekable, serves.cached, serves.located] at succeeded
  split at succeeded
  · cases succeeded
  split at succeeded
  · rename_i empty
    cases succeeded
    simp [empty]
  have held := holders_pos serves.opened serves.cached
  have frame := (cachePrepare_core limits outcome.decode invariant serves.located held).2
  have decoded := cachePrepare_decoded limits contents c cache outcome.decode
    serves.located
  cases run : cachePrepare contents limits c cache outcome.decode s with
  | mk u prepared =>
      rw [run] at succeeded frame decoded
      cases prepared with
      | false => cases succeeded
      | true =>
          obtain ⟨cache', located', full⟩ := decoded rfl
          obtain ⟨_, located'', same⟩ := frame.kept c cache serves.located held
          obtain rfl := Option.some.inj (located'.symm.trans located'')
          have faithful := same _ _ serves.faithful
          dsimp only at succeeded
          split at succeeded
          · cases succeeded
            rw [List.drop_eq_nil_of_le (by omega), List.take_nil]
          · rename_i inside
            rw [located'] at succeeded
            have sized : cache'.size ≠ 0 := by
              rw [faithful.size, ← serves.size]
              omega
            rw [cacheRead_eq faithful full sized succeeded, List.take_eq_take_iff, List.length_drop]
            omega

theorem vfsFileRead_eq {id : Nat} {file : VfsFile} (opened : fileAt s id = some file) (size : Nat)
    (outcome : ReadOutcome) {data : Bytes}
    (succeeded : (vfsFileRead contents limits id size outcome s).2 = (true, data)) :
    (vfsFileReadAt contents limits id file.position size outcome s).2 = (true, data) := by
  unfold vfsFileRead at succeeded
  simp only [opened] at succeeded
  cases run : vfsFileReadAt contents limits id file.position size outcome s with
  | mk u answer =>
      rw [run] at succeeded
      dsimp only at succeeded
      split at succeeded
      · cases succeeded
      · exact succeeded

/-! ## No stale bytes -/

/-- The add makes entry `i` resolve to something else, or makes it exist. -/
def Repoints (request : AddRequest) (s : FileState) (i : Nat) : Prop :=
  (addPackage win request s).vfs.entries[i]?.map VfsEntry.source ≠
    s.vfs.entries[i]?.map VfsEntry.source

theorem Repoints.dropped {request : AddRequest} {i : Nat} (repoints : Repoints win request s i) :
    (vfsAddPackage win s.vfs request).droppedCaches = true := by
  by_contra undropped
  have entries := vfsAddPackage_undropped win s.vfs request (Bool.not_eq_true _ ▸ undropped)
  exact repoints (by simp only [addPackage, entries])

/-- A seekable file reads the archive file its entry pointed to when it was opened, through any later
calls; and its cache is younger than every re-pointing of its entry before that. -/
theorem seekable_reads_opened_entry (contents : ZipPackage → Nat → Bytes) (before : List Operation) (path : WString)
    (outcome : OpenOutcome) (id : Nat)
    (opened : (vfsFileOpen win path outcome
      (performAll win contents limits fileInit before)).2 = some id) :
    let s := performAll win contents limits fileInit before
    let t := (vfsFileOpen win path outcome s).1
    ∃ i streaming e package, openedEntry win path outcome s = some (i, streaming) ∧
      s.vfs.entries[i]? = some e ∧ e.zip = some package ∧
      (streaming = false →
        (∀ after : List Operation, let u := performAll win contents limits t after
          (∀ offset size outcome data,
            (vfsFileReadAt contents limits id offset size outcome u).2 = (true, data) →
            data = ((fileBytes contents package e.zipFile).drop offset).take size) ∧
          ∀ size outcome data, (vfsFileRead contents limits id size outcome u).2 = (true, data) →
            ∃ file, fileAt u id = some file ∧
              data = ((fileBytes contents package e.zipFile).drop file.position).take size) ∧
        ∃ file c, fileAt t id = some file ∧ file.cache = some c ∧
          ∀ earlier request later, before = earlier ++ .addPackage request :: later →
            Repoints win request (performAll win contents limits fileInit earlier) i →
            (performAll win contents limits fileInit earlier).allocated ≤ c) := by
  intro s t
  have invariant : Invariant contents s :=
    (performAll_keeps win limits before fileInit_invariant).invariant
  obtain ⟨kept, served⟩ := vfsFileOpen_cases win invariant path outcome
  obtain ⟨i, streaming, e, package, found, located, zip, seekable⟩ := served id opened
  refine ⟨i, streaming, e, package, found, located, zip, fun plain => ?_⟩
  obtain ⟨file, c, cache, serves, origin⟩ := seekable plain
  refine ⟨fun after => ?_, file, c, serves.opened, serves.cached, ?_⟩
  · intro u
    have kept' := performAll_keeps win limits after kept.invariant
    have tracked : Tracks contents u id package e.zipFile :=
      kept'.tracks _ _ _ ⟨fileAt_lt serves.opened, .inr ⟨file, c, cache, serves⟩⟩
    have reads (offset size : Nat) (outcome : ReadOutcome) (data : Bytes)
        (succeeded : (vfsFileReadAt contents limits id offset size outcome u).2 = (true, data)) :
        data = ((fileBytes contents package e.zipFile).drop offset).take size := by
      obtain ⟨_, closed | ⟨file', c', cache', serves'⟩⟩ := tracked
      · simp [vfsFileReadAt, closed] at succeeded
      · exact vfsFileReadAt_serves limits kept'.invariant serves' succeeded
    refine ⟨reads, fun size outcome data succeeded => ?_⟩
    cases opened' : fileAt u id with
    | none => simp [vfsFileRead, opened'] at succeeded
    | some file' =>
        exact ⟨file', rfl, reads _ _ _ _ (vfsFileRead_eq limits opened' size outcome succeeded)⟩
  · intro earlier request later split repoints
    let pointed := performAll win contents limits fileInit earlier
    have invariant' : Invariant contents pointed :=
      (performAll_keeps win limits earlier fileInit_invariant).invariant
    obtain ⟨added, gone⟩ := addPackage_dropped win request invariant' (repoints.dropped win)
    have reached : s = performAll win contents limits (addPackage win request pointed) later := by
      simp only [s, pointed, performAll, split, List.foldl_append, List.foldl_cons, perform]
    have since := performAll_keeps win limits later added.invariant
    rw [← reached] at since
    rcases origin with named | fresh
    · rcases since.table _ c named with named | fresh
      · rw [Named, tableAt, gone] at named
        cases named
      · exact added.allocated.trans fresh
    · exact (added.allocated.trans since.allocated).trans fresh

end Sessions

private def archiveRequest (archive : ZipPackage) : AddRequest where
  path := wide "C:\\a.zip:def"
  isDirectory _ := false
  attributesValid _ := true
  listing := .failed
  zipPackageOpen _ _ := some archive
  diskPathMemory := true
  nodeMemory := true
  memory := ⟨true, fun _ => ⟨true, true, true, true, 0, true, true⟩⟩

private def opening : OpenOutcome := ⟨true, true, true, ⟨true, true, true⟩⟩

private def overriding : AddRequest :=
  archiveRequest ⟨2, [⟨wide "x", 0, 1⟩, ⟨wide "A.bin", 1, 3⟩]⟩

/-- An archive, a file of it, and an archive that overrides the file. -/
private def earlier : List Operation :=
  [.addPackage (archiveRequest ⟨1, [⟨wide "a.bin", 0, 2⟩]⟩), .fileOpen (wide "A.bin") opening]

private def overridden : List Operation := earlier ++ [.addPackage overriding]

private def archived (archive : ZipPackage) (zipFile : Nat) : Bytes :=
  List.replicate 4 (archive.address * 16 + zipFile).toUInt8

private def smallLimits : Limits := ⟨100, 100, 100⟩

/-- The file opened again reads the second archive, through a cache of its own. -/
theorem seekable_reads_opened_entry_overridden :
    let s := performAll asciiWindows archived smallLimits fileInit overridden
    let t := (vfsFileOpen asciiWindows (wide "a.bin") opening s).1
    (∀ outcome data, (vfsFileReadAt archived smallLimits 1 1 9 outcome t).2 = (true, data) →
        data = [33, 33]) ∧
      ∃ file c, fileAt t 1 = some file ∧ file.cache = some c ∧ 1 ≤ c := by
  intro s t
  obtain ⟨i, streaming, e, package, found, located, zip, seekable⟩ :=
    seekable_reads_opened_entry asciiWindows smallLimits archived overridden
      (wide "a.bin") opening 1 (by decide)
  have zero : openedEntry asciiWindows (wide "a.bin") opening s = some (0, false) := by decide
  obtain ⟨rfl, rfl⟩ : i = 0 ∧ streaming = false := by
    simpa [eq_comm] using found.symm.trans zero
  have source : s.vfs.entries[0]?.map VfsEntry.source =
      some ⟨none, some ⟨2, [⟨wide "x", 0, 1⟩, ⟨wide "A.bin", 1, 3⟩]⟩, 1⟩ := by decide
  rw [located] at source
  obtain ⟨reads, file, c, opened, cached, young⟩ := seekable rfl
  refine ⟨fun outcome data succeeded => ?_, file, c, opened, cached, ?_⟩
  · obtain ⟨_, archive, number⟩ : _ ∧ e.zip = _ ∧ e.zipFile = _ := by
      simpa [VfsEntry.source] using source
    obtain rfl := Option.some.inj (zip.symm.trans archive)
    rw [(reads []).1 _ _ _ _ succeeded, number]
    rfl
  · exact young earlier overriding [] rfl (by unfold Repoints; decide)

end Yafsml.Vfs
