import Yafsml.Vfs.Seekable

/-!
# Seekable files are cursors

Each file over the shared cache is a cursor of its own over the decoded entry. What a call cannot take
from the entry is its fate: whether the entry could be decoded, and how far the temporary file could be
read.
-/

namespace Yafsml.Vfs.Seekable

open Cursor MachineInt

variable {ι : Type*}

/-! ## Cursors -/

/-- `error` is zero, or what every read reports. -/
structure FileCursor where
  position : Nat
  error : UInt32

inductive Fate
  | served
  | undecoded (error : ErrorCode)
  | cut (count : Nat) (error : ErrorCode)

namespace FileCursor

variable (data : Bytes)

def delivered (error : Option ErrorCode) (bytes : Bytes) : Reply := ⟨error, bytes.length, bytes, none⟩

def readAt (fate : Fate) (offset : Nat) (buffer : Bool) (size : Nat) (cursor : FileCursor) :
    FileCursor × Reply :=
  if size ≠ 0 ∧ ¬buffer then (cursor, .failed errorInvalidParameter)
  else if sticky : cursor.error ≠ 0 then (cursor, .failed ⟨cursor.error, sticky⟩)
  else if size = 0 then (cursor, delivered none [])
  else match fate with
    | .served => (cursor, delivered none (slice data offset size))
    | .undecoded e => ({ cursor with error := e }, .failed e)
    | .cut count e => (cursor, delivered (some e) (slice data offset (min count size)))

def read (fate : Fate) (buffer : Bool) (size : Nat) (cursor : FileCursor) : FileCursor × Reply :=
  let (next, reply) := readAt data fate cursor.position buffer size cursor
  ({ next with position := cursor.position + reply.data.length }, reply)

def base (origin : UInt32) (cursor : FileCursor) : Nat :=
  if origin = 0 then 0 else if origin = 1 then cursor.position else data.length

def seek (distance : Int) (origin : UInt32) (cursor : FileCursor) : FileCursor × Reply :=
  if origin > 2 then (cursor, .failed errorInvalidParameter)
  else match move int64Max (base data origin cursor) distance with
    | some next => ({ cursor with position := next }, ⟨none, 0, [], some next⟩)
    | none => (cursor, .failed (if distance < 0 then errorNegativeSeek else errorInvalidParameter))

def call (fate : Fate) : Call ι → FileCursor → FileCursor × Reply
  | .readAt _ offset request => readAt data fate offset.toNat request.buffer request.size.toNat
  | .read _ request => read data fate request.buffer request.size.toNat
  | .seek _ distance origin => seek data distance.toInt origin

variable [DecidableEq ι]

def callAll : (ι → FileCursor) → List (Call ι × Fate) → (ι → FileCursor) × List Reply
  | cursors, [] => (cursors, [])
  | cursors, (call, fate) :: calls =>
      let next := FileCursor.call data fate call (cursors call.file)
      let rest := callAll (Function.update cursors call.file next.1) calls
      (rest.1, next.2 :: rest.2)

end FileCursor

/-! ## Decoding -/

/-- The cache is the decoded copy of `content`, or can become it. -/
structure Holds (content : Bytes) (cache : Cache) : Prop where
  size : cache.size = content.length
  retained : cache.state = .empty → cache.package.isSome
  memory : ∀ data, cache.memory = some data → data = content
  disk : ∀ data, cache.disk = some data → data = content
  decoded : cache.state ≠ .empty → content ≠ [] → cache.memory.isSome ∨ cache.disk.isSome

section Decoding

variable {content : Bytes} {toDisk : Bool}

theorem decodeChunks_eq {answer : DecodeAnswer} {offset : Nat} {data result : Bytes}
    (inside : offset ≤ content.length) (begun : data = content.take offset)
    (done : decodeChunks content content.length toDisk answer offset data = .ok result) :
    result = content := by
  fun_induction decodeChunks content content.length toDisk answer offset data with
  | case1 => cases done
  | case2 => cases done
  | case3 => cases done
  | case4 offset data more chunk delivered answered target whole e written ih =>
    have whole : min (min delivered chunk) (content.length - offset) = chunk := by
      rw [← length_slice]
      exact not_not.mp whole
    have all : min delivered chunk = chunk := by omega
    apply ih (by omega) ?_ done
    rw [begun, show target = slice content offset chunk from all ▸ rfl, slice, List.take_add]
  | case5 offset data finished =>
    cases done
    rw [begun, List.take_of_length_le (by omega)]

theorem decodeData_eq {answer : DecodeAnswer} {cache : Cache} {data : Bytes}
    (size : cache.size = content.length)
    (done : decodeData content cache toDisk answer = .ok data) : data = content := by
  unfold decodeData at done
  split at done
  · cases done
  split at done
  · cases done
  split at done
  · cases done
  rename_i data' decoded
  rw [size] at decoded
  have same : data' = content := decodeChunks_eq (Nat.zero_le _) rfl decoded
  split at done
  · split at done
    · cases done
    · cases done
      exact same
  · cases done
    exact same

theorem Holds.decodedAs {cache : Cache} (holds : Holds content cache) {answer : DecodeAnswer} (stored : storage cache.size answer = .ok toDisk) :
    Holds content (Cache.decoded cache toDisk content) := by
  have sized : content ≠ [] → cache.size ≠ 0 := by
    rw [holds.size]
    exact fun nonempty none => nonempty (List.length_eq_zero_iff.mp none)
  refine ⟨holds.size, ?_, ?_, ?_, ?_⟩
  · intro still
    cases toDisk <;> cases still
  · intro data kept
    simp only [Cache.decoded] at kept
    split at kept
    · cases kept
      rfl
    · cases kept
  · intro data kept
    cases toDisk with
    | false => cases kept
    | true =>
        cases kept
        rfl
  · intro _ nonempty
    cases toDisk with
    | false => exact .inl (by simp [Cache.decoded, sized nonempty])
    | true => exact .inr rfl

theorem cachePrepare_holds {cache cache' : Cache} (holds : Holds content cache)
    {answer : DecodeAnswer} (prepared : cachePrepare content answer cache = .ok cache') :
    Holds content cache' ∧ cache'.state ≠ .empty := by
  unfold cachePrepare at prepared
  split at prepared
  · rename_i decoded
    cases prepared
    exact ⟨holds, decoded⟩
  unfold cacheDecode at prepared
  split at prepared
  · cases prepared
  rename_i toDisk stored
  split at prepared
  · cases prepared
  rename_i data done
  cases prepared
  obtain rfl := decodeData_eq holds.size done
  refine ⟨holds.decodedAs stored, ?_⟩
  cases toDisk <;> simp [Cache.decoded]

end Decoding

/-! ## Reading -/

theorem overlappedPosition_eq {position : Nat} (fits : position < 2 ^ 64) :
    overlappedPosition position = position := by
  unfold overlappedPosition
  omega

/-- What `ReadFile` may answer without delivering a byte. -/
def Fails (readFile : Nat → Except ErrorCode Nat) (received : Nat) : Prop :=
  (∃ e, readFile received = .error e) ∨ readFile received = .ok 0

/-- A read of a decoded entry delivers a part of it: all, unless a `ReadFile` fails. -/
structure Delivers (data : Bytes) (readFile : Nat → Except ErrorCode Nat) (offset size : Nat)
    (received : Received) : Prop where
  bound : received.read ≤ size
  data : received.data = slice data offset received.read
  whole : received.error = none → received.read = size
  failed : received.error ≠ none → ∃ k < size, Fails readFile k

theorem readDisk_delivers {disk : Bytes} {readFile : Nat → Except ErrorCode Nat}
    {offset size received : Nat} {data : Bytes} (inside : offset + size ≤ disk.length)
    (small : disk.length < 2 ^ 64) (bound : received ≤ size)
    (begun : data = slice disk offset received) :
    Delivers disk readFile offset size (readDisk disk readFile offset size received data) := by
  fun_induction readDisk disk readFile offset size received data with
  | case1 received data more e answered =>
    exact ⟨bound, begun, nofun, fun _ => ⟨received, more, .inl ⟨e, answered⟩⟩⟩
  | case2 received data more chunk count answered part nothing =>
    refine ⟨bound, begun, nofun, fun _ => ⟨received, more, .inr ?_⟩⟩
    have position : overlappedPosition (offset + received) = offset + received :=
      overlappedPosition_eq (by omega)
    have positive : 0 < chunk := by
      rw [show chunk = min (size - received) maxDword from rfl, maxDword]
      omega
    have none : min (min count chunk) (disk.length - (offset + received)) = 0 := by
      rw [← length_slice, ← position]
      exact nothing
    have zero : count = 0 := by omega
    rw [answered, zero]
  | case3 received data more chunk count answered part something ih =>
    have position : overlappedPosition (offset + received) = offset + received :=
      overlappedPosition_eq (by omega)
    have short : part.length ≤ size - received := by
      rw [show part = slice disk (overlappedPosition (offset + received)) (min count chunk) from rfl,
        length_slice, show chunk = min (size - received) maxDword from rfl]
      omega
    have next : part = slice disk (offset + received) part.length := by
      rw [show part = slice disk (overlappedPosition (offset + received)) (min count chunk) from rfl,
        position, length_slice, slice_clip]
    apply ih (by omega)
    rw [begun, next, slice_append, ← next]
  | case4 received data finished =>
    exact ⟨bound, begun, fun _ => by dsimp only; omega, fun failed => absurd rfl failed⟩

theorem cacheRead_delivers {content : Bytes} {cache : Cache} (holds : Holds content cache)
    (decoded : cache.state ≠ .empty) (small : content.length ≤ int64Max)
    {readFile : Nat → Except ErrorCode Nat} {offset size : Nat} (nonempty : content ≠ [])
    (inside : offset + size ≤ content.length) :
    Delivers content readFile offset size (cacheRead cache readFile offset size) := by
  unfold cacheRead
  split
  · rename_i memory kept
    obtain rfl := holds.memory memory kept
    exact ⟨le_rfl, rfl, fun _ => rfl, fun failed => absurd rfl failed⟩
  · rename_i absent
    obtain ⟨disk, kept⟩ : ∃ disk, cache.disk = some disk := by
      have := holds.decoded decoded nonempty
      simpa [absent, Option.isSome_iff_exists] using this
    rw [kept, Option.getD_some, holds.disk disk kept]
    rw [int64Max] at small
    exact readDisk_delivers inside (by omega) (Nat.zero_le _) (slice_zero _ _).symm

theorem cacheRead_clipped {content : Bytes} {cache : Cache} (holds : Holds content cache)
    (decoded : cache.state ≠ .empty) (small : content.length ≤ int64Max)
    {readFile : Nat → Except ErrorCode Nat} {offset : Nat} (inside : offset < content.length) (wanted : Nat) :
    Delivers content readFile offset (min wanted (content.length - offset))
      (cacheRead cache readFile offset (min wanted (content.length - offset))) :=
  cacheRead_delivers holds decoded small (List.ne_nil_of_length_pos (by omega)) (by omega)

def readFate (content : Bytes) (request : Request) (cache : Cache) (offset : Nat) : Fate :=
  match cachePrepare content request.decode cache with
  | .error e => .undecoded e
  | .ok cache =>
      if offset ≥ content.length then .served
      else
        let size := min request.size.toNat (content.length - offset)
        let received := cacheRead cache request.readFile offset size
        match received.error with
        | none => .served
        | some e => .cut received.read e

def cursorOf (file : VfsFile) : FileCursor := ⟨file.position, file.error⟩

theorem FileCursor.readAt_length (data : Bytes) (fate : Fate) (offset size : Nat) (buffer : Bool)
    (cursor : FileCursor) :
    (readAt data fate offset buffer size cursor).2.data.length ≤ data.length - offset := by
  unfold readAt
  split
  · exact Nat.zero_le _
  split
  · exact Nat.zero_le _
  split
  · exact Nat.zero_le _
  cases fate with
  | undecoded => exact Nat.zero_le _
  | served | cut =>
    simp only [delivered, length_slice]
    omega

theorem FileCursor.readAt_position (data : Bytes) (fate : Fate) (offset size : Nat) (buffer : Bool)
    (cursor : FileCursor) :
    (readAt data fate offset buffer size cursor).1.position = cursor.position := by
  unfold readAt
  split
  · rfl
  split
  · rfl
  split
  · rfl
  cases fate <;> rfl

theorem FileCursor.seek_count (data : Bytes) (distance : Int) (origin : UInt32)
    (cursor : FileCursor) :
    (seek data distance origin cursor).2.read = (seek data distance origin cursor).2.data.length := by
  unfold seek
  split
  · rfl
  split <;> rfl

/-- One read: the file is the cursor, and the cache still holds the entry. -/
structure Refines (content : Bytes) (file : VfsFile) (next : Cache × VfsFile × Reply)
    (cursor : FileCursor × Reply) : Prop where
  cache : Holds content next.1
  file : next.2.1 = { file with position := cursor.1.position, error := cursor.1.error }
  reply : next.2.2 = cursor.2
  count : cursor.2.read = cursor.2.data.length

section Calls

variable {content : Bytes} {cache : Cache} {file : VfsFile}

theorem vfsFileReadAt_refines (holds : Holds content cache) (small : content.length ≤ int64Max)
    (size : file.size = content.length) (offset : Nat) (request : Request) :
    Refines content file (vfsFileReadAt content offset request cache file)
      (FileCursor.readAt content (readFate content request cache offset) offset request.buffer
        request.size.toNat (cursorOf file)) := by
  unfold vfsFileReadAt FileCursor.readAt
  dsimp only
  by_cases unbuffered : request.size.toNat ≠ 0 ∧ ¬request.buffer
  · rw [if_pos unbuffered, if_pos unbuffered]
    exact ⟨holds, rfl, rfl, rfl⟩
  rw [if_neg unbuffered, if_neg unbuffered]
  by_cases sticky : file.error ≠ 0
  · have sticky' : (cursorOf file).error ≠ 0 := sticky
    rw [dif_pos sticky, dif_pos sticky']
    exact ⟨holds, rfl, rfl, rfl⟩
  have sticky' : ¬(cursorOf file).error ≠ 0 := sticky
  rw [dif_neg sticky, dif_neg sticky']
  by_cases empty : request.size.toNat = 0
  · rw [if_pos empty, if_pos empty]
    exact ⟨holds, rfl, rfl, rfl⟩
  rw [if_neg empty, if_neg empty]
  unfold readFate
  cases prepared : cachePrepare content request.decode cache with
  | error e => exact ⟨holds, rfl, rfl, rfl⟩
  | ok cache' =>
    obtain ⟨holds', decoded⟩ := cachePrepare_holds holds prepared
    dsimp only
    rw [size]
    by_cases past : offset ≥ content.length
    · rw [if_pos past, if_pos past]
      exact ⟨holds', rfl, by simp [slice_past past, FileCursor.delivered, Reply.nothing], rfl⟩
    · rw [if_neg past, if_neg past]
      have clipped : (if request.size.toNat > content.length - offset then content.length - offset
          else request.size.toNat) = min request.size.toNat (content.length - offset) := by
        split <;> omega
      rw [clipped]
      have delivers := @cacheRead_clipped _ _ holds' decoded small request.readFile offset
        (Nat.lt_of_not_ge past) request.size.toNat
      generalize cacheRead cache' request.readFile offset _ = received at delivers
      obtain ⟨failure, read, data⟩ := received
      have bound : read ≤ min request.size.toNat (content.length - offset) := delivers.bound
      obtain rfl : data = slice content offset read := delivers.data
      cases failure with
      | none =>
        obtain rfl : read = min request.size.toNat (content.length - offset) := delivers.whole rfl
        refine ⟨holds', rfl, ?_, rfl⟩
        simp [Received.reply, FileCursor.delivered, slice_clip]
      | some e =>
        refine ⟨holds', rfl, ?_, rfl⟩
        have within : min read request.size.toNat = read := by omega
        have counted : read = (slice content offset read).length := by
          rw [length_slice]
          omega
        show Received.reply _ = FileCursor.delivered (some e) (slice content offset (min read _))
        rw [within, FileCursor.delivered, ← counted]
        rfl

theorem vfsFileRead_refines (holds : Holds content cache) (small : content.length ≤ int64Max)
    (size : file.size = content.length) (bounded : file.position ≤ int64Max) (request : Request) :
    Refines content file (vfsFileRead content request cache file)
      (FileCursor.read content (readFate content request cache file.position) request.buffer
        request.size.toNat (cursorOf file)) := by
  have refines := vfsFileReadAt_refines holds small size file.position request
  have short := FileCursor.readAt_length content (readFate content request cache file.position)
    file.position request.size.toNat request.buffer (cursorOf file)
  rw [int64Max] at small bounded
  refine ⟨refines.cache, ?_, refines.reply, refines.count⟩
  have position := FileCursor.readAt_position content
    (readFate content request cache file.position) file.position request.size.toNat request.buffer
    (cursorOf file)
  rw [show (cursorOf file).position = file.position from rfl] at position
  simp only [vfsFileRead, refines.file, refines.reply, refines.count, position]
  rw [Nat.mod_eq_of_lt (by omega)]
  rfl

end Calls

/-! ## Seeking -/

theorem seekTarget_eq {base : Nat} (bounded : base ≤ int64Max) (distance : Int64) :
    seekTarget base distance.toInt = some (match move int64Max base distance.toInt with
      | some next => .ok next
      | none => .error (if distance.toInt < 0 then errorNegativeSeek else errorInvalidParameter)) := by
  have lower : -0x8000000000000000 ≤ distance.toInt := distance.le_toInt
  have upper : distance.toInt < 0x8000000000000000 := distance.toInt_lt
  generalize distance.toInt = distance at lower upper
  have limit : int64Max = 0x7FFFFFFFFFFFFFFF := rfl
  unfold seekTarget
  split
  · rename_i negative
    obtain ⟨m, opposite⟩ : ∃ m : Nat, distance = -m := ⟨distance.natAbs, by omega⟩
    rw [magnitude_eq negative lower opposite, Option.bind_some]
    split
    · rw [move_before (by omega)]
    · have exact : uint64 (base - m) = some (base - m) := uint64_eq (by omega) (by omega)
      rw [exact, opposite, move_back (by omega) bounded]
      rfl
  · rename_i nonnegative
    obtain ⟨n, rfl⟩ : ∃ n : Nat, distance = n := ⟨distance.toNat, by omega⟩
    have exact (within : n ≤ int64Max - base) : uint64 (base + n) = some (base + n) :=
      uint64_eq (by omega) (by omega)
    split
    · have room : uint64 (int64Max - base) = some (int64Max - base) :=
        uint64_eq (by omega) (by omega)
      rw [room, Option.bind_some]
      split
      · rw [move_beyond (by omega)]
      · rw [exact (by omega), move_forth (by omega) bounded]
        rfl
    · rw [exact (by omega), move_forth (by omega) bounded]
      rfl

theorem vfsFileSeek_refines {content : Bytes} {file : VfsFile} (seekable : file.zip = none)
    (size : file.size = content.length) (small : content.length ≤ int64Max)
    (bounded : file.position ≤ int64Max) (distance : Int64) (origin : UInt32) :
    let cursor := FileCursor.seek content distance.toInt origin (cursorOf file)
    vfsFileSeek distance origin file =
      some ({ file with position := cursor.1.position, error := cursor.1.error }, cursor.2) := by
  intro cursor
  have same : seekBase origin file = FileCursor.base content origin (cursorOf file) := by
    simp only [seekBase, FileCursor.base, cursorOf, size]
  have based : FileCursor.base content origin (cursorOf file) ≤ int64Max := by
    unfold FileCursor.base
    split
    · exact Nat.zero_le _
    split
    · exact bounded
    · exact small
  unfold cursor vfsFileSeek FileCursor.seek
  split
  · rfl
  · rw [same, seekTarget_eq based]
    cases moved : move int64Max (FileCursor.base content origin (cursorOf file)) distance.toInt with
    | none => rfl
    | some next => simp [seekable, cursorOf]

/-! ## Runs -/

def Call.reads (s : Shared ι) : Call ι → Option (Nat × Request)
  | .readAt _ offset request => some (offset.toNat, request)
  | .read i request => some ((s.files i).position, request)
  | .seek .. => none

def fateOf (entry : Entry) (s : Shared ι) (call : Call ι) : Fate :=
  match call.reads s with
  | none => .served
  | some (offset, request) => readFate entry.content request s.cache offset

structure Sound (entry : Entry) (s : Shared ι) : Prop where
  cache : Holds entry.content s.cache
  seekable : ∀ i, (s.files i).zip = none
  size : ∀ i, (s.files i).size = entry.content.length
  position : ∀ i, (s.files i).position ≤ int64Max

theorem FileCursor.call_position {data : Bytes} (small : data.length ≤ int64Max) (fate : Fate)
    (call : Call ι) {cursor : FileCursor} (bounded : cursor.position ≤ int64Max) :
    (FileCursor.call data fate call cursor).1.position ≤ int64Max := by
  cases call with
  | readAt _ offset request =>
    rw [FileCursor.call, FileCursor.readAt_position]
    exact bounded
  | read _ request =>
    have short := FileCursor.readAt_length data fate cursor.position request.size.toNat
      request.buffer cursor
    simp only [FileCursor.call, FileCursor.read]
    omega
  | seek _ distance origin =>
    show (FileCursor.seek data distance.toInt origin cursor).1.position ≤ int64Max
    unfold FileCursor.seek
    split
    · exact bounded
    split
    · rename_i next moved
      exact move_le moved
    · exact bounded

theorem Shared.opened_sound (entry : Entry) (c references : Nat) :
    Sound entry (Shared.opened entry c references : Shared ι) :=
  ⟨⟨rfl, fun _ => rfl, nofun, nofun, fun decoded => absurd rfl decoded⟩, fun _ => rfl, fun _ => rfl,
    fun _ => Nat.zero_le _⟩

variable [DecidableEq ι] {entry : Entry} {s t : Shared ι}

theorem perform_refines (sound : Sound entry s) (call : Call ι) :
    ∃ next : Cache × VfsFile × Reply, perform entry s call = some (s.update call.file next) ∧
      Refines entry.content (s.files call.file) next
        (FileCursor.call entry.content (fateOf entry s call) call (cursorOf (s.files call.file))) := by
  have small := entry.fits
  cases call with
  | readAt i offset request =>
    exact ⟨_, rfl, vfsFileReadAt_refines sound.cache small (sound.size i) offset.toNat request⟩
  | read i request =>
    exact ⟨_, rfl, vfsFileRead_refines sound.cache small (sound.size i) (sound.position i) request⟩
  | seek i distance origin =>
    have refines := vfsFileSeek_refines (sound.seekable i) (sound.size i) small (sound.position i)
      distance origin
    exact ⟨_, by rw [perform, refines]; rfl, sound.cache, rfl, rfl, FileCursor.seek_count ..⟩

theorem Sound.update (sound : Sound entry s) {call : Call ι} {next : Cache × VfsFile × Reply}
    (refines : Refines entry.content (s.files call.file) next
      (FileCursor.call entry.content (fateOf entry s call) call (cursorOf (s.files call.file)))) :
    Sound entry (s.update call.file next).1 := by
  have file (i : ι) : (s.update call.file next).1.files i =
      if i = call.file then next.2.1 else s.files i := by
    simp [Shared.update, Function.update_apply]
  refine ⟨refines.cache, ?_, ?_, ?_⟩
  · intro i
    rw [file]
    split
    · rw [refines.file]
      exact sound.seekable _
    · exact sound.seekable i
  · intro i
    rw [file]
    split
    · rw [refines.file]
      exact sound.size _
    · exact sound.size i
  · intro i
    rw [file]
    split
    · rw [refines.file]
      exact FileCursor.call_position entry.fits _ call (sound.position _)
    · exact sound.position i

def fates (entry : Entry) : Shared ι → List (Call ι) → List Fate
  | _, [] => []
  | s, call :: calls =>
      fateOf entry s call :: match perform entry s call with
        | none => []
        | some (s, _) => fates entry s calls

theorem performAll_refines (sound : Sound entry s) (calls : List (Call ι)) :
    ∃ t replies, performAll entry s calls = some (t, replies) ∧ Sound entry t ∧
      FileCursor.callAll entry.content (fun i => cursorOf (s.files i))
        (calls.zip (fates entry s calls)) = (fun i => cursorOf (t.files i), replies) := by
  induction calls generalizing s with
  | nil => exact ⟨s, [], rfl, sound, rfl⟩
  | cons call calls ih =>
    obtain ⟨next, performed, refines⟩ := perform_refines sound call
    obtain ⟨t, replies, ran, sound', cursors⟩ := ih (sound.update refines)
    have moved : (fun i => cursorOf ((s.update call.file next).1.files i)) =
        Function.update (fun i => cursorOf (s.files i)) call.file
          (FileCursor.call entry.content (fateOf entry s call) call
            (cursorOf (s.files call.file))).1 := by
      have file : cursorOf next.2.1 = (FileCursor.call entry.content (fateOf entry s call) call
          (cursorOf (s.files call.file))).1 := by
        rw [refines.file]
        rfl
      rw [← file]
      exact Function.comp_update cursorOf s.files call.file next.2.1
    refine ⟨t, next.2.2 :: replies, ?_, sound', ?_⟩
    · rw [performAll, performed, Option.bind_some]
      show (performAll entry (s.update call.file next).1 calls).map _ = _
      rw [ran]
      rfl
    · rw [fates, performed]
      show FileCursor.callAll _ _ ((call, fateOf entry s call) :: calls.zip _) = _
      rw [FileCursor.callAll]
      dsimp only
      rw [← moved, cursors, refines.reply]

end Yafsml.Vfs.Seekable
