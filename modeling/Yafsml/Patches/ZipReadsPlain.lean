import Yafsml.Patches.ZipReads
import Yafsml.Vfs.SeekableRuns

/-!
# ZIP handles are read-only files

What the calls do to a file of the archive is what they do to a read-only file that has its bytes in
one piece: a pointer that moves, and reads that deliver what is there. Whole sessions agree with
sessions of such files.
-/

namespace Yafsml.Patches.ZipReads

open Cursor MachineInt Vfs
open Seekable (FileCursor Fate Sound cursorOf readFate)

/-! ## A plain file -/

structure PlainFile where
  cursor : FileCursor
  file : OpenFile

namespace Plain

def refusal (apc : Bool) (file : OpenFile) (access : Dword) (overlapped : Option Overlapped) : Option ErrorCode :=
  if apc && file.completionPort.isSome then some errorInvalidParameter
  else if access &&& fileReadData = 0 then some errorAccessDenied
  else if overlapped.isNone && file.overlapped then some errorInvalidParameter
  else if overlapped.any fun o => !file.overlapped && int64Max < o.position.toNat then some errorInvalidParameter
  else none

def start (overlapped : Option Overlapped) (cursor : FileCursor) : Nat :=
  overlapped.elim cursor.position (·.position.toNat)

section Calls

variable (data : Vfs.Bytes) (identity : Nat) (fate : Fate)

def read (apc : Bool) (file : OpenFile) (access : Dword) (request : ReadRequest)
    (overlapped : Option Overlapped) (cursor : FileCursor) : FileCursor × Read :=
  match refusal apc file access overlapped with
  | some e => (cursor, finishRead overlapped (some e) 0 [])
  | none =>
      let (next, reply) :=
        FileCursor.readAt data fate (start overlapped cursor) request.buffer request.size.toNat cursor
      let received := reply.data.length
      let error :=
        if reply.error.isSome then reply.error
        else if overlapped.isSome && request.size ≠ 0 && received = 0 then some errorHandleEof
        else none
      ({ next with
          position := if overlapped.isSome && file.overlapped then cursor.position
            else start overlapped cursor + received },
        finishRead overlapped error received reply.data)

/-- The pointer moves to no place before the file, and to none behind `limit`. -/
def seek (distance : Int) (origin : UInt32) (limit : Nat) (cursor : FileCursor) : FileCursor × Except ErrorCode Nat :=
  let next := FileCursor.base data origin cursor + distance
  if origin > 2 then (cursor, .error errorInvalidParameter)
  else if next < 0 then (cursor, .error errorNegativeSeek)
  else if limit < next then (cursor, .error errorInvalidParameter)
  else ({ cursor with position := next.toNat }, .ok next.toNat)

def distance (low : Int32) (high : Option Int32) : Int :=
  high.elim low.toInt fun high => high.toInt * 2 ^ 32 + low.toUInt32.toNat

def halves (n : Nat) : UInt32 × UInt32 := (.ofNat n, .ofNat (n / 2 ^ 32))

def readFile (file : OpenFile) (access : Dword) (request : ReadRequest) (overlapped : Option Overlapped)
    (resetEvent post : Except ErrorCode Unit) (cursor : FileCursor) : FileCursor × Answer :=
  match if overlapped.any (·.event ≠ 0) then resetEvent else .ok () with
  | .error e => (cursor, .read ⟨some e, 0, [], overlapped⟩ [])
  | .ok _ =>
      let (cursor, done) := read data fate false file access request overlapped cursor
      let (signals, error) := completeRead file done overlapped post
      (cursor, .read { done with error := error } signals)

def readFileEx (file : OpenFile) (access : Dword) (request : ReadRequest) (overlapped : Option Overlapped)
    (callback : Bool) (queueApc : Except ErrorCode Unit) (cursor : FileCursor) : FileCursor × Answer :=
  if overlapped.isNone || !callback || (request.size ≠ 0 && !request.buffer) || !file.overlapped then
    (cursor, .read ⟨some errorInvalidParameter, 0, [], overlapped⟩ [])
  else
    let (cursor, done) := read data fate true file access request overlapped cursor
    (cursor, completeReadEx done queueApc)

def pointerAnswer (high : Option Int32) : Except ErrorCode Nat → Answer
  | .error e => .pointer invalidSetFilePointer none (some e)
  | .ok next => .pointer (halves next).1 (high.map fun _ => (halves next).2) none

def call {κ : Type*} (access : Dword) (p : PlainFile) : FileCall κ → PlainFile × Answer
  | .readFile _ request overlapped resetEvent post =>
      let (cursor, answer) := readFile data fate p.file access request overlapped resetEvent post p.cursor
      ({ p with cursor := cursor }, answer)
  | .readFileEx _ request overlapped callback queueApc =>
      let (cursor, answer) := readFileEx data fate p.file access request overlapped callback queueApc p.cursor
      ({ p with cursor := cursor }, answer)
  | .setFilePointerEx _ distance origin =>
      let (cursor, result) := seek data distance.toInt origin int64Max p.cursor
      ({ p with cursor := cursor }, .moved (result.map .ofNat))
  | .setFilePointer _ low high origin =>
      let (cursor, result) := seek data (distance low high) origin (if high.isSome then int64Max else maxDword) p.cursor
      ({ p with cursor := cursor }, pointerAnswer high result)
  | .getFileSizeEx _ size => (p, .size (if size then .ok (.ofNat data.length) else .error errorInvalidParameter))
  | .getFileSize _ high =>
      (p, .sizeLow (halves data.length).1 (if high then some (halves data.length).2 else none))
  | .getInfo _ info =>
      (p, if info then
          .info fileAttributeReadonly (halves data.length).2 (halves data.length).1 1 (halves identity).2
            (halves identity).1
        else .done (some errorInvalidParameter))
  | .getInfoEx _ kind info size => (p, infoExAnswer kind info size (.ofNat data.length) (.ofNat identity))
  | .completionPort _ port key answer =>
      let (file, result) := completionPortHooked port key answer p.file
      ({ p with file := file }, .port result)
  | .completionModes _ modes =>
      let (file, error) := completionModesHooked modes p.file
      ({ p with file := file }, .done error)
  | .refused _ how => (p, .done how.error)

end Calls

end Plain

def FileCall.handle {κ : Type*} : FileCall κ → κ
  | .readFile handle .. => handle
  | .readFileEx handle .. => handle
  | .setFilePointerEx handle .. => handle
  | .setFilePointer handle .. => handle
  | .getFileSizeEx handle .. => handle
  | .getFileSize handle .. => handle
  | .getInfo handle .. => handle
  | .getInfoEx handle .. => handle
  | .completionPort handle .. => handle
  | .completionModes handle .. => handle
  | .refused handle .. => handle

/-- The request of a call that reads, and where the caller placed it. -/
def FileCall.reads {κ : Type*} : FileCall κ → Option (ReadRequest × Option Overlapped)
  | .readFile _ request overlapped .. => some (request, overlapped)
  | .readFileEx _ request overlapped .. => some (request, overlapped)
  | _ => none

/-! ## The reader -/

section Reader

variable {ι : Type*} [DecidableEq ι] {entry : Seekable.Entry} {s t u : Seekable.Shared ι} {i : ι}
  {cursor cursor' : FileCursor}

structure Moves (entry : Seekable.Entry) (s t : Seekable.Shared ι) (i : ι) (cursor : FileCursor) : Prop where
  sound : Sound entry t
  file : t.files i = { s.files i with position := cursor.position, error := cursor.error }
  others : ∀ j, j ≠ i → t.files j = s.files j

omit [DecidableEq ι] in
theorem Moves.refl (sound : Sound entry s) : Moves entry s s i (cursorOf (s.files i)) := ⟨sound, rfl, fun _ _ => rfl⟩

omit [DecidableEq ι] in
theorem Moves.trans (first : Moves entry s t i cursor) (second : Moves entry t u i cursor') :
    Moves entry s u i cursor' := by
  refine ⟨second.sound, ?_, fun j other => (second.others j other).trans (first.others j other)⟩
  rw [second.file, first.file]

omit [DecidableEq ι] in
@[simp]
theorem Moves.cursorOf_eq (moves : Moves entry s t i cursor) : cursorOf (t.files i) = cursor := by
  rw [moves.file]
  rfl

theorem perform_moves (sound : Sound entry s) (call : Seekable.Call ι) :
    ∃ t reply, Seekable.perform entry s call = some (t, reply) ∧
      reply = (FileCursor.call entry.content (Seekable.fateOf entry s call) call (cursorOf (s.files call.file))).2 ∧
      reply.read = reply.data.length ∧
      Moves entry s t call.file
        (FileCursor.call entry.content (Seekable.fateOf entry s call) call (cursorOf (s.files call.file))).1 := by
  obtain ⟨next, performed, refines⟩ := Seekable.perform_refines sound call
  refine ⟨_, next.2.2, performed, refines.reply, ?_, sound.update refines, ?_, fun j other => ?_⟩
  · rw [refines.reply, refines.count]
  · simp only [Function.update_self]
    exact refines.file
  · exact Function.update_of_ne other ..

theorem perform_seek (sound : Sound entry s) (i : ι) (distance : Int64) (origin : UInt32) :
    ∃ t, Seekable.perform entry s (.seek i distance origin) =
        some (t, (FileCursor.seek entry.content distance.toInt origin (cursorOf (s.files i))).2) ∧
      t.cache = s.cache ∧
      Moves entry s t i (FileCursor.seek entry.content distance.toInt origin (cursorOf (s.files i))).1 := by
  obtain ⟨t, reply, performed, answered, _, moves⟩ := perform_moves sound (.seek i distance origin)
  refine ⟨t, by rw [performed, answered]; rfl, ?_, moves⟩
  rw [Seekable.perform, Option.map_eq_some_iff] at performed
  obtain ⟨next, _, made⟩ := performed
  cases made
  rfl

theorem perform_read (sound : Sound entry s) {i : ι} (at_i : cursorOf (s.files i) = cursor) (request : Seekable.Request) :
    ∃ t reply, Seekable.perform entry s (.read i request) = some (t, reply) ∧
      reply = (FileCursor.readAt entry.content (readFate entry.content request s.cache cursor.position)
        cursor.position request.buffer request.size.toNat cursor).2 ∧
      reply.read = reply.data.length ∧
      Moves entry s t i { (FileCursor.readAt entry.content (readFate entry.content request s.cache cursor.position)
        cursor.position request.buffer request.size.toNat cursor).1 with
          position := cursor.position + reply.data.length } := by
  subst at_i
  obtain ⟨t, reply, performed, answered, count, moves⟩ := perform_moves sound (.read i request)
  refine ⟨t, reply, performed, answered, count, ?_⟩
  rw [answered]
  exact moves

theorem toInt64_toInt {x : UInt64} (small : x.toNat ≤ int64Max) : x.toInt64.toInt = x.toNat := by
  have half : 2 * x.toBitVec.toNat < 2 ^ 64 := by
    rw [UInt64.toNat_toBitVec]
    unfold int64Max at small
    omega
  exact BitVec.toInt_eq_toNat_of_lt half

theorem seek_begin {data : Vfs.Bytes} {x : UInt64} (small : x.toNat ≤ int64Max) (cursor : FileCursor) :
    FileCursor.seek data x.toInt64.toInt 0 cursor =
      ({ cursor with position := x.toNat }, ⟨none, 0, [], some x.toNat⟩) := by
  have there : move int64Max 0 (x.toNat : Int) = some x.toNat := by
    have moved := move_forth (Nat.le_sub_of_add_le (by simpa using small)) (Nat.zero_le int64Max)
    rwa [Nat.zero_add] at moved
  simp [FileCursor.seek, FileCursor.base, toInt64_toInt small, there]

theorem readAt_moved {data : Vfs.Bytes} {fate : Fate} {offset size : Nat} {buffer : Bool} (position : Nat) (cursor : FileCursor) :
    FileCursor.readAt data fate offset buffer size { cursor with position := position } =
      ({ (FileCursor.readAt data fate offset buffer size cursor).1 with position := position },
        (FileCursor.readAt data fate offset buffer size cursor).2) := by
  unfold FileCursor.readAt
  split
  · rfl
  split
  · rfl
  split
  · rfl
  cases fate <;> rfl

def Plain.after (file : OpenFile) (overlapped : Option Overlapped) (received : Nat) (cursor : FileCursor) : Nat :=
  if overlapped.isSome && file.overlapped then cursor.position else Plain.start overlapped cursor + received

theorem readVfs_plain (sound : Sound entry s) (file : OpenFile) (i : ι) (request : Seekable.Request)
    {overlapped : Option Overlapped}
    (placed : overlapped.any (fun o => !file.overlapped && int64Max < o.position.toNat) = false) :
    ∃ t reply, readVfs entry file i request overlapped s = some (t, reply) ∧
      reply = (FileCursor.readAt entry.content
        (readFate entry.content request s.cache (Plain.start overlapped (cursorOf (s.files i))))
        (Plain.start overlapped (cursorOf (s.files i))) request.buffer request.size.toNat (cursorOf (s.files i))).2 ∧
      reply.read = reply.data.length ∧
      Moves entry s t i { (FileCursor.readAt entry.content
        (readFate entry.content request s.cache (Plain.start overlapped (cursorOf (s.files i))))
        (Plain.start overlapped (cursorOf (s.files i))) request.buffer request.size.toNat (cursorOf (s.files i))).1 with
          position := Plain.after file overlapped reply.data.length (cursorOf (s.files i)) } := by
  cases overlapped with
  | none => exact perform_read sound rfl request
  | some o =>
      cases async : file.overlapped with
      | true =>
          obtain ⟨t, reply, performed, answered, count, moves⟩ := perform_moves sound (.readAt i o.position request)
          refine ⟨t, reply, by simp only [readVfs, async, if_true, performed], answered, count, ?_⟩
          have kept := FileCursor.readAt_position entry.content
            (readFate entry.content request s.cache o.position.toNat) o.position.toNat request.size.toNat
            request.buffer (cursorOf (s.files i))
          simp only [Plain.after, Option.isSome_some, async, Bool.and_self, if_true]
          rw [← kept]
          exact moves
      | false =>
          have small : o.position.toNat ≤ int64Max := by simpa [async] using placed
          obtain ⟨t, sought, cache, there⟩ := perform_seek sound i o.position.toInt64 0
          rw [seek_begin small] at sought there
          obtain ⟨u, reply, performed, answered, count, moves⟩ :=
            perform_read there.sound there.cursorOf_eq request
          rw [readAt_moved, cache] at answered moves
          refine ⟨u, reply, ?_, answered, count, ?_⟩
          · simp only [readVfs, async, Bool.false_eq_true, if_false, Nat.not_lt.mpr small, sought,
              Option.bind_some, Option.isSome_none, performed]
          · simp only [Plain.after, async, Bool.and_false, Bool.false_eq_true, if_false]
            exact there.trans moves

theorem readFileData_plain (sound : Sound entry s) (apc : Bool) (file : OpenFile) (access : Dword) (i : ι)
    (request : ReadRequest) (overlapped : Option Overlapped) :
    let fate := readFate entry.content request.request s.cache (Plain.start overlapped (cursorOf (s.files i)))
    let next := Plain.read entry.content fate apc file access request overlapped (cursorOf (s.files i))
    ∃ t, readFileData entry apc file access i request overlapped s = some (t, next.2) ∧
      Moves entry s t i next.1 := by
  intro fate next
  have refused {e : ErrorCode} (refusal : Plain.refusal apc file access overlapped = some e) :
      next = (cursorOf (s.files i), finishRead overlapped (some e) 0 []) := by
    simp only [next, Plain.read, refusal]
  unfold readFileData
  by_cases queued : (apc && file.completionPort.isSome) = true
  · rw [if_pos queued, refused (by rw [Plain.refusal, if_pos queued])]
    exact ⟨s, rfl, .refl sound⟩
  rw [if_neg queued]
  by_cases denied : access &&& fileReadData = 0
  · rw [if_pos denied, refused (by rw [Plain.refusal, if_neg queued, if_pos denied])]
    exact ⟨s, rfl, .refl sound⟩
  rw [if_neg denied]
  by_cases synchronous : (overlapped.isNone && file.overlapped) = true
  · rw [if_pos synchronous, refused (by rw [Plain.refusal, if_neg queued, if_neg denied, if_pos synchronous])]
    exact ⟨s, rfl, .refl sound⟩
  rw [if_neg synchronous]
  by_cases far : overlapped.any (fun o => !file.overlapped && int64Max < o.position.toNat) = true
  · -- Only here has the code already left the checks.
    rw [refused (by rw [Plain.refusal, if_neg queued, if_neg denied, if_neg synchronous, if_pos far])]
    obtain ⟨o, rfl, far⟩ := Option.any_eq_true _ _ |>.mp far
    obtain ⟨sync, far⟩ : file.overlapped = false ∧ int64Max < o.position.toNat := by simpa using far
    refine ⟨s, ?_, .refl sound⟩
    simp [readVfs, sync, far, Seekable.Reply.failed]
  · have allowed : Plain.refusal apc file access overlapped = none := by
      rw [Plain.refusal, if_neg queued, if_neg denied, if_neg synchronous, if_neg far]
    obtain ⟨t, reply, performed, answered, count, moves⟩ :=
      readVfs_plain sound file i request.request (by simpa using far)
    have size : request.request.size.toNat = request.size.toNat := UInt32.toNat_toUInt64 ..
    rw [size] at answered moves
    refine ⟨t, ?_, ?_⟩
    · rw [performed, Option.map_some]
      dsimp only
      rw [count, answered]
      simp only [next, Plain.read, allowed]
      rfl
    · simp only [next, Plain.read, allowed]
      rw [answered] at moves
      exact moves

theorem seek_cases {data : Vfs.Bytes} {origin : UInt32} (bounded : FileCursor.base data origin cursor ≤ int64Max)
    (distance : Int) :
    (∃ e, FileCursor.seek data distance origin cursor = (cursor, .failed e) ∧
      ∀ limit ≤ int64Max, Plain.seek data distance origin limit cursor = (cursor, .error e)) ∨
    ∃ next ≤ int64Max,
      FileCursor.seek data distance origin cursor = ({ cursor with position := next }, ⟨none, 0, [], some next⟩) ∧
      ∀ limit, Plain.seek data distance origin limit cursor =
        if limit < next then (cursor, .error errorInvalidParameter) else ({ cursor with position := next }, .ok next) := by
  unfold FileCursor.seek Plain.seek
  by_cases unknown : origin > 2
  · exact .inl ⟨errorInvalidParameter, by rw [if_pos unknown], fun limit _ => by rw [if_pos unknown]⟩
  simp only [if_neg unknown]
  generalize FileCursor.base data origin cursor = base at *
  by_cases before : base + distance < 0
  · refine .inl ⟨errorNegativeSeek, ?_, fun limit _ => by rw [if_pos before]⟩
    rw [move_before before]
    simp only [show distance < 0 by omega, if_true]
  simp only [if_neg before]
  by_cases beyond : (int64Max : Int) < base + distance
  · refine .inl ⟨errorInvalidParameter, ?_, fun limit low => if_pos (by omega)⟩
    rw [move_beyond beyond]
    simp only [show ¬ distance < 0 by omega, if_false]
  · refine .inr ⟨(base + distance).toNat, by omega, ?_, fun limit => ?_⟩
    · rw [move, if_pos (by omega)]
    · have same : (limit : Int) < base + distance ↔ limit < (base + distance).toNat := by omega
      simp only [same]

theorem seekFilePosition_plain (sound : Sound entry s) (i : ι) (distance : Int64) (origin : UInt32) {limit : Nat}
    (low : limit ≤ int64Max) :
    let next := Plain.seek entry.content distance.toInt origin limit (cursorOf (s.files i))
    ∃ t, seekFilePosition entry i distance origin limit s = some (t, next.2.map .ofNat) ∧ Moves entry s t i next.1 := by
  intro next
  have pointer := sound.position i
  have base : FileCursor.base entry.content origin (cursorOf (s.files i)) ≤ int64Max := by
    have small := entry.fits
    unfold FileCursor.base
    split_ifs
    · exact Nat.zero_le _
    · exact pointer
    · exact small
  obtain ⟨t, current, -, here⟩ := perform_seek sound i 0 1
  have stays : FileCursor.seek entry.content (0 : Int64).toInt 1 (cursorOf (s.files i)) =
      (cursorOf (s.files i), ⟨none, 0, [], some (s.files i).position⟩) := by
    have moved : move int64Max (s.files i).position 0 = some (s.files i).position :=
      move_forth (Nat.zero_le _) pointer
    simp [FileCursor.seek, FileCursor.base, cursorOf, moved]
  rw [stays] at current here
  obtain ⟨u, sought, -, there⟩ := perform_seek here.sound i distance origin
  rw [here.cursorOf_eq] at sought there
  unfold seekFilePosition
  rw [current, Option.bind_some]
  dsimp only
  rw [sought, Option.bind_some]
  dsimp only
  rcases seek_cases base distance.toInt with ⟨e, moved, plain⟩ | ⟨place, fits, moved, plain⟩
  · rw [moved] at there ⊢
    refine ⟨u, ?_, ?_⟩
    · simp [next, plain limit low, Seekable.Reply.failed, Except.map]
    · simpa only [next, plain limit low] using here.trans there
  · rw [moved] at there ⊢
    simp only [next, plain limit, Option.getD_some]
    by_cases far : limit < place
    · have back : (UInt64.ofNat (s.files i).position).toNat = (s.files i).position := by
        have fits : (s.files i).position < UInt64.size := by
          unfold int64Max at pointer
          rw [UInt64.size]
          omega
        exact UInt64.toNat_ofNat_of_lt' fits
      obtain ⟨v, restored, -, home⟩ :=
        perform_seek there.sound i (UInt64.ofNat (s.files i).position).toInt64 0
      rw [seek_begin (by rwa [back]), there.cursorOf_eq, back] at home
      refine ⟨v, ?_, ?_⟩
      · simp only [gt_iff_lt, far, if_true, restored, Option.map_some]
        rfl
      · rw [if_pos far]
        exact (here.trans there).trans home
    · refine ⟨u, ?_, ?_⟩
      · simp [far, Except.map]
      · simpa only [if_neg far] using here.trans there

end Reader

/-! ## Sessions -/

section Sessions

variable {ι κ : Type*} {entry : Seekable.Entry} {handles : κ → ι × Dword} {s t : Session ι}

def Session.plain (s : Session ι) (i : ι) : PlainFile := ⟨cursorOf (s.reader.files i), s.files i⟩

structure Session.Sound (entry : Seekable.Entry) (s : Session ι) : Prop where
  reader : Seekable.Sound entry s.reader
  identity : ∀ i, (s.reader.files i).identity = entry.identity

theorem Session.opened_sound (entry : Seekable.Entry) (c references : Nat) (flags : ι → Dword) :
    (Session.opened entry c references flags).Sound entry :=
  ⟨Seekable.Shared.opened_sound entry c references, fun _ => rfl⟩

def fateOf (entry : Seekable.Entry) (handles : κ → ι × Dword) (s : Session ι) (call : FileCall κ) : Fate :=
  call.reads.elim .served fun (request, overlapped) =>
    readFate entry.content request.request s.reader.cache
      (Plain.start overlapped (s.plain (handles call.handle).1).cursor)

def Session.plainCall (entry : Seekable.Entry) (handles : κ → ι × Dword) (s : Session ι) (call : FileCall κ) :
    PlainFile × Answer :=
  Plain.call entry.content entry.identity (fateOf entry handles s call) (handles call.handle).2
    (s.plain (handles call.handle).1) call

variable [DecidableEq ι]

theorem Session.Sound.moves (sound : s.Sound entry) {reader : Seekable.Shared ι} {i : ι} {cursor : FileCursor}
    (moves : Moves entry s.reader reader i cursor) :
    ({ s with reader := reader } : Session ι).Sound entry ∧
      ({ s with reader := reader } : Session ι).plain = Function.update s.plain i ⟨cursor, s.files i⟩ := by
  refine ⟨⟨moves.sound, fun j => ?_⟩, funext fun j => ?_⟩
  · by_cases here : j = i
    · subst here
      rw [moves.file]
      exact sound.identity j
    · rw [moves.others j here]
      exact sound.identity j
  · by_cases here : j = i
    · subst here
      simp [Session.plain, moves.cursorOf_eq]
    · simp [Session.plain, moves.others j here, here]

omit [DecidableEq ι] in
theorem Session.Sound.sizeOf_eq (sound : s.Sound entry) (i : ι) :
    sizeOf s.reader i = UInt64.ofNat entry.content.length := by
  rw [sizeOf, sound.reader.size]

omit [DecidableEq ι] in
theorem Session.Sound.identityOf_eq (sound : s.Sound entry) (i : ι) :
    identityOf s.reader i = UInt64.ofNat entry.identity := by
  rw [identityOf, sound.identity]

theorem largeInteger_toInt (low : Int32) (high : Option Int32) :
    (largeInteger low high).toInt = Plain.distance low high := by
  cases high with
  | none => simp [largeInteger, Plain.distance]
  | some high =>
      have joined := BitVec.toInt_append (x := high.toBitVec) (y := low.toBitVec)
      rw [if_neg (by decide)] at joined
      rw [largeInteger, Plain.distance, Option.elim_some, mul_comm]
      exact joined

theorem highDword_ofNat (n : Nat) : highDword (.ofNat n) = .ofNat (n / 2 ^ 32) := by
  apply UInt32.toNat_inj.mp
  simp [highDword, Nat.shiftRight_eq_div_pow]
  omega

theorem toUInt32_ofNat (n : Nat) : (UInt64.ofNat n).toUInt32 = .ofNat n := by
  apply UInt32.toNat_inj.mp
  simp

theorem pointerAnswer_map (high : Option Int32) (result : Except ErrorCode Nat) :
    pointerAnswer high (result.map .ofNat) = Plain.pointerAnswer high result := by
  cases result with
  | error e => rfl
  | ok next => simp [Except.map, pointerAnswer, Plain.pointerAnswer, Plain.halves, highDword_ofNat]

theorem Session.plain_file {i : ι} {file : OpenFile} :
    ({ s with files := Function.update s.files i file } : Session ι).plain =
      Function.update s.plain i ⟨(s.plain i).cursor, file⟩ := by
  funext j
  by_cases here : j = i
  · subst here
    simp [Session.plain]
  · simp [Session.plain, here]

theorem readFileHooked_plain (sound : s.Sound entry) (i : ι) (access : Dword) (request : ReadRequest)
    (overlapped : Option Overlapped) (resetEvent post : Except ErrorCode Unit) :
    let fate := readFate entry.content request.request s.reader.cache (Plain.start overlapped (s.plain i).cursor)
    let next := Plain.readFile entry.content fate (s.files i) access request overlapped resetEvent post
      (s.plain i).cursor
    ∃ reader, readFileHooked entry (s.files i) access i request overlapped resetEvent post s.reader =
        some (reader, next.2) ∧ Moves entry s.reader reader i next.1 := by
  intro fate next
  unfold readFileHooked
  cases reset : if overlapped.any (·.event ≠ 0) then resetEvent else .ok () with
  | error e =>
      simp only [next, Plain.readFile, reset]
      exact ⟨s.reader, rfl, .refl sound.reader⟩
  | ok _ =>
      obtain ⟨reader, done, moves⟩ :=
        readFileData_plain sound.reader false (s.files i) access i request overlapped
      simp only [next, Plain.readFile, reset, done]
      exact ⟨reader, rfl, moves⟩

theorem readFileExHooked_plain (sound : s.Sound entry) (i : ι) (access : Dword) (request : ReadRequest)
    (overlapped : Option Overlapped) (callback : Bool) (queueApc : Except ErrorCode Unit) :
    let fate := readFate entry.content request.request s.reader.cache (Plain.start overlapped (s.plain i).cursor)
    let next := Plain.readFileEx entry.content fate (s.files i) access request overlapped callback queueApc
      (s.plain i).cursor
    ∃ reader, readFileExHooked entry (s.files i) access i request overlapped callback queueApc s.reader =
        some (reader, next.2) ∧ Moves entry s.reader reader i next.1 := by
  intro fate next
  unfold readFileExHooked
  by_cases invalid : (overlapped.isNone || !callback || (request.size ≠ 0 && !request.buffer) ||
      !(s.files i).overlapped) = true
  · simp only [next, Plain.readFileEx, invalid, if_true]
    exact ⟨s.reader, rfl, .refl sound.reader⟩
  · obtain ⟨reader, done, moves⟩ :=
      readFileData_plain sound.reader true (s.files i) access i request overlapped
    simp only [next, Plain.readFileEx, invalid, done, Option.map_some, Bool.false_eq_true, if_false]
    exact ⟨reader, rfl, moves⟩

theorem perform_plain (handles : κ → ι × Dword) (sound : s.Sound entry) (call : FileCall κ) :
    ∃ t answer, perform entry handles s call = some (t, answer) ∧ t.Sound entry ∧
      t.plain = Function.update s.plain (handles call.handle).1 (s.plainCall entry handles call).1 ∧
      answer = (s.plainCall entry handles call).2 := by
  have stays (i : ι) : s.plain = Function.update s.plain i (s.plain i) := (Function.update_eq_self ..).symm
  cases call with
  | readFile handle request overlapped resetEvent post =>
      obtain ⟨reader, done, moves⟩ :=
        readFileHooked_plain sound (handles handle).1 (handles handle).2 request overlapped resetEvent post
      obtain ⟨sound', plain⟩ := sound.moves moves
      exact ⟨_, _, by rw [perform, done]; rfl, sound', plain, rfl⟩
  | readFileEx handle request overlapped callback queueApc =>
      obtain ⟨reader, done, moves⟩ :=
        readFileExHooked_plain sound (handles handle).1 (handles handle).2 request overlapped callback queueApc
      obtain ⟨sound', plain⟩ := sound.moves moves
      exact ⟨_, _, by rw [perform, done]; rfl, sound', plain, rfl⟩
  | setFilePointerEx handle distance origin =>
      obtain ⟨reader, sought, moves⟩ := seekFilePosition_plain sound.reader (handles handle).1 distance origin le_rfl
      obtain ⟨sound', plain⟩ := sound.moves moves
      exact ⟨_, _, by rw [perform, sought]; rfl, sound', plain, rfl⟩
  | setFilePointer handle low high origin =>
      have limit : (if high.isSome then int64Max else maxDword) ≤ int64Max := by
        split <;> decide
      obtain ⟨reader, sought, moves⟩ :=
        seekFilePosition_plain sound.reader (handles handle).1 (largeInteger low high) origin limit
      obtain ⟨sound', plain⟩ := sound.moves moves
      refine ⟨_, _, by rw [perform, sought]; rfl, sound', ?_, ?_⟩
      · rw [plain, largeInteger_toInt]
        rfl
      · rw [pointerAnswer_map, largeInteger_toInt]
        rfl
  | getFileSizeEx handle size =>
      refine ⟨_, _, rfl, sound, stays _, ?_⟩
      rw [sound.sizeOf_eq]
      rfl
  | getFileSize handle high =>
      refine ⟨_, _, rfl, sound, stays _, ?_⟩
      rw [sound.sizeOf_eq, highDword_ofNat, toUInt32_ofNat]
      rfl
  | getInfo handle info =>
      refine ⟨_, _, rfl, sound, stays _, ?_⟩
      rw [sound.sizeOf_eq, sound.identityOf_eq, highDword_ofNat, highDword_ofNat, toUInt32_ofNat, toUInt32_ofNat]
      rfl
  | getInfoEx handle kind info size =>
      refine ⟨_, _, rfl, sound, stays _, ?_⟩
      rw [sound.sizeOf_eq, sound.identityOf_eq]
      rfl
  | completionPort handle port key answer =>
      exact ⟨_, _, rfl, ⟨sound.reader, sound.identity⟩, Session.plain_file, rfl⟩
  | completionModes handle modes =>
      exact ⟨_, _, rfl, ⟨sound.reader, sound.identity⟩, Session.plain_file, rfl⟩
  | refused handle how => exact ⟨_, _, rfl, sound, stays _, rfl⟩

end Sessions

section Runs

variable {ι κ : Type*} [DecidableEq ι] {entry : Seekable.Entry} {handles : κ → ι × Dword} {s t u : Session ι}

/-! ## Plain files -/

def Plain.callAll (data : Vfs.Bytes) (identity : Nat) (handles : κ → ι × Dword) :
    (ι → PlainFile) → List (FileCall κ × Fate) → (ι → PlainFile) × List Answer
  | files, [] => (files, [])
  | files, (call, fate) :: calls =>
      let next := Plain.call data identity fate (handles call.handle).2 (files (handles call.handle).1) call
      let rest := Plain.callAll data identity handles (Function.update files (handles call.handle).1 next.1) calls
      (rest.1, next.2 :: rest.2)

def fates (entry : Seekable.Entry) (handles : κ → ι × Dword) : Session ι → List (FileCall κ) → List Fate
  | _, [] => []
  | s, call :: calls =>
      fateOf entry handles s call ::
        (perform entry handles s call).elim [] fun next => fates entry handles next.1 calls

/-- The system and the archive deliver what they are asked for. -/
structure ReadRequest.Healthy (request : ReadRequest) (entry : Seekable.Entry) : Prop where
  decode : request.decode.Healthy entry.content.length
  readFile : ∀ k, ¬ Seekable.Fails request.readFile k

def FileCall.Healthy (call : FileCall κ) (entry : Seekable.Entry) : Prop :=
  ∀ request overlapped, call.reads = some (request, overlapped) → request.Healthy entry

omit [DecidableEq ι] in
theorem fateOf_served (sound : s.Sound entry) {call : FileCall κ} (healthy : call.Healthy entry) :
    fateOf entry handles s call = .served := by
  cases reads : call.reads with
  | none => simp [fateOf, reads]
  | some read =>
      obtain ⟨decode, readFile⟩ := healthy read.1 read.2 reads
      simp only [fateOf, reads, Option.elim_some]
      exact Seekable.readFate_served sound.reader.cache entry.fits decode readFile

theorem performAll_plain (handles : κ → ι × Dword) (sound : s.Sound entry) (calls : List (FileCall κ)) :
    ∃ t answers, performAll entry handles s calls = some (t, answers) ∧ t.Sound entry ∧
      Plain.callAll entry.content entry.identity handles s.plain (calls.zip (fates entry handles s calls)) =
        (t.plain, answers) ∧
      ∀ (k : Nat) (call : FileCall κ), calls[k]? = some call → call.Healthy entry → (fates entry handles s calls)[k]? = some .served := by
  induction calls generalizing s with
  | nil => exact ⟨s, [], rfl, sound, rfl, by simp⟩
  | cons call calls ih =>
      obtain ⟨t, answer, performed, sound', plain, answered⟩ := perform_plain handles sound call
      obtain ⟨u, answers, ran, sound'', agree, served⟩ := ih sound'
      have listed : fates entry handles s (call :: calls) = fateOf entry handles s call :: fates entry handles t calls := by
        rw [fates, performed]
        rfl
      refine ⟨u, answer :: answers, ?_, sound'', ?_, ?_⟩
      · rw [performAll, performed, Option.bind_some]
        dsimp only
        rw [ran]
        rfl
      · rw [listed, List.zip_cons_cons, Plain.callAll, answered]
        simp only [Session.plainCall] at plain
        simp only [Session.plainCall, ← plain, agree]
      · intro k here located healthy
        rw [listed]
        cases k with
        | zero =>
            rw [List.getElem?_cons_zero, Option.some.injEq] at located ⊢
            subst located
            exact fateOf_served sound healthy
        | succ k => exact served k here (by simpa using located) healthy

def FileCall.size : FileCall κ → Nat
  | .readFile _ request .. => request.size.toNat
  | .readFileEx _ request .. => request.size.toNat
  | _ => 0

def Answer.data : Answer → Vfs.Bytes
  | .read result _ => result.data
  | _ => []

/-- A `ReadFile` at the pointer, by who may read. -/
def FileCall.ReadsOn (call : FileCall κ) (entry : Seekable.Entry) (handles : κ → ι × Dword) : Prop :=
  ∃ handle request resetEvent post, call = .readFile handle request none resetEvent post ∧
    (handles handle).2 &&& fileReadData ≠ 0 ∧ request.buffer = true ∧ request.Healthy entry

def wanted (handles : κ → ι × Dword) (i : ι) (calls : List (FileCall κ)) : Nat :=
  ((calls.filter fun call => (handles call.handle).1 = i).map FileCall.size).sum

def delivered (handles : κ → ι × Dword) (i : ι) (exchange : List (FileCall κ × Answer)) : Vfs.Bytes :=
  (exchange.filter fun e => (handles e.1.handle).1 = i).flatMap fun e => e.2.data

theorem readAt_stays {data : Vfs.Bytes} {offset size : Nat} {buffer : Bool} {cursor : FileCursor} :
    (FileCursor.readAt data .served offset buffer size cursor).1 = cursor := by
  unfold FileCursor.readAt
  split
  · rfl
  split
  · rfl
  split <;> rfl

omit [DecidableEq ι] in
theorem plainCall_readsOn (sound : s.Sound entry) {call : FileCall κ} (reads : call.ReadsOn entry handles)
    (sync : (s.files (handles call.handle).1).overlapped = false)
    (fresh : (s.reader.files (handles call.handle).1).error = 0) :
    let position := (s.reader.files (handles call.handle).1).position
    let data := slice entry.content position call.size
    s.plainCall entry handles call =
      (⟨⟨position + data.length, 0⟩, s.files (handles call.handle).1⟩, .read ⟨none, data.length, data, none⟩ []) := by
  obtain ⟨handle, request, resetEvent, post, rfl, granted, buffer, healthy⟩ := reads
  intro position data
  have served : fateOf entry handles s (.readFile handle request none resetEvent post) = .served := by
    apply fateOf_served sound
    intro request' overlapped same
    cases same
    exact healthy
  have allowed : Plain.refusal false (s.files (handles handle).1) (handles handle).2 none = none := by
    simp only [FileCall.handle] at sync
    rw [Plain.refusal, if_neg (by simp), if_neg granted, if_neg (by simp [sync]), if_neg (by simp)]
  have valid : ¬ (request.size.toNat ≠ 0 ∧ ¬ request.buffer = true) := by simp [buffer]
  have cursor : (s.plain (handles handle).1).cursor = ⟨position, 0⟩ := by
    rw [Session.plain, Seekable.cursorOf]
    exact congrArg _ fresh
  have answered : (FileCursor.readAt entry.content .served position request.buffer request.size.toNat
      ⟨position, 0⟩).2 = FileCursor.delivered none data := FileCursor.readAt_served valid rfl
  have short : data.length < 2 ^ 32 := by
    have bound : data.length ≤ request.size.toNat := by
      simp only [data, length_slice, FileCall.size]
      exact Nat.min_le_left ..
    exact bound.trans_lt request.size.toNat_lt
  have read : Plain.read entry.content .served false (s.files (handles handle).1) (handles handle).2 request none
      ⟨position, 0⟩ = (⟨position + data.length, 0⟩, ⟨none, data.length, data, none⟩) := by
    simp only [Plain.read, allowed, Plain.start, Option.elim_none, answered, readAt_stays, FileCursor.delivered]
    simpa [finishRead] using short
  simp only [Session.plainCall, Plain.call, FileCall.handle, served, Plain.readFile, Option.any_none, Bool.false_eq_true,
    if_false, cursor]
  have file : (s.plain (handles handle).1).file = s.files (handles handle).1 := rfl
  rw [file, read]
  rfl

theorem plain_other {call : FileCall κ} {i : ι} {next : PlainFile} (other : (handles call.handle).1 ≠ i)
    (plain : t.plain = Function.update s.plain (handles call.handle).1 next) : t.plain i = s.plain i := by
  rw [plain, Function.update_of_ne (Ne.symm other)]

theorem performAll_through {i : ι} (sound : s.Sound entry) (sync : (s.plain i).file.overlapped = false)
    (fresh : (s.plain i).cursor.error = 0) (calls : List (FileCall κ))
    (reads : ∀ call ∈ calls, (handles call.handle).1 = i → call.ReadsOn entry handles) :
    let data := slice entry.content (s.plain i).cursor.position (wanted handles i calls)
    ∃ t answers, performAll entry handles s calls = some (t, answers) ∧
      delivered handles i (calls.zip answers) = data ∧
      (t.plain i).cursor.position = (s.plain i).cursor.position + data.length ∧
      ∀ e ∈ calls.zip answers, (handles e.1.handle).1 = i →
        ∃ data, e.2 = .read ⟨none, data.length, data, none⟩ [] := by
  induction calls generalizing s with
  | nil => exact ⟨s, [], rfl, by simp [delivered, wanted], by simp [wanted], by simp⟩
  | cons call calls ih =>
      obtain ⟨t, answer, performed, sound', plain, answered⟩ := perform_plain handles sound call
      have later : ∀ call ∈ calls, (handles call.handle).1 = i → call.ReadsOn entry handles :=
        fun call among => reads call (List.mem_cons_of_mem _ among)
      by_cases here : (handles call.handle).1 = i
      · subst here
        rw [plainCall_readsOn sound (reads call List.mem_cons_self rfl) sync fresh] at plain answered
        have at_i := congrFun plain (handles call.handle).1
        rw [Function.update_self] at at_i
        obtain ⟨u, answers, ran, rest, moved, clean⟩ := ih sound' (by rw [at_i]; exact sync) (by rw [at_i]) later
        rw [at_i] at rest moved
        have size : wanted handles (handles call.handle).1 (call :: calls) =
            call.size + wanted handles (handles call.handle).1 calls := by simp [wanted]
        refine ⟨u, answer :: answers, ?_, ?_, ?_, ?_⟩
        · rw [performAll, performed, Option.bind_some]
          dsimp only
          rw [ran]
          rfl
        · rw [size, ← slice_resume, answered]
          simp only [delivered, List.zip_cons_cons] at rest ⊢
          rw [List.filter_cons_of_pos (by simp), List.flatMap_cons]
          exact congrArg _ rest
        · rw [size, ← slice_resume, List.length_append, moved]
          exact Nat.add_assoc ..
        · intro e among
          rw [List.zip_cons_cons, List.mem_cons] at among
          rcases among with rfl | among
          · exact fun _ => ⟨_, answered⟩
          · exact clean e among
      · have at_i := plain_other here plain
        obtain ⟨u, answers, ran, rest, moved, clean⟩ := ih sound' (by rwa [at_i]) (by rwa [at_i]) later
        rw [at_i] at rest moved
        refine ⟨u, answer :: answers, ?_, ?_, ?_, ?_⟩
        · rw [performAll, performed, Option.bind_some]
          dsimp only
          rw [ran]
          rfl
        · simpa [delivered, wanted, here] using rest
        · simpa [wanted, here] using moved
        · intro e among
          rw [List.zip_cons_cons, List.mem_cons] at among
          rcases among with rfl | among
          · exact fun same => absurd same here
          · exact clean e among

/-- The reads on a file that nobody else moves deliver the entry from its first byte on, whatever happens
on other files, and none fails while the archive is sound. -/
theorem zip_file_reads_through (entry : Seekable.Entry) (handles : κ → ι × Dword) (flags : ι → Dword)
    (c references : Nat) (calls : List (FileCall κ)) (i : ι) (sync : flags i &&& fileFlagOverlapped = 0)
    (reads : ∀ call ∈ calls, (handles call.handle).1 = i → call.ReadsOn entry handles) :
    ∃ s answers, performAll entry handles (.opened entry c references flags) calls = some (s, answers) ∧
      delivered handles i (calls.zip answers) = entry.content.take (wanted handles i calls) ∧
      ∀ e ∈ calls.zip answers, (handles e.1.handle).1 = i →
        ∃ data, e.2 = .read ⟨none, data.length, data, none⟩ [] := by
  have sound := Session.opened_sound entry c references flags
  have plain : (Session.opened entry c references flags).plain i = ⟨⟨0, 0⟩, .opened (flags i)⟩ := rfl
  have sync' : (OpenFile.opened (flags i)).overlapped = false := by
    rw [OpenFile.overlapped, OpenFile.opened, sync]
    rfl
  obtain ⟨s, answers, ran, all, _, clean⟩ :=
    performAll_through sound (by rw [plain]; exact sync') (by rw [plain]) calls reads
  exact ⟨s, answers, ran, all, clean⟩

private def threeBytes : Seekable.Entry := ⟨⟨0, []⟩, 0, 7, [1, 2, 3], by decide⟩

private def soundRead (size : UInt32) : ReadRequest :=
  ⟨true, size, ⟨true, true, .ok (), true, .ok (), fun _ => .ok 65536, fun _ => .ok (), .ok ()⟩, fun _ => .ok 1⟩

private theorem soundRead_healthy (size : UInt32) : (soundRead size).Healthy threeBytes where
  decode := ⟨rfl, rfl, rfl, fun _ _ => ⟨65536, rfl, Nat.min_le_right ..⟩, fun _ => rfl, rfl⟩
  readFile k := by simp [soundRead, Seekable.Fails]

private def inPieces : List (FileCall Bool) :=
  [.readFile true (soundRead 2) none (.ok ()) (.ok ()), .setFilePointerEx false 1 2,
    .readFile true (soundRead 5) none (.ok ()) (.ok ())]

theorem zip_file_reads_through_pieces :
    ∃ s answers, performAll threeBytes (fun file : Bool => (file, 1)) (.opened threeBytes 0 2 fun _ => 0) inPieces =
        some (s, answers) ∧
      delivered (fun file : Bool => (file, 1)) true (inPieces.zip answers) = [1, 2, 3] := by
  have reads (size : UInt32) : FileCall.ReadsOn (.readFile true (soundRead size) none (.ok ()) (.ok ())) threeBytes
      fun file : Bool => (file, (1 : Dword)) :=
    ⟨true, soundRead size, .ok (), .ok (), rfl, by decide, rfl, soundRead_healthy size⟩
  obtain ⟨s, answers, ran, all, _⟩ := zip_file_reads_through threeBytes (fun file : Bool => (file, 1)) (fun _ => 0) 0 2
    inPieces true (by decide) (by simpa [inPieces, FileCall.handle] using ⟨reads 2, reads 5⟩)
  exact ⟨s, answers, ran, all⟩

end Runs

end Yafsml.Patches.ZipReads
