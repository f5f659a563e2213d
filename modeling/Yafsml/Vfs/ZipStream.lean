import Mathlib.Algebra.GroupWithZero.Nat
import Yafsml.Foundation.Crc32
import Yafsml.Foundation.Cursor
import Yafsml.Foundation.MachineInt
import Yafsml.Foundation.Loops
import Yafsml.Vfs.ErrorCode

/-!
# ZIP streams

`zip_stream_open` and `zip_stream_read`: the bytes of a stored or deflated entry, from front to back. The
inflater and how far the archive file can be read are parameters.
-/

namespace Yafsml.Vfs.ZipStream

open Crc32 Cursor MachineInt

/-! ## The archive and the inflater -/

/-- An archive file; `available` is how many bytes at an offset `ReadFile` delivers before it stops. -/
structure Archive (α : Type*) where
  bytes : List UInt8
  available : α → Nat → Nat
  next : α → α

variable {α σ : Type*}

def Archive.zipRead (archive : Archive α) (a : α) (offset size : Nat) : List UInt8 × α :=
  if offset > int64Max then ([], a)
  else (slice archive.bytes offset (min (archive.available a offset) size), archive.next a)

theorem Archive.zipRead_whole {archive : Archive α} {a : α} {offset size : Nat}
    (whole : (archive.zipRead a offset size).1.length = size) :
    (archive.zipRead a offset size).1 = slice archive.bytes offset size := by
  unfold zipRead at whole ⊢
  split
  · rename_i far
    rw [if_pos far] at whole
    rw [← show 0 = size from whole, slice_zero]
  · rename_i near
    rw [if_neg near] at whole
    rw [length_slice] at whole
    rw [show min (archive.available a offset) size = size by omega]

inductive Status
  | ok
  | streamEnd
  | bufError
  | failed
deriving DecidableEq

structure Inflated where
  consumed : Nat
  produced : List UInt8
  status : Status

/-- `mz_inflate` on a raw stream: any step that stays within the input and the room it is given. -/
structure Inflater (σ : Type*) where
  step : σ → List UInt8 → Nat → Inflated × σ
  consumed_le : ∀ i input room, (step i input room).1.consumed ≤ input.length
  produced_le : ∀ i input room, (step i input room).1.produced.length ≤ room

/-! ## Opening -/

structure FileStat where
  method : Nat
  compSize : Nat
  uncompSize : Nat
  crc32 : UInt32
  localHeaderOffset : Nat

def mzDeflated : Nat := 8

/-- `zip_stream_t`; `input` is what `next_in` and `avail_in` name. -/
structure Stream where
  stat : FileStat
  input : List UInt8
  dataOffset : Nat
  compressedLoaded : Nat
  position : Nat
  crc : UInt32
  error : UInt32
  ended : Bool

/-- A call of `mz_inflate`. -/
structure Step where
  input : List UInt8
  room : Nat
  result : Inflated

/-- A stream with the archive and the inflater it uses. `steps` only records what the inflater did. -/
structure Session (α σ : Type*) where
  stream : Stream
  archive : α
  inflater : σ
  steps : List Step

def zipU16 (header : List UInt8) (offset : Nat) : Nat :=
  (header.getD offset 0).toNat ||| (header.getD (offset + 1) 0).toNat <<< 8

def headerSize : Nat := 30

def FileStat.matches (stat : FileStat) (header : List UInt8) : Bool :=
  header.length = headerSize && header.take 4 = [0x50, 0x4B, 3, 4] && zipU16 header 8 = stat.method &&
    zipU16 header 6 &&& (1 ||| 32 ||| 64) = 0

def FileStat.normalize (stat : FileStat) : FileStat :=
  if stat.method = mzDeflated ∧ stat.compSize = 0 ∧ stat.uncompSize = 0 then { stat with method := 0 }
  else stat

section Streams

variable (archive : Archive α) (inflater : Inflater σ)

/-- `stat` is the answer of `mz_zip_reader_file_stat`, `memory` and `inflateInit` tell whether the two
allocations succeed. -/
def zipStreamOpen (stat : Option FileStat) (memory inflateInit : Bool) (a : α) (i : σ) :
    Except ErrorCode (Session α σ) :=
  match stat with
  | none => .error errorInvalidData
  | some stat =>
      if stat.uncompSize > int64Max then .error errorInvalidData
      else
        let (header, a) := archive.zipRead a stat.localHeaderOffset headerSize
        if ¬stat.matches header then .error errorInvalidData
        else
          let stat := stat.normalize
          let dataOffset := stat.localHeaderOffset + headerSize + zipU16 header 26 + zipU16 header 28
          if ¬memory then .error errorNotEnoughMemory
          else if dataOffset > archive.bytes.length ∨
              stat.compSize > archive.bytes.length - dataOffset ∨
              (stat.method = 0 ∧ stat.compSize ≠ stat.uncompSize) then .error errorInvalidData
          else if stat.method = mzDeflated ∧ ¬inflateInit then .error errorNotEnoughMemory
          else .ok ⟨⟨stat, [], dataOffset, 0, 0, 0, 0, false⟩, a, i, []⟩

/-! ## Decoding -/

def Session.fail (s : Session α σ) (error : ErrorCode) : Session α σ :=
  { s with stream := { s.stream with error := error } }

def zipStreamInput (offset size : Nat) (s : Session α σ) : Option (List UInt8) × Session α σ :=
  let (data, a) := archive.zipRead s.archive (s.stream.dataOffset + offset) size
  if data.length = size then (some data, { s with archive := a })
  else (none, Session.fail { s with archive := a } errorReadFault)

/-- The CRC and the position after `bytes`. -/
def Session.deliver (s : Session α σ) (bytes : List UInt8) : Session α σ :=
  { s with stream := { s.stream with
      crc := if bytes ≠ [] then mzCrc32 s.stream.crc bytes else s.stream.crc
      position := s.stream.position + bytes.length } }

structure Progress (α σ : Type*) where
  session : Session α σ
  data : List UInt8

structure Outcome (α σ : Type*) where
  session : Session α σ
  data : List UInt8
  ok : Bool

def Progress.fail (p : Progress α σ) (error : ErrorCode) : Outcome α σ :=
  ⟨p.session.fail error, p.data, false⟩

def zipStoredChunkSize : Nat := 1024 * 1024

def zipStreamBufferSize : Nat := 65536

def uintMax : Nat := 0xFFFFFFFF

def Session.atEnd (s : Session α σ) : Bool := s.stream.position = s.stream.stat.uncompSize

def storedRound (size : Nat) (p : Progress α σ) : Progress α σ ⊕ Outcome α σ :=
  if p.data.length < size then
    let chunk := min (size - p.data.length) zipStoredChunkSize
    match zipStreamInput archive p.session.stream.position chunk p.session with
    | (none, s) => .inr ⟨s, p.data, false⟩
    | (some bytes, s) => .inl ⟨s.deliver bytes, p.data ++ bytes⟩
  else if p.session.atEnd ∧ p.session.stream.crc ≠ p.session.stream.stat.crc32 then
    .inr (p.fail errorCrc)
  else .inr ⟨p.session, p.data, true⟩

def refill (s : Session α σ) : Bool × Session α σ :=
  let stream := s.stream
  if stream.input = [] ∧ stream.compressedLoaded < stream.stat.compSize then
    let chunk := min (stream.stat.compSize - stream.compressedLoaded) zipStreamBufferSize
    match zipStreamInput archive stream.compressedLoaded chunk s with
    | (none, s) => (false, s)
    | (some bytes, s) =>
        (true, { s with stream := { s.stream with
          input := bytes
          compressedLoaded := s.stream.compressedLoaded + chunk } })
  else (true, s)

def accept (result : Inflated) (p : Progress α σ) : Progress α σ ⊕ Outcome α σ :=
  match result.status with
  | .streamEnd =>
      let s := { p.session with stream := { p.session.stream with ended := true } }
      if ¬s.atEnd then .inr (Progress.fail ⟨s, p.data⟩ errorInvalidData)
      else if s.stream.crc ≠ s.stream.stat.crc32 then .inr (Progress.fail ⟨s, p.data⟩ errorCrc)
      else .inl ⟨s, p.data⟩
  | .failed => .inr (p.fail errorInvalidData)
  | .ok | .bufError =>
      if result.produced = [] ∧ result.consumed = 0 then .inr (p.fail errorInvalidData) else .inl p

def Session.inflate (s : Session α σ) (room : Nat) : Inflated × Session α σ :=
  let (result, i) := inflater.step s.inflater s.stream.input room
  (result, { s with
    inflater := i
    stream := { s.stream with input := s.stream.input.drop result.consumed }
    steps := s.steps ++ [⟨s.stream.input, room, result⟩] })

def Progress.room (p : Progress α σ) (size : Nat) : Nat :=
  if p.session.atEnd then 1 else min (size - p.data.length) uintMax

def inflateRound (size : Nat) (p : Progress α σ) : Progress α σ ⊕ Outcome α σ :=
  if ¬p.session.stream.ended ∧ (p.data.length < size ∨ p.session.atEnd) then
    let (refilled, s) := refill archive p.session
    if ¬refilled then .inr ⟨s, p.data, false⟩
    else
      let (result, s) := s.inflate inflater (p.room size)
      if p.session.atEnd ∧ result.produced ≠ [] then .inr (Progress.fail ⟨s, p.data⟩ errorInvalidData)
      else accept result ⟨s.deliver result.produced, p.data ++ result.produced⟩
  else .inr ⟨p.session, p.data, true⟩

variable {archive inflater}

theorem zipStreamInput_some {offset size : Nat} {s s' : Session α σ} {bytes : List UInt8}
    (read : zipStreamInput archive offset size s = (some bytes, s')) :
    bytes.length = size ∧ bytes = slice archive.bytes (s.stream.dataOffset + offset) size ∧
      s' = { s with archive := s'.archive } := by
  unfold zipStreamInput at read
  dsimp only at read
  split at read
  · rename_i whole
    cases read
    exact ⟨whole, Archive.zipRead_whole whole, rfl⟩
  · cases read

theorem zipStreamInput_none {offset size : Nat} {s s' : Session α σ}
    (failed : zipStreamInput archive offset size s = (none, s')) :
    ∃ a, s' = Session.fail { s with archive := a } errorReadFault := by
  unfold zipStreamInput at failed
  dsimp only at failed
  split at failed
  · cases failed
  · cases failed
    exact ⟨_, rfl⟩

theorem refill_false {s s' : Session α σ} (failed : refill archive s = (false, s')) :
    ∃ a, s' = Session.fail { s with archive := a } errorReadFault := by
  unfold refill at failed
  dsimp only at failed
  split at failed
  · split at failed
    · rename_i input
      cases failed
      exact zipStreamInput_none input
    · cases failed
  · cases failed

theorem refill_true {s s' : Session α σ} (refilled : refill archive s = (true, s')) :
    (s' = s ∧ (s.stream.input = [] → s.stream.stat.compSize ≤ s.stream.compressedLoaded)) ∨
      ∃ bytes, s.stream.input = [] ∧
        bytes = slice archive.bytes (s.stream.dataOffset + s.stream.compressedLoaded) bytes.length ∧
        0 < bytes.length ∧ s.stream.compressedLoaded + bytes.length ≤ s.stream.stat.compSize ∧
        s' = { s with
          archive := s'.archive
          stream := { s.stream with
            input := bytes
            compressedLoaded := s.stream.compressedLoaded + bytes.length } } := by
  unfold refill at refilled
  dsimp only at refilled
  split at refilled
  · rename_i more
    obtain ⟨empty, more⟩ := more
    split at refilled
    · cases refilled
    · rename_i bytes t input
      obtain ⟨whole, piece, same⟩ := zipStreamInput_some input
      cases refilled
      refine .inr ⟨bytes, empty, ?_, ?_, ?_, ?_⟩
      · rw [whole]
        exact piece
      · rw [whole, zipStreamBufferSize]
        omega
      · rw [whole]
        omega
      · rw [same, whole]
  · rename_i enough
    cases refilled
    exact .inl ⟨rfl, fun empty => Nat.not_lt.mp fun more => enough ⟨empty, more⟩⟩

theorem accept_inl {result : Inflated} {p p' : Progress α σ} (goes : accept result p = .inl p') :
    (result.status = .streamEnd ∧ p.session.atEnd ∧
        p.session.stream.crc = p.session.stream.stat.crc32 ∧
        p' = ⟨{ p.session with stream := { p.session.stream with ended := true } }, p.data⟩) ∨
      ((result.produced ≠ [] ∨ result.consumed ≠ 0) ∧ p' = p) := by
  unfold accept at goes
  split at goes
  · rename_i status
    dsimp only at goes
    split at goes
    · cases goes
    rename_i finished
    split at goes
    · cases goes
    rename_i agree
    cases goes
    exact .inl ⟨status, not_not.mp finished, not_not.mp agree, rfl⟩
  · cases goes
  all_goals
    split at goes
    · cases goes
    · rename_i moves
      cases goes
      exact .inr ⟨by tauto, rfl⟩

theorem accept_inr {result : Inflated} {p : Progress α σ} {o : Outcome α σ}
    (fails : accept result p = .inr o) :
    ∃ ended error, o = Progress.fail
      ⟨{ p.session with stream := { p.session.stream with ended := ended } }, p.data⟩ error := by
  unfold accept at fails
  split at fails
  · dsimp only at fails
    split at fails
    · cases fails
      exact ⟨_, _, rfl⟩
    split at fails
    · cases fails
      exact ⟨_, _, rfl⟩
    · cases fails
  · cases fails
    exact ⟨p.session.stream.ended, _, rfl⟩
  all_goals
    split at fails
    · cases fails
      exact ⟨p.session.stream.ended, _, rfl⟩
    · cases fails

theorem inflateRound_inl {size : Nat} {p p' : Progress α σ}
    (goes : inflateRound archive inflater size p = .inl p') :
    ∃ s, refill archive p.session = (true, s) ∧ ¬p.session.stream.ended ∧
      (p.session.atEnd → (s.inflate inflater (p.room size)).1.produced = []) ∧
      accept (s.inflate inflater (p.room size)).1
        ⟨(s.inflate inflater (p.room size)).2.deliver (s.inflate inflater (p.room size)).1.produced,
          p.data ++ (s.inflate inflater (p.room size)).1.produced⟩ = .inl p' := by
  unfold inflateRound at goes
  split at goes
  · rename_i on
    cases refilled : refill archive p.session with
    | mk whole s =>
      rw [refilled] at goes
      dsimp only at goes
      split at goes
      · cases goes
      rename_i whole'
      split at goes
      · cases goes
      rename_i inside
      obtain rfl : whole = true := not_not.mp whole'
      exact ⟨s, rfl, on.1, fun last => not_not.mp fun extra => inside ⟨last, extra⟩, goes⟩
  · cases goes

theorem inflateRound_inr {size : Nat} {p : Progress α σ} {o : Outcome α σ}
    (ends : inflateRound archive inflater size p = .inr o) :
    ((p.session.stream.ended ∨ size ≤ p.data.length ∧ ¬p.session.atEnd) ∧ o = ⟨p.session, p.data, true⟩) ∨
      (∃ s, refill archive p.session = (false, s) ∧ o = ⟨s, p.data, false⟩) ∨
      ∃ s, refill archive p.session = (true, s) ∧ ¬p.session.stream.ended ∧
        ((p.session.atEnd ∧
            o = Progress.fail ⟨(s.inflate inflater (p.room size)).2, p.data⟩ errorInvalidData) ∨
          ((p.session.atEnd → (s.inflate inflater (p.room size)).1.produced = []) ∧
            accept (s.inflate inflater (p.room size)).1
              ⟨(s.inflate inflater (p.room size)).2.deliver
                (s.inflate inflater (p.room size)).1.produced,
                p.data ++ (s.inflate inflater (p.room size)).1.produced⟩ = .inr o)) := by
  unfold inflateRound at ends
  split at ends
  · rename_i on
    cases refilled : refill archive p.session with
    | mk whole s =>
      rw [refilled] at ends
      dsimp only at ends
      cases whole with
      | false =>
        cases ends
        exact .inr (.inl ⟨s, rfl, rfl⟩)
      | true =>
        refine .inr (.inr ⟨s, rfl, on.1, ?_⟩)
        simp only [not_true_eq_false, if_false] at ends
        split at ends
        · rename_i extra
          cases ends
          exact .inl ⟨extra.1, rfl⟩
        · rename_i inside
          exact .inr ⟨fun last => not_not.mp fun extra => inside ⟨last, extra⟩, ends⟩
  · rename_i off
    cases ends
    refine .inl ⟨?_, rfl⟩
    by_cases ended : p.session.stream.ended
    · exact .inl ended
    · refine .inr ⟨Nat.not_lt.mp fun more => off ⟨ended, .inl more⟩, fun last => off ⟨ended, .inr last⟩⟩

/-! ## Reading -/

def Progress.left (size : Nat) (p : Progress α σ) : Nat := size - p.data.length

/-- What a deflated entry has left: input, room, and the end marker. -/
def Progress.work (size : Nat) (p : Progress α σ) : Nat :=
  p.session.stream.stat.compSize - p.session.stream.compressedLoaded +
    p.session.stream.input.length + p.left size + if p.session.stream.ended then 0 else 1

theorem storedRound_inl {size : Nat} {p p' : Progress α σ}
    (goes : storedRound archive size p = .inl p') :
    ∃ (bytes : List UInt8) (s : Session α σ), p.data.length < size ∧ bytes.length ≤ size - p.data.length ∧ 0 < bytes.length ∧
      bytes = slice archive.bytes (p.session.stream.dataOffset + p.session.stream.position)
        bytes.length ∧
      s = { p.session with archive := s.archive } ∧ p' = ⟨s.deliver bytes, p.data ++ bytes⟩ := by
  unfold storedRound at goes
  split at goes
  · rename_i inside
    dsimp only at goes
    split at goes
    · cases goes
    · rename_i bytes s input
      obtain ⟨whole, piece, same⟩ := zipStreamInput_some input
      cases goes
      refine ⟨bytes, s, inside, ?_, ?_, ?_, same, rfl⟩
      · rw [whole]
        exact Nat.min_le_left ..
      · rw [whole, zipStoredChunkSize]
        omega
      · rw [whole]
        exact piece
  · split at goes <;> cases goes

theorem storedRound_left {size : Nat} (p p' : Progress α σ)
    (goes : storedRound archive size p = .inl p') : p'.left size < p.left size := by
  obtain ⟨bytes, s, inside, _, positive, _, _, rfl⟩ := storedRound_inl goes
  simp only [Progress.left, List.length_append]
  omega

theorem refill_work {s s' : Session α σ} (refilled : refill archive s = (true, s')) :
    s'.stream.stat.compSize - s'.stream.compressedLoaded + s'.stream.input.length =
      s.stream.stat.compSize - s.stream.compressedLoaded + s.stream.input.length := by
  rcases refill_true refilled with ⟨rfl, _⟩ | ⟨bytes, empty, _, _, within, same⟩
  · rfl
  · rw [same, empty]
    simp only [List.length_nil]
    omega

theorem inflateRound_work {size : Nat} (p p' : Progress α σ)
    (goes : inflateRound archive inflater size p = .inl p') : p'.work size < p.work size := by
  obtain ⟨s, refilled, running, last, accepted⟩ := inflateRound_inl goes
  have loaded := refill_work refilled
  have consumed := inflater.consumed_le s.inflater s.stream.input (p.room size)
  have produced := inflater.produced_le s.inflater s.stream.input (p.room size)
  unfold Session.inflate at last accepted
  dsimp only at last accepted
  generalize (inflater.step s.inflater s.stream.input (p.room size)).1 = result at *
  have running' : s.stream.ended = p.session.stream.ended := by
    rcases refill_true refilled with ⟨rfl, _⟩ | ⟨bytes, _, _, _, _, same⟩
    · rfl
    · rw [same]
  unfold Progress.work Progress.left
  rw [if_neg running, ← loaded]
  rcases accept_inl accepted with ⟨_, _, _, rfl⟩ | ⟨moves, rfl⟩
  · simp only [Session.deliver, List.length_append, List.length_drop, if_true]
    omega
  · simp only [Session.deliver, List.length_append, List.length_drop, running', running,
      Bool.false_eq_true, if_false]
    by_cases silent : result.produced = []
    · have : result.consumed ≠ 0 := moves.resolve_left fun some => some silent
      simp only [silent, List.length_nil]
      omega
    · have : 0 < result.produced.length := List.length_pos_iff.mpr silent
      have open' : ¬p.session.atEnd := fun ends => silent (last ends)
      rw [Progress.room, if_neg open'] at produced
      omega

variable (archive inflater)

def storedLoop (size : Nat) : MeasuredLoop (Progress α σ) (Outcome α σ) :=
  ⟨storedRound archive size, Progress.left size, storedRound_left⟩

def inflateLoop (size : Nat) : MeasuredLoop (Progress α σ) (Outcome α σ) :=
  ⟨inflateRound archive inflater size, Progress.work size, inflateRound_work⟩

def zipStreamDecode (size : Nat) (s : Session α σ) : Outcome α σ :=
  if s.stream.stat.method = 0 then (storedLoop archive size).run ⟨s, []⟩
  else (inflateLoop archive inflater size).run ⟨s, []⟩

structure Request where
  buffer : Bool
  size : Nat

/-- What a read returns: whether it succeeded, the error it reports, and the bytes it counts. -/
structure Reply where
  ok : Bool
  error : UInt32
  data : List UInt8

def zipStreamRead (request : Request) (s : Session α σ) : Session α σ × Reply :=
  if request.size ≠ 0 ∧ ¬request.buffer then (s, ⟨false, errorInvalidParameter, []⟩)
  else if s.stream.error ≠ 0 then (s, ⟨false, s.stream.error, []⟩)
  else if request.size = 0 then (s, ⟨true, 0, []⟩)
  else
    let left := s.stream.stat.uncompSize - s.stream.position
    let size := if request.size > left then left else request.size
    let outcome := zipStreamDecode archive inflater size s
    (outcome.session, ⟨outcome.ok, outcome.session.stream.error, outcome.data⟩)

def readAll (s : Session α σ) : List Request → Session α σ × List Reply
  | [] => (s, [])
  | request :: requests =>
      let (s, reply) := zipStreamRead archive inflater request s
      let (s, replies) := readAll s requests
      (s, reply :: replies)

end Streams

end Yafsml.Vfs.ZipStream
