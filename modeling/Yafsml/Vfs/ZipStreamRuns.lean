import Yafsml.Vfs.ZipStream

/-!
# What a ZIP stream delivers

The invariant of a stream: what was delivered is what the CRC was taken of, and, as long as there is no
error, all the inflater produced. The loops keep it round by round, the reads call by call.
-/

namespace Yafsml.Vfs.ZipStream

open Crc32 Cursor MachineInt

variable {α σ : Type*}

/-! ## The history of the inflater -/

/-- The calls of the inflater that led from `i₀` to a state. -/
inductive Fed (inflater : Inflater σ) (i₀ : σ) : List Step → σ → Prop
  | start : Fed inflater i₀ [] i₀
  | step {steps : List Step} {i : σ} (fed : Fed inflater i₀ steps i) (input : List UInt8) (room : Nat) :
      Fed inflater i₀ (steps ++ [⟨input, room, (inflater.step i input room).1⟩])
        (inflater.step i input room).2

def consumed (steps : List Step) : List UInt8 :=
  steps.flatMap fun step => step.input.take step.result.consumed

def output (steps : List Step) : List UInt8 := steps.flatMap fun step => step.result.produced

/-- The end marker was reached, and nothing came behind `data`. -/
def EndsWith (steps : List Step) (data : List UInt8) : Prop :=
  output steps = data ∧ ∃ before last, steps = before ++ [last] ∧ last.result.status = .streamEnd

/-- The concatenated output depends only on the concatenated input: what more input would add, or a
larger buffer, comes behind. -/
def DependsOnInput (inflater : Inflater σ) (i₀ : σ) : Prop :=
  ∀ steps i steps' i', Fed inflater i₀ steps i → Fed inflater i₀ steps' i' →
    consumed steps <+: consumed steps' →
      output steps <+: output steps' ∨ output steps' <+: output steps

/-! ## The invariant -/

/-- A stream of the entry `stat`, whose data starts at `start`, after it delivered `data`. -/
structure Streams (archive : Archive α) (inflater : Inflater σ) (stat : FileStat) (start : Nat) (i₀ : σ)
    (s : Session α σ) (data : List UInt8) : Prop where
  entry : s.stream.stat = stat
  offset : s.stream.dataOffset = start
  position : s.stream.position = data.length
  crc : s.stream.crc = mzCrc32 0 data
  loaded : s.stream.compressedLoaded ≤ stat.compSize
  input : consumed s.steps ++ s.stream.input = slice archive.bytes start s.stream.compressedLoaded
  fed : Fed inflater i₀ s.steps s.inflater
  stored : stat.method = 0 → ¬s.stream.ended ∧ data = slice archive.bytes start data.length
  produced : s.stream.error = 0 → stat.method ≠ 0 → output s.steps = data
  ended : s.stream.error = 0 → s.stream.ended → data.length = stat.uncompSize ∧
    mzCrc32 0 data = stat.crc32 ∧ EndsWith s.steps data

section Streams

variable {archive : Archive α} {inflater : Inflater σ} {stat : FileStat} {start : Nat} {i₀ : σ}
  {s : Session α σ} {data : List UInt8}

theorem Streams.withArchive (streams : Streams archive inflater stat start i₀ s data) (a : α) :
    Streams archive inflater stat start i₀ { s with archive := a } data :=
  ⟨streams.entry, streams.offset, streams.position, streams.crc, streams.loaded, streams.input,
    streams.fed, streams.stored, streams.produced, streams.ended⟩

theorem Streams.fail (streams : Streams archive inflater stat start i₀ s data) (error : ErrorCode) :
    Streams archive inflater stat start i₀ (s.fail error) data :=
  ⟨streams.entry, streams.offset, streams.position, streams.crc, streams.loaded, streams.input,
    streams.fed, streams.stored, fun none => absurd none error.2, fun none => absurd none error.2⟩

theorem deliver_crc (s : Session α σ) (bytes : List UInt8) :
    (s.deliver bytes).stream.crc = mzCrc32 s.stream.crc bytes := by
  unfold Session.deliver
  dsimp only
  split
  · rfl
  · rename_i nothing
    rw [not_not.mp nothing, mzCrc32_nil]

theorem Streams.deliver_position (streams : Streams archive inflater stat start i₀ s data)
    (bytes : List UInt8) : s.stream.position + bytes.length = (data ++ bytes).length := by
  rw [List.length_append, streams.position]

theorem Streams.deliver_crc (streams : Streams archive inflater stat start i₀ s data)
    (bytes : List UInt8) : mzCrc32 s.stream.crc bytes = mzCrc32 0 (data ++ bytes) := by
  rw [streams.crc, mzCrc32_append]

theorem Streams.storedPiece (streams : Streams archive inflater stat start i₀ s data)
    (method : stat.method = 0) {bytes : List UInt8}
    (piece : bytes = slice archive.bytes (start + data.length) bytes.length) :
    Streams archive inflater stat start i₀ (s.deliver bytes) (data ++ bytes) := by
  obtain ⟨running, same⟩ := streams.stored method
  refine ⟨streams.entry, streams.offset, streams.deliver_position bytes, ?_, streams.loaded,
    streams.input, streams.fed, ?_, ?_, ?_⟩
  · rw [ZipStream.deliver_crc, streams.deliver_crc]
  · intro _
    refine ⟨running, ?_⟩
    rw [List.length_append, ← slice_append, ← piece, ← same]
  · exact fun _ deflated => absurd method deflated
  · exact fun _ ended => absurd ended running

theorem Streams.refill (streams : Streams archive inflater stat start i₀ s data)
    {s' : Session α σ} (refilled : ZipStream.refill archive s = (true, s')) :
    Streams archive inflater stat start i₀ s' data ∧ s'.stream.error = s.stream.error ∧
      s'.stream.ended = s.stream.ended := by
  rcases refill_true refilled with ⟨rfl, _⟩ | ⟨bytes, empty, piece, _, within, same⟩
  · exact ⟨streams, rfl, rfl⟩
  · rw [same]
    refine ⟨⟨streams.entry, streams.offset, streams.position, streams.crc, ?_, ?_, streams.fed,
      streams.stored, streams.produced, streams.ended⟩, rfl, rfl⟩
    · rw [← streams.entry]
      exact within
    · have before := streams.input
      rw [empty, List.append_nil] at before
      rw [streams.offset] at piece
      show consumed s.steps ++ bytes =
        slice archive.bytes start (s.stream.compressedLoaded + bytes.length)
      rw [before, ← slice_append, ← piece]

theorem consumed_snoc (steps : List Step) (step : Step) :
    consumed (steps ++ [step]) = consumed steps ++ step.input.take step.result.consumed := by
  simp [consumed]

theorem output_snoc (steps : List Step) (step : Step) :
    output (steps ++ [step]) = output steps ++ step.result.produced := by
  simp [output]

theorem Streams.inflate (streams : Streams archive inflater stat start i₀ s data)
    (method : stat.method ≠ 0) (running : ¬s.stream.ended) (room : Nat) :
    Streams archive inflater stat start i₀
      ((s.inflate inflater room).2.deliver (s.inflate inflater room).1.produced)
      (data ++ (s.inflate inflater room).1.produced) := by
  refine ⟨streams.entry, streams.offset, streams.deliver_position _, ?_, streams.loaded, ?_,
    streams.fed.step s.stream.input room, ?_, ?_, ?_⟩
  · rw [ZipStream.deliver_crc, ← streams.deliver_crc]
    rfl
  · show consumed (s.steps ++ [_]) ++ s.stream.input.drop _ = _
    rw [consumed_snoc, List.append_assoc, List.take_append_drop, streams.input]
    rfl
  · exact fun stored => absurd stored method
  · intro none _
    show output (s.steps ++ [_]) = _
    rw [output_snoc, streams.produced none method]
    rfl
  · exact fun _ ended => absurd ended running

theorem Streams.end (streams : Streams archive inflater stat start i₀ s data)
    (method : stat.method ≠ 0) (whole : s.atEnd) (agree : s.stream.crc = s.stream.stat.crc32)
    {before : List Step} {last : Step} (steps : s.steps = before ++ [last])
    (status : last.result.status = .streamEnd) :
    Streams archive inflater stat start i₀
      { s with stream := { s.stream with ended := true } } data := by
  refine ⟨streams.entry, streams.offset, streams.position, streams.crc, streams.loaded,
    streams.input, streams.fed, fun stored => absurd stored method, streams.produced, ?_⟩
  intro none _
  have length : data.length = stat.uncompSize := by
    rw [← streams.position, ← streams.entry]
    exact of_decide_eq_true whole
  rw [streams.crc, streams.entry] at agree
  exact ⟨length, agree, streams.produced none method, before, last, steps, status⟩

theorem Streams.turnDown (streams : Streams archive inflater stat start i₀ s data)
    (method : stat.method ≠ 0) (room : Nat) (error : ErrorCode) :
    Streams archive inflater stat start i₀ ((s.inflate inflater room).2.fail error) data := by
  refine ⟨streams.entry, streams.offset, streams.position, streams.crc, streams.loaded, ?_,
    streams.fed.step s.stream.input room, fun stored => absurd stored method,
    fun none => absurd none error.2, fun none => absurd none error.2⟩
  show consumed (s.steps ++ [_]) ++ s.stream.input.drop _ = _
  rw [consumed_snoc, List.append_assoc, List.take_append_drop, streams.input]
  rfl

theorem Streams.failEnded (streams : Streams archive inflater stat start i₀ s data)
    (method : stat.method ≠ 0) (ended : Bool) (error : ErrorCode) :
    Streams archive inflater stat start i₀
      (Session.fail { s with stream := { s.stream with ended := ended } } error) data :=
  ⟨streams.entry, streams.offset, streams.position, streams.crc, streams.loaded, streams.input,
    streams.fed, fun stored => absurd stored method, fun none => absurd none error.2,
    fun none => absurd none error.2⟩

/-! ## The loops -/

/-- The CRC is right, and a deflated entry ends where it should. -/
def Complete (stat : FileStat) (s : Session α σ) (data : List UInt8) : Prop :=
  mzCrc32 0 data = stat.crc32 ∧ (stat.method ≠ 0 → EndsWith s.steps data)

variable (archive inflater stat start i₀)

/-- The invariant of the loops, for a read of `size` bytes behind `before`. -/
structure Reading (before : List UInt8) (size : Nat) (p : Progress α σ) : Prop where
  streams : Streams archive inflater stat start i₀ p.session (before ++ p.data)
  fine : p.session.stream.error = 0
  within : p.data.length ≤ size

structure Decoded (before : List UInt8) (size : Nat) (o : Outcome α σ) : Prop where
  streams : Streams archive inflater stat start i₀ o.session (before ++ o.data)
  within : o.data.length ≤ size
  whole : o.ok → o.session.stream.error = 0 ∧ o.data.length = size ∧
    ((before ++ o.data).length = stat.uncompSize → Complete stat o.session (before ++ o.data))
  failed : ¬o.ok → o.session.stream.error ≠ 0

variable {archive inflater stat start i₀} {before : List UInt8} {size : Nat}

theorem Streams.atEnd_iff (streams : Streams archive inflater stat start i₀ s data) :
    s.atEnd ↔ data.length = stat.uncompSize := by
  rw [← streams.position, ← streams.entry]
  exact decide_eq_true_iff

theorem Decoded.ofFailed {s : Session α σ} {data : List UInt8}
    (streams : Streams archive inflater stat start i₀ s (before ++ data))
    (within : data.length ≤ size) (failed : s.stream.error ≠ 0) :
    Decoded archive inflater stat start i₀ before size ⟨s, data, false⟩ :=
  ⟨streams, within, nofun, fun _ => failed⟩

theorem storedRound_kept (method : stat.method = 0) {p p' : Progress α σ}
    (reading : Reading archive inflater stat start i₀ before size p)
    (goes : storedRound archive size p = .inl p') :
    Reading archive inflater stat start i₀ before size p' := by
  obtain ⟨bytes, s, inside, fits, _, piece, same, rfl⟩ := storedRound_inl goes
  rw [reading.streams.offset, reading.streams.position] at piece
  have streams : Streams archive inflater stat start i₀ s (before ++ p.data) := by
    rw [same]
    exact reading.streams.withArchive s.archive
  refine ⟨?_, ?_, ?_⟩
  · rw [← List.append_assoc]
    exact streams.storedPiece method piece
  · show s.stream.error = 0
    rw [same]
    exact reading.fine
  · rw [List.length_append]
    omega

theorem storedRound_ends (method : stat.method = 0) {p : Progress α σ} {o : Outcome α σ}
    (reading : Reading archive inflater stat start i₀ before size p)
    (ends : storedRound archive size p = .inr o) :
    Decoded archive inflater stat start i₀ before size o := by
  unfold storedRound at ends
  split at ends
  · dsimp only at ends
    split at ends
    · rename_i s input
      cases ends
      obtain ⟨a, rfl⟩ := zipStreamInput_none input
      exact .ofFailed ((reading.streams.withArchive a).fail _) reading.within errorReadFault.2
    · cases ends
  · rename_i full
    split at ends
    · cases ends
      exact .ofFailed (reading.streams.fail _) reading.within errorCrc.2
    · rename_i agree
      cases ends
      refine ⟨reading.streams, reading.within, fun _ => ⟨reading.fine, ?_, fun length => ?_⟩,
        fun never => absurd rfl never⟩
      · exact Nat.le_antisymm reading.within (Nat.not_lt.mp full)
      · refine ⟨?_, fun deflated => absurd method deflated⟩
        rw [← reading.streams.crc, ← reading.streams.entry]
        exact not_not.mp fun wrong => agree ⟨reading.streams.atEnd_iff.mpr length, wrong⟩

theorem Reading.inflated {p : Progress α σ}
    (reading : Reading archive inflater stat start i₀ before size p)
    (method : stat.method ≠ 0) (running : ¬p.session.stream.ended) {s : Session α σ}
    (refilled : ZipStream.refill archive p.session = (true, s))
    (last : p.session.atEnd → (s.inflate inflater (p.room size)).1.produced = []) :
    Reading archive inflater stat start i₀ before size
      ⟨(s.inflate inflater (p.room size)).2.deliver (s.inflate inflater (p.room size)).1.produced,
        p.data ++ (s.inflate inflater (p.room size)).1.produced⟩ := by
  obtain ⟨streams, error, ended⟩ := reading.streams.refill refilled
  refine ⟨?_, error.trans reading.fine, ?_⟩
  · rw [← List.append_assoc]
    exact streams.inflate method (by rw [ended]; exact running) _
  · have produced := inflater.produced_le s.inflater s.stream.input (p.room size)
    have within := reading.within
    rw [List.length_append]
    by_cases ends : p.session.atEnd
    · rw [last ends]
      exact within
    · rw [Progress.room, if_neg ends] at produced ⊢
      show p.data.length + (inflater.step s.inflater s.stream.input _).1.produced.length ≤ size
      omega

theorem inflateRound_kept (method : stat.method ≠ 0) {p p' : Progress α σ}
    (reading : Reading archive inflater stat start i₀ before size p)
    (goes : inflateRound archive inflater size p = .inl p') :
    Reading archive inflater stat start i₀ before size p' := by
  obtain ⟨s, refilled, running, last, accepted⟩ := inflateRound_inl goes
  have inflated := reading.inflated method running refilled last
  rcases accept_inl accepted with ⟨status, whole, agree, rfl⟩ | ⟨_, rfl⟩
  · exact ⟨inflated.streams.end method whole agree rfl status, inflated.fine, inflated.within⟩
  · exact inflated

theorem inflateRound_ends (method : stat.method ≠ 0) (fits : before.length + size ≤ stat.uncompSize)
    {p : Progress α σ} {o : Outcome α σ}
    (reading : Reading archive inflater stat start i₀ before size p)
    (ends : inflateRound archive inflater size p = .inr o) :
    Decoded archive inflater stat start i₀ before size o := by
  rcases inflateRound_inr ends with
    ⟨done, rfl⟩ | ⟨s, refilled, rfl⟩ | ⟨s, refilled, running, ⟨_, rfl⟩ | ⟨last, accepted⟩⟩
  · refine ⟨reading.streams, reading.within, fun _ => ⟨reading.fine, ?_, ?_⟩,
      fun never => absurd rfl never⟩
    · rcases done with ended | ⟨full, _⟩
      · have length := (reading.streams.ended reading.fine ended).1
        have within := reading.within
        rw [List.length_append] at length
        show p.data.length = size
        omega
      · exact Nat.le_antisymm reading.within full
    · intro length
      rcases done with ended | ⟨_, open'⟩
      · obtain ⟨_, agree, marker⟩ := reading.streams.ended reading.fine ended
        exact ⟨agree, fun _ => marker⟩
      · exact absurd (reading.streams.atEnd_iff.mpr length) open'
  · obtain ⟨a, rfl⟩ := refill_false refilled
    exact .ofFailed ((reading.streams.withArchive a).fail _) reading.within errorReadFault.2
  · obtain ⟨streams, _, _⟩ := reading.streams.refill refilled
    exact .ofFailed (streams.turnDown method _ _) reading.within errorInvalidData.2
  · have inflated := reading.inflated method running refilled last
    obtain ⟨ended, error, rfl⟩ := accept_inr accepted
    exact .ofFailed (inflated.streams.failEnded method ended error) inflated.within error.2

theorem zipStreamDecode_decoded (streams : Streams archive inflater stat start i₀ s before)
    (fine : s.stream.error = 0) (fits : before.length + size ≤ stat.uncompSize) :
    Decoded archive inflater stat start i₀ before size (zipStreamDecode archive inflater size s) := by
  have reading : Reading archive inflater stat start i₀ before size ⟨s, []⟩ :=
    ⟨by rwa [List.append_nil], fine, Nat.zero_le _⟩
  unfold zipStreamDecode
  rw [streams.entry]
  split
  · rename_i method
    exact (storedLoop archive size).run_post
      (fun _ _ => storedRound_kept method) (fun _ _ => storedRound_ends method) reading
  · rename_i method
    exact (inflateLoop archive inflater size).run_post
      (fun _ _ => inflateRound_kept method) (fun _ _ => inflateRound_ends method fits) reading

/-! ## Reads -/

/-- The request is not turned away for its missing buffer. -/
def Request.Valid (request : Request) : Prop := ¬(request.size ≠ 0 ∧ ¬request.buffer)

/-- What one read does to a stream that delivered `data`. -/
structure ReadLaw (archive : Archive α) (inflater : Inflater σ) (stat : FileStat) (start : Nat) (i₀ : σ)
    (s t : Session α σ) (data : List UInt8) (request : Request) (reply : Reply) : Prop where
  streams : Streams archive inflater stat start i₀ t (data ++ reply.data)
  bound : (data ++ reply.data).length ≤ stat.uncompSize
  length : reply.ok → reply.data.length = min request.size (stat.uncompSize - data.length)
  complete : reply.ok → request.size ≠ 0 → (data ++ reply.data).length = stat.uncompSize →
    Complete stat t (data ++ reply.data)
  fine : reply.ok → t.stream.error = 0
  failed : ¬reply.ok → request.Valid → t.stream.error ≠ 0
  sticky : s.stream.error ≠ 0 → t = s ∧ (request.size ≠ 0 → ¬reply.ok)

theorem zipStreamRead_law (streams : Streams archive inflater stat start i₀ s data)
    (bound : data.length ≤ stat.uncompSize) (request : Request) :
    ReadLaw archive inflater stat start i₀ s (zipStreamRead archive inflater request s).1 data request
      (zipStreamRead archive inflater request s).2 := by
  have unchanged : Streams archive inflater stat start i₀ s (data ++ []) := by rwa [List.append_nil]
  have bound' : (data ++ []).length ≤ stat.uncompSize := by rwa [List.append_nil]
  unfold zipStreamRead
  split
  · rename_i invalid
    exact ⟨unchanged, bound', nofun, nofun, nofun, fun _ valid => absurd invalid valid,
      fun _ => ⟨rfl, fun _ => nofun⟩⟩
  split
  · rename_i sticky
    exact ⟨unchanged, bound', nofun, nofun, nofun, fun _ _ => sticky, fun _ => ⟨rfl, fun _ => nofun⟩⟩
  rename_i fine
  split
  · rename_i empty
    exact ⟨unchanged, bound', fun _ => by simp [empty], fun _ sized => absurd empty sized,
      fun _ => not_not.mp fine, fun never => absurd rfl never, fun sticky => absurd sticky fine⟩
  · dsimp only
    have clipped : (if request.size > s.stream.stat.uncompSize - s.stream.position then
        s.stream.stat.uncompSize - s.stream.position else request.size) =
        min request.size (stat.uncompSize - data.length) := by
      rw [streams.entry, streams.position]
      split <;> omega
    rw [clipped]
    have decoded : Decoded archive inflater stat start i₀ data
        (min request.size (stat.uncompSize - data.length)) (zipStreamDecode archive inflater _ s) :=
      zipStreamDecode_decoded streams (not_not.mp fine) (by omega)
    generalize zipStreamDecode archive inflater _ s = outcome at decoded
    have within := decoded.within
    refine ⟨decoded.streams, ?_, fun ok => (decoded.whole ok).2.1, fun ok _ => (decoded.whole ok).2.2,
      fun ok => (decoded.whole ok).1, fun failed _ => decoded.failed failed, fun sticky => absurd sticky fine⟩
    show (data ++ outcome.data).length ≤ stat.uncompSize
    rw [List.length_append]
    omega

def delivered (replies : List Reply) : List UInt8 := replies.flatMap Reply.data

theorem readAll_streams (streams : Streams archive inflater stat start i₀ s data)
    (bound : data.length ≤ stat.uncompSize) (requests : List Request) :
    Streams archive inflater stat start i₀ (readAll archive inflater s requests).1
        (data ++ delivered (readAll archive inflater s requests).2) ∧
      (data ++ delivered (readAll archive inflater s requests).2).length ≤ stat.uncompSize := by
  induction requests generalizing s data with
  | nil => simpa [readAll, delivered] using ⟨streams, bound⟩
  | cons request requests ih =>
    have law := zipStreamRead_law streams bound request
    have rest := ih law.streams law.bound
    simpa [readAll, delivered, List.append_assoc] using rest

theorem readAll_sticky (streams : Streams archive inflater stat start i₀ s data)
    (bound : data.length ≤ stat.uncompSize) (sticky : s.stream.error ≠ 0) (requests : List Request) :
    (readAll archive inflater s requests).1 = s := by
  induction requests with
  | nil => rfl
  | cons request requests ih =>
    have same := ((zipStreamRead_law streams bound request).sticky sticky).1
    simp only [readAll, same, ih]

theorem readAll_ok (streams : Streams archive inflater stat start i₀ s data)
    (bound : data.length ≤ stat.uncompSize) (fine : s.stream.error = 0) {requests : List Request}
    (ok : ∀ reply ∈ (readAll archive inflater s requests).2, reply.ok) :
    (readAll archive inflater s requests).1.stream.error = 0 ∧
      (delivered (readAll archive inflater s requests).2).length =
        min (requests.map Request.size).sum (stat.uncompSize - data.length) := by
  induction requests generalizing s data with
  | nil => simpa [readAll, delivered] using fine
  | cons request requests ih =>
    have law := zipStreamRead_law streams bound request
    simp only [readAll, List.forall_mem_cons] at ok
    obtain ⟨fine', length⟩ := ih law.streams law.bound (law.fine ok.1) ok.2
    refine ⟨fine', ?_⟩
    have first := law.length ok.1
    have inside := law.bound
    rw [List.length_append] at length inside
    simp only [readAll, delivered, List.flatMap_cons, List.length_append, List.map_cons,
      List.sum_cons]
    rw [show List.flatMap Reply.data = delivered from rfl, length, first]
    omega

theorem Streams.comparable (depends : DependsOnInput inflater i₀) {s' : Session α σ}
    {data' : List UInt8} (streams : Streams archive inflater stat start i₀ s data)
    (streams' : Streams archive inflater stat start i₀ s' data') (fine : s.stream.error = 0)
    (fine' : s'.stream.error = 0) (shorter : data.length ≤ data'.length) : data <+: data' := by
  have pieces {n m : Nat} (below : n ≤ m) :
      slice archive.bytes start n <+: slice archive.bytes start m :=
    List.take_prefix_take_left below
  by_cases method : stat.method = 0
  · rw [(streams.stored method).2, (streams'.stored method).2]
    exact pieces shorter
  · have input : consumed s.steps <+: slice archive.bytes start s.stream.compressedLoaded :=
      ⟨_, streams.input⟩
    have input' : consumed s'.steps <+: slice archive.bytes start s'.stream.compressedLoaded :=
      ⟨_, streams'.input⟩
    have inputs : consumed s.steps <+: consumed s'.steps ∨ consumed s'.steps <+: consumed s.steps :=
      List.prefix_or_prefix_of_prefix (input.trans (pieces (Nat.le_max_left ..)))
        (input'.trans (pieces (Nat.le_max_right ..)))
    have outputs : data <+: data' ∨ data' <+: data := by
      rw [← streams.produced fine method, ← streams'.produced fine' method]
      rcases inputs with less | less
      · exact depends _ _ _ _ streams.fed streams'.fed less
      · exact (depends _ _ _ _ streams'.fed streams.fed less).symm
    rcases outputs with less | less
    · exact less
    · exact (less.eq_of_length_le shorter).symm ▸ List.prefix_rfl

end Streams

end Yafsml.Vfs.ZipStream
