import Yafsml.Vfs.ZipStreamRuns

/-!
# The integrity of ZIP streams

What the reads of an opened stream promise, for every inflater, every archive file and every way to split
the reading; the decoder of the caches reads in one such way.
-/

namespace Yafsml.Vfs.ZipStream

open Crc32 Cursor MachineInt

variable {α σ : Type*} {archive : Archive α} {inflater : Inflater σ} {stat : FileStat}

def FileStat.dataStart (bytes : List UInt8) (stat : FileStat) : Nat :=
  let header := slice bytes stat.localHeaderOffset headerSize
  stat.localHeaderOffset + headerSize + zipU16 header 26 + zipU16 header 28

theorem FileStat.matches_length {header : List UInt8} (fits : stat.matches header) :
    header.length = headerSize := by
  simp only [FileStat.matches, Bool.and_eq_true, decide_eq_true_eq] at fits
  exact fits.1.1.1

theorem FileStat.normalize_offset (stat : FileStat) :
    stat.normalize.localHeaderOffset = stat.localHeaderOffset := by
  unfold normalize
  split <;> rfl

theorem zipStreamOpen_ok {memory inflateInit : Bool} {a : α} {i : σ} {s : Session α σ}
    (opened : zipStreamOpen archive (some stat) memory inflateInit a i = .ok s) :
    s = ⟨⟨stat.normalize, [], stat.dataStart archive.bytes, 0, 0, 0, 0, false⟩, s.archive, i, []⟩ := by
  unfold zipStreamOpen at opened
  dsimp only at opened
  split at opened
  · cases opened
  split at opened
  · cases opened
  rename_i header
  have whole := Archive.zipRead_whole (FileStat.matches_length (not_not.mp header))
  split at opened
  · cases opened
  split at opened
  · cases opened
  split at opened
  · cases opened
  · cases opened
    rw [whole, FileStat.normalize_offset]
    rfl

theorem zipStreamOpen_streams (inflater : Inflater σ) {memory inflateInit : Bool} {a : α} {i : σ} {s : Session α σ}
    (opened : zipStreamOpen archive (some stat) memory inflateInit a i = .ok s) :
    s.stream.error = 0 ∧
      Streams archive inflater stat.normalize (stat.dataStart archive.bytes) i s [] := by
  rw [zipStreamOpen_ok opened]
  refine ⟨rfl, rfl, rfl, rfl, ?_, Nat.zero_le _, ?_, .start, fun _ => ⟨nofun, ?_⟩, fun _ _ => rfl, nofun⟩
  · exact (mzCrc32_nil 0).symm
  · exact (slice_zero ..).symm
  · exact (slice_zero ..).symm

theorem FileStat.normalize_sizes (stat : FileStat) :
    stat.normalize.uncompSize = stat.uncompSize ∧ stat.normalize.crc32 = stat.crc32 := by
  unfold normalize
  split <;> exact ⟨rfl, rfl⟩

theorem FileStat.normalize_deflated (deflated : stat.method = mzDeflated)
    (some : stat.compSize ≠ 0 ∨ stat.uncompSize ≠ 0) : stat.normalize.method ≠ 0 := by
  unfold normalize
  split
  · rename_i none
    rcases some with some | some
    · exact absurd none.2.1 some
    · exact absurd none.2.2 some
  · rw [deflated]
    decide

section Decoder

variable (archive inflater)

def cacheChunk : Nat := 65536

/-- The loop of `cache_decode` over the stream, and the read that an empty entry needs. -/
def decodeReads (size : Nat) (s : Session α σ) (offset : Nat) (data : List UInt8) :
    Option (List UInt8) :=
  if offset < size then
    let chunk := min (size - offset) cacheChunk
    let (s, reply) := zipStreamRead archive inflater ⟨true, chunk⟩ s
    if ¬reply.ok then none
    else if reply.data.length ≠ chunk then none
    else decodeReads size s (offset + chunk) (data ++ reply.data)
  else if size = 0 ∧ ¬(zipStreamRead archive inflater ⟨true, 1⟩ s).2.ok then none
  else some data
termination_by size - offset
decreasing_by
  rw [cacheChunk]
  omega

variable {archive inflater} {start : Nat} {i₀ : σ}

theorem decodeReads_complete {s : Session α σ} {offset : Nat} {data result : List UInt8}
    (streams : Streams archive inflater stat start i₀ s data) (fine : s.stream.error = 0)
    (position : offset = data.length) (bound : data.length ≤ stat.uncompSize)
    (complete : 0 < data.length → data.length = stat.uncompSize → Complete stat s data)
    (done : decodeReads archive inflater stat.uncompSize s offset data = some result) :
    ∃ t, Streams archive inflater stat start i₀ t result ∧ t.stream.error = 0 ∧
      result.length = stat.uncompSize ∧ Complete stat t result := by
  fun_induction decodeReads archive inflater stat.uncompSize s offset data with
  | case1 => cases done
  | case2 => cases done
  | case3 s offset data inside chunk t reply read ok whole ih =>
    have law := zipStreamRead_law streams bound ⟨true, chunk⟩
    rw [read] at law
    have delivers : reply.data.length = chunk := not_not.mp whole
    have positive : chunk ≠ 0 := by
      rw [show chunk = min (stat.uncompSize - offset) cacheChunk from rfl, cacheChunk]
      omega
    have ok : reply.ok := not_not.mp ok
    refine ih law.streams (law.fine ok) ?_ law.bound (fun _ => law.complete ok positive) done
    rw [List.length_append, delivers, position]
  | case4 => cases done
  | case5 s offset data finished sound =>
    cases done
    have length : result.length = stat.uncompSize := by omega
    by_cases empty : stat.uncompSize = 0
    · have ok : (zipStreamRead archive inflater ⟨true, 1⟩ s).2.ok :=
        not_not.mp fun fails => sound ⟨empty, fails⟩
      have law := zipStreamRead_law streams bound ⟨true, 1⟩
      have inside := law.bound
      rw [List.length_append] at inside
      have nothing : (zipStreamRead archive inflater ⟨true, 1⟩ s).2.data = [] :=
        List.length_eq_zero_iff.mp (by omega)
      have same := law.streams
      have whole := law.complete ok Nat.one_ne_zero
      rw [nothing, List.append_nil] at same whole
      exact ⟨_, same, law.fine ok, length, whole length⟩
    · exact ⟨s, streams, fine, length, complete (by omega) length⟩

end Decoder

/-- Only the end marker completes a deflated entry, unless it has no data at all. -/
def Sound (stat : FileStat) (s : Session α σ) (data : List UInt8) : Prop :=
  mzCrc32 0 data = stat.crc32 ∧
    (stat.method = mzDeflated → stat.compSize ≠ 0 ∨ stat.uncompSize ≠ 0 → EndsWith s.steps data)

theorem Complete.sound {s : Session α σ} {data : List UInt8}
    (complete : Complete stat.normalize s data) : Sound stat s data := by
  refine ⟨?_, fun deflated some => complete.2 (FileStat.normalize_deflated deflated some)⟩
  rw [← (FileStat.normalize_sizes stat).2]
  exact complete.1

section Integrity

variable (archive inflater stat)

/-- What an opened stream promises about every split of its reading. -/
structure Integrity (i : σ) (opened : Session α σ) : Prop where
  bound : ∀ requests, (delivered (readAll archive inflater opened requests).2).length ≤ stat.uncompSize
  complete : ∀ before request, let s := readAll archive inflater opened before
    let t := zipStreamRead archive inflater request s.1
    let data := delivered s.2 ++ t.2.data
    t.2.ok → request.size ≠ 0 → data.length = stat.uncompSize → Sound stat t.1 data
  sticky : ∀ before request between later, let s := (readAll archive inflater opened before).1
    let t := zipStreamRead archive inflater request s
    let u := (readAll archive inflater t.1 between).1
    ¬t.2.ok → request.Valid → later.size ≠ 0 → ¬(zipStreamRead archive inflater later u).2.ok
  split : DependsOnInput inflater i → ∀ memory inflateInit a opened',
    zipStreamOpen archive (some stat) memory inflateInit a i = .ok opened' →
      ∀ requests requests', let s := readAll archive inflater opened requests
        let s' := readAll archive inflater opened' requests'
        (∀ reply ∈ s.2, reply.ok) → (∀ reply ∈ s'.2, reply.ok) →
          (requests.map Request.size).sum ≤ (requests'.map Request.size).sum →
            (delivered s.2).length = min (requests.map Request.size).sum stat.uncompSize ∧
              delivered s.2 <+: delivered s'.2
  decoder : ∀ data, decodeReads archive inflater stat.uncompSize opened 0 [] = some data →
    data.length = stat.uncompSize ∧
      (∃ t : Session α σ, Fed inflater i t.steps t.inflater ∧ Sound stat t data) ∧
      (DependsOnInput inflater i → ∀ requests, let s := readAll archive inflater opened requests
        (∀ reply ∈ s.2, reply.ok) → delivered s.2 <+: data)

end Integrity

theorem zipStream_integrity {memory inflateInit : Bool} {a : α} {i : σ} {opened : Session α σ}
    (open' : zipStreamOpen archive (some stat) memory inflateInit a i = .ok opened) :
    Integrity archive inflater stat i opened := by
  obtain ⟨fine, streams⟩ := zipStreamOpen_streams inflater open'
  have none : ([] : List UInt8).length ≤ stat.normalize.uncompSize := Nat.zero_le _
  have size := (FileStat.normalize_sizes stat).1
  refine ⟨?_, ?_, ?_, ?_, ?_⟩
  · intro requests
    rw [← size]
    exact (readAll_streams streams none requests).2
  · intro before request s t data ok sized length
    obtain ⟨streams', bound⟩ := readAll_streams streams none before
    exact ((zipStreamRead_law streams' bound request).complete ok sized
      (length.trans size.symm)).sound
  · intro before request between later s t u failed valid sized
    obtain ⟨streams', bound⟩ := readAll_streams streams none before
    have law := zipStreamRead_law streams' bound request
    have sticky := law.failed failed valid
    have same : u = t.1 := readAll_sticky law.streams law.bound sticky between
    rw [same]
    exact ((zipStreamRead_law law.streams law.bound later).sticky sticky).2 sized
  · intro depends memory' inflateInit' a' opened' reopened requests requests' s s' ok ok' fewer
    obtain ⟨fine', streams'⟩ := zipStreamOpen_streams inflater reopened
    obtain ⟨ended, length⟩ := readAll_ok streams none fine ok
    obtain ⟨ended', length'⟩ := readAll_ok streams' none fine' ok'
    rw [List.length_nil, Nat.sub_zero, size] at length length'
    refine ⟨length, ?_⟩
    have shorter : (delivered s.2).length ≤ (delivered s'.2).length := by
      rw [length, length']
      omega
    exact (readAll_streams streams none requests).1.comparable depends
      (readAll_streams streams' none requests').1 ended ended' shorter
  · intro data done
    rw [← size] at done
    obtain ⟨t, streams', fine', length, complete⟩ :=
      decodeReads_complete streams fine rfl none nofun done
    refine ⟨length.trans size, ⟨t, streams'.fed, complete.sound⟩, fun depends requests ok => ?_⟩
    obtain ⟨ended, _⟩ := readAll_ok streams none fine ok
    obtain ⟨streams'', bound⟩ := readAll_streams streams none requests
    exact streams''.comparable depends streams' ended fine' (by omega)

private def localHeader : List UInt8 :=
  [0x50, 0x4B, 3, 4, 20, 0, 0, 0, 8, 0] ++ List.replicate 20 0

private def archived (data : List UInt8) : Archive Unit := ⟨localHeader ++ data, fun _ _ => 100, id⟩

/-- An inflater that copies bytes up to a zero, the end marker. -/
def copying : Inflater Unit where
  step _ input room :=
    match input with
    | [] => (⟨0, [], .bufError⟩, ())
    | byte :: _ =>
        if byte = 0 then (⟨1, [], .streamEnd⟩, ())
        else if room = 0 then (⟨0, [], .ok⟩, ())
        else (⟨1, [byte], .ok⟩, ())
  consumed_le _ input room := by
    cases input with
    | nil => exact Nat.le_refl 0
    | cons byte rest =>
      dsimp only
      split
      · exact Nat.le_add_left ..
      split
      · exact Nat.zero_le _
      · exact Nat.le_add_left ..
  produced_le _ input room := by
    cases input with
    | nil => exact Nat.zero_le _
    | cons byte rest =>
      dsimp only
      split
      · exact Nat.zero_le _
      split
      · exact Nat.zero_le _
      · rename_i some
        exact Nat.pos_of_ne_zero some

private def copiedStat : FileStat := ⟨mzDeflated, 4, 3, 0x55BC801D, 0⟩

/-- An entry of three bytes and its end marker. -/
theorem zipStream_integrity_copied :
    Integrity (archived [1, 2, 3, 0]) copying copiedStat ()
      ⟨⟨copiedStat, [], 30, 0, 0, 0, 0, false⟩, (), (), []⟩ :=
  zipStream_integrity (show zipStreamOpen (archived [1, 2, 3, 0]) (some copiedStat) true true () () = _ from rfl)

private def emptyStat : FileStat := ⟨mzDeflated, 0, 0, 0, 0⟩

/-- A deflated entry without data is read without its end marker. -/
theorem zipStream_without_endMarker :
    ∃ opened, zipStreamOpen (archived []) (some emptyStat) true true () () = .ok opened ∧
      let t := zipStreamRead (archived []) copying ⟨true, 1⟩ opened
      t.2.ok ∧ t.2.data.length = emptyStat.uncompSize ∧ emptyStat.method = mzDeflated ∧
        ¬EndsWith t.1.steps t.2.data := by
  refine ⟨⟨⟨{ emptyStat with method := 0 }, [], 30, 0, 0, 0, 0, false⟩, (), (), []⟩, rfl, ?_⟩
  have ended : zipStreamDecode (archived []) copying 0
      ⟨⟨{ emptyStat with method := 0 }, [], 30, 0, 0, 0, 0, false⟩, (), (), []⟩ =
        ⟨⟨⟨{ emptyStat with method := 0 }, [], 30, 0, 0, 0, 0, false⟩, (), (), []⟩, [], true⟩ :=
    (storedLoop (archived []) 0).run_inr rfl
  intro t
  have same : t = (⟨⟨{ emptyStat with method := 0 }, [], 30, 0, 0, 0, 0, false⟩, (), (), []⟩,
      ⟨true, 0, []⟩) := by
    show zipStreamRead _ _ _ _ = _
    unfold zipStreamRead
    simp only [emptyStat] at ended ⊢
    simp [ended]
  rw [same]
  refine ⟨rfl, rfl, rfl, ?_⟩
  rintro ⟨_, before, last, steps, _⟩
  cases before <;> cases steps

end Yafsml.Vfs.ZipStream
