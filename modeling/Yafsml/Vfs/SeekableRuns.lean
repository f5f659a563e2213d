import Yafsml.Vfs.SeekableCursors

/-!
# Failed decodes

A file whose decode failed reports the error from then on. The cache stays empty, so that another file
decodes again, and is served when the archive and the system answer.
-/

namespace Yafsml.Vfs.Seekable

open Cursor MachineInt

/-! ## Answers that serve -/

/-- The archive and the system deliver an entry of this size. -/
structure DecodeAnswer.Healthy (answer : DecodeAnswer) (size : Nat) : Prop where
  disk : answer.disk = .ok ()
  staging : answer.staging
  stream : answer.stream = .ok ()
  chunk : ∀ offset < size, ∃ n, answer.chunk offset = .ok n ∧ min (size - offset) cacheChunkSize ≤ n
  write : ∀ offset, answer.write offset = .ok ()
  endMarker : answer.endMarker = .ok ()

section Serving

variable {content : Bytes} {cache : Cache} {answer : DecodeAnswer}

theorem DecodeAnswer.Healthy.decodeChunks_ok (healthy : answer.Healthy content.length)
    (toDisk : Bool) (offset : Nat) (data : Bytes) :
    ∃ result, decodeChunks content content.length toDisk answer offset data = .ok result := by
  fun_induction decodeChunks content content.length toDisk answer offset data with
  | case1 offset data inside e answered =>
    obtain ⟨n, delivered, _⟩ := healthy.chunk offset inside
    rw [answered] at delivered
    cases delivered
  | case2 offset data inside chunk delivered answered target short =>
    obtain ⟨n, same, enough⟩ := healthy.chunk offset inside
    rw [answered, Except.ok.injEq] at same
    subst same
    refine absurd ?_ short
    rw [length_slice]
    omega
  | case3 offset data inside chunk delivered answered target whole e written =>
    cases toDisk <;> simp [healthy.write] at written
  | case4 offset data inside chunk delivered answered target whole e written ih => exact ih
  | case5 offset data finished => exact ⟨data, rfl⟩

theorem DecodeAnswer.Healthy.storage_ok (healthy : answer.Healthy content.length) (size : Nat) :
    ∃ toDisk, storage size answer = .ok toDisk := by
  unfold storage
  split
  · rw [healthy.disk]
    dsimp only
    rw [if_pos healthy.staging]
    exact ⟨true, rfl⟩
  · exact ⟨false, rfl⟩

theorem DecodeAnswer.Healthy.cachePrepare_ok (healthy : answer.Healthy content.length)
    (holds : Holds content cache) : ∃ cache', cachePrepare content answer cache = .ok cache' := by
  unfold cachePrepare
  split
  · exact ⟨cache, rfl⟩
  rename_i empty
  obtain ⟨package, retained⟩ := Option.isSome_iff_exists.mp (holds.retained (not_not.mp empty))
  obtain ⟨toDisk, stored⟩ := healthy.storage_ok cache.size
  obtain ⟨data, decoded⟩ := healthy.decodeChunks_ok toDisk 0 []
  rw [← holds.size] at decoded
  have done : decodeData content cache toDisk answer = .ok data := by
    unfold decodeData
    simp [retained, healthy.stream, decoded, healthy.endMarker]
  simp only [cacheDecode, stored, done]
  exact ⟨_, rfl⟩

theorem readFate_undecoded {request : Request} {offset : Nat} {e : ErrorCode}
    (fate : readFate content request cache offset = .undecoded e) :
    cachePrepare content request.decode cache = .error e := by
  unfold readFate at fate
  split at fate
  · rename_i e' prepared
    cases fate
    exact prepared
  · split at fate
    · cases fate
    dsimp only at fate
    split at fate <;> cases fate

theorem cachePrepare_error {e : ErrorCode} (failed : cachePrepare content answer cache = .error e) :
    cache.state = .empty ∧ cacheDecode content answer cache = .error e := by
  unfold cachePrepare at failed
  split at failed
  · cases failed
  · rename_i empty
    exact ⟨not_not.mp empty, failed⟩

theorem readFate_prepared {request : Request} (offset : Nat) {cache' : Cache}
    (holds : Holds content cache) (small : content.length ≤ int64Max)
    (prepared : cachePrepare content request.decode cache = .ok cache') :
    readFate content request cache offset = .served ∨
      (∃ n e, readFate content request cache offset = .cut n e) ∧
        ∃ k < request.size.toNat, Fails request.readFile k := by
  obtain ⟨holds', decoded⟩ := cachePrepare_holds holds prepared
  unfold readFate
  rw [prepared]
  dsimp only
  split
  · exact .inl rfl
  rename_i inside
  have delivers := @cacheRead_clipped _ _ holds' decoded small request.readFile offset
    (Nat.lt_of_not_ge inside) request.size.toNat
  cases failure : (cacheRead cache' request.readFile offset
      (min request.size.toNat (content.length - offset))).error with
  | none => exact .inl rfl
  | some e =>
    obtain ⟨k, within, fails⟩ := delivers.failed (by rw [failure]; nofun)
    exact .inr ⟨⟨_, e, rfl⟩, k, by omega, fails⟩

end Serving

/-! ## Calls -/

/-- The request is not turned away for its missing buffer. -/
def Request.Valid (request : Request) : Prop := ¬(request.size.toNat ≠ 0 ∧ ¬request.buffer)

variable {ι : Type*} [DecidableEq ι]

def Call.IsReadAt : Call ι → Prop
  | .readAt .. => True
  | _ => False

structure CallLaw (entry : Entry) (s t : Shared ι) (call : Call ι) (reply : Reply) : Prop where
  others : ∀ j, j ≠ call.file → t.files j = s.files j
  stays : call.IsReadAt ∨ (call.reads s = none ∧ reply.error ≠ none) →
    (t.files call.file).position = (s.files call.file).position
  pastEnd : ∀ offset request, call.reads s = some (offset, request) →
    entry.content.length ≤ offset → reply.read = 0 ∧ reply.data = []
  undecoded : ∀ e, fateOf entry s call = .undecoded e → s.cache.state = .empty ∧
    ∃ offset request, call.reads s = some (offset, request) ∧
      cacheDecode entry.content request.decode s.cache = .error e
  cut : ∀ n e, fateOf entry s call = .cut n e → ∃ offset request,
    call.reads s = some (offset, request) ∧ ∃ k < request.size.toNat, Fails request.readFile k
  sticks : ∀ e offset request, call.reads s = some (offset, request) → request.Valid →
    request.size.toNat ≠ 0 → (s.files call.file).error = 0 →
    fateOf entry s call = .undecoded e → reply = .failed e ∧ t.cache = s.cache ∧
      ∀ between u replies, performAll entry t between = some (u, replies) →
        ∀ later offset' request', later.reads u = some (offset', request') →
          later.file = call.file → request'.Valid → ∃ v, perform entry u later = some (v, .failed e)
  retries : ∀ offset request, call.reads s = some (offset, request) → request.Valid →
    (s.files call.file).error = 0 → request.decode.Healthy entry.content.length →
    (∀ k, ¬Fails request.readFile k) →
      reply = FileCursor.delivered none (slice entry.content offset request.size.toNat)

theorem FileCursor.seek_failed {data : Bytes} {distance : Int} {origin : UInt32}
    {cursor : FileCursor} (failed : (seek data distance origin cursor).2.error ≠ none) :
    (seek data distance origin cursor).1 = cursor := by
  unfold seek at failed ⊢
  split
  · rfl
  · rename_i known
    rw [if_neg known] at failed
    split
    · rename_i next moved
      rw [moved] at failed
      exact absurd rfl failed
    · rfl

omit [DecidableEq ι] in
theorem FileCursor.call_error {data : Bytes} {fate : Fate} {call : Call ι} {cursor : FileCursor}
    (sticky : cursor.error ≠ 0) : (FileCursor.call data fate call cursor).1.error = cursor.error := by
  have kept (offset size : Nat) (buffer : Bool) :
      (readAt data fate offset buffer size cursor).1.error = cursor.error := by
    unfold readAt
    split
    · rfl
    · rfl
  cases call with
  | readAt _ offset request => exact kept ..
  | read _ request => exact kept ..
  | seek _ distance origin =>
    show (seek data distance.toInt origin cursor).1.error = cursor.error
    unfold seek
    split
    · rfl
    split <;> rfl

variable {entry : Entry} {s t : Shared ι}

theorem update_file (call : Call ι) (next : Cache × VfsFile × Reply) :
    (s.update call.file next).1.files call.file = next.2.1 := Function.update_self ..

theorem performAll_error (sound : Sound entry s) {i : ι} (sticky : (s.files i).error ≠ 0)
    {calls : List (Call ι)} {replies : List Reply}
    (ran : performAll entry s calls = some (t, replies)) :
    Sound entry t ∧ (t.files i).error = (s.files i).error := by
  induction calls generalizing s replies with
  | nil =>
    cases ran
    exact ⟨sound, rfl⟩
  | cons call calls ih =>
    obtain ⟨next, performed, refines⟩ := perform_refines sound call
    rw [performAll, performed, Option.bind_some] at ran
    obtain ⟨⟨u, rest⟩, ran', same⟩ := Option.map_eq_some_iff.mp ran
    cases same
    have kept : ((s.update call.file next).1.files i).error = (s.files i).error := by
      by_cases own : i = call.file
      · subst own
        rw [update_file, refines.file]
        exact FileCursor.call_error sticky
      · exact congrArg VfsFile.error (Function.update_of_ne own ..)
    obtain ⟨sound', still⟩ := ih (sound.update refines) (by rwa [kept]) ran'
    exact ⟨sound', still.trans kept⟩

theorem vfsFileReadAt_sticky {content : Bytes} {offset : Nat} {request : Request} {cache : Cache}
    {file : VfsFile} (valid : request.Valid) (sticky : file.error ≠ 0) :
    vfsFileReadAt content offset request cache file =
      (cache, file, .failed ⟨file.error, sticky⟩) := by
  unfold vfsFileReadAt
  dsimp only
  rw [if_neg valid, dif_pos sticky]

theorem perform_sticky {call : Call ι} {offset : Nat} {request : Request}
    (reads : call.reads s = some (offset, request)) (valid : request.Valid)
    (sticky : (s.files call.file).error ≠ 0) :
    ∃ t, perform entry s call = some (t, .failed ⟨(s.files call.file).error, sticky⟩) := by
  cases call with
  | readAt i offset' request' =>
    cases reads
    change (s.files i).error ≠ 0 at sticky
    exact ⟨_, by rw [perform, vfsFileReadAt_sticky valid sticky]; rfl⟩
  | read i request' =>
    cases reads
    change (s.files i).error ≠ 0 at sticky
    exact ⟨_, by rw [perform, vfsFileRead, vfsFileReadAt_sticky valid sticky]; rfl⟩
  | seek => cases reads

theorem vfsFileReadAt_undecoded {content : Bytes} {offset : Nat} {request : Request} {cache : Cache}
    {file : VfsFile} {e : ErrorCode} (valid : request.Valid) (sized : request.size.toNat ≠ 0)
    (fresh : file.error = 0) (failed : cachePrepare content request.decode cache = .error e) :
    vfsFileReadAt content offset request cache file = (cache, { file with error := e }, .failed e) := by
  unfold vfsFileReadAt
  dsimp only
  rw [if_neg valid, dif_neg (not_not.mpr fresh), if_neg sized, failed]

theorem perform_undecoded {call : Call ι} {offset : Nat} {request : Request} {e : ErrorCode}
    (reads : call.reads s = some (offset, request)) (valid : request.Valid)
    (sized : request.size.toNat ≠ 0) (fresh : (s.files call.file).error = 0)
    (fate : fateOf entry s call = .undecoded e) :
    ∃ file, perform entry s call = some (s.update call.file (s.cache, file, .failed e)) ∧
      file.error = e := by
  have failed : cachePrepare entry.content request.decode s.cache = .error e := by
    unfold fateOf at fate
    rw [reads] at fate
    exact readFate_undecoded fate
  cases call with
  | readAt i offset' request' =>
    cases reads
    change (s.files i).error = 0 at fresh
    refine ⟨{ s.files i with error := e }, ?_, rfl⟩
    rw [perform, vfsFileReadAt_undecoded valid sized fresh failed]
    rfl
  | read i request' =>
    cases reads
    change (s.files i).error = 0 at fresh
    refine ⟨{ s.files i with error := e, position := (s.files i).position % 2 ^ 64 }, ?_, rfl⟩
    rw [perform, vfsFileRead, vfsFileReadAt_undecoded valid sized fresh failed]
    rfl
  | seek => cases reads

theorem readFate_cut {content : Bytes} {cache : Cache} {request : Request} {offset n : Nat}
    {e : ErrorCode} (holds : Holds content cache) (small : content.length ≤ int64Max)
    (fate : readFate content request cache offset = .cut n e) :
    ∃ k < request.size.toNat, Fails request.readFile k := by
  cases prepared : cachePrepare content request.decode cache with
  | error e' =>
    unfold readFate at fate
    rw [prepared] at fate
    cases fate
  | ok cache' =>
    rcases readFate_prepared offset holds small prepared with served | ⟨_, fails⟩
    · rw [served] at fate
      cases fate
    · exact fails

theorem readFate_served {content : Bytes} {cache : Cache} {request : Request} {offset : Nat}
    (holds : Holds content cache) (small : content.length ≤ int64Max)
    (healthy : request.decode.Healthy content.length) (reads : ∀ k, ¬Fails request.readFile k) :
    readFate content request cache offset = .served := by
  obtain ⟨cache', prepared⟩ := healthy.cachePrepare_ok holds
  rcases readFate_prepared offset holds small prepared with served | ⟨_, k, _, fails⟩
  · exact served
  · exact absurd fails (reads k)

theorem FileCursor.readAt_served {data : Bytes} {offset size : Nat} {buffer : Bool}
    {cursor : FileCursor} (valid : ¬(size ≠ 0 ∧ ¬buffer)) (fresh : cursor.error = 0) :
    (readAt data .served offset buffer size cursor).2 = delivered none (slice data offset size) := by
  unfold readAt
  rw [if_neg valid, dif_neg (not_not.mpr fresh)]
  split
  · rename_i empty
    rw [empty, slice_zero]
  · rfl

omit [DecidableEq ι] in
theorem FileCursor.call_reads {data : Bytes} {fate : Fate} {call : Call ι} {offset : Nat}
    {request : Request} (reads : call.reads s = some (offset, request)) :
    (FileCursor.call data fate call (cursorOf (s.files call.file))).2 =
      (readAt data fate offset request.buffer request.size.toNat
        (cursorOf (s.files call.file))).2 := by
  cases call with
  | readAt => cases reads; rfl
  | read => cases reads; rfl
  | seek => cases reads

omit [DecidableEq ι] in
theorem fateOf_reads {call : Call ι} {offset : Nat} {request : Request}
    (reads : call.reads s = some (offset, request)) :
    fateOf entry s call = readFate entry.content request s.cache offset := by
  unfold fateOf
  rw [reads]

omit [DecidableEq ι] in
theorem reads_of_fate {call : Call ι} (unserved : fateOf entry s call ≠ .served) :
    ∃ offset request, call.reads s = some (offset, request) := by
  unfold fateOf at unserved
  cases reads : call.reads s with
  | none => exact absurd (by rw [reads]) unserved
  | some read => exact ⟨read.1, read.2, rfl⟩

theorem perform_sticks (sound : Sound entry s) {reply : Reply} {call : Call ι}
    (performed : perform entry s call = some (t, reply)) {e : ErrorCode} {offset : Nat}
    {request : Request} (reads : call.reads s = some (offset, request)) (valid : request.Valid)
    (sized : request.size.toNat ≠ 0) (fresh : (s.files call.file).error = 0)
    (fate : fateOf entry s call = .undecoded e) :
    reply = .failed e ∧ t.cache = s.cache ∧
      ∀ between u replies, performAll entry t between = some (u, replies) →
        ∀ later offset' request', later.reads u = some (offset', request') →
          later.file = call.file → request'.Valid →
            ∃ v, perform entry u later = some (v, .failed e) := by
  obtain ⟨next, performed', refines⟩ := perform_refines sound call
  have sound' := sound.update refines
  obtain ⟨file, performed'', error⟩ := perform_undecoded reads valid sized fresh fate
  rw [performed'', Option.some.injEq] at performed performed'
  rw [← performed', performed] at sound'
  cases performed
  refine ⟨rfl, rfl, fun between u replies ran later offset' request' reads' same valid' => ?_⟩
  have held : (Function.update s.files call.file file later.file).error = e := by
    rw [same, Function.update_self]
    exact error
  have sticky : (Function.update s.files call.file file later.file).error ≠ 0 := by
    rw [held]
    exact e.2
  have still := (performAll_error sound' sticky ran).2.trans held
  have stuck : (u.files later.file).error ≠ 0 := by
    rw [still]
    exact e.2
  obtain ⟨v, reported⟩ : ∃ v, perform entry u later = some (v, .failed ⟨_, stuck⟩) :=
    perform_sticky reads' valid' stuck
  exact ⟨v, reported.trans (by simp only [still])⟩

theorem perform_law (sound : Sound entry s) (call : Call ι) :
    ∃ t reply, perform entry s call = some (t, reply) ∧ CallLaw entry s t call reply := by
  obtain ⟨next, performed, refines⟩ := perform_refines sound call
  have small := entry.fits
  have file := update_file (s := s) call next
  have others (j : ι) (other : j ≠ call.file) : (s.update call.file next).1.files j = s.files j :=
    Function.update_of_ne other ..
  have reply : (s.update call.file next).2 = _ := refines.reply
  generalize s.update call.file next = after at performed file others reply
  obtain ⟨t, _⟩ := after
  obtain rfl : _ = _ := reply
  refine ⟨t, _, performed, others, ?_, ?_, ?_, ?_, ?_, ?_⟩
  · intro still
    rw [file, refines.file]
    cases call with
    | readAt => exact FileCursor.readAt_position ..
    | read => rcases still with never | ⟨never, _⟩ <;> cases never
    | seek i distance origin =>
      rcases still with never | ⟨_, failed⟩
      · cases never
      · exact congrArg FileCursor.position (FileCursor.seek_failed failed)
  · intro offset request reads past
    have short := FileCursor.readAt_length entry.content (fateOf entry s call) offset
      request.size.toNat request.buffer (cursorOf (s.files call.file))
    rw [← FileCursor.call_reads reads] at short
    have none := List.length_eq_zero_iff.mp (Nat.le_zero.mp (short.trans (by omega)))
    rw [refines.count, none]
    exact ⟨rfl, rfl⟩
  · intro e fate
    obtain ⟨offset, request, reads⟩ := reads_of_fate (by rw [fate]; nofun)
    rw [fateOf_reads reads] at fate
    obtain ⟨empty, failed⟩ := cachePrepare_error (readFate_undecoded fate)
    exact ⟨empty, offset, request, reads, failed⟩
  · intro n e fate
    obtain ⟨offset, request, reads⟩ := reads_of_fate (by rw [fate]; nofun)
    rw [fateOf_reads reads] at fate
    exact ⟨offset, request, reads, readFate_cut sound.cache small fate⟩
  · intro e offset request reads valid sized fresh fate
    exact perform_sticks sound performed reads valid sized fresh fate
  · intro offset request reads valid fresh healthy answered
    have served : fateOf entry s call = .served :=
      (fateOf_reads reads).trans (readFate_served sound.cache small healthy answered)
    rw [FileCursor.call_reads reads, served, FileCursor.readAt_served valid fresh]

/-- Files over one decoded cache are independent cursors over the decoded entry, along every sequence of
calls, and no arithmetic of theirs overflows. -/
theorem seekable_files_are_cursors (entry : Entry) (c references : Nat) (calls : List (Call ι)) :
    let opened : Shared ι := .opened entry c references
    ∃ s replies, performAll entry opened calls = some (s, replies) ∧
      FileCursor.callAll entry.content (fun _ => ⟨0, 0⟩) (calls.zip (fates entry opened calls)) =
        (fun i => cursorOf (s.files i), replies) ∧
      (∀ i, (s.files i).position ≤ int64Max) ∧
      ∀ call, ∃ t reply, perform entry s call = some (t, reply) ∧ CallLaw entry s t call reply := by
  intro opened
  obtain ⟨s, replies, ran, sound, cursors⟩ :=
    performAll_refines (Shared.opened_sound entry c references) calls
  exact ⟨s, replies, ran, cursors, sound.position, perform_law sound⟩

end Yafsml.Vfs.Seekable
