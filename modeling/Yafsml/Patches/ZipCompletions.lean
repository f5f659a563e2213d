import Yafsml.Patches.ZipReadsPlain

/-!
# Completions of overlapped reads

What an overlapped read leaves for `GetOverlappedResult`, and what it sends to the completion port of its
file or to its thread.
-/

namespace Yafsml.Patches.ZipReads

open Vfs
open Seekable (FileCursor Fate)

def code (error : Option ErrorCode) : UInt32 := error.elim 0 Subtype.val

/-- What `RtlNtStatusToDosError` makes of the statuses that a read stores. -/
structure StatusToError (statusToError : UInt32 → UInt32) : Prop where
  win32 : ∀ e : UInt32, e < 0x10000 → statusToError (0xC0070000 ||| e) = e
  endOfFile : statusToError 0xC0000011 = errorHandleEof.val

section Statuses

variable {statusToError : UInt32 → UInt32} {error : Option ErrorCode} {read : Nat} {o : Overlapped}

theorem low_word {e : UInt32} (small : e < 0x10000) : e &&& 0xFFFF = e := by
  apply UInt32.toNat_inj.mp
  have bound : e.toNat < 0x10000 := by simpa [UInt32.lt_iff_toNat_lt] using small
  have mask : (0xFFFF : UInt32).toNat = 2 ^ 16 - 1 := rfl
  rw [UInt32.toNat_and, mask, Nat.and_two_pow_sub_one_eq_mod]
  exact Nat.mod_eq_of_lt bound

theorem statusFromError_low {e : ErrorCode} (other : e ≠ errorHandleEof) (small : e.val < 0x10000) :
    (statusFromError (some e)).toUInt32 = 0xC0070000 ||| e.val := by
  simp [statusFromError, other, low_word small]

theorem statusFromError_final (e : ErrorCode) :
    statusFromError (some e) ≠ 0 ∧ statusFromError (some e) ≠ 0x103 := by
  have high : 0x103 < (statusFromError (some e)).toNat := by
    rw [statusFromError]
    split
    · decide
    · rw [UInt64.toNat_or]
      have left : (0xC0070000 : UInt64).toNat = 0xC0070000 := rfl
      have le := Nat.left_le_or (n := (0xC0070000 : UInt64).toNat) (m := (e.val &&& 0xFFFF).toUInt64.toNat)
      omega
  constructor
  · intro same
    rw [same] at high
    exact absurd high (by decide)
  · intro same
    rw [same] at high
    exact absurd high (by decide)

theorem overlappedResult_complete (known : StatusToError statusToError) (small : ∀ e ∈ error, e.val < 0x10000)
    (o : Overlapped) (read : Nat) :
    overlappedResult statusToError (o.complete error read) = (code error, .ofNat read) := by
  have count : (UInt64.ofNat read).toUInt32 = .ofNat read := toUInt32_ofNat read
  cases error with
  | none => simp [overlappedResult, Overlapped.complete, statusFromError, code, count]
  | some e =>
      obtain ⟨failed, final⟩ := statusFromError_final e
      simp only [overlappedResult, Overlapped.complete, failed, final, if_false, count, code, Option.elim_some,
        Prod.mk.injEq, and_true]
      by_cases eof : e = errorHandleEof
      · subst eof
        exact known.endOfFile
      · rw [statusFromError_low eof (small e rfl)]
        exact known.win32 e.val (small e rfl)

end Statuses

/-! ## What a read reports -/

def Signal.completes : Signal → Bool
  | .event _ => false
  | .packet .. | .apc .. => true

/-- `GetOverlappedResult` will give back the error and the count of the read. -/
def Stores (statusToError : UInt32 → UInt32) (done : Read) (overlapped : Option Overlapped) : Prop :=
  ∃ o, overlapped = some o ∧ ((∀ e ∈ done.error, e.val < 0x10000) →
    overlappedResult statusToError o = (code done.error, .ofNat done.read))

/-- The answer to a read with an `OVERLAPPED`, on a file that ends up as `file`; `read_file_data` left the
read as `done`. -/
structure Reported (statusToError : UInt32 → UInt32) (file : OpenFile) (undelivered : ErrorCode → Prop)
    (done result : Read) (signals : List Signal) : Prop where
  received : result.read = done.read ∧ result.data = done.data
  stored : Stores statusToError done result.overlapped
  packet : ∀ port received key, Signal.packet port received key ∈ signals →
    file.completionPort = some port ∧ file.completionKey = key ∧ done.error = none ∧ received = done.read
  apc : ∀ error received, Signal.apc error received ∈ signals →
    (error = none ∨ error = some errorHandleEof) ∧ error = done.error ∧ received = done.read
  once : (signals.filter Signal.completes).length ≤ 1
  answered : result.error = done.error ∨
    (result.error = none ∧ Signal.apc done.error done.read ∈ signals) ∨
    ∃ e, undelivered e ∧ result.error = some e ∧ signals.filter Signal.completes = []

def FileCall.Undelivered {κ : Type*} (e : ErrorCode) : FileCall κ → Prop
  | .readFile _ _ _ _ post => post = .error e
  | .readFileEx _ _ _ _ queueApc => queueApc = .error e
  | _ => False

def FileCall.queuesApc {κ : Type*} : FileCall κ → Bool
  | .readFileEx .. => true
  | _ => false

def FileCall.Refused {κ : Type*} (file : OpenFile) (e : ErrorCode) : FileCall κ → Prop
  | .readFile _ _ overlapped resetEvent _ => overlapped.any (·.event ≠ 0) ∧ resetEvent = .error e
  | .readFileEx _ request overlapped callback _ =>
      (overlapped.isNone || !callback || (request.size ≠ 0 && !request.buffer) || !file.overlapped) ∧
        e = errorInvalidParameter
  | _ => False

section Reports

variable {statusToError : UInt32 → UInt32} {file : OpenFile} {undelivered : ErrorCode → Prop} {o : Overlapped}

def signalled (o : Overlapped) : List Signal := if o.event ≠ 0 then [.event o.event] else []

theorem eq_of_mem_signalled {signal : Signal} (among : signal ∈ signalled o) : signal = .event o.event := by
  unfold signalled at among
  split at among
  · exact List.mem_singleton.mp among
  · exact absurd among List.not_mem_nil

theorem signalled_completes (o : Overlapped) : (signalled o).filter Signal.completes = [] := by
  rw [List.filter_eq_nil_iff]
  intro signal among
  rw [eq_of_mem_signalled among]
  simp [Signal.completes]

theorem completeRead_cases (file : OpenFile) (read : Read) (o : Overlapped) (post : Except ErrorCode Unit) :
    completeRead file read (some o) post = (signalled o, read.error) ∨
    (∃ port, file.completionPort = some port ∧ read.error = none ∧
      completeRead file read (some o) post = (signalled o ++ [.packet port read.read file.completionKey], none)) ∨
    ∃ e, post = .error e ∧ read.error = none ∧ completeRead file read (some o) post = (signalled o, some e) := by
  cases bound : file.completionPort with
  | none => exact .inl (by simp [completeRead, bound, signalled])
  | some port =>
      by_cases due : (read.error.isNone && !o.skipPort && !file.skipsPort) = true
      · have none : read.error = none := by
          simp only [Bool.and_eq_true, Option.isNone_iff_eq_none] at due
          exact due.1.1
        cases post with
        | ok _ => exact .inr (.inl ⟨port, rfl, none, by simp only [completeRead, bound, due, if_true, signalled]⟩)
        | error e => exact .inr (.inr ⟨e, rfl, none, by simp only [completeRead, bound, due, if_true, signalled]⟩)
      · exact .inl (by simp only [completeRead, bound, due, Bool.false_eq_true, if_false, signalled])

theorem readFileData_stores (known : StatusToError statusToError) {ι : Type*} [DecidableEq ι]
    {entry : Seekable.Entry} {apc : Bool} {access : Dword} {i : ι} {request : ReadRequest}
    {reader reader' : Seekable.Shared ι} {done : Read}
    (read : readFileData entry apc file access i request (some o) reader = some (reader', done)) :
    Stores statusToError done done.overlapped := by
  have finished (error : Option ErrorCode) (received : Nat) (data : Vfs.Bytes)
      (same : finishRead (some o) error received data = done) : Stores statusToError done done.overlapped := by
    subst same
    exact ⟨_, rfl, fun small => overlappedResult_complete known small o _⟩
  unfold readFileData at read
  split_ifs at read
  · exact finished _ _ _ (congrArg Prod.snd (Option.some.inj read))
  · exact finished _ _ _ (congrArg Prod.snd (Option.some.inj read))
  · exact finished _ _ _ (congrArg Prod.snd (Option.some.inj read))
  · obtain ⟨_, _, same⟩ := Option.map_eq_some_iff.mp read
    exact finished _ _ _ (congrArg Prod.snd same)

theorem reported_completeRead {done : Read} (stored : Stores statusToError done done.overlapped)
    {post : Except ErrorCode Unit} (delivered : ∀ e, post = .error e → undelivered e) :
    Reported statusToError file undelivered done { done with error := (completeRead file done (some o) post).2 }
      (completeRead file done (some o) post).1 := by
  have quiet : ∀ signal ∈ signalled o, signal.completes = false := by
    intro signal among
    rw [eq_of_mem_signalled among]
    rfl
  rcases completeRead_cases file done o post with plain | ⟨port, bound, sound, posted⟩ | ⟨e, failed, _, unposted⟩
  · rw [plain]
    constructor
    case received => exact ⟨rfl, rfl⟩
    case stored => exact stored
    case packet => exact fun _ _ _ among => absurd (quiet _ among) Bool.noConfusion
    case apc => exact fun _ _ among => absurd (quiet _ among) Bool.noConfusion
    case once => simp [signalled_completes]
    case answered => exact .inl rfl
  · rw [posted]
    constructor
    case received => exact ⟨rfl, rfl⟩
    case stored => exact stored
    case packet =>
      intro port' received key among
      rcases List.mem_append.mp among with event | packet
      · exact absurd (quiet _ event) Bool.noConfusion
      · cases List.mem_singleton.mp packet
        exact ⟨bound, rfl, sound, rfl⟩
    case apc =>
      intro error received among
      rcases List.mem_append.mp among with event | packet
      · exact absurd (quiet _ event) Bool.noConfusion
      · cases List.mem_singleton.mp packet
    case once =>
      rw [List.filter_append, signalled_completes]
      exact le_rfl
    case answered => exact .inl sound.symm
  · rw [unposted]
    constructor
    case received => exact ⟨rfl, rfl⟩
    case stored => exact stored
    case packet => exact fun _ _ _ among => absurd (quiet _ among) Bool.noConfusion
    case apc => exact fun _ _ among => absurd (quiet _ among) Bool.noConfusion
    case once => simp [signalled_completes]
    case answered => exact .inr (.inr ⟨e, delivered e failed, rfl, signalled_completes o⟩)

theorem reported_completeReadEx {done : Read} (stored : Stores statusToError done done.overlapped)
    {queueApc : Except ErrorCode Unit} (delivered : ∀ e, queueApc = .error e → undelivered e) :
    ∃ result signals, completeReadEx done queueApc = .read result signals ∧
      Reported statusToError file undelivered done result signals := by
  unfold completeReadEx
  by_cases bad : (done.error.isSome && done.error ≠ some errorHandleEof) = true
  · rw [if_pos bad]
    refine ⟨_, _, rfl, ⟨rfl, rfl⟩, stored, ?_, ?_, by simp, .inl rfl⟩
    · simp
    · simp
  · rw [if_neg bad]
    have known : done.error = none ∨ done.error = some errorHandleEof := by
      cases error : done.error with
      | none => exact .inl rfl
      | some e => exact .inr (by simpa [error] using bad)
    cases queueApc with
    | ok _ =>
        refine ⟨_, _, rfl, ⟨rfl, rfl⟩, stored, by simp, ?_, le_rfl, .inr (.inl ⟨rfl, List.mem_cons_self⟩)⟩
        intro error received among
        cases List.mem_singleton.mp among
        exact ⟨known, rfl, rfl⟩
    | error e =>
        exact ⟨_, _, rfl, ⟨rfl, rfl⟩, stored, by simp, by simp, by simp,
          .inr (.inr ⟨e, delivered e rfl, rfl, rfl⟩)⟩

end Reports

/-! ## Along a session -/

section Sessions

variable {ι κ : Type*} [DecidableEq ι] {entry : Seekable.Entry} {handles : κ → ι × Dword} {s t : Session ι}
  {statusToError : UInt32 → UInt32}

def Bound (file file' : OpenFile) : Prop :=
  ∀ port, file.completionPort = some port →
    file'.completionPort = some port ∧ file'.completionKey = file.completionKey

theorem Plain.call_bound {data : Vfs.Bytes} {identity : Nat} {fate : Fate} {access : Dword} (p : PlainFile)
    (call : FileCall κ) : Bound p.file (Plain.call data identity fate access p call).1.file := by
  intro port bound
  cases call with
  | completionPort handle port' key answer =>
      simp [Plain.call, completionPortHooked, bound]
  | completionModes handle modes =>
      simp only [Plain.call, completionModesHooked]
      split <;> exact ⟨bound, rfl⟩
  | _ => exact ⟨bound, rfl⟩

omit [DecidableEq ι] in
theorem Bound.trans {file file' file'' : OpenFile} (first : Bound file file') (second : Bound file' file'') :
    Bound file file'' := by
  intro port bound
  obtain ⟨bound', key⟩ := first port bound
  obtain ⟨bound'', key'⟩ := second port bound'
  exact ⟨bound'', key'.trans key⟩

theorem Reported.later {file file' : OpenFile} {undelivered : ErrorCode → Prop} {done result : Read}
    {signals : List Signal} (reported : Reported statusToError file undelivered done result signals)
    (bound : Bound file file') : Reported statusToError file' undelivered done result signals := by
  refine { reported with packet := fun port received key among => ?_ }
  obtain ⟨here, rfl, rest⟩ := reported.packet port received key among
  obtain ⟨there, key⟩ := bound port here
  exact ⟨there, key, rest⟩

/-- What becomes of a read in the session `s`, whose file ends up as `file`. -/
def ReadsAs (statusToError : UInt32 → UInt32) (entry : Seekable.Entry) (handles : κ → ι × Dword) (s : Session ι)
    (call : FileCall κ) (request : ReadRequest) (o : Overlapped) (file : OpenFile) (answer : Answer) : Prop :=
  ∃ result signals, answer = .read result signals ∧
    ((∃ e, call.Refused (s.files (handles call.handle).1) e ∧ result = ⟨some e, 0, [], some o⟩ ∧ signals = []) ∨
      ∃ reader done, readFileData entry call.queuesApc (s.files (handles call.handle).1) (handles call.handle).2
          (handles call.handle).1 request (some o) s.reader = some (reader, done) ∧
        Reported statusToError file (FileCall.Undelivered · call) done result signals)

theorem ReadsAs.later {call : FileCall κ} {request : ReadRequest} {o : Overlapped} {file file' : OpenFile}
    {answer : Answer} (reads : ReadsAs statusToError entry handles s call request o file answer)
    (bound : Bound file file') : ReadsAs statusToError entry handles s call request o file' answer := by
  obtain ⟨result, signals, answered, refused | ⟨reader, done, read, reported⟩⟩ := reads
  · exact ⟨result, signals, answered, .inl refused⟩
  · exact ⟨result, signals, answered, .inr ⟨reader, done, read, reported.later bound⟩⟩

theorem perform_readsAs (known : StatusToError statusToError) {call : FileCall κ} {request : ReadRequest}
    {o : Overlapped} (reads : call.reads = some (request, some o)) {answer : Answer}
    (performed : perform entry handles s call = some (t, answer)) :
    ReadsAs statusToError entry handles s call request o (s.files (handles call.handle).1) answer := by
  cases call with
  | readFile handle request' overlapped resetEvent post =>
      cases reads
      obtain ⟨_, hooked, same⟩ := Option.map_eq_some_iff.mp performed
      cases same
      unfold readFileHooked at hooked
      split at hooked
      · rename_i e refused
        cases hooked
        refine ⟨_, _, rfl, .inl ⟨e, ?_, rfl, rfl⟩⟩
        split_ifs at refused with event
        exact ⟨event, refused⟩
      · obtain ⟨read, done, same⟩ := Option.map_eq_some_iff.mp hooked
        cases same
        exact ⟨_, _, rfl, .inr ⟨read.1, read.2, done,
          reported_completeRead (readFileData_stores known done) fun e failed => failed⟩⟩
  | readFileEx handle request' overlapped callback queueApc =>
      cases reads
      obtain ⟨_, hooked, same⟩ := Option.map_eq_some_iff.mp performed
      cases same
      unfold readFileExHooked at hooked
      split_ifs at hooked with refused
      · cases hooked
        exact ⟨_, _, rfl, .inl ⟨errorInvalidParameter, ⟨refused, rfl⟩, rfl, rfl⟩⟩
      · obtain ⟨read, done, same⟩ := Option.map_eq_some_iff.mp hooked
        cases same
        obtain ⟨result, signals, answered, reported⟩ := reported_completeReadEx
          (readFileData_stores known done) (fun e (failed : queueApc = .error e) => failed)
        exact ⟨result, signals, answered, .inr ⟨read.1, read.2, done, reported⟩⟩
  | _ => cases reads

theorem performAll_readsAs (handles : κ → ι × Dword) (known : StatusToError statusToError) (sound : s.Sound entry)
    (calls : List (FileCall κ)) :
    ∃ t answers, performAll entry handles s calls = some (t, answers) ∧ (∀ i, Bound (s.files i) (t.files i)) ∧
      ∀ before call after, calls = before ++ call :: after → ∀ request o, call.reads = some (request, some o) →
        ∃ now earlier answer, performAll entry handles s before = some (now, earlier) ∧
          answers[before.length]? = some answer ∧
          ReadsAs statusToError entry handles now call request o (t.files (handles call.handle).1) answer := by
  induction calls generalizing s with
  | nil => exact ⟨s, [], rfl, fun i port bound => ⟨bound, rfl⟩, by simp⟩
  | cons call calls ih =>
      obtain ⟨t, answer, performed, sound', plain, _⟩ := perform_plain handles sound call
      obtain ⟨u, answers, ran, kept, reported⟩ := ih sound'
      have step (i : ι) : Bound (s.files i) (t.files i) := by
        have file : t.files i = (t.plain i).file := rfl
        rw [file, plain]
        by_cases here : i = (handles call.handle).1
        · subst here
          rw [Function.update_self]
          exact Plain.call_bound (s.plain (handles call.handle).1) call
        · rw [Function.update_of_ne here]
          exact fun port bound => ⟨bound, rfl⟩
      refine ⟨u, answer :: answers, ?_, fun i => (step i).trans (kept i), ?_⟩
      · rw [performAll, performed, Option.bind_some]
        dsimp only
        rw [ran]
        rfl
      · intro before call' after split request o reads
        cases before with
        | nil =>
            cases split
            exact ⟨s, [], answer, rfl, rfl,
              (perform_readsAs known reads performed).later ((step _).trans (kept _))⟩
        | cons first before =>
            cases split
            obtain ⟨now, earlier, answer', ran', at_call, reads'⟩ := reported before call' after rfl request o reads
            refine ⟨now, answer :: earlier, answer', ?_, at_call, reads'⟩
            rw [performAll, performed, Option.bind_some]
            dsimp only
            rw [ran']
            rfl

/-- Along every session a read with an `OVERLAPPED` that is not refused outright is completed at most once, to
the one port its file is ever bound to or to its thread, and `GetOverlappedResult` has the error and the count
that the read had. -/
theorem overlapped_reads_report (known : StatusToError statusToError) (entry : Seekable.Entry)
    (handles : κ → ι × Dword) (flags : ι → Dword) (c references : Nat) (calls : List (FileCall κ)) :
    ∃ s answers, performAll entry handles (.opened entry c references flags) calls = some (s, answers) ∧
      ∀ before call after, calls = before ++ call :: after → ∀ request o, call.reads = some (request, some o) →
        ∃ now earlier answer,
          performAll entry handles (.opened entry c references flags) before = some (now, earlier) ∧
          answers[before.length]? = some answer ∧
          ReadsAs statusToError entry handles now call request o (s.files (handles call.handle).1) answer := by
  obtain ⟨s, answers, ran, _, reported⟩ :=
    performAll_readsAs handles known (Session.opened_sound entry c references flags) calls
  exact ⟨s, answers, ran, reported⟩

private def systemStatus (status : UInt32) : UInt32 :=
  if status = 0xC0000011 then errorHandleEof.val else status &&& 0xFFFF

private theorem systemStatus_known : StatusToError systemStatus where
  win32 e small := by
    have low : (0xC0070000 ||| e) &&& 0xFFFF = e := by
      have split : (0xC0070000 ||| e) &&& 0xFFFF = (0xC0070000 &&& 0xFFFF) ||| (e &&& 0xFFFF) := by
        apply UInt32.toNat_inj.mp
        simp only [UInt32.toNat_and, UInt32.toNat_or, Nat.and_or_distrib_right]
      have none : (0xC0070000 : UInt32) &&& 0xFFFF = 0 := by decide
      rw [split, none, low_word small, UInt32.zero_or]
    have other : 0xC0070000 ||| e ≠ 0xC0000011 := by
      intro same
      have le := Nat.left_le_or (n := (0xC0070000 : UInt32).toNat) (m := e.toNat)
      rw [← UInt32.toNat_or, same] at le
      exact absurd le (by decide)
    rw [systemStatus, if_neg other, low]
  endOfFile := rfl

private def portedCalls : List (FileCall Unit) :=
  [.completionPort () (some 9) 5 ⟨.ok 0, .ok (), true⟩,
    .readFile () ⟨true, 2, ⟨true, true, .ok (), true, .ok (), fun _ => .ok 65536, fun _ => .ok (), .ok ()⟩,
      fun _ => .ok 1⟩ (some ⟨0, 0, 1, 0, 4⟩) (.ok ()) (.ok ())]

theorem overlapped_reads_report_ported :
    ∃ s answers, performAll ⟨⟨0, []⟩, 0, 7, [1, 2, 3], by decide⟩ (fun file : Unit => (file, 1))
        (.opened ⟨⟨0, []⟩, 0, 7, [1, 2, 3], by decide⟩ 0 1 fun _ => fileFlagOverlapped) portedCalls =
          some (s, answers) ∧
      ∀ before call after, portedCalls = before ++ call :: after →
        ∀ request o, call.reads = some (request, some o) → ∃ now earlier answer,
          performAll ⟨⟨0, []⟩, 0, 7, [1, 2, 3], by decide⟩ (fun file : Unit => (file, 1))
            (.opened ⟨⟨0, []⟩, 0, 7, [1, 2, 3], by decide⟩ 0 1 fun _ => fileFlagOverlapped) before =
              some (now, earlier) ∧
          answers[before.length]? = some answer ∧
          ReadsAs systemStatus ⟨⟨0, []⟩, 0, 7, [1, 2, 3], by decide⟩ (fun file : Unit => (file, 1)) now call request
            o (s.files ()) answer :=
  overlapped_reads_report systemStatus_known ⟨⟨0, []⟩, 0, 7, [1, 2, 3], by decide⟩ (fun file : Unit => (file, 1))
    (fun _ => fileFlagOverlapped) 0 1 portedCalls

end Sessions

end Yafsml.Patches.ZipReads
