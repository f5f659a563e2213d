import Mathlib.Algebra.Order.BigOperators.Group.Finset
import Yafsml.Dearxan.NeuterShared

/-! # One neutralization for all its callers -/

namespace Yafsml.Dearxan

open Interleaving

variable {ι : Type*}

/-! ## What is published -/

/-- The text of a message that is not empty, as far as the buffer holds it. -/
def DearxanResult.publishedText (result : DearxanResult) : Option (List UInt8) :=
  ((result.errorMsg.map cText).filter (· ≠ [])).map (List.take (neuterErrorSize - 1))

def DearxanResult.answer (result : DearxanResult) (isExecutingEntrypoint : Bool) : ResultRecord :=
  { result.record with
    errorMsg := if result.publishedText.isSome then .neuterError else .null
    errorMsgSize := (result.publishedText.getD []).length
    isExecutingEntrypoint }

structure Published (result : DearxanResult) (s : NeuterShared ι) : Prop where
  record : s.neuterResult = result.answer result.isExecutingEntrypoint
  text : result.publishedText.isSome → errorText s .neuterError = result.publishedText

theorem Published.congr {result : DearxanResult} {s s' : NeuterShared ι} (published : Published result s)
    (record : s'.neuterResult = s.neuterResult) (text : s'.neuterError = s.neuterError) :
    Published result s' :=
  ⟨record.trans published.record, fun some_text => by
    rw [errorText, text]
    exact published.text some_text⟩

theorem zero_notin_cText (message : String) : 0 ∉ cText message := by
  intro among
  simpa using List.mem_takeWhile_imp among

theorem takeWhile_text {t rest : List UInt8} (nonzero : 0 ∉ t) :
    (t ++ 0 :: rest).takeWhile (· ≠ 0) = t := by
  rw [List.takeWhile_append_of_pos, List.takeWhile_cons_of_neg (by simp), List.append_nil]
  intro c among
  have other : c ≠ 0 := fun zero => nonzero (zero ▸ among)
  simpa using other

def PublishWrite.Payload : PublishWrite → Prop
  | state | event => False
  | copy t => t.length ≤ neuterErrorSize
  | _ => True

theorem published_bare {result : DearxanResult} (bare : result.publishedText = none) (s : NeuterShared ι) :
    Published result
      ([.result result.record, .terminate 0, .errorMsg .null, .errorMsgSize 0].foldl PublishWrite.apply s) :=
  ⟨by simp [PublishWrite.apply, DearxanResult.answer, bare, DearxanResult.record, makeResult], by simp [bare]⟩

theorem published_text {result : DearxanResult} {message : String} (given : result.errorMsg = some message)
    (some_text : cText message ≠ []) {s : NeuterShared ι} (size : s.neuterError.length = neuterErrorSize) :
    let t := (cText message).take (neuterErrorSize - 1)
    Published result ([.result result.record, .copy t, .terminate t.length, .errorMsg .neuterError,
      .errorMsgSize t.length].foldl PublishWrite.apply s) := by
  intro t
  have text : result.publishedText = some t := by simp [DearxanResult.publishedText, given, some_text, t]
  have fits : t.length ≤ 255 := List.length_take_le ..
  constructor
  · simp [PublishWrite.apply, DearxanResult.answer, text, DearxanResult.record, makeResult]
  · intro _
    have room : (s.neuterError.drop t.length).length = 256 - t.length := by
      rw [List.length_drop, size, neuterErrorSize]
    obtain ⟨c, rest, left⟩ : ∃ c rest, s.neuterError.drop t.length = c :: rest :=
      List.exists_cons_of_length_pos (by omega)
    have nonzero : 0 ∉ t := fun among => zero_notin_cText message (List.mem_of_mem_take among)
    rw [text, errorText]
    simp only [List.foldl_cons, List.foldl_nil, PublishWrite.apply, left]
    rw [List.set_append_right _ _ le_rfl, Nat.sub_self, List.set_cons_zero, takeWhile_text nonzero]

theorem publishNeuterResult_spec (result : DearxanResult) {s : NeuterShared ι}
    (size : s.neuterError.length = neuterErrorSize) :
    ∃ writes, publishNeuterResult result.record = writes ++ [.state, .event] ∧
      (∀ w ∈ writes, w.Payload) ∧ Published result (writes.foldl PublishWrite.apply s) := by
  cases given : result.errorMsg with
  | none =>
      have bare : result.publishedText = none := by simp [DearxanResult.publishedText, given]
      refine ⟨[.result result.record, .terminate 0, .errorMsg .null, .errorMsgSize 0], ?_, ?_,
        published_bare bare s⟩
      · simp [publishNeuterResult, DearxanResult.record, makeResult, given]
      · simp [PublishWrite.Payload]
  | some message =>
      by_cases empty : cText message = []
      · have bare : result.publishedText = none := by simp [DearxanResult.publishedText, given, empty]
        refine ⟨[.result result.record, .terminate 0, .errorMsg .null, .errorMsgSize 0], ?_, ?_,
          published_bare bare s⟩
        · simp [publishNeuterResult, DearxanResult.record, makeResult, given, empty]
        · simp [PublishWrite.Payload]
      · have size_eq : (if neuterErrorSize ≤ (cText message).length then neuterErrorSize - 1
            else (cText message).length) = ((cText message).take (neuterErrorSize - 1)).length := by
          rw [List.length_take, neuterErrorSize]
          split_ifs <;> omega
        refine ⟨_, ?_, ?_, published_text given empty size⟩
        · have same : (cText message).take ((cText message).take (neuterErrorSize - 1)).length =
              (cText message).take (neuterErrorSize - 1) := by
            rw [List.length_take, ← List.take_eq_take_min]
          have long : (cText message).length ≠ 0 := by simpa using empty
          simp only [publishNeuterResult, DearxanResult.record, makeResult, given, Option.elim_some,
            Option.map_some, if_pos long, size_eq, same, List.cons_append, List.nil_append]
        · simp [PublishWrite.Payload, neuterErrorSize]

/-! ## What a call may rely on -/

def NeuterPlace.Holds : NeuterPlace → Prop
  | checking | releasing _ | publishing _ | reading | readReleasing _ => True
  | _ => False

def NeuterPlace.Runs : NeuterPlace → Prop
  | releasing isFirst => isFirst = true
  | neutering | publishLocking _ => True
  | publishing rest => .state ∈ rest
  | _ => False

def Answered (s : NeuterShared ι) (isExecutingEntrypoint : Bool) (r : ResultRecord) : Prop :=
  s.neuterState = .done ∧ ∃ first, s.results = [first] ∧ r = first.answer isExecutingEntrypoint

def refused (isExecutingEntrypoint : Bool) : ResultRecord :=
  makeResult .error (some "failed to access process-wide neutralization state") true isExecutingEntrypoint

def Publishing (s : NeuterShared ι) (rest : List PublishWrite) : Prop :=
  ∃ first, s.results = [first] ∧ Published first (rest.foldl PublishWrite.apply s) ∧
    ((∃ writes, rest = writes ++ [.state, .event] ∧ ∀ w ∈ writes, w.Payload) ∨
      (rest = [.event] ∨ rest = []) ∧ s.neuterState = .done)

def NeuterPlace.Ok (s : NeuterShared ι) (isExecutingEntrypoint mapped : Bool) : NeuterPlace → Prop
  | outside => True
  | locking | checking => mapped = true
  | releasing isFirst => mapped = true ∧ s.neuterState ≠ .unused ∧ (isFirst = true → s.results = [])
  | neutering => mapped = true ∧ s.results = []
  | publishLocking result => mapped = true ∧ s.results = [result]
  | publishing rest => mapped = true ∧ Publishing s rest
  | waiting => mapped = true ∧ s.neuterState ≠ .unused
  | readLocking | reading => mapped = true ∧ s.neuterState = .done
  | readReleasing r => mapped = true ∧ Answered s isExecutingEntrypoint r
  | returned r => if mapped then Answered s isExecutingEntrypoint r else r = refused isExecutingEntrypoint

structure NeuterShared.Ok (s : NeuterShared ι) : Prop where
  unused : s.neuterState = .unused → s.began = [] ∧ s.results = []
  running : s.neuterState = .running → ∃ i, s.began = [i]
  done : s.neuterState = .done → ∃ i first, s.began = [i] ∧ s.results = [first] ∧ Published first s
  size : s.neuterError.length = neuterErrorSize

structure CallOk (flag mapped : ι → Bool) (i : ι) (s : NeuterShared ι) (k : NeuterCall ι) : Prop where
  id : k.id = i
  sameFlag : k.isExecutingEntrypoint = flag i
  sameMapped : k.mapped = mapped i
  holds : k.place.Holds ↔ s.owner = some i
  runs : k.place.Runs ↔ s.neuterState = .running ∧ s.began = [i]
  place : k.place.Ok s (flag i) (mapped i)

section Turns

variable {flag mapped : ι → Bool} {i j : ι} {result : DearxanResult} {s s' : NeuterShared ι}
  {k k' l : NeuterCall ι}

inductive TurnEffect (s : NeuterShared ι) (k : NeuterCall ι) : NeuterShared ι → Prop
  | nothing : TurnEffect s k s
  | lock (free : s.owner = none) : TurnEffect s k { s with owner := some k.id }
  | unlock (holds : k.place.Holds) : TurnEffect s k { s with owner := none }
  | claim (unused : s.neuterState = .unused) :
      TurnEffect s k { s with neuterState := .running, began := s.began ++ [k.id] }
  | neuter (result : DearxanResult) (runs : k.place.Runs) :
      TurnEffect s k { s with results := s.results ++ [result] }
  | publish (write : PublishWrite) (rest : List PublishWrite) (at_ : k.place = .publishing (write :: rest)) :
      TurnEffect s k (write.apply s)

theorem neuterTurn_effect (taken : neuterTurn result s k = some (s', k')) : TurnEffect s k s' := by
  have lock {place : NeuterPlace} (taken : lockMutex s k place = some (s', k')) : TurnEffect s k s' := by
    unfold lockMutex at taken
    split_ifs at taken with free
    cases taken
    exact .lock (by simpa using free)
  have unlock {place : NeuterPlace} (holds : k.place.Holds) (taken : unlockMutex s k place = some (s', k')) :
      TurnEffect s k s' := by
    cases taken
    exact .unlock holds
  unfold neuterTurn at taken
  cases at_ : k.place with
  | outside =>
      simp only [at_] at taken
      split_ifs at taken <;> cases taken <;> exact .nothing
  | locking => exact lock (by simpa only [at_] using taken)
  | checking =>
      simp only [at_] at taken
      split_ifs at taken with unused
      · cases taken
        exact .claim unused
      · cases taken
        exact .nothing
  | releasing isFirst => exact unlock (by rw [at_]; trivial) (by simpa only [at_] using taken)
  | neutering =>
      simp only [at_] at taken
      cases taken
      exact .neuter result (by rw [at_]; trivial)
  | publishLocking r => exact lock (by simpa only [at_] using taken)
  | publishing rest =>
      cases rest with
      | nil => exact unlock (by rw [at_]; trivial) (by simpa only [at_] using taken)
      | cons write rest =>
          simp only [at_] at taken
          cases taken
          exact .publish write rest at_
  | waiting =>
      simp only [at_] at taken
      cases taken
      exact .nothing
  | readLocking => exact lock (by simpa only [at_] using taken)
  | reading =>
      simp only [at_] at taken
      cases taken
      exact .nothing
  | readReleasing r => exact unlock (by rw [at_]; trivial) (by simpa only [at_] using taken)
  | returned r =>
      simp only [at_] at taken
      cases taken

/-! ### The turns of the other calls -/

theorem foldl_apply_congr (record : s'.neuterResult = s.neuterResult) (text : s'.neuterError = s.neuterError)
    (writes : List PublishWrite) :
    (writes.foldl PublishWrite.apply s').neuterResult = (writes.foldl PublishWrite.apply s).neuterResult ∧
      (writes.foldl PublishWrite.apply s').neuterError = (writes.foldl PublishWrite.apply s).neuterError := by
  induction writes generalizing s s' with
  | nil => exact ⟨record, text⟩
  | cons w writes ih =>
      refine ih ?_ ?_
      · cases w <;> simp [PublishWrite.apply, record]
      · cases w <;> simp [PublishWrite.apply, text]

theorem NeuterPlace.Ok.congr {place : NeuterPlace} {exec map : Bool} (ok : place.Ok s exec map)
    (state : s'.neuterState = s.neuterState) (results : s'.results = s.results)
    (record : s'.neuterResult = s.neuterResult) (text : s'.neuterError = s.neuterError) :
    place.Ok s' exec map := by
  cases place with
  | publishing rest =>
      obtain ⟨mapped, first, only, published, shape⟩ := ok
      obtain ⟨record, text⟩ := foldl_apply_congr record text rest
      exact ⟨mapped, first, results ▸ only, published.congr record text, by rwa [state]⟩
  | returned r =>
      unfold NeuterPlace.Ok Answered at ok ⊢
      rwa [state, results]
  | readReleasing r =>
      unfold NeuterPlace.Ok Answered at ok ⊢
      rwa [state, results]
  | _ =>
      unfold NeuterPlace.Ok at ok ⊢
      first | exact ok | simpa only [state, results] using ok

theorem CallOk.place_of_unused (theirs : CallOk flag mapped j s l) (unused : s.neuterState = .unused)
    (s' : NeuterShared ι) : l.place.Ok s' (flag j) (mapped j) := by
  have runs := theirs.runs
  have place := theirs.place
  cases at_ : l.place with
  | outside => trivial
  | locking =>
      rw [at_] at place
      exact place
  | checking =>
      rw [at_] at place
      exact place
  | releasing isFirst =>
      rw [at_] at place
      exact absurd unused place.2.1
  | neutering =>
      rw [at_] at runs
      exact absurd (unused.symm.trans (runs.mp trivial).1) (by decide)
  | publishLocking r =>
      rw [at_] at runs
      exact absurd (unused.symm.trans (runs.mp trivial).1) (by decide)
  | publishing rest =>
      rw [at_] at runs place
      obtain ⟨_, first, _, _, ⟨writes, shape, _⟩ | ⟨_, done⟩⟩ := place
      · have runs : PublishWrite.state ∈ rest ↔ _ := runs
        exact absurd (unused.symm.trans (runs.mp (by simp [shape])).1) (by decide)
      · exact absurd (unused.symm.trans done) (by decide)
  | waiting =>
      rw [at_] at place
      exact absurd unused place.2
  | readLocking =>
      rw [at_] at place
      exact absurd (unused.symm.trans place.2) (by decide)
  | reading =>
      rw [at_] at place
      exact absurd (unused.symm.trans place.2) (by decide)
  | readReleasing r =>
      rw [at_] at place
      exact absurd (unused.symm.trans place.2.1) (by decide)
  | returned r =>
      rw [at_] at place
      unfold NeuterPlace.Ok at place ⊢
      split_ifs at place ⊢
      · exact absurd (unused.symm.trans place.1) (by decide)
      · exact place

theorem CallOk.place_of_running (theirs : CallOk flag mapped j s l) (other : j ≠ i)
    (running : s.neuterState = .running) (began : s.began = [i]) {s' : NeuterShared ι}
    (used : s'.neuterState ≠ .unused) : l.place.Ok s' (flag j) (mapped j) := by
  have idle : ¬ l.place.Runs := fun runs => other (by simpa [began, eq_comm] using (theirs.runs.mp runs).2)
  have place := theirs.place
  cases at_ : l.place with
  | outside => trivial
  | locking =>
      rw [at_] at place
      exact place
  | checking =>
      rw [at_] at place
      exact place
  | releasing isFirst =>
      rw [at_] at place idle
      exact ⟨place.1, used, fun first => absurd first idle⟩
  | neutering =>
      rw [at_] at idle
      exact absurd trivial idle
  | publishLocking r =>
      rw [at_] at idle
      exact absurd trivial idle
  | publishing rest =>
      rw [at_] at idle place
      obtain ⟨_, first, _, _, ⟨writes, shape, _⟩ | ⟨_, done⟩⟩ := place
      · exact absurd (by simp [shape, NeuterPlace.Runs]) idle
      · exact absurd (running.symm.trans done) (by decide)
  | waiting =>
      rw [at_] at place
      exact ⟨place.1, used⟩
  | readLocking =>
      rw [at_] at place
      exact absurd (running.symm.trans place.2) (by decide)
  | reading =>
      rw [at_] at place
      exact absurd (running.symm.trans place.2) (by decide)
  | readReleasing r =>
      rw [at_] at place
      exact absurd (running.symm.trans place.2.1) (by decide)
  | returned r =>
      rw [at_] at place
      unfold NeuterPlace.Ok at place ⊢
      split_ifs at place ⊢
      · exact absurd (running.symm.trans place.1) (by decide)
      · exact place

theorem CallOk.publish_cases (mine : CallOk flag mapped i s k) {write : PublishWrite}
    {rest : List PublishWrite} (at_ : k.place = .publishing (write :: rest)) :
    (s.neuterState = .running ∧ s.began = [i] ∧
        ((write = .state ∧ rest = [.event]) ∨
          write.Payload ∧ ∃ writes, rest = writes ++ [.state, .event] ∧ ∀ w ∈ writes, w.Payload)) ∨
      write = .event ∧ rest = [] ∧ s.neuterState = .done := by
  have place := mine.place
  have runs := mine.runs
  rw [at_] at place runs
  obtain ⟨_, first, _, _, ⟨writes, shape, payload⟩ | ⟨shape, done⟩⟩ := place
  · have runs : PublishWrite.state ∈ write :: rest ↔ _ := runs
    obtain ⟨running, began⟩ := runs.mp (by simp [shape])
    refine .inl ⟨running, began, ?_⟩
    cases writes with
    | nil =>
        cases shape
        exact .inl ⟨rfl, rfl⟩
    | cons w writes =>
        cases shape
        exact .inr ⟨payload _ (.head _), writes, rfl, fun w among => payload w (.tail _ among)⟩
  · rcases shape with shape | shape <;> cases shape
    exact .inr ⟨rfl, rfl, done⟩

theorem CallOk.others (ok : s.Ok) (mine : CallOk flag mapped i s k) (effect : TurnEffect s k s')
    (other : j ≠ i) (theirs : CallOk flag mapped j s l) : CallOk flag mapped j s' l := by
  have apart : ¬ (some i = some j) := fun same => other (Option.some.inj same).symm
  have apart' : ¬ ([i] = [j]) := fun same => other (List.cons.inj same).1.symm
  obtain ⟨id, sameFlag, sameMapped, holds, runs, place⟩ := theirs
  cases effect with
  | nothing => exact ⟨id, sameFlag, sameMapped, holds, runs, place⟩
  | lock free =>
      refine ⟨id, sameFlag, sameMapped, ?_, runs, place.congr rfl rfl rfl rfl⟩
      rw [free] at holds
      rw [mine.id]
      exact holds.trans (iff_of_false (by simp) apart)
  | unlock held =>
      refine ⟨id, sameFlag, sameMapped, ?_, runs, place.congr rfl rfl rfl rfl⟩
      rw [mine.holds.mp held] at holds
      exact holds.trans (iff_of_false apart (by simp))
  | claim unused =>
      have place := CallOk.place_of_unused ⟨id, sameFlag, sameMapped, holds, runs, place⟩ unused
        { s with neuterState := .running, began := s.began ++ [k.id] }
      refine ⟨id, sameFlag, sameMapped, holds, ?_, place⟩
      rw [unused] at runs
      rw [(ok.unused unused).1, mine.id]
      exact runs.trans (iff_of_false (by simp) (fun both => apart' both.2))
  | neuter result held =>
      obtain ⟨running, began⟩ := mine.runs.mp held
      exact ⟨id, sameFlag, sameMapped, holds, runs,
        CallOk.place_of_running ⟨id, sameFlag, sameMapped, holds, runs, place⟩ other running began
          (by simp [running])⟩
  | publish write rest at_ =>
      rcases mine.publish_cases at_ with ⟨running, began, shape⟩ | ⟨rfl, rfl, done⟩
      · have used : (write.apply s).neuterState ≠ .unused := by
          cases write <;> simp [PublishWrite.apply, running]
        have place := CallOk.place_of_running ⟨id, sameFlag, sameMapped, holds, runs, place⟩ other running
          began used
        refine ⟨id, sameFlag, sameMapped, ?_, ?_, place⟩
        · rw [holds]
          cases write <;> rfl
        · rw [running, began] at runs
          have began' : (write.apply s).began = [i] := by
            rw [← began]
            cases write <;> rfl
          rw [began']
          exact runs.trans (iff_of_false (fun both => apart' both.2) fun both => apart' both.2)
      · exact ⟨id, sameFlag, sameMapped, holds, runs, place.congr rfl rfl rfl rfl⟩

/-! ### The own turn of a call -/

theorem CallOk.shared_ok (ok : s.Ok) (mine : CallOk flag mapped i s k) (effect : TurnEffect s k s') :
    s'.Ok := by
  cases effect with
  | nothing => exact ok
  | lock free => exact ⟨ok.unused, ok.running, fun done => by
      obtain ⟨i, first, began, results, published⟩ := ok.done done
      exact ⟨i, first, began, results, published.congr rfl rfl⟩, ok.size⟩
  | unlock holds => exact ⟨ok.unused, ok.running, fun done => by
      obtain ⟨i, first, began, results, published⟩ := ok.done done
      exact ⟨i, first, began, results, published.congr rfl rfl⟩, ok.size⟩
  | claim unused =>
      refine ⟨fun none => (by cases none), fun _ => ⟨i, ?_⟩, fun done => (by cases done), ok.size⟩
      rw [(ok.unused unused).1, mine.id]
      rfl
  | neuter result held =>
      obtain ⟨running, began⟩ := mine.runs.mp held
      exact ⟨fun unused => absurd (running.symm.trans unused) (by decide), ok.running,
        fun done => absurd (running.symm.trans done) (by decide), ok.size⟩
  | publish write rest at_ =>
      rcases mine.publish_cases at_ with ⟨running, began, ⟨rfl, rfl⟩ | ⟨payload, _⟩⟩ | ⟨rfl, rfl, done⟩
      · have place := mine.place
        rw [at_] at place
        obtain ⟨_, first, results, published, _⟩ := place
        exact ⟨fun unused => (by cases unused), fun running => (by cases running),
          fun _ => ⟨i, first, began, results, published.congr rfl rfl⟩, ok.size⟩
      · have same : (write.apply s).neuterState = .running ∧ (write.apply s).began = s.began := by
          cases write <;> first | exact ⟨running, rfl⟩ | exact payload.elim
        refine ⟨fun unused => absurd (same.1.symm.trans unused) (by decide),
          fun _ => ⟨i, same.2.trans began⟩, fun done => absurd (same.1.symm.trans done) (by decide), ?_⟩
        cases write with
        | copy t =>
            have fits : t.length ≤ neuterErrorSize := payload
            have size := ok.size
            simp only [PublishWrite.apply, List.length_append, List.length_drop]
            omega
        | terminate n => exact (List.length_set ..).trans ok.size
        | _ => exact ok.size
      · exact ⟨ok.unused, ok.running, fun done => by
          obtain ⟨i, first, began, results, published⟩ := ok.done done
          exact ⟨i, first, began, results, published.congr rfl rfl⟩, ok.size⟩

theorem CallOk.goto (mine : CallOk flag mapped i s k) {place : NeuterPlace}
    (holds : place.Holds ↔ s'.owner = some i)
    (runs : place.Runs ↔ s'.neuterState = .running ∧ s'.began = [i])
    (ok : place.Ok s' (flag i) (mapped i)) : CallOk flag mapped i s' (k.goto place) :=
  ⟨mine.id, mine.sameFlag, mine.sameMapped, holds, runs, ok⟩

theorem CallOk.lock (mine : CallOk flag mapped i s k) {place : NeuterPlace}
    (taken : lockMutex s k place = some (s', k')) (locks : place.Holds)
    (same : place.Runs ↔ k.place.Runs) (ok : place.Ok s (flag i) (mapped i)) : CallOk flag mapped i s' k' := by
  unfold lockMutex at taken
  split_ifs at taken
  cases taken
  exact mine.goto (iff_of_true locks (congrArg some mine.id)) (same.trans mine.runs)
    (ok.congr rfl rfl rfl rfl)

theorem CallOk.unlock (mine : CallOk flag mapped i s k) {place : NeuterPlace}
    (taken : unlockMutex s k place = some (s', k')) (unlocks : ¬ place.Holds)
    (same : place.Runs ↔ k.place.Runs) (ok : place.Ok s (flag i) (mapped i)) : CallOk flag mapped i s' k' := by
  cases taken
  exact mine.goto (iff_of_false unlocks (by simp)) (same.trans mine.runs) (ok.congr rfl rfl rfl rfl)

theorem CallOk.own (ok : s.Ok) (mine : CallOk flag mapped i s k)
    (taken : neuterTurn result s k = some (s', k')) : CallOk flag mapped i s' k' := by
  have holds := mine.holds
  have runs := mine.runs
  have place := mine.place
  unfold neuterTurn at taken
  cases at_ : k.place with
  | outside =>
      rw [at_] at holds runs
      simp only [at_] at taken
      split_ifs at taken with found
      · cases taken
        exact mine.goto holds runs (mine.sameMapped.symm.trans found)
      · cases taken
        refine mine.goto holds runs ?_
        rw [NeuterPlace.Ok, if_neg (by rwa [← mine.sameMapped]), mine.sameFlag]
        rfl
  | locking =>
      rw [at_] at place
      simp only [at_] at taken
      exact mine.lock taken trivial (by rw [at_]; exact Iff.rfl) place
  | checking =>
      rw [at_] at holds runs place
      simp only [at_] at taken
      split_ifs at taken with unused
      · cases taken
        obtain ⟨none_began, none_made⟩ := ok.unused unused
        refine mine.goto holds (iff_of_true rfl ⟨rfl, ?_⟩) ⟨place, by simp, fun _ => none_made⟩
        rw [none_began, mine.id]
        rfl
      · cases taken
        exact mine.goto holds (Iff.trans (by simp [NeuterPlace.Runs]) runs)
          ⟨place, unused, fun first => by cases first⟩
  | releasing isFirst =>
      rw [at_] at place
      obtain ⟨found, used, none_made⟩ := place
      simp only [at_] at taken
      refine mine.unlock taken ?_ ?_ ?_
      · cases isFirst <;> exact not_false
      · rw [at_]
        cases isFirst <;> simp [NeuterPlace.Runs]
      · cases isFirst with
        | true => exact ⟨found, none_made rfl⟩
        | false => exact ⟨found, used⟩
  | neutering =>
      rw [at_] at holds runs place
      simp only [at_] at taken
      cases taken
      refine mine.goto holds runs ⟨place.1, ?_⟩
      rw [place.2]
      rfl
  | publishLocking r =>
      rw [at_] at place
      obtain ⟨writes, shape, payload, published⟩ := publishNeuterResult_spec r ok.size
      simp only [at_] at taken
      refine mine.lock taken trivial ?_ ⟨place.1, r, place.2, ?_, .inl ⟨writes, shape, payload⟩⟩
      · rw [at_, shape]
        simp [NeuterPlace.Runs]
      · rw [shape, List.foldl_append]
        exact published.congr rfl rfl
  | publishing rest =>
      rw [at_] at holds runs place
      obtain ⟨found, first, results, published, shape⟩ := place
      cases rest with
      | nil =>
          have done : s.neuterState = .done := by
            rcases shape with ⟨writes, shape, _⟩ | ⟨_, done⟩
            · simp at shape
            · exact done
          simp only [at_] at taken
          refine mine.unlock taken not_false ?_ ⟨found, done⟩
          rw [at_]
          simp [NeuterPlace.Runs]
      | cons write rest =>
          simp only [at_] at taken
          cases taken
          have same_results : (write.apply s).results = s.results := by cases write <;> rfl
          have same_owner : (write.apply s).owner = s.owner := by cases write <;> rfl
          have same_began : (write.apply s).began = s.began := by cases write <;> rfl
          refine mine.goto (by rw [same_owner]; exact holds) ?_
            ⟨found, first, same_results.trans results, published, ?_⟩
          · rcases mine.publish_cases at_ with ⟨running, began, ⟨rfl, rfl⟩ | ⟨payload, writes, rfl, _⟩⟩ |
              ⟨rfl, rfl, done⟩
            · simp [NeuterPlace.Runs, PublishWrite.apply]
            · refine iff_of_true (by simp [NeuterPlace.Runs]) ⟨?_, same_began.trans began⟩
              cases write <;> first | exact running | exact payload.elim
            · simp [NeuterPlace.Runs, PublishWrite.apply, done]
          · rcases mine.publish_cases at_ with ⟨_, _, ⟨rfl, rfl⟩ | ⟨_, writes, rfl, all⟩⟩ | ⟨rfl, rfl, done⟩
            · exact .inr ⟨.inl rfl, rfl⟩
            · exact .inl ⟨writes, rfl, all⟩
            · exact .inr ⟨.inr rfl, done⟩
  | waiting =>
      rw [at_] at holds runs place
      simp only [at_] at taken
      cases taken
      split_ifs with done
      · exact mine.goto holds runs ⟨place.1, done⟩
      · exact mine.goto holds runs place
  | readLocking =>
      rw [at_] at place
      simp only [at_] at taken
      exact mine.lock taken trivial (by rw [at_]; exact Iff.rfl) place
  | reading =>
      rw [at_] at holds runs place
      simp only [at_] at taken
      cases taken
      obtain ⟨_, first, _, results, published⟩ := ok.done place.2
      refine mine.goto holds runs ⟨place.1, place.2, first, results, ?_⟩
      rw [readNeuterResult, published.record, mine.sameFlag]
      rfl
  | readReleasing r =>
      rw [at_] at place
      simp only [at_] at taken
      refine mine.unlock taken not_false (by rw [at_]; exact Iff.rfl) ?_
      rw [NeuterPlace.Ok, if_pos place.1]
      exact place.2
  | returned r =>
      simp only [at_] at taken
      cases taken

end Turns

/-! ## Runs -/

section Runs

variable [DecidableEq ι] {flag mapped : ι → Bool} {w : Config ι (NeuterShared ι) (NeuterCall ι)}

theorem neuter_ok (reachable : Reachable neuterTurn (neuterStart flag mapped) w) :
    w.shared.Ok ∧ ∀ i, CallOk flag mapped i w.shared (w.threads i) := by
  refine reachable.holds_apart ?_ ?_ ?_ ?_
  · intro i a s k s' k' ok mine taken
    exact ⟨mine.shared_ok ok (neuterTurn_effect taken), mine.own ok taken⟩
  · intro i j a s k s' k' l other ok mine taken theirs
    exact mine.others ok (neuterTurn_effect taken) other theirs
  · exact ⟨fun _ => ⟨rfl, rfl⟩, fun running => (by cases running), fun done => (by cases done), List.length_replicate⟩
  · intro i
    refine ⟨rfl, rfl, rfl, ?_, ?_, trivial⟩ <;> simp [neuterStart, NeuterPlace.Holds, NeuterPlace.Runs]

/-- `neuter_once` runs at most once in the process, and every call returns what it returned, under its own
flag, with a message that stays. -/
theorem neuter_once_for_all (reachable : Reachable neuterTurn (neuterStart flag mapped) w) :
    w.shared.began.length ≤ 1 ∧
      ∀ i r, mapped i = true → (w.threads i).place = .returned r →
        ∃ first, w.shared.results = [first] ∧ r = first.answer (flag i) ∧
          errorText w.shared r.errorMsg = first.publishedText := by
  obtain ⟨ok, calls⟩ := neuter_ok reachable
  constructor
  · cases state : w.shared.neuterState with
    | unused => simp [(ok.unused state).1]
    | running =>
        obtain ⟨i, began⟩ := ok.running state
        simp [began]
    | done =>
        obtain ⟨i, first, began, _⟩ := ok.done state
        simp [began]
  · intro i r found at_
    have place := (calls i).place
    rw [at_, NeuterPlace.Ok, if_pos found] at place
    obtain ⟨done, first, results, rfl⟩ := place
    obtain ⟨_, first', _, results', published⟩ := ok.done done
    obtain rfl : first = first' := by simpa [results] using results'
    refine ⟨first, results, rfl, ?_⟩
    unfold DearxanResult.answer
    split_ifs with some_text
    · exact published.text some_text
    · exact (Option.not_isSome_iff_eq_none.mp some_text).symm

/-- A failed run for two calls: the second one waits from before the end of `neuter_once`. -/
theorem neuter_once_for_all_pair : ∃ w : Config Bool (NeuterShared Bool) (NeuterCall Bool),
    (w.threads true).place = .returned ⟨dearxanResultSize, 2, .neuterError, 2, true, true⟩ ∧
      w.shared.began.length ≤ 1 ∧
        ∀ i r, (w.threads i).place = .returned r → ∃ first, w.shared.results = [first] ∧
          r = first.answer i ∧ errorText w.shared r.errorMsg = first.publishedText := by
  let turns := List.replicate 5 false ++ List.replicate 4 true ++ List.replicate 12 false ++ List.replicate 4 true
  obtain ⟨w, played, at_⟩ : ∃ w, play neuterTurn (neuterStart (fun i => i) fun _ => true)
      (turns.map (·, ⟨.error, some "no", true, false⟩)) = some w ∧
        (w.threads true).place = .returned ⟨dearxanResultSize, 2, .neuterError, 2, true, true⟩ :=
    ⟨_, rfl, by decide⟩
  obtain ⟨once, all⟩ := neuter_once_for_all (play_reachable played)
  exact ⟨w, at_, once, fun i r => all i r rfl⟩

end Runs

/-! ## No deadlock -/

section Progress

def NeuterPlace.rank : NeuterPlace → Nat
  | outside => 0
  | locking => 16
  | checking => 15
  | releasing isFirst => if isFirst then 14 else 5
  | neutering => 13
  | publishLocking _ => 12
  | publishing rest => rest.length + 4
  | waiting => 4
  | readLocking => 3
  | reading => 2
  | readReleasing _ => 1
  | returned _ => 0

def NeuterPlace.Under : NeuterPlace → Prop
  | outside => False
  | returned _ => False
  | _ => True

variable {flag mapped : ι → Bool} {i : ι} {s : NeuterShared ι} {k : NeuterCall ι}

theorem length_publishNeuterResult (r : ResultRecord) : (publishNeuterResult r).length ≤ 7 := by
  unfold publishNeuterResult
  split
  · split_ifs <;> simp
  · simp

def Advances (s : NeuterShared ι) (k : NeuterCall ι) : Prop :=
  ∃ s' k', neuterTurn ⟨.success, none, false, false⟩ s k = some (s', k') ∧
    k'.place.rank < k.place.rank ∧ k'.place ≠ .outside

theorem advances_of_holds (holds : k.place.Holds) : Advances s k := by
  unfold Advances neuterTurn
  cases at_ : k.place with
  | checking =>
      by_cases unused : s.neuterState = .unused
      · exact ⟨_, _, if_pos unused, by simp [NeuterCall.goto, NeuterPlace.rank], by simp [NeuterCall.goto]⟩
      · exact ⟨_, _, if_neg unused, by simp [NeuterCall.goto, NeuterPlace.rank], by simp [NeuterCall.goto]⟩
  | releasing isFirst =>
      refine ⟨_, _, rfl, ?_, ?_⟩ <;> cases isFirst <;> simp [NeuterCall.goto, NeuterPlace.rank]
  | publishing rest =>
      cases rest with
      | nil => exact ⟨_, _, rfl, by simp [NeuterCall.goto, NeuterPlace.rank], by simp [NeuterCall.goto]⟩
      | cons write rest =>
          exact ⟨_, _, rfl, by simp [NeuterCall.goto, NeuterPlace.rank], by simp [NeuterCall.goto]⟩
  | reading => exact ⟨_, _, rfl, by simp [NeuterCall.goto, NeuterPlace.rank], by simp [NeuterCall.goto]⟩
  | readReleasing r => exact ⟨_, _, rfl, by simp [NeuterCall.goto, NeuterPlace.rank], by simp [NeuterCall.goto]⟩
  | _ => simp [at_, NeuterPlace.Holds] at holds

theorem advances_of_free (free : s.owner = none) (under : k.place.Under)
    (ready : k.place = .waiting → s.neuterState = .done) (outside : ¬ k.place.Holds) : Advances s k := by
  have lock {place : NeuterPlace} : lockMutex s k place = some ({ s with owner := some k.id }, k.goto place) := by
    rw [lockMutex, free]
    rfl
  unfold Advances neuterTurn
  cases at_ : k.place with
  | locking => exact ⟨_, _, lock, by simp [NeuterCall.goto, NeuterPlace.rank], by simp [NeuterCall.goto]⟩
  | neutering => exact ⟨_, _, rfl, by simp [NeuterCall.goto, NeuterPlace.rank], by simp [NeuterCall.goto]⟩
  | publishLocking r =>
      have few := length_publishNeuterResult r.record
      refine ⟨_, _, lock, ?_, by simp [NeuterCall.goto]⟩
      simp only [NeuterCall.goto, NeuterPlace.rank]
      omega
  | waiting =>
      refine ⟨_, _, rfl, ?_, ?_⟩ <;> simp [NeuterCall.goto, NeuterPlace.rank, ready at_]
  | readLocking => exact ⟨_, _, lock, by simp [NeuterCall.goto, NeuterPlace.rank], by simp [NeuterCall.goto]⟩
  | _ => simp [at_, NeuterPlace.Under, NeuterPlace.Holds] at under outside

theorem exists_advance {shared : NeuterShared ι} {threads : ι → NeuterCall ι} (ok : shared.Ok)
    (calls : ∀ i, CallOk flag mapped i shared (threads i)) (under : (threads i).place.Under) :
    ∃ j, Advances shared (threads j) := by
  cases owner : shared.owner with
  | some j => exact ⟨j, advances_of_holds ((calls j).holds.mpr owner)⟩
  | none =>
      have outside (j : ι) : ¬ (threads j).place.Holds := fun holds => by
        have owned := (calls j).holds.mp holds
        rw [owner] at owned
        cases owned
      by_cases waits : (threads i).place = .waiting ∧ shared.neuterState ≠ .done
      · have place := (calls i).place
        rw [waits.1] at place
        have running : shared.neuterState = .running := by
          cases state : shared.neuterState with
          | unused => exact absurd state place.2
          | running => rfl
          | done => exact absurd state waits.2
        obtain ⟨j, began⟩ := ok.running running
        have runs := (calls j).runs.mpr ⟨running, began⟩
        refine ⟨j, advances_of_free owner ?_ (fun at_ => ?_) (outside j)⟩
        · cases at_ : (threads j).place <;> simp [at_, NeuterPlace.Runs, NeuterPlace.Under] at runs ⊢
        · rw [at_] at runs
          exact absurd runs not_false
      · refine ⟨i, advances_of_free owner under (fun at_ => ?_) (outside i)⟩
        by_contra early
        exact waits ⟨at_, early⟩

variable [DecidableEq ι] [Fintype ι] {w : Config ι (NeuterShared ι) (NeuterCall ι)}

/-- From every state the calls under way can all return. -/
theorem neuter_calls_return (reachable : Reachable neuterTurn (neuterStart flag mapped) w) :
    ∃ w', Reachable neuterTurn w w' ∧
      ∀ i, (w.threads i).place ≠ .outside → ∃ r, (w'.threads i).place = .returned r := by
  have advance (w : Config ι (NeuterShared ι) (NeuterCall ι)) (reachable : Reachable neuterTurn (neuterStart flag mapped) w)
      (i : ι) (more : (w.threads i).place.rank ≠ 0) :
      ∃ j a s k, neuterTurn a w.shared (w.threads j) = some (s, k) ∧ k.place.rank < (w.threads j).place.rank ∧
        ((w.threads j).place ≠ .outside → k.place ≠ .outside) := by
    have under : (w.threads i).place.Under := by
      cases at_ : (w.threads i).place <;> simp [at_, NeuterPlace.rank, NeuterPlace.Under] at more ⊢
    obtain ⟨ok, calls⟩ := neuter_ok reachable
    obtain ⟨j, s, k, taken, less, inside⟩ := exists_advance ok calls under
    exact ⟨j, _, s, k, taken, less, fun _ => inside⟩
  obtain ⟨w', goes, all⟩ := Reachable.settles (fun k : NeuterCall ι => k.place.rank)
    (fun k l => k.place ≠ .outside → l.place ≠ .outside) (fun _ => id)
    (fun _ _ _ first second inside => second (first inside)) advance reachable
  refine ⟨w', goes, fun i entered => ?_⟩
  obtain ⟨settled, inside⟩ := all i
  cases at_ : (w'.threads i).place with
  | returned r => exact ⟨r, rfl⟩
  | outside => exact absurd at_ (inside entered)
  | releasing isFirst => cases isFirst <;> simp [at_, NeuterPlace.rank] at settled
  | _ => simp [at_, NeuterPlace.rank] at settled

/-- Two calls, of which one is about to run `neuter_once` and the other waits. -/
theorem neuter_calls_return_pair : ∃ w : Config Bool (NeuterShared Bool) (NeuterCall Bool),
    (w.threads false).place = .neutering ∧ (w.threads true).place = .waiting ∧
      ∃ w', Reachable neuterTurn w w' ∧ ∃ r, (w'.threads true).place = .returned r := by
  obtain ⟨w, played, first, second⟩ : ∃ w, play neuterTurn (neuterStart (fun i => i) fun _ => true)
      ((List.replicate 4 false ++ List.replicate 4 true).map (·, ⟨.success, none, true, false⟩)) = some w ∧
        (w.threads false).place = .neutering ∧ (w.threads true).place = .waiting :=
    ⟨_, rfl, by decide, by decide⟩
  obtain ⟨w', goes, all⟩ := neuter_calls_return (play_reachable played)
  exact ⟨w, first, second, w', goes, all true (by simp [second])⟩

end Progress

end Yafsml.Dearxan
