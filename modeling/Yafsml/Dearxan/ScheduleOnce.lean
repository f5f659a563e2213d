import Yafsml.Dearxan.Schedule

/-!
# Every scheduled callback is invoked once

The invariant follows the places of the queued callbacks, what the drain is doing, and how far each
call has come.
-/

namespace Yafsml.Dearxan.World

variable {ι : Type*} {w w' : World ι} {i j : ι}

/-! ## The invariant -/

def Phase (w : World ι) : Prop :=
  match w.flush with
  | .idle => (w.shared.state = .unused ∨ w.shared.state = .scheduled) ∧ w.drained = [] ∧
      w.direct = [] ∧ w.shared.resultReady = false
  | .invoking detected executing _ | .inside detected executing _ _ =>
      w.shared.state = .draining ∧ w.shared.resultReady = true ∧
        w.shared.isArxanDetected = detected ∧ w.shared.isExecutingEntrypoint = executing
  | .finished => w.shared.state = .complete ∧ w.shared.resultReady = true ∧
      w.shared.callbacks = []

/-- Which calls have queued their callback, and which have invoked it themselves. -/
def Fits (complete : Prop) (queued direct : Prop) : ScheduleCall → Prop
  | .outside | .entered _ => ¬queued ∧ ¬direct
  | .unlocked _ | .initializing | .flushing | .draining | .waiting => queued ∧ ¬direct
  | .runNow _ => complete ∧ ¬queued ∧ ¬direct
  | .invoking => ¬queued ∧ direct
  | .returned waited => (queued ∧ ¬direct ∨ ¬queued ∧ direct ∧ waited = false) ∧
      (waited = true → complete)

abbrev CallFits (w : World ι) (i : ι) : ScheduleCall → Prop :=
  Fits (w.shared.state = .complete) (i ∈ w.scheduled) (i ∈ w.direct.map (·.call))

structure Sound (w : World ι) : Prop where
  places : w.places.all = w.scheduled
  once : w.scheduled.Nodup
  directOnce : (w.direct.map (·.call)).Nodup
  phase : Phase w
  calls : ∀ i, CallFits w i (w.calls i)
  told : ∀ i detected, w.calls i = .runNow detected → detected = w.shared.isArxanDetected
  results : ∀ run ∈ w.drained ++ w.direct, run.isArxanDetected = w.shared.isArxanDetected

theorem Fits.mono {complete complete' queued direct : Prop} (later : complete → complete')
    {call : ScheduleCall} (fits : Fits complete queued direct call) :
    Fits complete' queued direct call := by
  cases call with
  | runNow detected => exact ⟨later fits.1, fits.2⟩
  | returned waited => exact ⟨fits.1, fun waits => later (fits.2 waits)⟩
  | outside | entered | unlocked | initializing | flushing | draining | waiting | invoking => exact fits

theorem start_sound : Sound (start : World ι) where
  places := rfl
  once := List.nodup_nil
  directOnce := List.nodup_nil
  phase := ⟨.inl rfl, rfl, rfl, rfl⟩
  calls i := ⟨List.not_mem_nil, List.not_mem_nil⟩
  told i detected at_ := by cases at_
  results run member := by cases member

namespace Sound

theorem not_complete_of_idle (sound : Sound w) (idle : w.flush = .idle) :
    w.shared.state ≠ .complete ∧ w.direct = [] ∧ w.drained = [] := by
  have phase := sound.phase
  rw [Phase, idle] at phase
  obtain ⟨early, drained, direct, _⟩ := phase
  refine ⟨?_, direct, drained⟩
  rcases early with state | state
  · rw [state]
    decide
  · rw [state]
    decide

theorem complete_phase (sound : Sound w) (complete : w.shared.state = .complete) :
    w.flush = .finished ∧ w.shared.callbacks = [] := by
  have phase := sound.phase
  unfold Phase at phase
  split at phase
  · rw [complete] at phase
    simp at phase
  · rw [complete] at phase
    simp at phase
  · rw [complete] at phase
    simp at phase
  · rename_i isOver
    exact ⟨isOver, phase.2.2⟩

/-! ## Steps of a call -/

section Calls

variable [DecidableEq ι]

theorem turn (sound : Sound w) {call : ScheduleCall} (fits : CallFits w i call)
    (told : ∀ detected, call = .runNow detected → detected = w.shared.isArxanDetected) :
    Sound (w.turn i call) where
  places := sound.places
  once := sound.once
  directOnce := sound.directOnce
  phase := sound.phase
  calls j := by
    by_cases same : j = i
    · subst same
      simpa [World.turn] using fits
    · simpa [World.turn, same] using sound.calls j
  told j detected at_ := by
    by_cases same : j = i
    · subst same
      exact told detected (by simpa [World.turn] using at_)
    · exact sound.told j detected (by simpa [World.turn, same] using at_)
  results := sound.results

theorem schedule_complete (complete : w.shared.state = .complete) (preEntryPoint : Bool) :
    w.schedule i preEntryPoint = w.turn i (.runNow w.shared.isArxanDetected) := by
  simp [World.schedule, scheduleLocked, complete, World.turn]

theorem schedule_queued (open_ : w.shared.state ≠ .complete) (preEntryPoint : Bool) :
    ∃ state call, (call = .initializing ∨ call = .unlocked preEntryPoint) ∧
      (state = w.shared.state ∨ w.shared.state = .unused ∧ state = .scheduled) ∧
      w.schedule i preEntryPoint = { w.turn i call with
        shared := { w.shared with callbacks := w.shared.callbacks ++ [i], state }
        scheduled := w.scheduled ++ [i] } := by
  by_cases first : w.shared.state = .unused
  · refine ⟨.scheduled, .initializing, .inl rfl, .inr ⟨first, rfl⟩, ?_⟩
    simp [World.schedule, scheduleLocked, first]
  · refine ⟨w.shared.state, .unlocked preEntryPoint, .inr rfl, .inl rfl, ?_⟩
    simp [World.schedule, scheduleLocked, first, open_]

theorem schedule (sound : Sound w) {preEntryPoint : Bool}
    (at_ : w.calls i = .entered preEntryPoint) : Sound (w.schedule i preEntryPoint) := by
  have fresh := sound.calls i
  rw [at_] at fresh
  obtain ⟨absent, idle⟩ := fresh
  by_cases complete : w.shared.state = .complete
  · rw [schedule_complete complete]
    refine sound.turn ⟨complete, absent, idle⟩ fun detected same => ?_
    cases same
    rfl
  obtain ⟨state, call, waits, next, same⟩ := schedule_queued (i := i) complete preEntryPoint
  rw [same]
  have open_ : state ≠ .complete := by
    rcases next with rfl | ⟨_, rfl⟩
    · exact complete
    · decide
  constructor
  · show (w.places.arrive i).all = w.scheduled ++ [i]
    rw [Fifo.Places.all_arrive, sound.places]
  · show (w.scheduled ++ [i]).Nodup
    rw [List.nodup_append]
    refine ⟨sound.once, List.nodup_singleton i, ?_⟩
    rintro j member j' member' rfl
    rw [List.mem_singleton.mp member'] at member
    exact absent member
  · exact sound.directOnce
  · have phase := sound.phase
    unfold Phase at phase ⊢
    dsimp only [World.turn]
    split
    · rename_i rest
      rw [rest] at phase
      obtain ⟨early, nothing⟩ := phase
      refine ⟨?_, nothing⟩
      rcases next with rfl | ⟨_, rfl⟩
      · exact early
      · exact .inr rfl
    · rename_i rest
      rw [rest] at phase
      rcases next with rfl | ⟨first, _⟩
      · exact phase
      · rw [phase.1] at first
        cases first
    · rename_i rest
      rw [rest] at phase
      rcases next with rfl | ⟨first, _⟩
      · exact phase
      · rw [phase.1] at first
        cases first
    · rename_i rest
      rw [rest] at phase
      exact absurd phase.1 complete
  · intro j
    show Fits (state = .complete) (j ∈ w.scheduled ++ [i]) (j ∈ w.direct.map (·.call))
      (Function.update w.calls i call j)
    by_cases own : j = i
    · subst own
      rw [Function.update_self]
      rcases waits with rfl | rfl
      · exact ⟨by simp, idle⟩
      · exact ⟨by simp, idle⟩
    · rw [Function.update_of_ne own]
      have fits := sound.calls j
      simp only [List.mem_append, List.mem_singleton, own, or_false]
      exact Fits.mono (fun early => absurd early complete) fits
  · intro j detected told
    by_cases own : j = i
    · subst own
      simp only [World.turn, Function.update_self] at told
      rcases waits with rfl | rfl
      · cases told
      · cases told
    · exact sound.told j detected (by simpa [World.turn, own] using told)
  · exact sound.results

theorem runNow (sound : Sound w) {detected : Bool} (at_ : w.calls i = .runNow detected) :
    Sound { w.turn i .invoking with direct := w.direct ++ [⟨i, detected, false⟩] } := by
  have fresh := sound.calls i
  rw [at_] at fresh
  obtain ⟨complete, absent, unrun⟩ := fresh
  obtain ⟨isOver, _⟩ := sound.complete_phase complete
  constructor
  · exact sound.places
  · exact sound.once
  · show ((w.direct ++ [(⟨i, detected, false⟩ : Invocation ι)]).map (·.call)).Nodup
    rw [List.map_append, List.nodup_append]
    refine ⟨sound.directOnce, List.nodup_singleton i, ?_⟩
    rintro j member j' member' rfl
    rw [List.map_singleton, List.mem_singleton] at member'
    rw [member'] at member
    exact unrun member
  · have phase := sound.phase
    rw [Phase, isOver] at phase
    simpa [Phase, World.turn, isOver] using phase
  · intro j
    show Fits (w.shared.state = .complete) (j ∈ w.scheduled)
      (j ∈ (w.direct ++ [(⟨i, detected, false⟩ : Invocation ι)]).map (·.call))
      (Function.update w.calls i .invoking j)
    by_cases own : j = i
    · subst own
      rw [Function.update_self]
      exact ⟨absent, by simp⟩
    · rw [Function.update_of_ne own, List.map_append, List.mem_append, List.map_singleton,
        List.mem_singleton, or_iff_left own]
      exact sound.calls j
  · intro j detected' told
    by_cases own : j = i
    · subst own
      simp [World.turn] at told
    · exact sound.told j detected' (by simpa [World.turn, own] using told)
  · intro run member
    show run.isArxanDetected = w.shared.isArxanDetected
    have member' : run ∈ w.drained ++ (w.direct ++ [(⟨i, detected, false⟩ : Invocation ι)]) := member
    rw [← List.append_assoc, List.mem_append, List.mem_singleton] at member'
    rcases member' with earlier | rfl
    · exact sound.results run earlier
    · exact sound.told i detected at_

end Calls

/-! ## Steps of the flush -/

/-- A step that leaves the calls alone and moves callbacks between their places. The result may
change as long as nobody was told one. -/
theorem advance (sound : Sound w) (shared : ScheduleShared ι) (flush : Flush ι)
    (drained : List (Invocation ι))
    (places : World.places { w with shared, flush, drained } = w.places ∨
      (World.places { w with shared, flush, drained }).all = w.places.all)
    (phase : Phase { w with shared, flush, drained })
    (complete : w.shared.state = .complete → shared.state = .complete)
    (detected : shared.isArxanDetected = w.shared.isArxanDetected ∨ w.flush = .idle)
    (told : ∀ run ∈ drained, run.isArxanDetected = shared.isArxanDetected) :
    Sound { w with shared, flush, drained } where
  places := by
    rcases places with same | same
    · exact (congrArg Fifo.Places.all same).trans sound.places
    · exact same.trans sound.places
  once := sound.once
  directOnce := sound.directOnce
  phase := phase
  calls j := Fits.mono complete (sound.calls j)
  told j detected' at_ := by
    rcases detected with kept | idle
    · exact (sound.told j detected' at_).trans kept.symm
    · have fits := sound.calls j
      rw [show w.calls j = .runNow detected' from at_] at fits
      exact absurd fits.1 (sound.not_complete_of_idle idle).1
  results run member := by
    rcases List.mem_append.mp member with mine | theirs
    · exact told run mine
    · rcases detected with kept | idle
      · exact (sound.results run (List.mem_append_right _ theirs)).trans kept.symm
      · have nobody : w.direct = [] := (sound.not_complete_of_idle idle).2.1
        rw [show run ∈ w.direct ↔ run ∈ [] by rw [nobody]] at theirs
        cases theirs

theorem detect (sound : Sound w) (isArxanDetected : Bool) (idle : w.flush = .idle) :
    Sound { w with shared := { w.shared with isArxanDetected } } := by
  obtain ⟨_, _, nothing⟩ := sound.not_complete_of_idle idle
  refine sound.advance _ _ w.drained (.inl rfl) ?_ id (.inr idle) ?_
  · have phase := sound.phase
    rw [Phase, idle] at phase
    simpa [Phase, idle] using phase
  · rw [nothing]
    exact fun run member => by cases member

theorem publish (sound : Sound w) (isArxanDetected isExecutingEntrypoint : Bool)
    (idle : w.flush = .idle) : Sound (w.publish isArxanDetected isExecutingEntrypoint) := by
  obtain ⟨open_, _, nothing⟩ := sound.not_complete_of_idle idle
  have phase := sound.phase
  rw [Phase, idle] at phase
  obtain ⟨_, _, _, unpublished⟩ := phase
  refine sound.advance _ _ w.drained (.inr ?_) ?_ (fun done => absurd done open_)
    (.inr idle) ?_
  · exact Fifo.Places.all_take (p := w.places) (by simp [World.places, idle, Flush.callbacks])
  · simp [Phase, unpublished]
  · rw [nothing]
    exact fun run member => by cases member

theorem invoke (sound : Sound w) {detected executing : Bool} {next : List ι}
    (at_ : w.flush = .invoking detected executing (i :: next)) :
    Sound { w with
      flush := .inside detected executing i next
      drained := w.drained ++ [⟨i, detected, executing⟩] } := by
  have phase := sound.phase
  rw [Phase, at_] at phase
  refine sound.advance w.shared _ _ (.inr ?_) phase id (.inl rfl) ?_
  · have served := Fifo.Places.all_serve
      (show w.places.held = i :: next by simp [World.places, at_, Flush.callbacks])
    simpa [World.places, Fifo.Places.serve, Flush.callbacks] using served
  · intro run member
    rcases List.mem_append.mp member with earlier | now
    · exact sound.results run (List.mem_append_left _ earlier)
    · rw [List.mem_singleton.mp now]
      exact phase.2.2.1.symm

theorem finish (sound : Sound w) {detected executing : Bool} {next : List ι}
    (at_ : w.flush = .inside detected executing i next) :
    Sound { w with flush := .invoking detected executing next } := by
  have phase := sound.phase
  rw [Phase, at_] at phase
  refine sound.advance w.shared _ w.drained (.inl ?_) phase id (.inl rfl) ?_
  · simp [World.places, at_, Flush.callbacks]
  · exact fun run member => sound.results run (List.mem_append_left _ member)

theorem refill (sound : Sound w) {detected executing : Bool}
    (at_ : w.flush = .invoking detected executing []) : Sound (w.refill detected executing) := by
  have phase := sound.phase
  rw [Phase, at_] at phase
  have taken := Fifo.Places.all_take (p := w.places) (by simp [World.places, at_, Flush.callbacks])
  have told : ∀ run ∈ w.drained, run.isArxanDetected = w.shared.isArxanDetected :=
    fun run member => sound.results run (List.mem_append_left _ member)
  by_cases empty : w.shared.callbacks = []
  · have isOver : w.refill detected executing = { w with
        shared := { w.shared with callbacks := [], state := .complete, drainedEvent := true }
        flush := .finished } := by
      simp [World.refill, flushRefill, empty]
    rw [isOver]
    refine sound.advance _ _ w.drained (.inr ?_) ⟨rfl, phase.2.1, rfl⟩ (fun _ => rfl)
      (.inl rfl) told
    rw [← taken]
    simp [World.places, Fifo.Places.take, Flush.callbacks, empty]
  · have more : w.refill detected executing = { w with
        shared := { w.shared with callbacks := [] }
        flush := .invoking detected executing w.shared.callbacks } := by
      simp [World.refill, flushRefill, empty]
    rw [more]
    exact sound.advance _ _ w.drained (.inr taken) phase id (.inl rfl) told

end Sound

/-! ## Every run -/

section Runs

variable [DecidableEq ι]

theorem Step.sound (step : Step w w') (sound : Sound w) : Sound w' := by
  cases step with
  | @enter i preEntryPoint at_ =>
      have fits := sound.calls i
      rw [at_] at fits
      exact sound.turn fits fun detected same => by cases same
  | schedule at_ => exact sound.schedule at_
  | @check i preEntryPoint at_ =>
      have fits := sound.calls i
      rw [at_] at fits
      unfold scheduleCheck
      split
      · exact sound.turn fits fun detected same => by cases same
      · exact sound.turn ⟨.inl fits, fun no => by cases no⟩ fun detected same => by cases same
  | @poll i at_ =>
      have fits := sound.calls i
      rw [at_] at fits
      unfold waitForState
      split
      · rename_i complete
        exact sound.turn ⟨.inl fits, fun _ => complete⟩ fun detected same => by cases same
      · exact sound.turn fits fun detected same => by cases same
  | runNow at_ => exact sound.runNow at_
  | @leave i at_ =>
      have fits := sound.calls i
      rw [at_] at fits
      exact sound.turn ⟨.inr ⟨fits.1, fits.2, rfl⟩, fun no => by cases no⟩
        fun detected same => by cases same
  | @initializeSchedule i initialized at_ =>
      have fits := sound.calls i
      rw [at_] at fits
      split
      · exact sound.turn ⟨.inl fits, fun no => by cases no⟩ fun detected same => by cases same
      · exact sound.turn fits fun detected same => by cases same
  | detect isArxanDetected idle => exact sound.detect isArxanDetected idle
  | flush isArxanDetected isExecutingEntrypoint idle =>
      exact sound.publish isArxanDetected isExecutingEntrypoint idle
  | @flushHere i at_ idle =>
      have published := sound.publish false false idle
      have fits := published.calls i
      rw [show (w.publish false false).calls i = .flushing from at_] at fits
      exact published.turn fits fun detected same => by cases same
  | @join i at_ isOver =>
      have fits := sound.calls i
      rw [at_] at fits
      exact sound.turn ⟨.inl fits, fun no => by cases no⟩ fun detected same => by cases same
  | invoke at_ => exact sound.invoke at_
  | finish at_ => exact sound.finish at_
  | refill at_ => exact sound.refill at_

theorem Reachable.sound (reachable : Reachable w) : Sound w := by
  induction reachable with
  | refl => exact start_sound
  | tail _ step ih => exact step.sound ih

/-- A call whose callback has been handed over: queued, or invoked by the call itself. -/
def HandedOver : ScheduleCall → Prop
  | .outside | .entered _ | .runNow _ => False
  | .unlocked _ | .initializing | .flushing | .draining | .waiting | .invoking | .returned _ => True

namespace Sound

theorem count_scheduled (sound : Sound w) (queued : i ∈ w.scheduled) :
    (w.drained.map (·.call)).count i + w.flush.callbacks.count i + w.shared.callbacks.count i = 1 := by
  rw [← sound.places] at queued
  exact Fifo.Places.count_places (sound.places ▸ sound.once) queued

theorem count_absent (sound : Sound w) (absent : i ∉ w.scheduled) :
    (w.drained.map (·.call)).count i = 0 ∧ w.flush.callbacks.count i = 0 ∧
      w.shared.callbacks.count i = 0 := by
  rw [← sound.places] at absent
  exact Fifo.Places.count_eq_zero absent

theorem count_handedOver (sound : Sound w) (handed : HandedOver (w.calls i)) :
    w.shared.callbacks.count i + w.flush.callbacks.count i + w.timesInvoked i = 1 := by
  have fits := sound.calls i
  have queued (member : i ∈ w.scheduled) (idle : i ∉ w.direct.map (·.call)) :
      w.shared.callbacks.count i + w.flush.callbacks.count i + w.timesInvoked i = 1 := by
    have places := sound.count_scheduled member
    rw [World.timesInvoked, List.count_eq_zero.mpr idle]
    omega
  have direct (absent : i ∉ w.scheduled) (ran : i ∈ w.direct.map (·.call)) :
      w.shared.callbacks.count i + w.flush.callbacks.count i + w.timesInvoked i = 1 := by
    have places := sound.count_absent absent
    rw [World.timesInvoked, List.count_eq_one_of_mem sound.directOnce ran]
    omega
  cases at_ : w.calls i with
  | outside =>
      rw [at_] at handed
      cases handed
  | entered preEntryPoint =>
      rw [at_] at handed
      cases handed
  | runNow detected =>
      rw [at_] at handed
      cases handed
  | returned waited =>
      rw [at_] at fits
      rcases fits.1 with ⟨member, idle⟩ | ⟨absent, ran, _⟩
      · exact queued member idle
      · exact direct absent ran
  | invoking =>
      rw [at_] at fits
      exact direct fits.1 fits.2
  | unlocked | initializing | flushing | draining | waiting =>
      rw [at_] at fits
      exact queued fits.1 fits.2

theorem not_handedOver (sound : Sound w) (kept : ¬HandedOver (w.calls i)) :
    w.shared.callbacks.count i = 0 ∧ w.flush.callbacks.count i = 0 ∧ w.timesInvoked i = 0 := by
  have fits := sound.calls i
  have nowhere (absent : i ∉ w.scheduled) (idle : i ∉ w.direct.map (·.call)) :
      w.shared.callbacks.count i = 0 ∧ w.flush.callbacks.count i = 0 ∧ w.timesInvoked i = 0 := by
    have places := sound.count_absent absent
    rw [World.timesInvoked, List.count_eq_zero.mpr idle]
    omega
  cases at_ : w.calls i with
  | outside | entered =>
      rw [at_] at fits
      exact nowhere fits.1 fits.2
  | runNow detected =>
      rw [at_] at fits
      exact nowhere fits.2.1 fits.2.2
  | unlocked | initializing | flushing | draining | waiting | invoking | returned =>
      rw [at_] at kept
      exact absurd trivial kept

theorem timesInvoked_le (sound : Sound w) (i : ι) : w.timesInvoked i ≤ 1 := by
  by_cases handed : HandedOver (w.calls i)
  · have places := sound.count_handedOver handed
    omega
  · have nowhere := sound.not_handedOver handed
    omega

theorem timesInvoked_of_complete (sound : Sound w) (complete : w.shared.state = .complete)
    (handed : HandedOver (w.calls i)) : w.timesInvoked i = 1 := by
  obtain ⟨isOver, empty⟩ := sound.complete_phase complete
  have places := sound.count_handedOver handed
  rw [isOver, empty] at places
  simpa [Flush.callbacks] using places

omit [DecidableEq ι] in
theorem drained_of_waited (sound : Sound w) (waited : w.calls i = .returned true) :
    w.flush = .finished ∧ i ∈ w.drained.map (·.call) := by
  have fits := sound.calls i
  rw [waited] at fits
  obtain ⟨isOver, empty⟩ := sound.complete_phase (fits.2 rfl)
  have queued : i ∈ w.scheduled := by
    rcases fits.1 with queued | direct
    · exact queued.1
    · exact absurd direct.2.2 Bool.noConfusion
  have places := sound.places
  rw [Fifo.Places.all, World.places, isOver, empty] at places
  rw [← places] at queued
  exact ⟨isOver, by simpa [Flush.callbacks] using queued⟩

omit [DecidableEq ι] in
theorem published (sound : Sound w) {run : Invocation ι} (member : run ∈ w.drained ++ w.direct) :
    w.shared.resultReady = true := by
  have phase := sound.phase
  unfold Phase at phase
  split at phase
  · rw [phase.2.1, phase.2.2.1] at member
    cases member
  · exact phase.2.1
  · exact phase.2.1
  · exact phase.2.1

end Sound

theorem Step.complete (step : Step w w') (sound : Sound w) (complete : w.shared.state = .complete) :
    w'.scheduled = w.scheduled ∧ w'.shared.state = .complete := by
  obtain ⟨isOver, _⟩ := sound.complete_phase complete
  cases step with
  | schedule at_ =>
      rw [Sound.schedule_complete complete]
      exact ⟨rfl, complete⟩
  | enter | check | poll | runNow | leave | initializeSchedule | join => exact ⟨rfl, complete⟩
  | detect _ idle => simp [isOver] at idle
  | flush _ _ idle => simp [isOver] at idle
  | flushHere _ idle => simp [isOver] at idle
  | invoke at_ => simp [isOver] at at_
  | finish at_ => simp [isOver] at at_
  | refill at_ => simp [isOver] at at_

theorem inside_never_waits (reachable : Reachable w) {detected executing : Bool} {next : List ι}
    (inside : w.flush = .inside detected executing i next) (preEntryPoint : Bool) :
    scheduleCheck w.shared preEntryPoint = .returned false := by
  have phase := reachable.sound.phase
  rw [Phase, inside] at phase
  simp [scheduleCheck, phase.1]

theorem flush_finishes (started : w.flush ≠ .idle) (sound : Sound w) :
    ∃ w', Relation.ReflTransGen Step w w' ∧ w'.shared.state = .complete ∧
      w'.scheduled = w.scheduled ∧ w'.calls = w.calls := by
  obtain ⟨size, bound⟩ : ∃ n, 3 * w.shared.callbacks.length + 2 * w.flush.callbacks.length +
      (match w.flush with | .inside .. => 1 | _ => 0) < n := ⟨_, Nat.lt_succ_self _⟩
  induction size generalizing w with
  | zero => simp at bound
  | succ size ih =>
      -- Every step of the flush makes the work left smaller.
      have onward {next : World ι} (step : Step w next) (started' : next.flush ≠ .idle)
          (kept : next.scheduled = w.scheduled ∧ next.calls = w.calls)
          (less : 3 * next.shared.callbacks.length + 2 * next.flush.callbacks.length +
            (match next.flush with | .inside .. => 1 | _ => 0) < size) :
          ∃ w', Relation.ReflTransGen Step w w' ∧ w'.shared.state = .complete ∧
            w'.scheduled = w.scheduled ∧ w'.calls = w.calls := by
        obtain ⟨w', run, complete, scheduled, calls⟩ := ih started' (step.sound sound) less
        exact ⟨w', .head step run, complete, scheduled.trans kept.1, calls.trans kept.2⟩
      cases at_ : w.flush with
      | idle => exact absurd at_ started
      | inside detected executing callback next =>
          apply onward (.finish at_) (by simp) ⟨rfl, rfl⟩
          simp only [at_, Flush.callbacks] at bound ⊢
          omega
      | finished =>
          have phase := sound.phase
          rw [Phase, at_] at phase
          exact ⟨w, .refl, phase.1, rfl, rfl⟩
      | invoking detected executing callbacks =>
          cases callbacks with
          | cons callback next =>
              apply onward (.invoke at_) (by simp) ⟨rfl, rfl⟩
              simp only [at_, Flush.callbacks, List.length_cons] at bound ⊢
              omega
          | nil =>
              by_cases empty : w.shared.callbacks = []
              · refine ⟨_, .single (.refill at_), ?_, rfl, rfl⟩
                simp [World.refill, flushRefill, empty]
              · have some := List.length_pos_iff.mpr empty
                apply onward (.refill at_) (by simp [World.refill, flushRefill, empty]) ⟨rfl, rfl⟩
                simp only [at_, Flush.callbacks, List.length_nil] at bound
                simp only [World.refill, flushRefill, empty, if_false, Flush.callbacks,
                  List.length_nil]
                omega

/-- In every interleaving of calls with one flush: a callback is in one place, callbacks leave the
queue in its order and after the result is published, the complete state queues nothing, no callback
is invoked twice or missed, and a caller that waited returns when its own has ended. -/
theorem schedule_exactly_once (reachable : Reachable w) :
    (∀ i, HandedOver (w.calls i) →
      w.shared.callbacks.count i + w.flush.callbacks.count i + w.timesInvoked i = 1) ∧
    (∀ i, ¬HandedOver (w.calls i) → w.shared.callbacks.count i = 0 ∧
      w.flush.callbacks.count i = 0 ∧ w.timesInvoked i = 0) ∧
    w.drained.map (·.call) ++ w.flush.callbacks ++ w.shared.callbacks = w.scheduled ∧
    (∀ run ∈ w.drained ++ w.direct, w.shared.resultReady = true ∧
      run.isArxanDetected = w.shared.isArxanDetected) ∧
    (w.shared.state = .complete → w.shared.callbacks = [] ∧ ∀ w', Step w w' →
      w'.scheduled = w.scheduled ∧ w'.shared.state = .complete) ∧
    (∀ i, w.timesInvoked i ≤ 1) ∧
    (w.shared.state = .complete → ∀ i, HandedOver (w.calls i) → w.timesInvoked i = 1) ∧
    (w.flush ≠ .idle → ∃ w', Relation.ReflTransGen Step w w' ∧
      ∀ i, HandedOver (w.calls i) → w'.timesInvoked i = 1) ∧
    ∀ i, w.calls i = .returned true →
      w.timesInvoked i = 1 ∧ w.flush = .finished ∧ i ∈ w.drained.map (·.call) := by
  have sound := reachable.sound
  refine ⟨fun i => sound.count_handedOver, fun i => sound.not_handedOver, sound.places,
    fun run member => ⟨sound.published member, sound.results run member⟩, fun complete => ?_,
    sound.timesInvoked_le, fun complete i => sound.timesInvoked_of_complete complete,
    fun started => ?_, fun i returned => ?_⟩
  · exact ⟨(sound.complete_phase complete).2, fun w' step => step.complete sound complete⟩
  · obtain ⟨w', run, complete, _, calls⟩ := flush_finishes started sound
    have sound' : Sound w' := Reachable.sound (Relation.ReflTransGen.trans reachable run)
    exact ⟨w', run, fun i handed => sound'.timesInvoked_of_complete complete (calls ▸ handed)⟩
  · have fits := sound.calls i
    rw [returned] at fits
    have once := sound.timesInvoked_of_complete (fits.2 rfl) (by rw [returned]; trivial)
    exact ⟨once, sound.drained_of_waited returned⟩

end Runs

/-- A second module schedules while the first starts the analysis, and waits for the drain. -/
theorem schedule_exactly_once_waited : ∃ w : World (Fin 2), Reachable w ∧
    w.calls 1 = .returned true ∧ w.drained.map (·.call) = [0, 1] ∧ w.timesInvoked 1 = 1 := by
  have queued : Reachable (((start : World (Fin 2)).turn 0 (.entered false)).schedule 0 false) :=
    (Relation.ReflTransGen.single (.enter false rfl)).tail (.schedule rfl)
  have waiting := ((queued.tail (.enter (i := 1) false rfl)).tail (.schedule (i := 1) rfl)).tail
    (.check (i := 1) rfl)
  have drained := ((((waiting.tail (.flush true false rfl)).tail (.invoke rfl)).tail
    (.finish rfl)).tail (.invoke rfl)).tail (.finish rfl)
  have isOver : Reachable _ := (drained.tail (.refill rfl)).tail (.poll (i := 1) rfl)
  obtain ⟨_, _, _, _, _, _, _, _, waited⟩ := schedule_exactly_once isOver
  exact ⟨_, isOver, rfl, rfl, (waited 1 rfl).1⟩

end Yafsml.Dearxan.World
