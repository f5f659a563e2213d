import Yafsml.Dearxan.Neuter

/-! # The passes end -/

namespace Yafsml.Dearxan

open LittleEndian BoundedLoop

theorem emitStubPatch_length {stub : StubInfo} {patch : List Byte}
    (emitted : emitStubPatch stub 64 = some patch) : 16 ≤ patch.length := by
  cases gadget : stub.returnGadget with
  | none =>
      rw [emitStubPatch_plain gadget emitted]
      simp [popContext, littleEndian]
  | some gadget' =>
      obtain ⟨store, _, rfl⟩ := emitStubPatch_gadget gadget emitted
      simp [popContext, returnThrough, littleEndian]
      omega

theorem installJumps_offset {process : Process} {stubs : List StubInfo} {buffer : CodeBuffer}
    (succeeded : (installJumps process stubs buffer).2.2 = none) :
    buffer.offset + 16 * stubs.length ≤ (installJumps process stubs buffer).2.1.offset ∧
      (stubs ≠ [] → (installJumps process stubs buffer).2.1.offset ≤ codeBufferSize) := by
  induction stubs generalizing buffer with
  | nil => exact ⟨le_rfl, fun some_stub => absurd rfl some_stub⟩
  | cons stub stubs ih =>
      obtain ⟨patch, base, emitted, _, inside, _, installs⟩ := installJumps_cons succeeded
      have size := emitStubPatch_length emitted
      rw [installs] at succeeded ⊢
      obtain ⟨taken, within⟩ := ih succeeded
      refine ⟨le_trans ?_ taken, fun _ => ?_⟩
      · rw [List.length_cons]
        dsimp only
        omega
      · cases stubs with
        | nil => exact inside
        | cons next rest => exact within (List.cons_ne_nil _ _)

namespace NeuterEnvironment

variable (env : NeuterEnvironment) {image : Word × Nat} {preferredBase : Word}

theorem applyStubPatches_offset {stub : StubInfo} {stubs : List StubInfo} {s : NeuterState}
    (applied : (env.applyStubPatches image preferredBase (stub :: stubs) s).error = none) :
    s.buffer.offset + 16 ≤ (env.applyStubPatches image preferredBase (stub :: stubs) s).buffer.offset ∧
      (env.applyStubPatches image preferredBase (stub :: stubs) s).buffer.offset ≤ codeBufferSize := by
  unfold applyStubPatches at applied ⊢
  split at applied
  · rename_i memory
    rw [if_pos memory]
    obtain ⟨_, buffer, succeeded⟩ := dearxanApplyStubPatches_placed applied
    obtain ⟨taken, within⟩ := installJumps_offset succeeded
    rw [List.length_cons] at taken
    rw [buffer]
    exact ⟨by omega, within (List.cons_ne_nil _ _)⟩
  · cases applied

/-- The events of stub lists in the passes so far; the threads' events are those of the start. -/
structure Passing (start : List NeuterEvent) (s : NeuterState) : Prop where
  offset : env.buffer.offset + 16 * s.passes ≤ s.buffer.offset
  within : 0 < s.passes → s.buffer.offset ≤ codeBufferSize
  events : ∃ lists : List NeuterEvent, s.events = start ++ lists ∧
    (∀ t, .suspended t ∉ lists ∧ .resumed t ∉ lists) ∧
    ∀ p, lists.count (.listMade p) = lists.count (.listFreed p) ∧
      lists.count (.listMade p) ≤ 1 ∧ (s.passes ≤ p → lists.count (.listMade p) = 0)

structure Passed (start : List NeuterEvent) (run : NeuterRun) : Prop where
  passes : run.passes ≤ 2 ^ 20 + 1
  found_none : run.result.status = .success →
    ∃ p, (env.pass p).analysis run.memory = .ok [] ∧ run.passes = p + 1
  events : ∃ lists : List NeuterEvent, run.events = start ++ lists ∧
    (∀ t, .suspended t ∉ lists ∧ .resumed t ∉ lists) ∧
    ∀ p, lists.count (.listMade p) = lists.count (.listFreed p) ∧
      lists.count (.listMade p) ≤ 1

theorem lists_next {start : List NeuterEvent} {s : NeuterState} (passing : env.Passing start s) :
    ∃ lists : List NeuterEvent,
      s.events ++ [.listMade s.passes, .listFreed s.passes] = start ++ lists ∧
      (∀ t, .suspended t ∉ lists ∧ .resumed t ∉ lists) ∧
      ∀ p, lists.count (.listMade p) = lists.count (.listFreed p) ∧
        lists.count (.listMade p) ≤ 1 ∧ (s.passes + 1 ≤ p → lists.count (.listMade p) = 0) := by
  obtain ⟨lists, events, threads, counts⟩ := passing.events
  refine ⟨lists ++ [.listMade s.passes, .listFreed s.passes], ?_, ?_, ?_⟩
  · rw [events, List.append_assoc]
  · intro t
    simpa using threads t
  · intro p
    obtain ⟨same, once, later⟩ := counts p
    have added : ([.listMade s.passes, .listFreed s.passes] : List NeuterEvent).count (.listMade p) =
        (if p = s.passes then 1 else 0) ∧
        ([.listMade s.passes, .listFreed s.passes] : List NeuterEvent).count (.listFreed p) =
        (if p = s.passes then 1 else 0) := by
      by_cases here : p = s.passes
      · simp [here]
      · simp [here, Ne.symm here]
    rw [List.count_append, List.count_append, added.1, added.2, same]
    rw [same] at once later
    split_ifs with here
    · have none_before := later here.ge
      omega
    · refine ⟨rfl, by omega, fun after => ?_⟩
      have := later (by omega)
      omega

theorem neuterPass_inl {s s' : NeuterState} (next : env.neuterPass image preferredBase s = .inl s') :
    ∃ stub stubs, (env.applyStubPatches image preferredBase (stub :: stubs) s).error = none ∧
      s' = {
        passes := s.passes + 1
        memory := (env.applyStubPatches image preferredBase (stub :: stubs) s).memory s.memory
        buffer := (env.applyStubPatches image preferredBase (stub :: stubs) s).buffer
        events := s.events ++ [.listMade s.passes, .listFreed s.passes] } := by
  unfold neuterPass at next
  split at next
  · cases next
  · cases next
  · dsimp only at next
    split at next
    · cases next
    · rename_i applied
      cases next
      exact ⟨_, _, applied, rfl⟩

theorem neuterPass_takes {s s' : NeuterState}
    (next : env.neuterPass image preferredBase s = .inl s') :
    s.buffer.offset + 16 ≤ s'.buffer.offset ∧ s'.buffer.offset ≤ codeBufferSize := by
  obtain ⟨stub, stubs, applied, rfl⟩ := env.neuterPass_inl next
  exact env.applyStubPatches_offset applied

theorem neuterPass_next {start : List NeuterEvent} {s s' : NeuterState}
    (passing : env.Passing start s) (next : env.neuterPass image preferredBase s = .inl s') :
    env.Passing start s' := by
  obtain ⟨taken, within⟩ := env.neuterPass_takes next
  have offset := passing.offset
  obtain ⟨stub, stubs, applied, rfl⟩ := env.neuterPass_inl next
  refine ⟨?_, fun _ => within, env.lists_next passing⟩
  dsimp only at taken ⊢
  omega

theorem Passing.few {start : List NeuterEvent} {s : NeuterState} (passing : env.Passing start s) :
    s.passes ≤ 2 ^ 20 := by
  by_contra many
  have := passing.offset
  have := passing.within (by omega)
  unfold codeBufferSize at this
  omega

theorem neuterPass_end {start : List NeuterEvent} {s : NeuterState} {run : NeuterRun}
    (passing : env.Passing start s) (ended : env.neuterPass image preferredBase s = .inr run) :
    env.Passed start run := by
  have few := passing.few
  obtain ⟨lists, events, threads, counts⟩ := passing.events
  obtain ⟨lists', events', threads', counts'⟩ := env.lists_next passing
  unfold neuterPass at ended
  split at ended
  · cases ended
    exact ⟨by dsimp only; omega, nofun, lists, events, threads, fun p => ⟨(counts p).1, (counts p).2.1⟩⟩
  · rename_i found
    cases ended
    exact ⟨by dsimp only; omega, fun _ => ⟨s.passes, found, rfl⟩, lists', events', threads',
      fun p => ⟨(counts' p).1, (counts' p).2.1⟩⟩
  · dsimp only at ended
    split at ended
    · cases ended
      exact ⟨by dsimp only; omega, nofun, lists', events', threads',
        fun p => ⟨(counts' p).1, (counts' p).2.1⟩⟩
    · cases ended

theorem neuterImage_ends (events : List NeuterEvent) :
    ∃ run, env.neuterImage (2 ^ 20 + 1) ⟨0, env.memory, env.buffer, events⟩ = some run ∧
      env.Passed events run := by
  have start : env.Passing events ⟨0, env.memory, env.buffer, events⟩ :=
    ⟨by simp, fun some_pass => absurd some_pass (lt_irrefl 0), [], by simp⟩
  have failed : ∀ message : String,
      env.Passed events ⟨⟨0, env.memory, env.buffer, events⟩, env.failure message⟩ := fun message =>
    ⟨Nat.zero_le _, nofun, [], by simp⟩
  unfold neuterImage
  split
  · exact ⟨_, rfl, failed _⟩
  · exact ⟨_, rfl, failed _⟩
  · rename_i image preferredBase _ _
    split
    · have ends : ∃ run, loop (env.neuterPass image preferredBase) (2 ^ 20 + 1)
          ⟨0, env.memory, env.buffer, events⟩ = some run := by
        apply loop_ends (fun s s' next => env.neuterPass_takes next) (Nat.succ_pos _)
        unfold codeBufferSize
        omega
      obtain ⟨run, ended⟩ := ends
      refine ⟨run, ended, ?_⟩
      exact loop_post (fun s s' passing next => env.neuterPass_next passing next)
        (fun s run passing last => env.neuterPass_end passing last) start ended
    · exact ⟨_, rfl, failed _⟩

theorem count_map_resumed (held : List Nat) (t : Nat) :
    (held.map NeuterEvent.resumed).count (.resumed t) = held.count t :=
  List.count_map_of_injective held NeuterEvent.resumed (fun _ _ same => NeuterEvent.resumed.inj same) t

theorem count_map_suspended (held : List Nat) (t : Nat) :
    (held.map NeuterEvent.resumed).count (.suspended t) = 0 :=
  List.count_eq_zero.mpr (by simp)

theorem suspendEach_counts (threads : List OtherThread) (number : Nat) (held : List Nat) (t : Nat) :
    (suspendEach threads number held).1.count (.suspended t) + held.count t =
        (suspendEach threads number held).1.count (.resumed t) +
          ((suspendEach threads number held).2.getD []).count t ∧
      (suspendEach threads number held).1.count (.suspended t) ≤ if number ≤ t then 1 else 0 := by
  induction threads generalizing number held with
  | nil => simp [suspendEach]
  | cons thread threads ih =>
      have later : (if number + 1 ≤ t then 1 else 0) + (if number = t then 1 else 0) =
          if number ≤ t then 1 else 0 := by
        split_ifs <;> omega
      unfold suspendEach
      split
      · obtain ⟨same, once⟩ := ih (number + 1) held
        exact ⟨same, by omega⟩
      · split
        · simp only [List.count_cons, count_map_resumed, count_map_suspended, beq_iff_eq,
            NeuterEvent.suspended.injEq, NeuterEvent.resumed.injEq, reduceCtorEq, if_false,
            Option.getD_none, List.count_nil]
          omega
        · split
          · obtain ⟨same, once⟩ := ih (number + 1) held
            simp only [List.count_cons, beq_iff_eq, NeuterEvent.suspended.injEq,
              NeuterEvent.resumed.injEq, reduceCtorEq, if_false]
            omega
          · obtain ⟨same, once⟩ := ih (number + 1) (held ++ [number])
            simp only [List.count_append, List.count_singleton, beq_iff_eq] at same
            simp only [List.count_cons, beq_iff_eq, NeuterEvent.suspended.injEq, reduceCtorEq,
              if_false]
            omega

theorem suspendEach_lists (threads : List OtherThread) (number : Nat) (held : List Nat) (p : Nat) :
    .listMade p ∉ (suspendEach threads number held).1 ∧
      .listFreed p ∉ (suspendEach threads number held).1 := by
  induction threads generalizing number held with
  | nil => simp [suspendEach]
  | cons thread threads ih =>
      unfold suspendEach
      split
      · exact ih _ _
      · split
        · simp
        · split
          · simpa using ih _ _
          · simpa using ih _ _

theorem suspendOther_counts (getNextThread : Bool) (threads : List OtherThread) (t : Nat) :
    (dearxanSuspendOtherThreads getNextThread threads).1.count (.suspended t) =
        (dearxanSuspendOtherThreads getNextThread threads).1.count (.resumed t) +
          ((dearxanSuspendOtherThreads getNextThread threads).2.getD []).count t ∧
      (dearxanSuspendOtherThreads getNextThread threads).1.count (.suspended t) ≤ 1 := by
  unfold dearxanSuspendOtherThreads
  split
  · simpa using suspendEach_counts threads 0 [] t
  · simp

theorem suspendOther_lists (getNextThread : Bool) (threads : List OtherThread) (p : Nat) :
    (dearxanSuspendOtherThreads getNextThread threads).1.count (.listMade p) = 0 ∧
      (dearxanSuspendOtherThreads getNextThread threads).1.count (.listFreed p) = 0 := by
  rw [List.count_eq_zero, List.count_eq_zero]
  unfold dearxanSuspendOtherThreads
  split
  · exact suspendEach_lists threads 0 [] p
  · simp

/-- The loop ends, and what is found on every way out. -/
theorem neuterOnce_complete (env : NeuterEnvironment) :
    ∃ run, env.neuterOnce (2 ^ 20 + 1) = some run ∧ run.passes ≤ 2 ^ 20 + 1 ∧
      (run.result.status = .success →
        ∃ p, (env.pass p).analysis run.memory = .ok [] ∧ run.passes = p + 1) ∧
      (∀ t, run.events.count (.resumed t) = run.events.count (.suspended t) ∧
        run.events.count (.suspended t) ≤ 1) ∧
      ∀ p, run.events.count (.listMade p) = run.events.count (.listFreed p) ∧
        run.events.count (.listMade p) ≤ 1 := by
  unfold neuterOnce
  split
  · obtain ⟨run, ended, passed⟩ := env.neuterImage_ends []
    obtain ⟨lists, events, threads, counts⟩ := passed.events
    rw [List.nil_append] at events
    refine ⟨run, ended, passed.passes, passed.found_none, fun t => ?_, by rwa [events]⟩
    rw [events, List.count_eq_zero.mpr (threads t).1, List.count_eq_zero.mpr (threads t).2]
    exact ⟨rfl, Nat.zero_le 1⟩
  · have threads := suspendOther_counts env.getNextThread env.threads
    have quiet := suspendOther_lists env.getNextThread env.threads
    generalize dearxanSuspendOtherThreads env.getNextThread env.threads = outcome at threads quiet ⊢
    rcases outcome with ⟨start, _ | guard⟩
    · refine ⟨_, rfl, Nat.zero_le _, nofun, fun t => ?_, fun p => ?_⟩
      · have counted := threads t
        simp only [Option.getD_none, List.count_nil, Nat.add_zero] at counted
        exact ⟨counted.1.symm, counted.2⟩
      · have unlisted : start.count (.listMade p) = 0 ∧ start.count (.listFreed p) = 0 := quiet p
        exact ⟨unlisted.1.trans unlisted.2.symm, unlisted.1.le.trans (Nat.zero_le 1)⟩
    · obtain ⟨run, ended, passed⟩ := env.neuterImage_ends start
      obtain ⟨lists, events, no_threads, counts⟩ := passed.events
      dsimp only
      rw [ended]
      refine ⟨_, rfl, passed.passes, passed.found_none, fun t => ?_, fun p => ?_⟩
      · have counted := threads t
        simp only [Option.getD_some] at counted
        simp only [events, dearxanResumeThreads, List.count_append, count_map_resumed,
          count_map_suspended, List.count_eq_zero.mpr (no_threads t).1,
          List.count_eq_zero.mpr (no_threads t).2]
        omega
      · have made : (guard.map NeuterEvent.resumed).count (.listMade p) = 0 :=
          List.count_eq_zero.mpr (by simp)
        have freed : (guard.map NeuterEvent.resumed).count (.listFreed p) = 0 :=
          List.count_eq_zero.mpr (by simp)
        have counted := counts p
        have unlisted := quiet p
        simp only at unlisted
        simp only [events, dearxanResumeThreads, List.count_append, made, freed, unlisted.1,
          unlisted.2]
        omega

end NeuterEnvironment

end Yafsml.Dearxan
